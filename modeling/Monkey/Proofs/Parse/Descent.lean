import Monkey.Proofs.Parse.Lockstep

/-!
# Parsing goes forward

Phrases are read with as many levels, and loops with as many turns, as there are tokens, so that
they end whatever the tokens are. Neither bound is ever met: a phrase begins anew only on an end
marker, where it stops with a complaint, or where fewer tokens are left, and so does a turn of a
loop. `Descends` says this by way of what is not read: in front of tokens that are not fewer,
anything could stand in place of the phrase or the loop. Main statement: `parsing_goes_forward`.
-/
namespace Monkey.Parse

open Monkey.Parse.Parser Monkey.Parse.Cursor

instance (cursor : Cursor) (limit : Nat) : Decidable (cursor.Room limit) :=
  inferInstanceAs (Decidable (cursor.current.kind = .eof ∨ cursor.rest.length < limit))

/-- The parser, and another one where the cursor has no room. -/
def within (limit : Nat) (parser elsewhere : Parser α) : Parser α := fun cursor =>
  if cursor.Room limit then parser cursor else elsewhere cursor

/-- Reading takes a step and then begins anew, but only on an end marker or with fewer tokens left:
what is done elsewhere does not matter. -/
def Descends (step : (ι → Parser α) → ι → Parser α) (self : ι → Parser α) (index : ι) : Prop :=
  ∀ (elsewhere : ι → Parser α) (cursor : Cursor),
    step (fun again => within cursor.rest.length (self again) (elsewhere again)) index cursor =
      self index cursor

/-- A phrase with as many levels as there are tokens. -/
def reading : Inner := fun phrase cursor => Parse.phrase (cursor.rest.length + 1) phrase cursor

/-- What the parser leaves is no more than it was given. -/
def Forward (parser : Parser α) (cursor : Cursor) : Prop :=
  (parser cursor).after.rest.length ≤ cursor.rest.length

/-! ## Loops and their turns -/

def statementsTurn (inner : Inner) (again : (Kind → Bool) → Parser (List Node))
    (closes : Kind → Bool) : Parser (List Node) := do
  let token ← current
  if token.kind = .eof ∨ closes token.kind then return []
  else
    let first ← attempt (inner .statement)
    advance
    let rest ← again closes
    return first.toList ++ rest

/-- What `item` reads behind the commas that follow. -/
def more (item : Parser α) : Parser (List α) := do
  let count ← remaining
  moreOf item count

def moreTurn (again : Parser α → Parser (List α)) (item : Parser α) : Parser (List α) := do
  let next ← peek
  if next.kind = .comma then
    advance
    let first ← item
    let rest ← again item
    return first :: rest
  else return []

/-- Extends an operand while the next token binds more strongly than `bound`. -/
def extended (inner : Inner) (bound : Nat) (left : Node) : Parser Node := do
  let count ← remaining
  extensions inner bound count left

def extendedTurn (inner : Inner) (bound : Nat) (again : Node → Parser Node) (left : Node) :
    Parser Node := do
  let next ← peek
  if bound < strength next.kind then
    advance
    let longer ← extension inner left
    again longer
  else return left

/-- The statements of a clause up to its closing word. -/
def wholeBody (inner : Inner) : Parser (List Node) := do
  let count ← remaining
  clauseBody inner (count + 1)

def bodyTurn (again : Inner → Parser (List Node)) (inner : Inner) : Parser (List Node) := do
  let next ← peek
  if next.kind = .breakWord then return []
  else if next.kind = .eof ∨ next.kind = .caseWord ∨ next.kind = .rbrace then
    complain (.expected .breakWord next.kind)
    fail
  else
    advance
    let first ← attempt (inner .statement)
    let rest ← again inner
    return first.toList ++ rest

/-- The clauses of a switch. -/
def allClauses (inner : Inner) : Parser (List Node) := do
  let count ← remaining
  clauses inner count

def clausesTurn (again : Inner → Parser (List Node)) (inner : Inner) : Parser (List Node) := do
  let next ← peek
  if next.kind = .caseWord then
    advance
    let first ← clause inner
    let rest ← again inner
    return first :: rest
  else return []

/-! ## Phrases -/

/-- At one cursor, being alike is being equal. -/
theorem Alike.same {m n : Nat} {parser twin : Parser α} {cursor : Cursor}
    (h : Alike .same m n parser twin cursor cursor) :
    twin cursor = parser cursor ∧ (parser cursor).after.rest.length ≤ m := by
  obtain ⟨hvalue, hcomplaints, hafter⟩ := h
  have heq : (parser cursor).after = (twin cursor).after := hafter.paired
  constructor
  · rcases hparser : parser cursor with ⟨value, complaints, after⟩
    rcases htwin : twin cursor with ⟨value', complaints', after'⟩
    simp only [hparser, htwin] at hvalue hcomplaints heq
    rw [hvalue, hcomplaints, heq]
  · exact hafter.left

theorem inStep_same (cursor : Cursor) :
    InStep .same cursor.rest.length cursor.rest.length cursor cursor :=
  ⟨rfl, Nat.le_refl _, Nat.le_refl _⟩

theorem Alike.of_same {m n : Nat} {parser twin : Parser α} {cursor : Cursor}
    (heq : twin cursor = parser cursor) (hleft : (parser cursor).after.rest.length ≤ m)
    (hright : (parser cursor).after.rest.length ≤ n) :
    Alike .same m n parser twin cursor cursor :=
  ⟨by rw [heq], by rw [heq], by rw [heq]; exact ⟨rfl, hleft, hright⟩⟩

section
variable {phrase : Phrase} (hbound : lowest ≤ phrase.bound)
include hbound

/-- Where there is room, any number of levels reads the same, and goes forward. -/
theorem phrase_eq_reading {depth : Nat} {cursor : Cursor} (hroom : cursor.Room depth) :
    Parse.phrase depth phrase cursor = reading phrase cursor ∧
      Forward (reading phrase) cursor := by
  have halike := (phrase_agrees (cursor.rest.length + 1) depth).alike hbound (inStep_same cursor)
    (.inr (Nat.lt_succ_self _)) hroom rfl
  exact halike.same

theorem reading_forward (cursor : Cursor) : Forward (reading phrase) cursor :=
  (phrase_eq_reading hbound (.inr (Nat.lt_succ_self cursor.rest.length))).2

end

theorem reading_stops : StopsAtEnd reading := by
  intro phrase cursor hover
  exact level_stops _ phrase cursor hover

theorem within_of_room {limit : Nat} {cursor : Cursor} (h : cursor.Room limit)
    (parser elsewhere : Parser α) : within limit parser elsewhere cursor = parser cursor :=
  if_pos h

theorem within_self (limit : Nat) (parser : Parser α) : within limit parser parser = parser := by
  funext cursor
  exact ite_self _

/-- Levels without end agree with as many as there are tokens, wherever there is room. -/
theorem within_agrees (limit : Nat) (elsewhere : Inner) :
    Agrees .same limit limit (Parse.phrase limit)
      fun phrase => within limit (reading phrase) (elsewhere phrase) := by
  constructor
  · rintro phrase m n cursor _ hbound ⟨rfl, hleft, hright⟩ hroom - -
    obtain ⟨hsame, hforward⟩ := phrase_eq_reading hbound hroom
    have hlength : (Parse.phrase limit phrase cursor).after.rest.length ≤ cursor.rest.length := by
      rw [hsame]
      exact hforward
    apply Alike.of_same
    · rw [within_of_room hroom, hsame]
    · omega
    · omega
  · obtain ⟨inner, hinner⟩ := exists_level limit
    rw [hinner]
    exact level_stops inner
  · intro phrase cursor hover
    have hroom : cursor.Room limit := .inl hover.kind_eq
    exact (within_of_room hroom _ _).trans (reading_stops phrase cursor hover)

theorem reading_descends {phrase : Phrase} (hbound : lowest ≤ phrase.bound) :
    Descends level reading phrase := by
  intro elsewhere cursor
  have hlevel := level_agrees (within_agrees cursor.rest.length elsewhere)
  have hroom : cursor.Room (cursor.rest.length + 1) := .inr (Nat.lt_succ_self _)
  exact (hlevel.alike hbound (inStep_same cursor) hroom hroom rfl).same.1

/-- Phrases that are read forward agree with themselves. -/
theorem reading_agrees (limit : Nat) : Agrees .same limit limit reading reading := by
  constructor
  · rintro phrase m n cursor _ hbound ⟨rfl, hleft, hright⟩ - - -
    have hforward : (reading phrase cursor).after.rest.length ≤ cursor.rest.length :=
      reading_forward hbound cursor
    apply Alike.of_same rfl
    · omega
    · omega
  · exact reading_stops
  · exact reading_stops

theorem level_of_eof (inner : Inner) (phrase : Phrase) {cursor : Cursor}
    (h : cursor.current.kind = .eof) :
    (∀ twin, level twin phrase cursor = level inner phrase cursor) ∧
      (level inner phrase cursor).complaints = [.noExpression .eof] ∧
      ((level inner phrase cursor).after = cursor ∨
        cursor.peek.kind = .semicolon ∧ (level inner phrase cursor).after = cursor.advance) := by
  cases phrase with
  | statement =>
      simp only [level, statement_of_eof _ h]
      by_cases hend : cursor.peek.kind = .semicolon
      · simp [hend]
      · simp [hend]
  | expression bound => simp [level, expression_of_eof _ bound h]

/-! ## Loops -/

/-- How much is left to read: nothing on an end marker. -/
def Cursor.unread (cursor : Cursor) : Nat :=
  if cursor.current.kind = .eof then 0 else cursor.rest.length + 1

theorem Cursor.room_of_unread_lt {cursor other : Cursor} (h : other.unread < cursor.unread) :
    other.Room cursor.rest.length := by
  by_cases heof : other.current.kind = .eof
  · exact .inl heof
  · right
    simp only [unread, heof, if_false] at h
    split at h
    · omega
    · omega

theorem Cursor.unread_lt_of_room {cursor other : Cursor} (hopen : cursor.current.kind ≠ .eof)
    (h : other.Room cursor.rest.length) : other.unread < cursor.unread := by
  simp only [unread, hopen, if_false]
  split
  · omega
  · next heof =>
      have hfewer := h.resolve_left heof
      omega

/-- A loop with a bound on its turns does not meet the bound if its turns go down a measure. -/
theorem descends_of_upTo {step : (ι → Parser α) → ι → Parser α} {self : ι → Parser α}
    (upTo : Nat → ι → Parser α) (measure : Cursor → Nat) (valid : ι → Prop)
    (hroom : ∀ cursor other, measure other < measure cursor → other.Room cursor.rest.length)
    (hself : ∀ index cursor, ∃ count, measure cursor ≤ count ∧
      self index cursor = upTo count index cursor)
    (hsucc : ∀ count, upTo (count + 1) = step (upTo count))
    (hzero : ∀ again index cursor, measure cursor = 0 →
      upTo 0 index cursor = step again index cursor)
    (hstep : ∀ index, valid index → ∀ again other cursor,
      (∀ next after, valid next → measure after < measure cursor →
        again next after = other next after) →
      step again index cursor = step other index cursor)
    {index : ι} (hvalid : valid index) : Descends step self index := by
  have hbounded (cursor : Cursor) : ∀ index, valid index → ∀ count, measure cursor ≤ count →
      ∀ again : ι → Parser α,
        (∀ next after, measure after < measure cursor → again next after = self next after) →
        upTo count index cursor = step again index cursor := by
    induction hmeasure : measure cursor using Nat.strongRecOn generalizing cursor with
    | ind size ih =>
    subst hmeasure
    intro index hvalid count hcount again hagain
    cases count with
    | zero => exact hzero again index cursor (Nat.le_zero.mp hcount)
    | succ count =>
        rw [hsucc]
        apply hstep index hvalid
        intro next after hnext hless
        obtain ⟨enough, henough, hloop⟩ := hself next after
        have hcut := ih _ hless after rfl next hnext count (by omega) self fun _ _ _ => rfl
        have hfull := ih _ hless after rfl next hnext enough henough self fun _ _ _ => rfl
        rw [hagain next after hless, hloop, hcut, hfull]
  intro elsewhere cursor
  obtain ⟨count, hcount, hloop⟩ := hself index cursor
  rw [hloop]
  symm
  apply hbounded cursor index hvalid count hcount
  intro next after hless
  exact within_of_room (hroom cursor after hless) _ _

/-- Behind a parser only the cursor counts that it leaves. -/
theorem Parser.bind_congr_after (parser : Parser α) {next follow : α → Parser β} {cursor : Cursor}
    (h : ∀ value, next value (parser cursor).after = follow value (parser cursor).after) :
    (parser >>= next) cursor = (parser >>= follow) cursor := by
  simp only [bind_apply, h]

theorem Parser.bind_congr_first {parser twin : Parser α} (next : α → Parser β) {cursor : Cursor}
    (h : parser cursor = twin cursor) : (parser >>= next) cursor = (twin >>= next) cursor := by
  simp only [bind_apply, h]

theorem statementsTurn_congr {closes : Kind → Bool}
    {again other : (Kind → Bool) → Parser (List Node)} {cursor : Cursor}
    (h : ∀ after, after.unread < cursor.unread → again closes after = other closes after) :
    statementsTurn reading again closes cursor = statementsTurn reading other closes cursor := by
  rw [statementsTurn, statementsTurn, bind_current_apply, bind_current_apply]
  split
  · rfl
  · next hopen =>
      have hkind : cursor.current.kind ≠ .eof := fun heof => hopen (.inl heof)
      have hforward : Forward (reading .statement) cursor := reading_forward (Nat.le_refl _) cursor
      apply bind_congr_after
      intro first
      rw [bind_advance_apply, bind_advance_apply]
      apply bind_congr_first
      apply h
      exact Cursor.unread_lt_of_room hkind (room_advance hforward)

theorem statements_descends (closes : Kind → Bool) :
    Descends (statementsTurn reading) (statements reading) closes := by
  apply descends_of_upTo (fun count closes => statementsUpTo reading closes count) Cursor.unread
    (fun _ => True) (fun _ _ => Cursor.room_of_unread_lt)
  · intro closes cursor
    have hunread : cursor.unread ≤ cursor.rest.length + 1 := by
      rw [Cursor.unread]
      split
      · omega
      · omega
    exact ⟨cursor.rest.length + 1, hunread, rfl⟩
  · exact fun _ => rfl
  · intro again closes cursor hzero
    have heof : cursor.current.kind = .eof := by
      by_contra hopen
      simp [Cursor.unread, hopen] at hzero
    rw [statementsUpTo_of_closed reading 0 (.inl heof), statementsTurn, bind_current_apply,
      if_pos (.inl heof)]
    rfl
  · intro closes _ again other cursor hless
    exact statementsTurn_congr fun after hafter => hless closes after trivial hafter
  · trivial

/-- A loop that looks at the next token has enough turns if it is given one for each token. -/
theorem descends_of_tokens {step : (ι → Parser α) → ι → Parser α} {self : ι → Parser α}
    (upTo : Nat → ι → Parser α) (valid : ι → Prop)
    (hself : ∀ index cursor, self index cursor = upTo cursor.rest.length index cursor)
    (hsucc : ∀ count, upTo (count + 1) = step (upTo count))
    (hzero : ∀ again index cursor, cursor.peek.kind = .eof →
      upTo 0 index cursor = step again index cursor)
    (hstep : ∀ index, valid index → ∀ again other cursor,
      (∀ next after, valid next → after.rest.length < cursor.rest.length →
        again next after = other next after) →
      step again index cursor = step other index cursor)
    {index : ι} (hvalid : valid index) : Descends step self index := by
  apply descends_of_upTo upTo (·.rest.length) valid (fun _ _ => .inr) _ hsucc _ hstep hvalid
  · exact fun index cursor => ⟨cursor.rest.length, Nat.le_refl _, hself index cursor⟩
  · intro again index cursor hlength
    apply hzero
    rw [Cursor.peek, List.length_eq_zero_iff.mp hlength]
    rfl

theorem length_advance_lt {cursor : Cursor} (h : cursor.peek.kind ≠ .eof) :
    cursor.advance.rest.length < cursor.rest.length := by
  have hpos := length_pos_of_peek h
  rw [length_rest_advance]
  omega

/-- Behind the next token, a parser that goes forward leaves fewer tokens. -/
theorem Forward.length_lt {parser : Parser α} {cursor : Cursor}
    (h : Forward parser cursor.advance) (hpeek : cursor.peek.kind ≠ .eof) :
    (parser cursor.advance).after.rest.length < cursor.rest.length :=
  Nat.lt_of_le_of_lt h (length_advance_lt hpeek)

theorem moreTurn_congr {item : Parser α} (hitem : ∀ cursor, Forward item cursor)
    {again other : Parser α → Parser (List α)} {cursor : Cursor}
    (h : ∀ after, after.rest.length < cursor.rest.length → again item after = other item after) :
    moreTurn again item cursor = moreTurn other item cursor := by
  rw [moreTurn, moreTurn, bind_peek_apply, bind_peek_apply]
  split
  · next hcomma =>
      have hpeek : cursor.peek.kind ≠ .eof := by simp [hcomma]
      rw [bind_advance_apply, bind_advance_apply]
      apply bind_congr_after
      intro first
      apply bind_congr_first
      exact h _ ((hitem cursor.advance).length_lt hpeek)
  · rfl

theorem more_descends {item : Parser α} (hitem : ∀ cursor, Forward item cursor) :
    Descends moreTurn more item := by
  apply descends_of_tokens (fun count item => moreOf item count)
    (fun item => ∀ cursor, Forward item cursor) (fun _ _ => rfl) (fun _ => rfl) _ _ hitem
  · intro again item cursor heof
    have hcomma : cursor.peek.kind ≠ .comma := by simp [heof]
    rw [moreOf_of_ne_comma item 0 hcomma, moreTurn, bind_peek_apply, if_neg hcomma]
    rfl
  · intro item hitem again other cursor hless
    exact moreTurn_congr hitem fun after hafter => hless item after hitem hafter

theorem extension_forward (left : Node) {cursor : Cursor} (hkind : cursor.current.kind ≠ .eof) :
    Forward (extension reading left) cursor :=
  (extension_alike (reading_agrees cursor.rest.length) (Nat.le_refl _) (Nat.le_refl _) left
    (inStep_same cursor) hkind).same.2

theorem extendedTurn_congr {bound : Nat} (hbound : lowest ≤ bound) {left : Node}
    {again other : Node → Parser Node} {cursor : Cursor}
    (h : ∀ longer after, after.rest.length < cursor.rest.length →
      again longer after = other longer after) :
    extendedTurn reading bound again left cursor =
      extendedTurn reading bound other left cursor := by
  rw [extendedTurn, extendedTurn, bind_peek_apply, bind_peek_apply]
  split
  · next hstrong =>
      have hpeek : cursor.peek.kind ≠ .eof := by
        intro heof
        rw [heof] at hstrong
        exact absurd hbound (Nat.not_le_of_lt hstrong)
      have hforward : Forward (extension reading left) cursor.advance :=
        extension_forward left hpeek
      rw [bind_advance_apply, bind_advance_apply]
      apply bind_congr_after
      intro longer
      exact h longer _ (hforward.length_lt hpeek)
  · rfl

theorem extended_descends {bound : Nat} (hbound : lowest ≤ bound) (left : Node) :
    Descends (extendedTurn reading bound) (extended reading bound) left := by
  apply descends_of_tokens (extensions reading bound) (fun _ => True) (fun _ _ => rfl)
    (fun _ => rfl)
  · intro again left cursor heof
    have hweak : ¬bound < strength cursor.peek.kind := by
      rw [heof]
      exact Nat.not_lt_of_le hbound
    rw [extensions_of_not_lt reading 0 left hweak, extendedTurn, bind_peek_apply, if_neg hweak]
    rfl
  · intro left _ again other cursor hless
    exact extendedTurn_congr hbound fun longer after hafter => hless longer after trivial hafter
  · trivial

theorem bodyTurn_congr {again other : Inner → Parser (List Node)} {cursor : Cursor}
    (h : ∀ after, after.rest.length < cursor.rest.length →
      again reading after = other reading after) :
    bodyTurn again reading cursor = bodyTurn other reading cursor := by
  rw [bodyTurn, bodyTurn, bind_peek_apply, bind_peek_apply]
  split
  · rfl
  · split
    · rfl
    · next hopen =>
        have hpeek : cursor.peek.kind ≠ .eof := fun heof => hopen (.inl heof)
        have hforward : Forward (reading .statement) cursor.advance :=
          reading_forward (Nat.le_refl _) cursor.advance
        rw [bind_advance_apply, bind_advance_apply]
        apply bind_congr_after
        intro first
        apply bind_congr_first
        exact h _ (hforward.length_lt hpeek)

theorem wholeBody_descends : Descends bodyTurn wholeBody reading := by
  apply descends_of_tokens (fun count inner => clauseBody inner (count + 1)) (· = reading)
    (fun _ _ => rfl) (fun _ => rfl)
  · intro again inner cursor heof
    have hstop : ∀ again : Inner → Parser (List Node), bodyTurn again inner cursor =
        ⟨none, [.expected .breakWord .eof], cursor⟩ := by
      intro again
      simp [bodyTurn, heof, bind_apply]
    rw [hstop]
    exact hstop fun inner => clauseBody inner 0
  · rintro _ rfl again other cursor hless
    exact bodyTurn_congr fun after hafter => hless reading after rfl hafter
  · rfl

theorem clause_forward {cursor : Cursor} (hkind : cursor.current.kind ≠ .eof) :
    Forward (clause reading) cursor :=
  (clause_alike (reading_agrees cursor.rest.length) (Nat.le_refl _) (Nat.le_refl _)
    (inStep_same cursor) hkind).same.2

theorem clausesTurn_congr {again other : Inner → Parser (List Node)} {cursor : Cursor}
    (h : ∀ after, after.rest.length < cursor.rest.length →
      again reading after = other reading after) :
    clausesTurn again reading cursor = clausesTurn other reading cursor := by
  rw [clausesTurn, clausesTurn, bind_peek_apply, bind_peek_apply]
  split
  · next hcase =>
      have hpeek : cursor.peek.kind ≠ .eof := by simp [hcase]
      have hforward : Forward (clause reading) cursor.advance := clause_forward hpeek
      rw [bind_advance_apply, bind_advance_apply]
      apply bind_congr_after
      intro first
      apply bind_congr_first
      exact h _ (hforward.length_lt hpeek)
  · rfl

theorem allClauses_descends : Descends clausesTurn allClauses reading := by
  apply descends_of_tokens (fun count inner => clauses inner count) (· = reading)
    (fun _ _ => rfl) (fun _ => rfl)
  · intro again inner cursor heof
    have hcase : cursor.peek.kind ≠ .caseWord := by simp [heof]
    rw [clauses_of_ne_case inner 0 hcase, clausesTurn, bind_peek_apply, if_neg hcase]
    rfl
  · rintro _ rfl again other cursor hless
    exact clausesTurn_congr fun after hafter => hless reading after rfl hafter
  · rfl

theorem expectName_forward (cursor : Cursor) : Forward expectName cursor :=
  (expectName_alike (inStep_same cursor)).same.2

theorem item_forward (cursor : Cursor) : Forward (item reading) cursor :=
  (item_alike (reading_agrees cursor.rest.length) (Nat.le_refl _) (Nat.le_refl _)
    (inStep_same cursor)).same.2

theorem pair_forward (cursor : Cursor) : Forward (pair reading) cursor :=
  (pair_alike (reading_agrees cursor.rest.length) (Nat.le_refl _) (Nat.le_refl _)
    (inStep_same cursor)).same.2

/-! ## Programs -/

theorem Descends.unroll {step : (ι → Parser α) → ι → Parser α} {self : ι → Parser α} {index : ι}
    (h : Descends step self index) : step self index = self index := by
  funext cursor
  have hcursor := h self cursor
  simpa only [within_self] using hcursor

/-- Statements are read up to a token that closes them, or to the end. -/
theorem statements_end (closes : Kind → Bool) (cursor : Cursor) :
    ∃ nodes complaints after, statements reading closes cursor = ⟨some nodes, complaints, after⟩ ∧
      (after.current.kind = .eof ∨ closes after.current.kind) := by
  induction hunread : cursor.unread using Nat.strongRecOn generalizing cursor with
  | ind size ih =>
  rw [← (statements_descends closes).unroll, statementsTurn, bind_current_apply]
  by_cases hclosed : cursor.current.kind = .eof ∨ closes cursor.current.kind
  · rw [if_pos hclosed]
    exact ⟨[], [], cursor, rfl, hclosed⟩
  · have hkind : cursor.current.kind ≠ .eof := fun heof => hclosed (.inl heof)
    have hforward : Forward (reading .statement) cursor := reading_forward (Nat.le_refl _) cursor
    have hless : (reading .statement cursor).after.advance.unread < size := by
      rw [← hunread]
      exact Cursor.unread_lt_of_room hkind (room_advance hforward)
    obtain ⟨nodes, complaints, after, hrest, hend⟩ := ih _ hless _ rfl
    have hfirst : attempt (reading .statement) cursor =
        ⟨some (reading .statement cursor).value, (reading .statement cursor).complaints,
          (reading .statement cursor).after⟩ := rfl
    rw [if_neg hclosed, bind_of_value hfirst, bind_advance_apply, bind_append_apply, hrest]
    exact ⟨_, _, after, rfl, hend⟩

/-- A program is read by levels without end. -/
theorem topLevel_eq : topLevel = statements reading fun _ => false := by
  funext cursor
  have hroom : cursor.Room (cursor.rest.length + 1) := .inr (Nat.lt_succ_self _)
  have hagrees : Agrees .same (cursor.rest.length + 1) (cursor.rest.length + 1)
      (Parse.phrase (cursor.rest.length + 1)) reading := by
    have hwithin := within_agrees (cursor.rest.length + 1) reading
    simpa only [within_self] using hwithin
  have halike := statementsUpTo_alike hagrees (fun _ => false) (inStep_same cursor) hroom hroom
    hroom hroom
  exact halike.same.1.symm

/-- Parsing ends on every list of tokens, on an end marker. Every phrase begins, and every loop
takes a turn, on an end marker or with fewer tokens left than where it was begun before; and on an
end marker a phrase stops at once with a complaint. -/
theorem parsing_goes_forward :
    (∀ ts, ∃ nodes complaints after, topLevel (ofTokens ts) = ⟨some nodes, complaints, after⟩ ∧
      after.current.kind = .eof) ∧
    topLevel = statements reading (fun _ => false) ∧
    (∀ phrase, lowest ≤ phrase.bound → Descends level reading phrase) ∧
    (∀ inner phrase cursor, cursor.current.kind = .eof →
      (∀ twin, level twin phrase cursor = level inner phrase cursor) ∧
      (level inner phrase cursor).complaints = [.noExpression .eof] ∧
      ((level inner phrase cursor).after = cursor ∨
        cursor.peek.kind = .semicolon ∧ (level inner phrase cursor).after = cursor.advance)) ∧
    (∀ closes, Descends (statementsTurn reading) (statements reading) closes) ∧
    Descends bodyTurn wholeBody reading ∧
    Descends clausesTurn allClauses reading ∧
    Descends moreTurn more expectName ∧
    Descends moreTurn more (item reading) ∧
    Descends moreTurn more (pair reading) ∧
    ∀ bound left, lowest ≤ bound →
      Descends (extendedTurn reading bound) (extended reading bound) left := by
  have hend (ts : List Token) : ∃ nodes complaints after,
      topLevel (ofTokens ts) = ⟨some nodes, complaints, after⟩ ∧ after.current.kind = .eof := by
    obtain ⟨nodes, complaints, after, hreading, hkind⟩ :=
      statements_end (fun _ => false) (ofTokens ts)
    rw [topLevel_eq]
    exact ⟨nodes, complaints, after, hreading, by simpa using hkind⟩
  exact ⟨hend, topLevel_eq, fun _ => reading_descends,
    fun inner phrase _ => level_of_eof inner phrase, statements_descends,
    wholeBody_descends, allClauses_descends, more_descends expectName_forward,
    more_descends item_forward, more_descends pair_forward,
    fun _ left hbound => extended_descends hbound left⟩

end Monkey.Parse
