import Monkey.Proofs.Parse.Abreast

/-!
# Readings in lockstep

Behind the last token a cursor shows end markers without end, so end markers at the end of the
tokens say nothing new, and neither do more levels or larger bounds than the tokens call for. Here
this is shown for every reading, complaints and holes included: two cursors that differ only in the
end markers they end in stay in step, whatever the parsers make of their tokens. The rules of
`Alike` follow the parsers' steps, as those of `Together` do for readings that do not complain. They
hold for any pairing of cursors that moving on keeps, so they also compare two parsers at one cursor.
Main statement: `end_markers_add_nothing`.
-/
namespace Monkey.Parse

open Monkey.Parse.Parser Monkey.Parse.Cursor

/-! ## Cursors in step -/

namespace Cursor

/-- Only end markers are left, the current token among them. -/
def Over (cursor : Cursor) : Prop :=
  ∀ token ∈ cursor.current :: cursor.rest, token.kind = .eof

theorem Over.kind_eq {cursor : Cursor} (h : cursor.Over) : cursor.current.kind = .eof :=
  h _ List.mem_cons_self

theorem over_advance {cursor : Cursor} (h : ∀ token ∈ cursor.rest, token.kind = .eof) :
    cursor.advance.Over := by
  obtain ⟨current, _ | ⟨next, rest⟩⟩ := cursor
  · simp [Over]
  · exact h

theorem Over.peek_kind_eq {cursor : Cursor} (h : cursor.Over) : cursor.peek.kind = .eof :=
  (over_advance fun token hmem => h token (.tail _ hmem)).kind_eq

/-- The cursor is on an end marker, or fewer tokens are left than the limit. -/
def Room (cursor : Cursor) (limit : Nat) : Prop :=
  cursor.current.kind = .eof ∨ cursor.rest.length < limit

theorem room_advance {cursor : Cursor} {limit : Nat} (h : cursor.rest.length ≤ limit) :
    cursor.advance.Room limit := by
  obtain ⟨current, _ | ⟨next, rest⟩⟩ := cursor
  · exact .inl rfl
  · exact .inr h

end Cursor

/-- The cursors have the same tokens, up to the end markers these end in. -/
inductive Aligned : Cursor → Cursor → Prop where
  | within {ends others : List Token} (hends : ∀ token ∈ ends, token.kind = .eof)
      (hothers : ∀ token ∈ others, token.kind = .eof) (current : Token) (ahead : List Token) :
      Aligned ⟨current, ahead ++ ends⟩ ⟨current, ahead ++ others⟩
  | spent {cursor other : Cursor} (hcursor : cursor.Over) (hother : other.Over) :
      Aligned cursor other

namespace Aligned

variable {cursor other : Cursor}

theorem refl (cursor : Cursor) : Aligned cursor cursor := by
  have hnone : ∀ token ∈ ([] : List Token), token.kind = .eof := by simp
  simpa using within hnone hnone cursor.current cursor.rest

theorem current_eq_or_over (h : Aligned cursor other) :
    other.current = cursor.current ∨ cursor.Over ∧ other.Over := by
  cases h with
  | within => exact .inl rfl
  | spent hcursor hother => exact .inr ⟨hcursor, hother⟩

theorem advance (h : Aligned cursor other) : Aligned cursor.advance other.advance := by
  cases h with
  | within hends hothers current ahead =>
      cases ahead with
      | nil => exact .spent (over_advance hends) (over_advance hothers)
      | cons next ahead => exact .within hends hothers next ahead
  | spent hcursor hother =>
      exact .spent (over_advance fun token hmem => hcursor token (.tail _ hmem))
        (over_advance fun token hmem => hother token (.tail _ hmem))

end Aligned

/-- A relation between cursors that moving on keeps: both show the same token, unless both are
over. -/
structure Pairing where
  rel : Cursor → Cursor → Prop
  advance {cursor other : Cursor} : rel cursor other → rel cursor.advance other.advance
  current_eq_or_over {cursor other : Cursor} : rel cursor other →
    other.current = cursor.current ∨ cursor.Over ∧ other.Over

namespace Pairing

/-- The end markers that the tokens end in do not matter. -/
def upToEnds : Pairing := ⟨Aligned, Aligned.advance, Aligned.current_eq_or_over⟩

/-- One cursor that two parsers read from. -/
def same : Pairing := ⟨Eq, congrArg Cursor.advance, fun h => .inl (congrArg Cursor.current h.symm)⟩

end Pairing

/-- Paired cursors with at most `m` and `n` tokens left. -/
structure InStep (pairing : Pairing) (m n : Nat) (cursor other : Cursor) : Prop where
  paired : pairing.rel cursor other
  left : cursor.rest.length ≤ m
  right : other.rest.length ≤ n

namespace InStep

variable {pairing : Pairing} {m n : Nat} {cursor other : Cursor}

/-- The cursors themselves bound what is left. -/
theorem self (h : InStep pairing m n cursor other) :
    InStep pairing cursor.rest.length other.rest.length cursor other :=
  ⟨h.paired, Nat.le_refl _, Nat.le_refl _⟩

theorem mono {m' n' : Nat} (h : InStep pairing m n cursor other) (hm : m ≤ m') (hn : n ≤ n') :
    InStep pairing m' n' cursor other :=
  ⟨h.paired, Nat.le_trans h.left hm, Nat.le_trans h.right hn⟩

theorem advance (h : InStep pairing m n cursor other) :
    InStep pairing m n cursor.advance other.advance := by
  have hleft := h.left
  have hright := h.right
  exact ⟨pairing.advance h.paired, by simp; omega, by simp; omega⟩

theorem current_eq_or_over (h : InStep pairing m n cursor other) :
    other.current = cursor.current ∨ cursor.Over ∧ other.Over :=
  pairing.current_eq_or_over h.paired

theorem kind_eq (h : InStep pairing m n cursor other) :
    other.current.kind = cursor.current.kind := by
  rcases h.current_eq_or_over with heq | ⟨hcursor, hother⟩
  · rw [heq]
  · rw [hcursor.kind_eq, hother.kind_eq]

theorem current_eq (h : InStep pairing m n cursor other) (hkind : cursor.current.kind ≠ .eof) :
    other.current = cursor.current :=
  h.current_eq_or_over.resolve_right fun hover => hkind hover.1.kind_eq

theorem peek_kind_eq (h : InStep pairing m n cursor other) : other.peek.kind = cursor.peek.kind :=
  h.advance.kind_eq

theorem length_pos (h : InStep pairing m n cursor other) (hpeek : cursor.peek.kind ≠ .eof) :
    0 < cursor.rest.length ∧ 0 < other.rest.length :=
  ⟨length_pos_of_peek hpeek, length_pos_of_peek (by rwa [h.peek_kind_eq])⟩

/-- In front of a token that is no end marker, one step leaves fewer tokens on both sides. -/
theorem advance_of_peek (h : InStep pairing m n cursor other) (hpeek : cursor.peek.kind ≠ .eof) :
    ∃ m' n', m = m' + 1 ∧ n = n' + 1 ∧ InStep pairing m' n' cursor.advance other.advance := by
  obtain ⟨hpos, hpos'⟩ := h.length_pos hpeek
  have hleft := h.left
  have hright := h.right
  exact ⟨m - 1, n - 1, by omega, by omega, h.advance.paired, by simp; omega, by simp; omega⟩

end InStep

/-! ## Parsers in step -/

/-- Both parsers have the same value and the same complaints, and leave their cursors in step. -/
structure Alike (pairing : Pairing) (m n : Nat) (parser twin : Parser α) (cursor other : Cursor) :
    Prop where
  value_eq : (twin other).value = (parser cursor).value
  complaints_eq : (twin other).complaints = (parser cursor).complaints
  after : InStep pairing m n (parser cursor).after (twin other).after

namespace Alike

variable {α β : Type} {pairing : Pairing} {m n : Nat} {parser twin : Parser α}
  {next follow : α → Parser β}
  {cursor other : Cursor}

theorem mono {m' n' : Nat} (h : Alike pairing m n parser twin cursor other) (hm : m ≤ m')
    (hn : n ≤ n') :
    Alike pairing m' n' parser twin cursor other :=
  ⟨h.value_eq, h.complaints_eq, h.after.mono hm hn⟩

theorem of_eq {value : Option α} {complaints : List Complaint} {after behind : Cursor}
    (hparser : parser cursor = ⟨value, complaints, after⟩)
    (htwin : twin other = ⟨value, complaints, behind⟩) (hafter : InStep pairing m n after behind) :
    Alike pairing m n parser twin cursor other := by
  refine ⟨?_, ?_, ?_⟩ <;> rw [hparser, htwin]
  exact hafter

theorem bind (h : Alike pairing m n parser twin cursor other)
    (hnext : ∀ value after behind, InStep pairing m n after behind →
      Alike pairing m n (next value) (follow value) after behind) :
    Alike pairing m n (parser >>= next) (twin >>= follow) cursor other := by
  obtain ⟨hvalue, hcomplaints, hafter⟩ := h
  cases hfound : (parser cursor).value with
  | none =>
      rw [hfound] at hvalue
      refine ⟨?_, ?_, ?_⟩ <;> simp only [bind_apply, hfound, hvalue]
      · exact hcomplaints
      · exact hafter
  | some value =>
      rw [hfound] at hvalue
      have hlast := hnext value _ _ hafter
      refine ⟨?_, ?_, ?_⟩ <;> simp only [bind_apply, hfound, hvalue]
      · exact hlast.value_eq
      · rw [hcomplaints, hlast.complaints_eq]
      · exact hlast.after

theorem orHole {parser twin : Parser Node} (h : Alike pairing m n parser twin cursor other) :
    Alike pairing m n parser.orHole twin.orHole cursor other :=
  ⟨by simp only [Parser.orHole, h.value_eq], h.complaints_eq, h.after⟩

theorem attempt (h : Alike pairing m n parser twin cursor other) :
    Alike pairing m n parser.attempt twin.attempt cursor other :=
  ⟨by simp only [Parser.attempt, h.value_eq], h.complaints_eq, h.after⟩

theorem bind_remaining {next follow : Nat → Parser β}
    (hnext : Alike pairing m n (next cursor.rest.length) (follow other.rest.length) cursor other) :
    Alike pairing m n (remaining >>= next) (remaining >>= follow) cursor other :=
  ⟨hnext.value_eq, hnext.complaints_eq, hnext.after⟩

/-- Each reading sees its own token. -/
theorem bind_currents {next follow : Token → Parser β}
    (hnext : Alike pairing m n (next cursor.current) (follow other.current) cursor other) :
    Alike pairing m n (current >>= next) (current >>= follow) cursor other :=
  ⟨hnext.value_eq, hnext.complaints_eq, hnext.after⟩

/-- Each reading sees its own next token. -/
theorem bind_peeks {next follow : Token → Parser β}
    (hnext : Alike pairing m n (next cursor.peek) (follow other.peek) cursor other) :
    Alike pairing m n (peek >>= next) (peek >>= follow) cursor other :=
  ⟨hnext.value_eq, hnext.complaints_eq, hnext.after⟩

theorem bind_advance {next follow : Unit → Parser β}
    (hnext : Alike pairing m n (next ()) (follow ()) cursor.advance other.advance) :
    Alike pairing m n (advance >>= next) (advance >>= follow) cursor other :=
  ⟨hnext.value_eq, hnext.complaints_eq, hnext.after⟩

theorem bind_complain (complaint : Complaint) {next follow : Unit → Parser β}
    (hnext : Alike pairing m n (next ()) (follow ()) cursor other) :
    Alike pairing m n (complain complaint >>= next) (complain complaint >>= follow) cursor other :=
  ⟨hnext.value_eq, congrArg (complaint :: ·) hnext.complaints_eq, hnext.after⟩

section
variable (h : InStep pairing m n cursor other)
include h

theorem pure (value : α) :
    Alike pairing m n (Pure.pure value : Parser α) (Pure.pure value) cursor other :=
  .of_eq rfl rfl h

theorem fail : Alike pairing m n (Parser.fail : Parser α) Parser.fail cursor other :=
  .of_eq rfl rfl h

theorem bind_fail :
    Alike pairing m n (Parser.fail >>= next) (Parser.fail >>= follow) cursor other :=
  .of_eq rfl rfl h

theorem bind_current {next follow : Token → Parser β} (hkind : cursor.current.kind ≠ .eof)
    (hnext : Alike pairing m n (next cursor.current) (follow cursor.current) cursor other) :
    Alike pairing m n (current >>= next) (current >>= follow) cursor other := by
  refine bind_currents ?_
  rwa [h.current_eq hkind]

/-- Where the next token is not the one expected, what would come then does not matter. -/
theorem bind_expect_of_ne {wanted : Kind} {next follow : Unit → Parser β}
    (hkind : cursor.peek.kind ≠ wanted) :
    Alike pairing m n (expect wanted >>= next) (expect wanted >>= follow) cursor other := by
  have hexpect : expect wanted cursor = ⟨none, [.expected wanted cursor.peek.kind], cursor⟩ := by
    rw [expect_apply, if_neg hkind]
  have hother : expect wanted other = ⟨none, [.expected wanted cursor.peek.kind], other⟩ := by
    rw [expect_apply, h.peek_kind_eq, if_neg hkind]
  exact .of_eq (bind_of_none hexpect) (bind_of_none hother) h

theorem bind_expect {wanted : Kind} {next follow : Unit → Parser β}
    (hnext : ∀ after behind, InStep pairing m n after behind → after.current.kind = wanted →
      Alike pairing m n (next ()) (follow ()) after behind) :
    Alike pairing m n (expect wanted >>= next) (expect wanted >>= follow) cursor other := by
  by_cases hkind : cursor.peek.kind = wanted
  · have hlast := hnext cursor.advance other.advance h.advance hkind
    have hexpect : expect wanted cursor = ⟨some (), [], cursor.advance⟩ := by
      rw [expect_apply, if_pos hkind]
    have hother : expect wanted other = ⟨some (), [], other.advance⟩ := by
      rw [expect_apply, h.peek_kind_eq, if_pos hkind]
    refine ⟨?_, ?_, ?_⟩ <;> rw [bind_of_value hexpect, bind_of_value hother]
    · exact hlast.value_eq
    · exact hlast.complaints_eq
    · exact hlast.after
  · exact bind_expect_of_ne h hkind

theorem closing (node : Node) : Alike pairing m n (closing node) (closing node) cursor other := by
  have hskip : Alike pairing m n (skip .semicolon) (skip .semicolon) cursor other := by
    refine .of_eq (skip_apply _ _) (skip_apply _ _) ?_
    rw [h.peek_kind_eq]
    split
    · exact h.advance
    · exact h
  exact hskip.bind fun _ _ _ hlast => .pure hlast node

end

end Alike

/-! ## Phrases inside -/

/-- What a phrase comes to where only end markers are left. -/
def Phrase.atEnd : Phrase → Token → Option Node
  | .statement, token => some (.expression token .hole)
  | .expression _, _ => none

def StopsAtEnd (inner : Inner) : Prop :=
  ∀ phrase cursor, cursor.Over →
    inner phrase cursor = ⟨phrase.atEnd cursor.current, [.noExpression .eof], cursor⟩

/-- The phrases inside are read alike by cursors with room for them. -/
structure Agrees (pairing : Pairing) (depth deeper : Nat) (inner twin : Inner) : Prop where
  alike : ∀ {phrase : Phrase} {m n : Nat} {cursor other : Cursor}, lowest ≤ phrase.bound →
    InStep pairing m n cursor other → cursor.Room depth → other.Room deeper →
    other.current = cursor.current → Alike pairing m n (inner phrase) (twin phrase) cursor other
  stops : StopsAtEnd inner
  stops_twin : StopsAtEnd twin

section
variable {pairing : Pairing} {depth deeper : Nat} {inner twin : Inner}
  (hagrees : Agrees pairing depth deeper inner twin) {m n : Nat} (hm : m ≤ depth)
  (hn : n ≤ deeper) {cursor other : Cursor}
include hagrees hm hn

/-- An expression behind the current token. -/
theorem Agrees.expression (h : InStep pairing m n cursor other) {bound : Nat}
    (hbound : lowest ≤ bound) :
    Alike pairing m n (inner (.expression bound)) (twin (.expression bound)) cursor.advance
      other.advance := by
  rcases h.advance.current_eq_or_over with heq | ⟨hover, hover'⟩
  · have hroom := room_advance (Nat.le_trans h.left hm)
    have hroom' := room_advance (Nat.le_trans h.right hn)
    exact hagrees.alike hbound h.advance hroom hroom' heq
  · exact .of_eq (hagrees.stops _ _ hover) (hagrees.stops_twin _ _ hover') h.advance

theorem Agrees.bind_next {β : Type} {next follow : Node → Parser β}
    (h : InStep pairing m n cursor other)
    {bound : Nat} (hbound : lowest ≤ bound)
    (hnext : ∀ node after behind, InStep pairing m n after behind →
      Alike pairing m n (next node) (follow node) after behind) :
    Alike pairing m n (advance >>= fun _ => orHole (inner (.expression bound)) >>= next)
      (advance >>= fun _ => orHole (twin (.expression bound)) >>= follow) cursor other :=
  .bind_advance ((hagrees.expression hm hn h hbound).orHole.bind hnext)

/-- A statement behind the current token. Where the tokens are over, the trees of both readings hold
their own end markers, so the rest must not come to anything. -/
theorem Agrees.bind_next_statement {β : Type} {next follow : Node → Parser β}
    (h : InStep pairing m n cursor other)
    (hnext : ∀ node after behind, InStep pairing m n after behind →
      Alike pairing m n (next node) (follow node) after behind)
    (hover : ∀ node twin after behind, InStep pairing m n after behind → after.Over →
      Alike pairing m n (next node) (follow twin) after behind) :
    Alike pairing m n (advance >>= fun _ => orHole (inner .statement) >>= next)
      (advance >>= fun _ => orHole (twin .statement) >>= follow) cursor other := by
  refine .bind_advance ?_
  rcases h.advance.current_eq_or_over with heq | ⟨hended, hended'⟩
  · have hroom := room_advance (Nat.le_trans h.left hm)
    have hroom' := room_advance (Nat.le_trans h.right hn)
    exact (hagrees.alike (Nat.le_refl _) h.advance hroom hroom' heq).orHole.bind hnext
  · have hinner := hagrees.stops .statement _ hended
    have htwin := hagrees.stops_twin .statement _ hended'
    have hlast := hover (.expression cursor.advance.current .hole)
      (.expression other.advance.current .hole) _ _ h.advance hended
    refine ⟨?_, ?_, ?_⟩ <;>
      simp only [bind_apply, orHole, hinner, htwin, Phrase.atEnd, Option.getD_some]
    · exact hlast.value_eq
    · rw [hlast.complaints_eq]
    · exact hlast.after

/-! ## Lists of statements -/

omit hm hn in
theorem statementsUpTo_alike (closes : Kind → Bool) {count more : Nat}
    (h : InStep pairing m n cursor other) (hroom : cursor.Room depth) (hroom' : other.Room deeper)
    (hcount : cursor.Room count) (hmore : other.Room more) :
    Alike pairing m n (statementsUpTo inner closes count) (statementsUpTo twin closes more) cursor
      other := by
  induction count generalizing m n cursor other more with
  | zero =>
      have heof : cursor.current.kind = .eof := hcount.resolve_right (Nat.not_lt_zero _)
      have heof' : other.current.kind = .eof := by rw [h.kind_eq, heof]
      exact .of_eq (statementsUpTo_of_closed inner 0 (.inl heof))
        (statementsUpTo_of_closed twin more (.inl heof')) h
  | succ count ih =>
      by_cases hclosed : cursor.current.kind = .eof ∨ closes cursor.current.kind
      · have hclosed' : other.current.kind = .eof ∨ closes other.current.kind := by
          rwa [h.kind_eq]
        exact .of_eq (statementsUpTo_of_closed inner _ hclosed)
          (statementsUpTo_of_closed twin more hclosed') h
      · have hkind : cursor.current.kind ≠ .eof := fun heof => hclosed (.inl heof)
        have hkind' : other.current.kind ≠ .eof := by rwa [h.kind_eq]
        have hlength : cursor.rest.length < count + 1 := hcount.resolve_left hkind
        have hlength' : other.rest.length < more := hmore.resolve_left hkind'
        obtain ⟨more, rfl⟩ : ∃ left, more = left + 1 := ⟨more - 1, by omega⟩
        refine .mono ?_ h.left h.right
        rw [statementsUpTo, statementsUpTo]
        refine .bind_current h.self hkind ?_
        rw [if_neg hclosed, if_neg hclosed]
        have hfirst : Alike pairing _ _ (inner .statement) (twin .statement) cursor other :=
          hagrees.alike (Nat.le_refl _) h.self hroom hroom' (h.current_eq hkind)
        refine hfirst.attempt.bind fun first after behind hlast => .bind_advance ?_
        have hleft := hlast.left
        have hright := hlast.right
        have hdepth : cursor.rest.length ≤ depth := Nat.le_of_lt (hroom.resolve_left hkind)
        have hdeeper : other.rest.length ≤ deeper := Nat.le_of_lt (hroom'.resolve_left hkind')
        have hrest := ih hlast.advance (room_advance (by omega)) (room_advance (by omega))
          (room_advance (by omega)) (room_advance (show _ ≤ more by omega))
        exact hrest.bind fun _ _ _ hend => .pure hend _

theorem block_alike (h : InStep pairing m n cursor other)
    (hopening : cursor.current.kind = .lbrace) :
    Alike pairing m n (block inner) (block twin) cursor other := by
  refine .bind_current h (by rw [hopening]; decide) (.bind_advance ?_)
  have hbody : Alike pairing m n (statements inner (· = .rbrace)) (statements twin (· = .rbrace))
      cursor.advance other.advance := by
    refine .bind_remaining (statementsUpTo_alike hagrees _ h.advance ?_ ?_ ?_ ?_)
    · exact room_advance (Nat.le_trans h.left hm)
    · exact room_advance (Nat.le_trans h.right hn)
    · exact .inr (Nat.lt_succ_self _)
    · exact .inr (Nat.lt_succ_self _)
  refine hbody.bind fun body after behind hlast => .bind_currents ?_
  rw [hlast.kind_eq]
  split
  · exact .bind_complain _ (.pure hlast _)
  · exact .pure hlast _

/-! ## Operands -/

omit hagrees hm hn in
theorem integer_alike (h : InStep pairing m n cursor other) (hkind : cursor.current.kind ≠ .eof) :
    Alike pairing m n integer integer cursor other := by
  refine .bind_current h hkind ?_
  split
  · exact .pure h _
  · exact .bind_complain _ (.fail h)

omit hagrees hm hn in
theorem expectName_alike (h : InStep pairing m n cursor other) :
    Alike pairing m n expectName expectName cursor other := by
  refine .bind_expect h fun after behind hlast hkind => ?_
  exact .bind_current hlast (by rw [hkind]; decide) (.pure hlast _)

theorem unary_alike (h : InStep pairing m n cursor other) (hkind : cursor.current.kind ≠ .eof) :
    Alike pairing m n (unary inner) (unary twin) cursor other :=
  .bind_current h hkind (hagrees.bind_next hm hn h (by decide) fun _ _ _ hlast => .pure hlast _)

theorem group_alike (h : InStep pairing m n cursor other) :
    Alike pairing m n (group inner) (group twin) cursor other := by
  refine .bind_advance ((hagrees.expression hm hn h (Nat.le_refl _)).attempt.bind ?_)
  intro body after behind hlast
  refine .bind_expect hlast fun _ _ hend _ => ?_
  cases body with
  | none => exact .fail hend
  | some node => exact .pure hend node

theorem conditional_alike (h : InStep pairing m n cursor other)
    (hkind : cursor.current.kind ≠ .eof) :
    Alike pairing m n (conditional inner) (conditional twin) cursor other := by
  refine .bind_current h hkind (.bind_expect h fun _ _ h₁ _ => ?_)
  refine hagrees.bind_next hm hn h₁ (Nat.le_refl _) fun condition _ _ h₂ => ?_
  refine .bind_expect h₂ fun _ _ h₃ _ => .bind_expect h₃ fun _ _ h₄ hbrace => ?_
  refine .bind (block_alike hagrees hm hn h₄ hbrace) fun consequence _ _ h₅ => .bind_peeks ?_
  rw [h₅.peek_kind_eq]
  split
  · refine .bind_advance (.bind_expect h₅.advance fun _ _ h₆ hbrace' => ?_)
    exact (block_alike hagrees hm hn h₆ hbrace').bind fun _ _ _ h₇ => .pure h₇ _
  · exact .pure h₅ _

theorem loop_alike (h : InStep pairing m n cursor other) (hkind : cursor.current.kind ≠ .eof) :
    Alike pairing m n (loop inner) (loop twin) cursor other := by
  refine .bind_current h hkind (.bind_expect h fun _ _ h₁ _ => ?_)
  refine hagrees.bind_next_statement hm hn h₁ (fun init _ _ h₂ => .bind_currents ?_) ?_
  · rw [h₂.kind_eq]
    split
    · exact .bind_complain _ (.bind_fail h₂)
    · refine hagrees.bind_next hm hn h₂ (Nat.le_refl _) fun condition _ _ h₃ => ?_
      refine .bind_expect h₃ fun _ _ h₄ _ => ?_
      refine hagrees.bind_next_statement hm hn h₄ (fun post _ _ h₅ => ?_) ?_
      · refine .bind_expect h₅ fun _ _ h₆ _ => .bind_expect h₆ fun _ _ h₇ hbrace => ?_
        exact (block_alike hagrees hm hn h₇ hbrace).bind fun _ _ _ h₈ => .pure h₈ _
      · intro post post' after behind h₅ hover
        exact .bind_expect_of_ne h₅ (by rw [hover.peek_kind_eq]; decide)
  · intro init init' after behind h₂ hover
    refine .bind_currents ?_
    rw [h₂.kind_eq, hover.kind_eq]
    exact .bind_complain _ (.bind_fail h₂)

/-! ## Lists between brackets -/

section List
variable {α : Type} {parser copy : Parser α}
  (hitem : ∀ {m n : Nat} {cursor other : Cursor}, m ≤ depth → n ≤ deeper →
    InStep pairing m n cursor other → Alike pairing m n parser copy cursor other)
include hitem

omit hagrees in
theorem moreOf_alike {count more : Nat} (h : InStep pairing m n cursor other) (hcount : m ≤ count)
    (hmore : n ≤ more) :
    Alike pairing m n (moreOf parser count) (moreOf copy more) cursor other := by
  induction m using Nat.strongRecOn generalizing n cursor other count more with
  | ind m ih =>
  by_cases hcomma : cursor.peek.kind = .comma
  · obtain ⟨m, n, rfl, rfl, hmoved⟩ := h.advance_of_peek (by rw [hcomma]; decide)
    obtain ⟨count, rfl⟩ : ∃ left, count = left + 1 := ⟨count - 1, by omega⟩
    obtain ⟨more, rfl⟩ : ∃ left, more = left + 1 := ⟨more - 1, by omega⟩
    have hm' : m ≤ depth := by omega
    have hn' : n ≤ deeper := by omega
    refine .mono ?_ (Nat.le_succ m) (Nat.le_succ n)
    rw [moreOf, moreOf]
    refine .bind_peeks ?_
    rw [h.peek_kind_eq, if_pos hcomma, if_pos hcomma]
    refine .bind_advance ((hitem hm' hn' hmoved).bind fun first _ _ hlast => ?_)
    have hrest := ih m (Nat.lt_succ_self m) hm' hn' hlast (Nat.le_of_succ_le_succ hcount)
      (Nat.le_of_succ_le_succ hmore)
    exact hrest.bind fun _ _ _ hend => .pure hend _
  · have hcomma' : other.peek.kind ≠ .comma := by rwa [h.peek_kind_eq]
    exact .of_eq (moreOf_of_ne_comma parser count hcomma) (moreOf_of_ne_comma copy more hcomma') h

omit hagrees in
theorem listOf_alike (closer : Kind) (h : InStep pairing m n cursor other) :
    Alike pairing m n (listOf parser closer) (listOf copy closer) cursor other := by
  refine .bind_peeks ?_
  rw [h.peek_kind_eq]
  split
  · exact .bind_advance (.pure h.advance _)
  · refine .bind (hitem hm hn h) fun first _ _ h₁ => .bind_remaining ?_
    have hrest := moreOf_alike (Nat.le_trans h₁.left hm) (Nat.le_trans h₁.right hn) hitem h₁.self
      (Nat.le_refl _) (Nat.le_refl _)
    refine (hrest.mono h₁.left h₁.right).bind fun _ _ _ h₂ => ?_
    exact .bind_expect h₂ fun _ _ h₃ _ => .pure h₃ _

end List

theorem function_alike (h : InStep pairing m n cursor other) (hkind : cursor.current.kind ≠ .eof) :
    Alike pairing m n (function inner) (function twin) cursor other := by
  refine .bind_current h hkind (.bind_expect h fun _ _ h₁ _ => ?_)
  refine .bind (listOf_alike hm hn (fun _ _ => expectName_alike) .rparen h₁) fun names _ _ h₂ => ?_
  refine .bind_expect h₂ fun _ _ h₃ hbrace => ?_
  exact (block_alike hagrees hm hn h₃ hbrace).bind fun _ _ _ h₄ => .pure h₄ _

theorem item_alike (h : InStep pairing m n cursor other) :
    Alike pairing m n (item inner) (item twin) cursor other :=
  .bind_advance (hagrees.expression hm hn h (Nat.le_refl _))

theorem items_alike (closer : Kind) (h : InStep pairing m n cursor other) :
    Alike pairing m n (items inner closer) (items twin closer) cursor other :=
  listOf_alike hm hn (fun hm hn => item_alike hagrees hm hn) closer h

theorem array_alike (h : InStep pairing m n cursor other) (hkind : cursor.current.kind ≠ .eof) :
    Alike pairing m n (array inner) (array twin) cursor other :=
  .bind_current h hkind ((items_alike hagrees hm hn .rbracket h).bind fun _ _ _ hlast =>
    .pure hlast _)

theorem pair_alike (h : InStep pairing m n cursor other) :
    Alike pairing m n (pair inner) (pair twin) cursor other := by
  refine .bind (item_alike hagrees hm hn h) fun key _ _ h₁ => .bind_expect h₁ fun _ _ h₂ _ => ?_
  exact (item_alike hagrees hm hn h₂).bind fun _ _ _ h₃ => .pure h₃ _

theorem hash_alike (h : InStep pairing m n cursor other) (hkind : cursor.current.kind ≠ .eof) :
    Alike pairing m n (hash inner) (hash twin) cursor other :=
  .bind_current h hkind ((listOf_alike hm hn (fun hm hn => pair_alike hagrees hm hn) .rbrace
    h).bind fun _ _ _ hlast => .pure hlast _)

theorem operand_alike (h : InStep pairing m n cursor other) (hkind : cursor.current.kind ≠ .eof) :
    Alike pairing m n (operand inner) (operand twin) cursor other := by
  refine .bind_current h hkind ?_
  split
  · exact .pure h _
  · exact integer_alike h hkind
  · exact integer_alike h hkind
  · exact .pure h _
  · exact .pure h _
  · exact .pure h _
  · exact unary_alike hagrees hm hn h hkind
  · exact unary_alike hagrees hm hn h hkind
  · exact group_alike hagrees hm hn h
  · exact conditional_alike hagrees hm hn h hkind
  · exact loop_alike hagrees hm hn h hkind
  · exact function_alike hagrees hm hn h hkind
  · exact array_alike hagrees hm hn h hkind
  · exact hash_alike hagrees hm hn h hkind
  · exact .bind_current h hkind (.bind_complain _ (.fail h))

/-! ## Expressions -/

theorem extension_alike (left : Node) (h : InStep pairing m n cursor other)
    (hkind : cursor.current.kind ≠ .eof) :
    Alike pairing m n (extension inner left) (extension twin left) cursor other := by
  refine .bind_current h hkind ?_
  split
  · exact (items_alike hagrees hm hn .rparen h).bind fun _ _ _ hlast => .pure hlast _
  · refine hagrees.bind_next hm hn h (Nat.le_refl _) fun key _ _ h₁ => ?_
    exact .bind_expect h₁ fun _ _ h₂ _ => .pure h₂ _
  · exact hagrees.bind_next hm hn h (lowest_le_strength _) fun _ _ _ hlast => .pure hlast _

theorem extensions_alike {bound : Nat} (hbound : lowest ≤ bound) {count more : Nat} {left : Node}
    (h : InStep pairing m n cursor other) (hcount : m ≤ count) (hmore : n ≤ more) :
    Alike pairing m n (extensions inner bound count left) (extensions twin bound more left) cursor
      other := by
  induction m using Nat.strongRecOn generalizing n cursor other count more left with
  | ind m ih =>
  by_cases hstrong : bound < strength cursor.peek.kind
  · have heof : cursor.peek.kind ≠ .eof := by
      intro heof
      rw [heof] at hstrong
      exact absurd hbound (Nat.not_le_of_lt hstrong)
    obtain ⟨m, n, rfl, rfl, hmoved⟩ := h.advance_of_peek heof
    obtain ⟨count, rfl⟩ : ∃ left, count = left + 1 := ⟨count - 1, by omega⟩
    obtain ⟨more, rfl⟩ : ∃ left, more = left + 1 := ⟨more - 1, by omega⟩
    have hm' : m ≤ depth := by omega
    have hn' : n ≤ deeper := by omega
    refine .mono ?_ (Nat.le_succ m) (Nat.le_succ n)
    rw [extensions, extensions]
    refine .bind_peeks ?_
    rw [h.peek_kind_eq, if_pos hstrong, if_pos hstrong]
    have hlonger := extension_alike hagrees hm' hn' left hmoved heof
    refine .bind_advance (hlonger.bind fun longer _ _ hlast => ?_)
    exact ih m (Nat.lt_succ_self m) hm' hn' hlast (Nat.le_of_succ_le_succ hcount)
      (Nat.le_of_succ_le_succ hmore)
  · have hstrong' : ¬ bound < strength other.peek.kind := by rwa [h.peek_kind_eq]
    exact .of_eq (extensions_of_not_lt inner count left hstrong)
      (extensions_of_not_lt twin more left hstrong') h

theorem expression_alike {bound : Nat} (hbound : lowest ≤ bound)
    (h : InStep pairing m n cursor other)
    (hkind : cursor.current.kind ≠ .eof) :
    Alike pairing m n (expression inner bound) (expression twin bound) cursor other := by
  refine .bind (operand_alike hagrees hm hn h hkind) fun left _ _ h₁ => .bind_remaining ?_
  refine .mono ?_ h₁.left h₁.right
  exact extensions_alike hagrees (Nat.le_trans h₁.left hm) (Nat.le_trans h₁.right hn) hbound
    h₁.self (Nat.le_refl _) (Nat.le_refl _)

/-! ## Statements -/

theorem bindingStatement_alike (h : InStep pairing m n cursor other)
    (hkind : cursor.current.kind ≠ .eof) :
    Alike pairing m n (bindingStatement inner) (bindingStatement twin) cursor other := by
  refine .bind_current h hkind (.bind (expectName_alike h) fun target _ _ h₁ => ?_)
  refine .bind_expect h₁ fun _ _ h₂ _ => ?_
  exact hagrees.bind_next hm hn h₂ (Nat.le_refl _) fun value _ _ h₃ => .closing h₃ _

theorem returnStatement_alike (h : InStep pairing m n cursor other)
    (hkind : cursor.current.kind ≠ .eof) :
    Alike pairing m n (returnStatement inner) (returnStatement twin) cursor other :=
  .bind_current h hkind (hagrees.bind_next hm hn h (Nat.le_refl _) fun _ _ _ h₁ => .closing h₁ _)

omit hagrees hm hn in
theorem signedIncrement_alike (h : InStep pairing m n cursor other)
    (hkind : cursor.current.kind ≠ .eof) :
    Alike pairing m n signedIncrement signedIncrement cursor other :=
  .bind_current h hkind ((expectName_alike h).bind fun _ _ _ h₁ => .closing h₁ _)

omit hagrees hm hn in
theorem incrementOfName_alike (h : InStep pairing m n cursor other)
    (hkind : cursor.current.kind ≠ .eof)
    (hsign : cursor.peek.kind = .doublePlus) :
    Alike pairing m n incrementOfName incrementOfName cursor other := by
  have hnext : cursor.advance.current.kind ≠ .eof := by
    show cursor.peek.kind ≠ .eof
    rw [hsign]
    decide
  rw [incrementOfName, name, LawfulMonad.bind_assoc]
  refine .bind_current h hkind ?_
  rw [LawfulMonad.pure_bind]
  exact .bind_advance (.bind_current h.advance hnext (.closing h.advance _))

theorem expressionStatement_alike (h : InStep pairing m n cursor other)
    (hkind : cursor.current.kind ≠ .eof) :
    Alike pairing m n (expressionStatement inner) (expressionStatement twin) cursor other :=
  .bind_current h hkind ((expression_alike hagrees hm hn (Nat.le_refl _) h hkind).orHole.bind
    fun _ _ _ h₁ => .closing h₁ _)

theorem clauseBody_alike {count more : Nat} (h : InStep pairing m n cursor other)
    (hcount : m < count)
    (hmore : n < more) :
    Alike pairing m n (clauseBody inner count) (clauseBody twin more) cursor other := by
  induction m using Nat.strongRecOn generalizing n cursor other count more with
  | ind m ih =>
  obtain ⟨count, rfl⟩ : ∃ left, count = left + 1 := ⟨count - 1, by omega⟩
  obtain ⟨more, rfl⟩ : ∃ left, more = left + 1 := ⟨more - 1, by omega⟩
  rw [clauseBody, clauseBody]
  refine .bind_peeks ?_
  rw [h.peek_kind_eq]
  split
  · exact .pure h _
  · split
    · exact .bind_complain _ (.fail h)
    next hopen =>
      have heof : cursor.peek.kind ≠ .eof := fun heof => hopen (.inl heof)
      obtain ⟨m, n, rfl, rfl, hmoved⟩ := h.advance_of_peek heof
      have hm' : m ≤ depth := by omega
      have hn' : n ≤ deeper := by omega
      refine .mono ?_ (Nat.le_succ m) (Nat.le_succ n)
      have hfirst :
          Alike pairing m n (inner .statement) (twin .statement) cursor.advance other.advance :=
        hagrees.alike (Nat.le_refl _) hmoved (room_advance (Nat.le_trans h.left hm))
          (room_advance (Nat.le_trans h.right hn)) (hmoved.current_eq heof)
      refine .bind_advance (hfirst.attempt.bind fun first _ _ hlast => ?_)
      have hrest := ih m (Nat.lt_succ_self m) hm' hn' hlast (Nat.lt_of_succ_lt_succ hcount)
        (Nat.lt_of_succ_lt_succ hmore)
      exact hrest.bind fun _ _ _ hend => .pure hend _

theorem clause_alike (h : InStep pairing m n cursor other) (hkind : cursor.current.kind ≠ .eof) :
    Alike pairing m n (clause inner) (clause twin) cursor other := by
  refine .bind_current h hkind ?_
  refine hagrees.bind_next hm hn h (Nat.le_refl _) fun condition _ _ h₁ => ?_
  refine .bind_expect h₁ fun _ _ h₂ _ => .bind_remaining ?_
  have hbody := clauseBody_alike hagrees (Nat.le_trans h₂.left hm) (Nat.le_trans h₂.right hn)
    h₂.self (Nat.lt_succ_self _) (Nat.lt_succ_self _)
  refine (hbody.mono h₂.left h₂.right).bind fun body _ _ h₃ => ?_
  exact .bind_advance (.closing h₃.advance _)

theorem clauses_alike {count more : Nat} (h : InStep pairing m n cursor other) (hcount : m ≤ count)
    (hmore : n ≤ more) :
    Alike pairing m n (clauses inner count) (clauses twin more) cursor other := by
  induction m using Nat.strongRecOn generalizing n cursor other count more with
  | ind m ih =>
  by_cases hcase : cursor.peek.kind = .caseWord
  · have heof : cursor.peek.kind ≠ .eof := by rw [hcase]; decide
    obtain ⟨m, n, rfl, rfl, hmoved⟩ := h.advance_of_peek heof
    obtain ⟨count, rfl⟩ : ∃ left, count = left + 1 := ⟨count - 1, by omega⟩
    obtain ⟨more, rfl⟩ : ∃ left, more = left + 1 := ⟨more - 1, by omega⟩
    have hm' : m ≤ depth := by omega
    have hn' : n ≤ deeper := by omega
    refine .mono ?_ (Nat.le_succ m) (Nat.le_succ n)
    rw [clauses, clauses]
    refine .bind_peeks ?_
    rw [h.peek_kind_eq, if_pos hcase, if_pos hcase]
    refine .bind_advance ((clause_alike hagrees hm' hn' hmoved heof).bind fun first _ _ hlast => ?_)
    have hrest := ih m (Nat.lt_succ_self m) hm' hn' hlast (Nat.le_of_succ_le_succ hcount)
      (Nat.le_of_succ_le_succ hmore)
    exact hrest.bind fun _ _ _ hend => .pure hend _
  · have hcase' : other.peek.kind ≠ .caseWord := by rwa [h.peek_kind_eq]
    exact .of_eq (clauses_of_ne_case inner count hcase) (clauses_of_ne_case twin more hcase') h

theorem subject_alike (h : InStep pairing m n cursor other) :
    Alike pairing m n (subject inner) (subject twin) cursor other := by
  refine .bind_peeks ?_
  rw [h.peek_kind_eq]
  split
  · exact .pure h _
  · exact .bind_advance (hagrees.expression hm hn h (Nat.le_refl _)).orHole

theorem switchStatement_alike (h : InStep pairing m n cursor other)
    (hkind : cursor.current.kind ≠ .eof) :
    Alike pairing m n (switchStatement inner) (switchStatement twin) cursor other := by
  refine .bind_current h hkind (.bind (subject_alike hagrees hm hn h) fun value _ _ h₁ => ?_)
  refine .bind_expect h₁ fun _ _ h₂ _ => .bind_remaining ?_
  have hcases := clauses_alike hagrees (Nat.le_trans h₂.left hm) (Nat.le_trans h₂.right hn) h₂.self
    (Nat.le_refl _) (Nat.le_refl _)
  refine (hcases.mono h₂.left h₂.right).bind fun cases _ _ h₃ => ?_
  exact .bind_expect h₃ fun _ _ h₄ _ => .pure h₄ _

theorem statement_alike (h : InStep pairing m n cursor other) (hkind : cursor.current.kind ≠ .eof) :
    Alike pairing m n (statement inner) (statement twin) cursor other := by
  refine .bind_current h hkind (.bind_peeks ?_)
  rw [h.peek_kind_eq]
  split
  · exact bindingStatement_alike hagrees hm hn h hkind
  · exact returnStatement_alike hagrees hm hn h hkind
  · exact signedIncrement_alike h hkind
  · exact switchStatement_alike hagrees hm hn h hkind
  · split
    next hsign => exact incrementOfName_alike h hkind hsign
    next => exact expressionStatement_alike hagrees hm hn h hkind
  · exact expressionStatement_alike hagrees hm hn h hkind

end

/-! ## All levels -/

section
variable {pairing : Pairing}

theorem expression_of_eof (inner : Inner) (bound : Nat) {cursor : Cursor}
    (h : cursor.current.kind = .eof) :
    expression inner bound cursor = ⟨none, [.noExpression .eof], cursor⟩ := by
  have hoperand : operand inner cursor = ⟨none, [.noExpression .eof], cursor⟩ := by
    rw [operand, bind_current_apply, h]
    simp [noExpression, bind_apply, h]
  exact bind_of_none hoperand

theorem statement_of_eof (inner : Inner) {cursor : Cursor} (h : cursor.current.kind = .eof) :
    statement inner cursor = ⟨some (.expression cursor.current .hole), [.noExpression .eof],
      if cursor.peek.kind = .semicolon then cursor.advance else cursor⟩ := by
  have hbody : orHole (expression inner lowest) cursor =
      ⟨some .hole, [.noExpression .eof], cursor⟩ := by
    simp [orHole, expression_of_eof inner lowest h]
  have hstatement : statement inner cursor = expressionStatement inner cursor := by
    rw [statement, bind_current_apply, bind_peek_apply, h]
  rw [hstatement, expressionStatement, bind_current_apply, bind_of_value hbody]
  simp [closing, bind_apply, skip_apply]

/-- On an end marker, the phrases inside do not matter. -/
theorem level_alike_of_eof (inner twin : Inner) {m n : Nat} {cursor other : Cursor}
    (h : InStep pairing m n cursor other) (hkind : cursor.current.kind = .eof)
    (hcurrent : other.current = cursor.current) (phrase : Phrase) :
    Alike pairing m n (level inner phrase) (level twin phrase) cursor other := by
  have hkind' : other.current.kind = .eof := by rw [hcurrent, hkind]
  cases phrase with
  | statement =>
      have htwin := statement_of_eof twin hkind'
      rw [hcurrent, h.peek_kind_eq] at htwin
      refine .of_eq (statement_of_eof inner hkind) htwin ?_
      split
      · exact h.advance
      · exact h
  | expression bound =>
      exact .of_eq (expression_of_eof inner bound hkind) (expression_of_eof twin bound hkind') h

theorem level_stops (inner : Inner) : StopsAtEnd (level inner) := by
  intro phrase cursor hover
  cases phrase with
  | statement =>
      rw [level, statement_of_eof inner hover.kind_eq, hover.peek_kind_eq]
      rfl
  | expression bound => exact expression_of_eof inner bound hover.kind_eq

theorem level_agrees {depth deeper : Nat} {inner twin : Inner}
    (hagrees : Agrees pairing depth deeper inner twin) :
    Agrees pairing (depth + 1) (deeper + 1) (level inner) (level twin) := by
  refine ⟨?_, level_stops inner, level_stops twin⟩
  intro phrase m n cursor other hbound h hroom hroom' hcurrent
  by_cases hkind : cursor.current.kind = .eof
  · exact level_alike_of_eof inner twin h hkind hcurrent phrase
  · have hkind' : other.current.kind ≠ .eof := by rwa [hcurrent]
    have hm : cursor.rest.length ≤ depth := Nat.le_of_lt_succ (hroom.resolve_left hkind)
    have hn : other.rest.length ≤ deeper := Nat.le_of_lt_succ (hroom'.resolve_left hkind')
    refine .mono ?_ h.left h.right
    cases phrase with
    | statement => exact statement_alike hagrees hm hn h.self hkind
    | expression bound => exact expression_alike hagrees hm hn hbound h.self hkind

/-- Without room for a token, both cursors are on end markers. -/
theorem level_agrees_of_zero {depth deeper : Nat} (hzero : depth = 0 ∨ deeper = 0)
    (inner twin : Inner) : Agrees pairing depth deeper (level inner) (level twin) := by
  refine ⟨?_, level_stops inner, level_stops twin⟩
  intro phrase m n cursor other _ h hroom hroom' hcurrent
  have hkind : cursor.current.kind = .eof := by
    rcases hzero with rfl | rfl
    · exact hroom.resolve_right (Nat.not_lt_zero _)
    · rw [← hcurrent]
      exact hroom'.resolve_right (Nat.not_lt_zero _)
  exact level_alike_of_eof inner twin h hkind hcurrent phrase

theorem exists_level (depth : Nat) : ∃ inner, phrase depth = level inner := by
  cases depth with
  | zero => exact ⟨_, rfl⟩
  | succ depth => exact ⟨_, rfl⟩

/-- As many levels as there are tokens are enough: more levels read the same. -/
theorem phrase_agrees (depth deeper : Nat) :
    Agrees pairing depth deeper (phrase depth) (phrase deeper) := by
  induction depth generalizing deeper with
  | zero =>
      obtain ⟨inner, hinner⟩ := exists_level deeper
      rw [hinner]
      exact level_agrees_of_zero (.inl rfl) _ inner
  | succ depth ih =>
      cases deeper with
      | zero => exact level_agrees_of_zero (.inr rfl) _ _
      | succ deeper => exact level_agrees (ih deeper)

end

/-! ## Programs -/

theorem topLevel_apply (cursor : Cursor) :
    topLevel cursor = statementsUpTo (phrase (cursor.rest.length + 1)) (fun _ => false)
      (cursor.rest.length + 1) cursor := rfl

/-- A program is read the same with more levels and a larger bound than it is given. -/
theorem statementsUpTo_of_topLevel {cursor other : Cursor} {depth count : Nat}
    (h : Aligned cursor other) (hdepth : other.rest.length < depth)
    (hcount : other.rest.length < count) :
    Alike .upToEnds cursor.rest.length other.rest.length topLevel
      (statementsUpTo (phrase depth) (fun _ => false) count) cursor other := by
  have hlast := Nat.lt_succ_self cursor.rest.length
  have hstart : InStep .upToEnds cursor.rest.length other.rest.length cursor other :=
    ⟨h, Nat.le_refl _, Nat.le_refl _⟩
  have hstatements := statementsUpTo_alike (phrase_agrees (cursor.rest.length + 1) depth)
    (fun _ => false) hstart (.inr hlast) (.inr hdepth) (.inr hlast)
    (.inr hcount)
  exact ⟨hstatements.value_eq, hstatements.complaints_eq, hstatements.after⟩

/-- End markers behind the tokens change neither the statements nor the complaints. -/
theorem tokens_append_of_eof (ts : List Token) {ends : List Token}
    (hends : ∀ token ∈ ends, token.kind = .eof) :
    (tokens (ts ++ ends)).statements = (tokens ts).statements ∧
      (tokens (ts ++ ends)).complaints = (tokens ts).complaints := by
  have hnone : ∀ token ∈ ([] : List Token), token.kind = .eof := by simp
  have haligned : Aligned (ofTokens ts) (ofTokens (ts ++ ends)) := by
    have hstart := Aligned.within hnone hends (.eofAt ⟨0, 0⟩) ts
    rw [List.append_nil] at hstart
    exact hstart.advance
  have hlast := Nat.lt_succ_self (ofTokens (ts ++ ends)).rest.length
  have hboth := statementsUpTo_of_topLevel haligned hlast hlast
  have hvalue : (topLevel (ofTokens (ts ++ ends))).value = (topLevel (ofTokens ts)).value :=
    hboth.value_eq
  exact ⟨congrArg (·.getD []) hvalue, hboth.complaints_eq⟩

theorem first_tokens (ts : List Token) : (tokens ts).first = ts.headD (.eofAt ⟨0, 0⟩) := by
  cases ts <;> rfl

/-- All that end markers behind the tokens can change is the token that the program begins at. -/
theorem tokens_append_eq (ts : List Token) {ends : List Token}
    (hends : ∀ token ∈ ends, token.kind = .eof) :
    tokens (ts ++ ends) =
      ⟨(ts ++ ends).headD (.eofAt ⟨0, 0⟩), (tokens ts).statements, (tokens ts).complaints⟩ := by
  obtain ⟨hstatements, hcomplaints⟩ := tokens_append_of_eof ts hends
  rw [← first_tokens, ← hstatements, ← hcomplaints]

theorem eq_eofAt {token : Token} (hkind : token.kind = .eof) (hliteral : token.literal = "") :
    token = .eofAt token.position := by
  rw [Token.eofAt, ← hkind, ← hliteral]

/-- No end marker is needed, and several are as good as one: whatever the tokens are, any number of
end markers behind them leaves the program and the complaints as they are. Where there are no tokens
the program is empty and begins at the first marker, or at one made up if none is given; with the
empty literal that end markers have, only its place can differ. -/
theorem end_markers_add_nothing (ts : List Token) {ends : List Token}
    (hends : ∀ token ∈ ends, token.kind = .eof) :
    (ts ≠ [] → tokens (ts ++ ends) = tokens ts) ∧
      (ts = [] → tokens ts = ⟨.eofAt ⟨0, 0⟩, [], []⟩ ∧
        tokens (ts ++ ends) = ⟨ends.headD (.eofAt ⟨0, 0⟩), [], []⟩ ∧
        ((∀ token ∈ ends, token.literal = "") →
          ∃ place, tokens (ts ++ ends) = ⟨.eofAt place, [], []⟩)) := by
  have hboth := tokens_append_eq ts hends
  constructor
  · intro hts
    obtain ⟨first, rest, rfl⟩ := List.exists_cons_of_ne_nil hts
    exact hboth
  · rintro rfl
    have hmarked : tokens ([] ++ ends) = ⟨ends.headD (.eofAt ⟨0, 0⟩), [], []⟩ := hboth
    refine ⟨rfl, hmarked, fun hliterals => ?_⟩
    rw [hmarked]
    cases ends with
    | nil => exact ⟨⟨0, 0⟩, rfl⟩
    | cons marker others =>
        have hmarker : marker = .eofAt marker.position :=
          eq_eofAt (hends marker List.mem_cons_self) (hliterals marker List.mem_cons_self)
        refine ⟨marker.position, ?_⟩
        rw [List.headD_cons, ← hmarker]

/-- A block that is not closed, behind an operator without its right side: two complaints, with two
end markers and without. -/
theorem end_markers_add_nothing_unclosed :
    let ofLexeme : Kind × String → Token := fun lexeme => ⟨lexeme.1, lexeme.2, .start⟩
    let ts := List.map ofLexeme [(.ifWord, "if"), (.lparen, "("), (.ident, "a"), (.rparen, ")"),
      (.lbrace, "\x7b"), (.int, "1"), (.plus, "+")]
    let ends := [Token.eofAt ⟨1, 11⟩, Token.eofAt ⟨2, 1⟩]
    (∀ token ∈ ends, token.kind = .eof) ∧ tokens (ts ++ ends) = tokens ts ∧
      (tokens ts).complaints = [.noExpression .eof, .expected .rbrace .eof] ∧
      tokens [] = ⟨.eofAt ⟨0, 0⟩, [], []⟩ ∧ tokens ends = ⟨.eofAt ⟨1, 11⟩, [], []⟩ ∧
      ∃ place, tokens ends = ⟨.eofAt place, [], []⟩ := by
  intro ofLexeme ts ends
  have hends : ∀ token ∈ ends, token.kind = .eof := by decide
  obtain ⟨hempty, hmarked, hplace⟩ := (end_markers_add_nothing [] hends).2 rfl
  have hsame := (end_markers_add_nothing ts hends).1 (List.cons_ne_nil _ _)
  exact ⟨hends, hsame, by decide, hempty, hmarked, hplace (by decide)⟩

end Monkey.Parse
