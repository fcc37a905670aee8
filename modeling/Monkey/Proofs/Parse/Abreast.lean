import Monkey.Proofs.Parse.Soundness

/-!
# Two readings side by side

A parser reads a text twice: alone, and with another text behind it. Up to the end of the first text
both cursors have the same tokens ahead, so as long as no parser looks beyond that end, both readings
do the same. `Together` is the contract for two parsers that do so, trusted only where the reading
of the text alone does not complain; its rules follow the parsers' steps. A parser may look ahead
where the current token is no semicolon, for the first text ends in one, or where the token it finds
is no end marker.
-/
namespace Monkey.Parse

open Monkey.Parse.Parser Monkey.Parse.Cursor

/-- The end marker of a text, and the tokens in its place where another text follows. -/
structure Seam where
  eof : Token
  more : List Token
  kind_eof : eof.kind = .eof
  ne_nil : more ≠ []

/-- How many more tokens are left where another text follows. -/
def Seam.extra : Option Seam → Nat
  | none => 0
  | some seam => seam.more.length - 1

/-- Two cursors on one token. Without a seam they have the same tokens behind it; with a seam they
do up to there, and the last of these is a semicolon. -/
inductive Abreast : Option Seam → Cursor → Cursor → Prop where
  | same (cursor : Cursor) : Abreast none cursor cursor
  | apart {seam : Seam} {current : Token} {ahead : List Token}
      (hlast : (ahead.getLastD current).kind = .semicolon)
      (hkinds : ∀ token ∈ current :: ahead, token.kind ≠ .eof) :
      Abreast (some seam) ⟨current, ahead ++ [seam.eof]⟩ ⟨current, ahead ++ seam.more⟩

/-- The next token is in front of the seam. -/
def Sees (cursor : Cursor) : Prop :=
  cursor.current.kind ≠ .semicolon ∨ cursor.peek.kind ≠ .eof

theorem Sees.of_kind {cursor : Cursor} {kind : Kind} (h : cursor.peek.kind = kind)
    (hkind : kind ≠ .eof) : Sees cursor :=
  .inr (h ▸ hkind)

namespace Abreast

variable {seam : Option Seam} {cursor other : Cursor}

theorem current_eq (h : Abreast seam cursor other) : other.current = cursor.current := by
  cases h <;> rfl

theorem length_eq (h : Abreast seam cursor other) :
    other.rest.length = cursor.rest.length + Seam.extra seam := by
  cases h with
  | same => simp [Seam.extra]
  | @apart seam current ahead hlast hkinds =>
      have hmore := List.length_pos_iff.mpr seam.ne_nil
      simp only [List.length_append, List.length_singleton, Seam.extra]
      omega

/-- In front of the seam, both cursors may look ahead and move on. -/
theorem next (h : Abreast seam cursor other) (hsees : Sees cursor) :
    other.peek = cursor.peek ∧ Abreast seam cursor.advance other.advance := by
  cases h with
  | same => exact ⟨rfl, .same _⟩
  | @apart seam current ahead hlast hkinds =>
      cases ahead with
      | nil =>
          have hsemicolon : current.kind = .semicolon := hlast
          rcases hsees with hcurrent | hpeek
          · exact absurd hsemicolon hcurrent
          · exact absurd seam.kind_eof hpeek
      | cons token ahead =>
          have hlater : (ahead.getLastD token).kind = .semicolon := by
            simpa [List.getLastD_eq_getLast?, List.getLast?_cons] using hlast
          exact ⟨rfl, .apart hlater fun found hfound => hkinds found (.tail _ hfound)⟩

/-- One step from cursors that are abreast leaves them so, or leads over the seam. -/
theorem advance_cases (h : Abreast seam cursor other) :
    Abreast seam cursor.advance other.advance ∨
      ∃ found, seam = some found ∧ cursor.advance = ⟨found.eof, []⟩ ∧
        other.advance = ofTokens found.more ∧ other.rest = found.more := by
  cases h with
  | same => exact .inl (.same _)
  | @apart found current ahead hlast hkinds =>
      cases ahead with
      | nil =>
          obtain ⟨first, rest, hmore⟩ := List.exists_cons_of_ne_nil found.ne_nil
          exact .inr ⟨found, rfl, rfl, by simp [hmore, ofTokens], rfl⟩
      | cons token ahead =>
          have habreast : Abreast (some found) ⟨current, token :: ahead ++ [found.eof]⟩
              ⟨current, token :: ahead ++ found.more⟩ := .apart hlast hkinds
          have hkind := hkinds token (by simp)
          exact .inl (habreast.next (.inr hkind)).2

end Abreast

/-- If the first parser does not complain, both have the same value and leave their cursors abreast,
with the first one no further back and as promised by `post`. -/
def Together (seam : Option Seam) (parser twin : Parser α) (cursor other : Cursor)
    (post : α → Cursor → Prop) : Prop :=
  (parser cursor).complaints = [] → ∃ value after behind,
    parser cursor = ⟨some value, [], after⟩ ∧ twin other = ⟨some value, [], behind⟩ ∧
    Abreast seam after behind ∧ after.rest.length ≤ cursor.rest.length ∧ post value after

theorem Parser.bind_current_apply (next : Token → Parser β) (cursor : Cursor) :
    (current >>= next) cursor = next cursor.current cursor := rfl

theorem Parser.bind_peek_apply (next : Token → Parser β) (cursor : Cursor) :
    (peek >>= next) cursor = next cursor.peek cursor := rfl

theorem Parser.bind_advance_apply (next : Unit → Parser β) (cursor : Cursor) :
    (advance >>= next) cursor = next () cursor.advance := rfl

theorem Parser.complaints_of_bind {parser : Parser α} {next : α → Parser β} {cursor : Cursor}
    (h : ((parser >>= next) cursor).complaints = []) : (parser cursor).complaints = [] := by
  rw [bind_apply] at h
  cases hvalue : (parser cursor).value with
  | none => simpa [hvalue] using h
  | some value =>
      rw [hvalue] at h
      exact (List.append_eq_nil_iff.mp h).1

namespace Together

variable {α β : Type} {seam : Option Seam} {parser twin : Parser α} {next follow : α → Parser β}
  {cursor other : Cursor} {post : β → Cursor → Prop} {middle : α → Cursor → Prop}

theorem bind_of {value : α} {after behind : Cursor}
    (hparser : parser cursor = ⟨some value, [], after⟩)
    (htwin : twin other = ⟨some value, [], behind⟩)
    (hlength : after.rest.length ≤ cursor.rest.length)
    (hnext : Together seam (next value) (follow value) after behind post) :
    Together seam (parser >>= next) (twin >>= follow) cursor other post := by
  intro hclean
  rw [bind_of_value hparser] at hclean ⊢
  rw [bind_of_value htwin]
  obtain ⟨found, last, final, hfound, hother, hlast, hshorter, hpost⟩ := hnext hclean
  rw [hfound, hother]
  exact ⟨found, last, final, rfl, rfl, hlast, Nat.le_trans hshorter hlength, hpost⟩

theorem bind (h : Together seam parser twin cursor other middle)
    (hnext : ∀ value after behind, Abreast seam after behind →
      after.rest.length ≤ cursor.rest.length → middle value after →
      Together seam (next value) (follow value) after behind post) :
    Together seam (parser >>= next) (twin >>= follow) cursor other post := by
  intro hclean
  obtain ⟨first, after, behind, hparser, htwin, habreast, hlength, hmiddle⟩ :=
    h (complaints_of_bind hclean)
  exact bind_of hparser htwin hlength (hnext first after behind habreast hlength hmiddle) hclean

theorem of_eq {value : β} {parser twin : Parser β} (habreast : Abreast seam cursor other)
    (hparser : parser cursor = ⟨some value, [], cursor⟩)
    (htwin : twin other = ⟨some value, [], other⟩) (hpost : post value cursor) :
    Together seam parser twin cursor other post :=
  fun _ => ⟨value, cursor, other, hparser, htwin, habreast, Nat.le_refl _, hpost⟩

theorem pure {value : β} (habreast : Abreast seam cursor other) (hpost : post value cursor) :
    Together seam (Pure.pure value : Parser β) (Pure.pure value) cursor other post :=
  of_eq habreast rfl rfl hpost

theorem mono {weaker : α → Cursor → Prop} (h : Together seam parser twin cursor other middle)
    (himp : ∀ value after, middle value after → weaker value after) :
    Together seam parser twin cursor other weaker := by
  intro hclean
  obtain ⟨value, after, behind, hparser, htwin, habreast, hlength, hmiddle⟩ := h hclean
  exact ⟨value, after, behind, hparser, htwin, habreast, hlength, himp _ _ hmiddle⟩

/-- What is known of the first reading holds of it here too. -/
theorem and_cleanly {known : α → Cursor → Prop} (h : Together seam parser twin cursor other middle)
    (hknown : Cleanly parser cursor known) : Together seam parser twin cursor other known := by
  intro hclean
  obtain ⟨value, after, behind, hparser, htwin, habreast, hlength, _⟩ := h hclean
  obtain ⟨found, hfound, hpost⟩ := hknown hclean
  rw [hparser] at hfound hpost
  obtain rfl := Option.some.inj hfound
  exact ⟨value, after, behind, hparser, htwin, habreast, hlength, hpost⟩

/-- What complains is not looked at. -/
theorem of_complaint (h : (parser cursor).complaints ≠ []) :
    Together seam parser twin cursor other middle :=
  fun hclean => absurd hclean h

theorem bind_complain {complaint : Complaint} {next : Unit → Parser β} {twin : Parser β} :
    Together seam (complain complaint >>= next) twin cursor other post :=
  of_complaint (by simp [bind_apply])

theorem bind_remaining {next follow : Nat → Parser β}
    (hnext : Together seam (next cursor.rest.length) (follow other.rest.length) cursor other post) :
    Together seam (remaining >>= next) (remaining >>= follow) cursor other post :=
  hnext

/-- Each reading sees its own next token. -/
theorem bind_peeks {next follow : Token → Parser β}
    (hnext : Together seam (next cursor.peek) (follow other.peek) cursor other post) :
    Together seam (peek >>= next) (peek >>= follow) cursor other post :=
  hnext

section
variable (habreast : Abreast seam cursor other)
include habreast

theorem bind_current {next follow : Token → Parser β}
    (hnext : Together seam (next cursor.current) (follow cursor.current) cursor other post) :
    Together seam (current >>= next) (current >>= follow) cursor other post := by
  have htwin : (current >>= follow) other = follow cursor.current other := by
    rw [bind_current_apply, habreast.current_eq]
  intro hclean
  rw [htwin]
  exact hnext hclean

theorem bind_peek {next follow : Token → Parser β} (hsees : Sees cursor)
    (hnext : Together seam (next cursor.peek) (follow cursor.peek) cursor other post) :
    Together seam (peek >>= next) (peek >>= follow) cursor other post := by
  apply bind_peeks
  rwa [(habreast.next hsees).1]

/-- To move on is safe in front of the seam; what comes next may be what shows it. -/
theorem bind_advance {next follow : Unit → Parser β}
    (hsees : (next () cursor.advance).complaints = [] → Sees cursor)
    (hnext : Abreast seam cursor.advance other.advance →
      Together seam (next ()) (follow ()) cursor.advance other.advance post) :
    Together seam (advance >>= next) (advance >>= follow) cursor other post := by
  intro hclean
  have hmoved := (habreast.next (hsees hclean)).2
  obtain ⟨value, after, behind, hparser, htwin, hlast, hlength, hpost⟩ := hnext hmoved hclean
  have hshorter : cursor.advance.rest.length ≤ cursor.rest.length := by simp
  exact ⟨value, after, behind, hparser, htwin, hlast, Nat.le_trans hlength hshorter, hpost⟩

/-- An expected token is no end marker. -/
theorem bind_expect {wanted : Kind} {next follow : Unit → Parser β} (hwanted : wanted ≠ .eof)
    (hnext : ∀ after behind, Abreast seam after behind →
      after.rest.length ≤ cursor.rest.length → after.current.kind = wanted →
      Together seam (next ()) (follow ()) after behind post) :
    Together seam (expect wanted >>= next) (expect wanted >>= follow) cursor other post := by
  have hexpect : Together seam (expect wanted) (expect wanted) cursor other
      fun _ after => after.current.kind = wanted := by
    intro hclean
    rw [expect_apply] at hclean
    split at hclean
    next hkind =>
        obtain ⟨hpeek, hmoved⟩ := habreast.next (.of_kind hkind hwanted)
        refine ⟨(), cursor.advance, other.advance, ?_, ?_, hmoved, by simp, hkind⟩
        · rw [expect_apply, if_pos hkind]
        · rw [expect_apply, if_pos (hpeek ▸ hkind)]
    next => cases hclean
  exact hexpect.bind fun _ => hnext

theorem closing (hcurrent : cursor.current.kind ≠ .semicolon) (node : Node) :
    Together seam (closing node) (closing node) cursor other fun _ _ => True := by
  obtain ⟨hpeek, hmoved⟩ := habreast.next (.inl hcurrent)
  have hskip : Together seam (skip .semicolon) (skip .semicolon) cursor other
      fun _ _ => True := by
    intro _
    rw [skip_apply, skip_apply, hpeek]
    by_cases hkind : cursor.peek.kind = .semicolon
    · simp only [hkind, if_true]
      exact ⟨(), _, _, rfl, rfl, hmoved, by simp, trivial⟩
    · simp only [hkind, if_false]
      exact ⟨(), _, _, rfl, rfl, habreast, Nat.le_refl _, trivial⟩
  exact hskip.bind fun _ _ _ hlast _ _ => .pure hlast trivial

end

theorem orHole {parser twin : Parser Node} {middle : Node → Cursor → Prop}
    (h : Together seam parser twin cursor other middle) :
    Together seam parser.orHole twin.orHole cursor other middle := by
  intro hclean
  obtain ⟨value, after, behind, hparser, htwin, hrest⟩ := h hclean
  exact ⟨value, after, behind, by simp [Parser.orHole, hparser], by simp [Parser.orHole, htwin],
    hrest⟩

theorem attempt (h : Together seam parser twin cursor other middle) :
    Together seam parser.attempt twin.attempt cursor other
      fun found after => ∃ value, found = some value ∧ middle value after := by
  intro hclean
  obtain ⟨value, after, behind, hparser, htwin, habreast, hlength, hmiddle⟩ := h hclean
  exact ⟨some value, after, behind, by simp [Parser.attempt, hparser],
    by simp [Parser.attempt, htwin], habreast, hlength, value, rfl, hmiddle⟩

end Together

/-! ## Where expressions end -/

/-- An expression does not end in a semicolon, nor does a block. -/
theorem Derives.exists_last {category : Category} {tokens : List Token} {node : Node}
    (h : Derives category tokens node) (hcategory : category = .expression ∨ category = .block) :
    ∃ last, tokens.getLast? = some last ∧ last.kind ≠ .semicolon := by
  induction h with
  | program | binding | returning | signedIncrement | incrementOfName | switchOn | switch
  | expression | clause => simp at hcategory
  | identifier h | text h | truth h | falsity h => simp [h]
  | integer hkind => rcases hkind with h | h <;> simp [h]
  | block _ _ hclosing | group _ _ hclosing | call _ _ _ _ hclosing | array _ _ _ hclosing
  | index _ _ _ hclosing | hash _ _ _ _ _ hclosing =>
      simp [List.getLast?_cons, List.getLast?_append, hclosing]
  | unary _ _ ih | binary _ _ _ _ ih =>
      obtain ⟨last, hsome, hlast⟩ := ih (.inl rfl)
      simp [List.getLast?_cons, List.getLast?_append, hsome, hlast]
  | conditional _ _ _ _ _ _ ih | conditionalElse _ _ _ _ _ _ _ _ _ ih
  | loop _ _ _ _ _ _ _ _ _ _ _ _ ih | function _ _ _ _ _ _ ih =>
      obtain ⟨last, hsome, hlast⟩ := ih (.inr rfl)
      simp [List.getLast?_cons, List.getLast?_append, hsome, hlast]

section
variable {category : Category} (hcategory : category = .expression ∨ category = .block)
  {cursor after : Cursor} {node : Node}
include hcategory

theorem current_ne_of_passes {front tokens : List Token} (hpasses : cursor.Passes tokens after)
    (h : Derives category (front ++ cursor.current :: tokens) node) :
    after.current.kind ≠ .semicolon := by
  obtain ⟨last, hsome, hlast⟩ := h.exists_last hcategory
  rw [List.getLast?_append_cons, List.getLast?_cons, ← List.getLastD_eq_getLast?] at hsome
  rw [hpasses.2, Option.some.inj hsome]
  exact hlast

theorem Reads.current_ne (h : Reads category cursor node after) :
    after.current.kind ≠ .semicolon := by
  obtain ⟨tokens, hpasses, hderives⟩ := h
  have hfront : Derives category ([] ++ cursor.current :: tokens) node := hderives
  exact current_ne_of_passes hcategory hpasses hfront

theorem Follows.current_ne (h : Follows category cursor node after) :
    after.current.kind ≠ .semicolon := by
  obtain ⟨tokens, ⟨_, hcurrent⟩, hderives⟩ := h
  obtain ⟨last, hsome, hlast⟩ := hderives.exists_last hcategory
  rw [hcurrent, List.getLastD_eq_getLast?, hsome]
  exact hlast

end

/-! ## Phrases inside -/

/-- The phrases inside are read alike where the first reading does not complain. -/
def Agree (seam : Option Seam) (inner twin : Inner) : Prop :=
  ∀ phrase, lowest ≤ phrase.bound → ∀ cursor other, Abreast seam cursor other →
    Together seam (inner phrase) (twin phrase) cursor other fun _ _ => True

/-- A phrase that is read at the next token shows that there is one. -/
theorem Sound.sees {inner : Inner} (hsound : Sound inner) {phrase : Phrase}
    (hbound : lowest ≤ phrase.bound) {cursor : Cursor}
    (hclean : (inner phrase cursor.advance).complaints = []) : Sees cursor := by
  obtain ⟨node, _, tokens, _, hderives⟩ := hsound phrase hbound cursor.advance hclean
  exact .inr (kind_ne_of_derives hderives List.mem_cons_self).1

section
variable {seam : Option Seam} {inner twin : Inner} (hsound : Sound inner)
  (hagree : Agree seam inner twin)
include hsound hagree

theorem Agree.follows {phrase : Phrase} (hbound : lowest ≤ phrase.bound) {cursor other : Cursor}
    (hmoved : Abreast seam cursor.advance other.advance) :
    Together seam (inner phrase) (twin phrase) cursor.advance other.advance
      (Follows phrase.category cursor) :=
  (hagree phrase hbound _ _ hmoved).and_cleanly (hsound.follows hbound cursor)

section
variable {β : Type} {post : β → Cursor → Prop} {cursor other : Cursor}
  (habreast : Abreast seam cursor other)
include habreast

theorem bind_next {phrase : Phrase} (hbound : lowest ≤ phrase.bound)
    {next follow : Node → Parser β}
    (hnext : ∀ node after behind, Abreast seam after behind →
      after.rest.length ≤ cursor.advance.rest.length → Follows phrase.category cursor node after →
      Together seam (next node) (follow node) after behind post) :
    Together seam (advance >>= fun _ => orHole (inner phrase) >>= next)
      (advance >>= fun _ => orHole (twin phrase) >>= follow) cursor other post := by
  refine .bind_advance habreast (fun hclean => ?_) fun hmoved => ?_
  · have hfirst : (orHole (inner phrase) cursor.advance).complaints = [] :=
      complaints_of_bind hclean
    exact hsound.sees hbound hfirst
  · exact (hagree.follows hsound hbound hmoved).orHole.bind hnext

theorem bind_next_attempt {phrase : Phrase} (hbound : lowest ≤ phrase.bound)
    {next follow : Option Node → Parser β}
    (hnext : ∀ node after behind, Abreast seam after behind →
      after.rest.length ≤ cursor.advance.rest.length → Follows phrase.category cursor node after →
      Together seam (next (some node)) (follow (some node)) after behind post) :
    Together seam (advance >>= fun _ => attempt (inner phrase) >>= next)
      (advance >>= fun _ => attempt (twin phrase) >>= follow) cursor other post := by
  refine .bind_advance habreast (fun hclean => ?_) fun hmoved => ?_
  · have hfirst : (attempt (inner phrase) cursor.advance).complaints = [] :=
      complaints_of_bind hclean
    exact hsound.sees hbound hfirst
  · refine (hagree.follows hsound hbound hmoved).attempt.bind ?_
    intro found after behind hlast hlength hfound
    obtain ⟨node, rfl, hfollows⟩ := hfound
    exact hnext node after behind hlast hlength hfollows

end

end

/-! ## Loops, one turn at a time -/

theorem length_pos_of_peek {cursor : Cursor} (h : cursor.peek.kind ≠ .eof) :
    0 < cursor.rest.length := by
  obtain ⟨current, _ | ⟨next, rest⟩⟩ := cursor
  · exact absurd rfl h
  · simp

/-- A reading with more values in front of its own. -/
def Reading.prepend (first : List α) (reading : Reading (List α)) : Reading (List α) :=
  ⟨reading.value.map (first ++ ·), reading.complaints, reading.after⟩

theorem Parser.bind_append_apply (first : List α) (parser : Parser (List α)) (cursor : Cursor) :
    (parser >>= fun rest => return first ++ rest) cursor = (parser cursor).prepend first := by
  rw [bind_apply]
  cases hvalue : (parser cursor).value with
  | none => simp [Reading.prepend, hvalue]
  | some rest => simp [Reading.prepend, hvalue]

theorem statementsUpTo_of_closed (inner : Inner) {closes : Kind → Bool} (count : Nat)
    {cursor : Cursor} (h : cursor.current.kind = .eof ∨ closes cursor.current.kind) :
    statementsUpTo inner closes count cursor = ⟨some [], [], cursor⟩ := by
  cases count with
  | zero => rfl
  | succ count =>
      rw [statementsUpTo, bind_current_apply, if_pos h]
      rfl

theorem statementsUpTo_of_statement {inner : Inner} {closes : Kind → Bool} (count : Nat)
    {cursor after : Cursor} {first : Node}
    (hopen : ¬ (cursor.current.kind = .eof ∨ closes cursor.current.kind))
    (hfirst : inner .statement cursor = ⟨some first, [], after⟩) :
    statementsUpTo inner closes (count + 1) cursor =
      (statementsUpTo inner closes count after.advance).prepend [first] := by
  have hattempt : attempt (inner .statement) cursor = ⟨some (some first), [], after⟩ := by
    simp [attempt, hfirst]
  rw [statementsUpTo, bind_current_apply, if_neg hopen, bind_of_value hattempt,
    bind_advance_apply]
  exact bind_append_apply [first] _ _

theorem statement_of_statementsUpTo {inner : Inner} {closes : Kind → Bool} {count : Nat}
    {cursor : Cursor} (hopen : ¬ (cursor.current.kind = .eof ∨ closes cursor.current.kind))
    (hclean : (statementsUpTo inner closes (count + 1) cursor).complaints = []) :
    (inner .statement cursor).complaints = [] := by
  rw [statementsUpTo, bind_current_apply, if_neg hopen] at hclean
  have hfirst : (attempt (inner .statement) cursor).complaints = [] := complaints_of_bind hclean
  exact hfirst

theorem moreOf_of_ne_comma (parser : Parser α) (count : Nat) {cursor : Cursor}
    (h : cursor.peek.kind ≠ .comma) : moreOf parser count cursor = ⟨some [], [], cursor⟩ := by
  cases count with
  | zero => rfl
  | succ count =>
      rw [moreOf, bind_peek_apply, if_neg h]
      rfl

theorem extensions_of_not_lt (inner : Inner) {bound : Nat} (count : Nat) (left : Node)
    {cursor : Cursor} (h : ¬ bound < strength cursor.peek.kind) :
    extensions inner bound count left cursor = ⟨some left, [], cursor⟩ := by
  cases count with
  | zero => rfl
  | succ count =>
      rw [extensions, bind_peek_apply, if_neg h]
      rfl

theorem clauses_of_ne_case (inner : Inner) (count : Nat) {cursor : Cursor}
    (h : cursor.peek.kind ≠ .caseWord) : clauses inner count cursor = ⟨some [], [], cursor⟩ := by
  cases count with
  | zero => rfl
  | succ count =>
      rw [clauses, bind_peek_apply, if_neg h]
      rfl

theorem clauses_of_clause {inner : Inner} (count : Nat) {cursor after : Cursor} {first : Node}
    (hcase : cursor.peek.kind = .caseWord)
    (hfirst : clause inner cursor.advance = ⟨some first, [], after⟩) :
    clauses inner (count + 1) cursor = (clauses inner count after).prepend [first] := by
  rw [clauses, bind_peek_apply, if_pos hcase, bind_advance_apply, bind_of_value hfirst]
  exact bind_append_apply [first] _ _

theorem clause_of_clauses {inner : Inner} {count : Nat} {cursor : Cursor}
    (hcase : cursor.peek.kind = .caseWord)
    (hclean : (clauses inner (count + 1) cursor).complaints = []) :
    (clause inner cursor.advance).complaints = [] := by
  rw [clauses, bind_peek_apply, if_pos hcase, bind_advance_apply] at hclean
  exact complaints_of_bind hclean

end Monkey.Parse
