import Monkey.Proofs.Parse.Lockstep
import Monkey.Proofs.Parse.Relocation
import Monkey.Proofs.Token.Seam

/-!
# Programs behind programs

A text whose tokens end in a semicolon is read to the same statements whatever text follows it. Each
parser reads the two texts alike if the phrases inside it do; no parser looks beyond a semicolon
without complaining that the text is over. Main statements: tokens behind tokens give the statements
of both and the complaints about the second (`semicolon_separates`), and a text on the line below
another gives the statements of both (`source_join`).
-/
namespace Monkey.Parse

open Monkey.Parse.Parser Monkey.Parse.Cursor

/-! ## Lists of statements -/

/-- How a second reading of statements stands to a first one, which came to these nodes and to the
cursor `after`: both stop at the same closing token, or the first text is over and the second
reading goes on behind the seam. -/
inductive Alongside (seam : Option Seam) (twin : Inner) (closes : Kind → Bool) (nodes : List Node)
    (after : Cursor) (reading : Reading (List Node)) : Prop where
  | closed {behind : Cursor} (hreading : reading = ⟨some nodes, [], behind⟩)
      (habreast : Abreast seam after behind)
      (hclosed : after.current.kind = .eof ∨ closes after.current.kind)
  | beyond {found : Seam} {left : Nat} (hseam : seam = some found)
      (hcurrent : after.current = found.eof) (hleft : found.more.length ≤ left)
      (hreading : reading =
        (statementsUpTo twin closes left (ofTokens found.more)).prepend nodes)

theorem Alongside.prepend {seam : Option Seam} {twin : Inner} {closes : Kind → Bool}
    {nodes : List Node} {after : Cursor} {reading : Reading (List Node)} (first : Node)
    (h : Alongside seam twin closes nodes after reading) :
    Alongside seam twin closes (first :: nodes) after (reading.prepend [first]) := by
  cases h with
  | closed hreading habreast hclosed =>
      refine .closed ?_ habreast hclosed
      rw [hreading]
      rfl
  | beyond hseam hcurrent hleft hreading =>
      refine .beyond hseam hcurrent hleft ?_
      rw [hreading]
      simp [Reading.prepend, Function.comp_def]

section
variable {seam : Option Seam} {inner twin : Inner} (hsound : Sound inner)
  (hagree : Agree seam inner twin)
include hsound hagree

omit hsound in
/-- Statements are read alike up to a closing token or the end of the first text. -/
theorem statementsUpTo_alongside (closes : Kind → Bool) {count more : Nat} {cursor other : Cursor}
    (habreast : Abreast seam cursor other) (hcount : cursor.rest.length < count)
    (hmore : other.rest.length < more)
    (hclean : (statementsUpTo inner closes count cursor).complaints = []) :
    ∃ nodes after, statementsUpTo inner closes count cursor = ⟨some nodes, [], after⟩ ∧
      after.rest.length ≤ cursor.rest.length ∧
      Alongside seam twin closes nodes after (statementsUpTo twin closes more other) := by
  induction count generalizing cursor other more with
  | zero => omega
  | succ count ih =>
      by_cases hclosed : cursor.current.kind = .eof ∨ closes cursor.current.kind
      · have hclosed' : other.current.kind = .eof ∨ closes other.current.kind := by
          rwa [habreast.current_eq]
        exact ⟨[], cursor, statementsUpTo_of_closed inner _ hclosed, Nat.le_refl _,
          .closed (statementsUpTo_of_closed twin _ hclosed') habreast hclosed⟩
      · obtain ⟨more, rfl⟩ : ∃ left, more = left + 1 := ⟨more - 1, by omega⟩
        have hopen : ¬ (other.current.kind = .eof ∨ closes other.current.kind) := by
          rwa [habreast.current_eq]
        obtain ⟨first, after, behind, hfirst, htwin, hlast, hlength, _⟩ :=
          hagree .statement (Nat.le_refl _) cursor other habreast
            (statement_of_statementsUpTo hclosed hclean)
        have hgap := hlast.length_eq
        have hstart := habreast.length_eq
        have hadvance := length_rest_advance after
        have hadvance' := length_rest_advance behind
        rw [statementsUpTo_of_statement count hclosed hfirst] at hclean ⊢
        rw [statementsUpTo_of_statement more hopen htwin]
        rcases hlast.advance_cases with hmoved | ⟨found, rfl, hend, hbehind, hrest⟩
        · by_cases hempty : after.rest.length = 0
          · -- behind the last token of all, both lists are over
            have heof : after.advance.current.kind = .eof := by
              rw [List.length_eq_zero_iff] at hempty
              simp [Cursor.advance, Cursor.peek, hempty]
            have heof' : behind.advance.current.kind = .eof := by rw [hmoved.current_eq, heof]
            have hnone : statementsUpTo twin closes more behind.advance =
                ⟨some [], [], behind.advance⟩ := statementsUpTo_of_closed twin more (.inl heof')
            refine ⟨[first], after.advance, ?_, by omega, ?_⟩
            · rw [statementsUpTo_of_closed inner count (.inl heof)]
              rfl
            · exact Alongside.prepend first (.closed hnone hmoved (.inl heof))
          · have hmore' : behind.advance.rest.length < more := by omega
            obtain ⟨nodes, last, hnodes, hshorter, halong⟩ := ih hmoved (by omega) hmore' hclean
            refine ⟨first :: nodes, last, ?_, by omega, halong.prepend first⟩
            rw [hnodes]
            rfl
        · have heof : after.advance.current.kind = .eof := by rw [hend, found.kind_eof]
          refine ⟨[first], after.advance, ?_, by omega, ?_⟩
          · rw [statementsUpTo_of_closed inner count (.inl heof)]
            rfl
          · refine .beyond rfl (by rw [hend]) ?_ (by rw [hbehind])
            rw [← hrest]
            omega

omit hsound in
theorem block_together {cursor other : Cursor} (habreast : Abreast seam cursor other)
    (hopening : cursor.current.kind = .lbrace) :
    Together seam (block inner) (block twin) cursor other fun _ _ => True := by
  have hsees : Sees cursor := .inl (by rw [hopening]; decide)
  refine .bind_current habreast (.bind_advance habreast (fun _ => hsees) fun hmoved => ?_)
  intro hclean
  obtain ⟨nodes, after, hnodes, hlength, halong⟩ :=
    statementsUpTo_alongside hagree (· = .rbrace) hmoved (Nat.lt_succ_self _) (Nat.lt_succ_self _)
      (complaints_of_bind hclean)
  have hstatements : statements inner (· = .rbrace) cursor.advance = ⟨some nodes, [], after⟩ := hnodes
  cases halong with
  | @closed behind hreading hlast hclosed =>
      have htwin : statements twin (· = .rbrace) other.advance = ⟨some nodes, [], behind⟩ := hreading
      refine Together.bind_of hstatements htwin hlength ?_ hclean
      refine .bind_current hlast ?_
      split
      · exact .bind_complain
      · exact .pure hlast trivial
  | @beyond found _ _ hcurrent =>
      rw [bind_of_value hstatements, bind_current_apply, hcurrent, if_pos found.kind_eof] at hclean
      simp [bind_apply] at hclean

/-- Both readings of a block, with what is known of the first. -/
theorem block_together_last {cursor other : Cursor} (habreast : Abreast seam cursor other)
    (hopening : cursor.current.kind = .lbrace) :
    Together seam (block inner) (block twin) cursor other fun _ after =>
      after.current.kind ≠ .semicolon := by
  have hreads := (block_together hagree habreast hopening).and_cleanly (block_sound hsound hopening)
  exact hreads.mono fun _ _ => Reads.current_ne (.inr rfl)

/-! ## Operands -/

section
variable {cursor other : Cursor} (habreast : Abreast seam cursor other)
include habreast

omit hsound hagree in
theorem integer_together :
    Together seam integer integer cursor other fun _ _ => True := by
  refine .bind_current habreast ?_
  split
  · exact .pure habreast trivial
  · exact .bind_complain

omit hsound hagree in
theorem expectName_together :
    Together seam expectName expectName cursor other fun _ after =>
      after.current.kind ≠ .semicolon := by
  refine .bind_expect habreast (by decide) fun after behind hlast _ hkind => ?_
  exact .bind_current hlast (.pure hlast (by rw [hkind]; decide))

theorem unary_together :
    Together seam (unary inner) (unary twin) cursor other fun _ _ => True := by
  refine .bind_current habreast (bind_next hsound hagree habreast (by decide) ?_)
  intro operand after behind hlast _ _
  exact .pure hlast trivial

theorem group_together :
    Together seam (group inner) (group twin) cursor other fun _ _ => True := by
  refine bind_next_attempt hsound hagree habreast (by decide) ?_
  intro body after behind hlast _ _
  exact .bind_expect hlast (by decide) fun _ _ hend _ _ => .pure hend trivial

theorem conditional_together :
    Together seam (conditional inner) (conditional twin) cursor other fun _ _ => True := by
  refine .bind_current habreast (.bind_expect habreast (by decide) fun _ _ h₁ _ _ => ?_)
  refine bind_next hsound hagree h₁ (by decide) fun condition _ _ h₂ _ _ => ?_
  refine .bind_expect h₂ (by decide) fun _ _ h₃ _ _ => ?_
  refine .bind_expect h₃ (by decide) fun _ _ h₄ _ hbrace => ?_
  refine .bind (block_together_last hsound hagree h₄ hbrace) fun consequence c₅ _ h₅ _ hcurrent => ?_
  refine .bind_peek h₅ (.inl hcurrent) ?_
  split
  next helse =>
      have hsees : Sees c₅ := .of_kind helse (by decide)
      refine .bind_advance h₅ (fun _ => hsees) fun h₆ => ?_
      refine .bind_expect h₆ (by decide) fun _ _ h₇ _ hbrace' => ?_
      refine .bind (block_together hagree h₇ hbrace') fun alternative _ _ h₈ _ _ => ?_
      exact .pure h₈ trivial
  next => exact .pure h₅ trivial

theorem loop_together :
    Together seam (loop inner) (loop twin) cursor other fun _ _ => True := by
  refine .bind_current habreast (.bind_expect habreast (by decide) fun _ _ h₁ _ _ => ?_)
  refine bind_next hsound hagree h₁ (by decide) fun init _ _ h₂ _ _ => ?_
  refine .bind_current h₂ ?_
  split
  next => exact .bind_complain
  next =>
      refine bind_next hsound hagree h₂ (by decide) fun condition _ _ h₃ _ _ => ?_
      refine .bind_expect h₃ (by decide) fun _ _ h₄ _ _ => ?_
      refine bind_next hsound hagree h₄ (by decide) fun post _ _ h₅ _ _ => ?_
      refine .bind_expect h₅ (by decide) fun _ _ h₆ _ _ => ?_
      refine .bind_expect h₆ (by decide) fun _ _ h₇ _ hbrace => ?_
      refine .bind (block_together hagree h₇ hbrace) fun body _ _ h₈ _ _ => ?_
      exact .pure h₈ trivial

end

/-! ## Lists between brackets -/

section List
variable {α : Type} {parser copy : Parser α}
  (hitem : ∀ cursor other, Abreast seam cursor other →
    Together seam parser copy cursor other fun _ after => after.current.kind ≠ .semicolon)
include hitem

omit hsound hagree in
theorem moreOf_together {count more : Nat} {cursor other : Cursor}
    (habreast : Abreast seam cursor other) (hcurrent : cursor.current.kind ≠ .semicolon)
    (hcount : cursor.rest.length ≤ count) (hmore : other.rest.length ≤ more) :
    Together seam (moreOf parser count) (moreOf copy more) cursor other fun _ _ => True := by
  induction hlength : cursor.rest.length using Nat.strongRecOn
    generalizing cursor other count more with
  | ind length ih =>
  have hpeek := (habreast.next (.inl hcurrent)).1
  have hgap := habreast.length_eq
  by_cases hcomma : cursor.peek.kind = .comma
  · have hsees : Sees cursor := .of_kind hcomma (by decide)
    have hpos : 0 < cursor.rest.length := length_pos_of_peek (by rw [hcomma]; decide)
    have hadvance := length_rest_advance cursor
    obtain ⟨count, rfl⟩ : ∃ left, count = left + 1 := ⟨count - 1, by omega⟩
    obtain ⟨more, rfl⟩ : ∃ left, more = left + 1 := ⟨more - 1, by omega⟩
    rw [moreOf, moreOf]
    refine .bind_peek habreast hsees ?_
    rw [if_pos hcomma, if_pos hcomma]
    refine .bind_advance habreast (fun _ => hsees) fun hmoved => ?_
    refine .bind (hitem _ _ hmoved) fun first after behind hlast hshorter hkind => ?_
    have hgap' := hlast.length_eq
    have hcount' : after.rest.length ≤ count := by omega
    have hmore' : behind.rest.length ≤ more := by omega
    have hrest := ih after.rest.length (by omega) hlast hkind hcount' hmore' rfl
    exact hrest.bind fun rest _ _ hend _ _ => .pure hend trivial
  · have hnone : other.peek.kind ≠ .comma := by rwa [hpeek]
    exact .of_eq habreast (moreOf_of_ne_comma parser count hcomma)
      (moreOf_of_ne_comma copy more hnone) trivial

omit hsound hagree in
theorem listOf_together {closer : Kind} (hcloser : closer ≠ .eof) {cursor other : Cursor}
    (habreast : Abreast seam cursor other) (hcurrent : cursor.current.kind ≠ .semicolon) :
    Together seam (listOf parser closer) (listOf copy closer) cursor other fun _ _ => True := by
  refine .bind_peek habreast (.inl hcurrent) ?_
  split
  next hclosing =>
      have hsees : Sees cursor := .of_kind hclosing hcloser
      exact .bind_advance habreast (fun _ => hsees) fun hmoved => .pure hmoved trivial
  next =>
      refine .bind (hitem _ _ habreast) fun first _ _ h₁ _ hkind => .bind_remaining ?_
      have hmore := moreOf_together hitem h₁ hkind (Nat.le_refl _) (Nat.le_refl _)
      refine hmore.bind fun rest _ _ h₂ _ _ => ?_
      exact .bind_expect h₂ hcloser fun _ _ h₃ _ _ => .pure h₃ trivial

end List

section
variable {cursor other : Cursor} (habreast : Abreast seam cursor other)
include habreast

omit hsound in
theorem function_together :
    Together seam (function inner) (function twin) cursor other fun _ _ => True := by
  refine .bind_current habreast (.bind_expect habreast (by decide) fun c₁ _ h₁ _ hkind => ?_)
  have hparen : c₁.current.kind ≠ .semicolon := by rw [hkind]; decide
  refine .bind (listOf_together (fun _ _ => expectName_together) (by decide) h₁ hparen) ?_
  intro names _ _ h₂ _ _
  refine .bind_expect h₂ (by decide) fun _ _ h₃ _ hbrace => ?_
  exact .bind (block_together hagree h₃ hbrace) fun _ _ _ h₄ _ _ => .pure h₄ trivial

theorem item_together :
    Together seam (item inner) (item twin) cursor other fun _ after =>
      after.current.kind ≠ .semicolon := by
  refine .bind_advance habreast (hsound.sees (by decide)) fun hmoved => ?_
  exact (hagree.follows hsound (by decide) hmoved).mono fun _ _ => Follows.current_ne (.inl rfl)

theorem items_together {closer : Kind} (hcloser : closer ≠ .eof)
    (hcurrent : cursor.current.kind ≠ .semicolon) :
    Together seam (items inner closer) (items twin closer) cursor other fun _ _ => True :=
  listOf_together (fun _ _ => item_together hsound hagree) hcloser habreast hcurrent

theorem array_together (hcurrent : cursor.current.kind ≠ .semicolon) :
    Together seam (array inner) (array twin) cursor other fun _ _ => True :=
  .bind_current habreast (.bind (items_together hsound hagree habreast (by decide) hcurrent)
    fun _ _ _ hlast _ _ => .pure hlast trivial)

theorem pair_together :
    Together seam (pair inner) (pair twin) cursor other fun _ after =>
      after.current.kind ≠ .semicolon := by
  refine .bind (item_together hsound hagree habreast) fun key _ _ h₁ _ _ => ?_
  refine .bind_expect h₁ (by decide) fun _ _ h₂ _ _ => ?_
  exact .bind (item_together hsound hagree h₂) fun _ _ _ h₃ _ hkind => .pure h₃ hkind

theorem hash_together (hcurrent : cursor.current.kind ≠ .semicolon) :
    Together seam (hash inner) (hash twin) cursor other fun _ _ => True := by
  have hpairs : Together seam (listOf (pair inner) .rbrace) (listOf (pair twin) .rbrace) cursor
      other fun _ _ => True :=
    listOf_together (fun _ _ => pair_together hsound hagree) (by decide) habreast hcurrent
  exact .bind_current habreast (hpairs.bind fun _ _ _ hlast _ _ => .pure hlast trivial)

omit hsound hagree habreast in
theorem noExpression_complains (cursor : Cursor) : (noExpression cursor).complaints ≠ [] := by
  simp [noExpression, bind_apply]

theorem operand_together :
    Together seam (operand inner) (operand twin) cursor other fun _ _ => True := by
  refine .bind_current habreast ?_
  split
  · exact .pure habreast trivial
  · exact integer_together habreast
  · exact integer_together habreast
  · exact .pure habreast trivial
  · exact .pure habreast trivial
  · exact .pure habreast trivial
  · exact unary_together hsound hagree habreast
  · exact unary_together hsound hagree habreast
  · exact group_together hsound hagree habreast
  · exact conditional_together hsound hagree habreast
  · exact loop_together hsound hagree habreast
  · exact function_together hagree habreast
  next hkind => exact array_together hsound hagree habreast (by rw [hkind]; decide)
  next hkind => exact hash_together hsound hagree habreast (by rw [hkind]; decide)
  · exact .of_complaint (noExpression_complains cursor)

/-! ## Expressions -/

theorem extension_together (left : Node) (hcurrent : cursor.current.kind ≠ .semicolon) :
    Together seam (extension inner left) (extension twin left) cursor other fun _ _ => True := by
  refine .bind_current habreast ?_
  split
  · exact .bind (items_together hsound hagree habreast (by decide) hcurrent)
      fun _ _ _ hlast _ _ => .pure hlast trivial
  · refine bind_next hsound hagree habreast (by decide) fun key _ _ h₁ _ _ => ?_
    exact .bind_expect h₁ (by decide) fun _ _ h₂ _ _ => .pure h₂ trivial
  · have hbound : lowest ≤ (Phrase.expression (strength cursor.current.kind)).bound :=
      lowest_le_strength _
    exact bind_next hsound hagree habreast hbound fun _ _ _ hlast _ _ => .pure hlast trivial

end

/-- The tokens so far stand for the operand so far, so they do not end in a semicolon. -/
theorem extensions_together {bound : Nat} (hbound : lowest ≤ bound) {count more : Nat}
    {tokens : List Token} {left : Node} (hleft : Derives .expression tokens left)
    {cursor other : Cursor} (habreast : Abreast seam cursor other)
    (hcurrent : cursor.current.kind ≠ .semicolon) (hcount : cursor.rest.length ≤ count)
    (hmore : other.rest.length ≤ more) :
    Together seam (extensions inner bound count left) (extensions twin bound more left) cursor other
      fun _ _ => True := by
  induction hlength : cursor.rest.length using Nat.strongRecOn
    generalizing cursor other count more tokens left with
  | ind length ih =>
  have hpeek := (habreast.next (.inl hcurrent)).1
  have hgap := habreast.length_eq
  by_cases hstrong : bound < strength cursor.peek.kind
  · have hlowest : lowest < strength cursor.peek.kind := Nat.lt_of_le_of_lt hbound hstrong
    have heof : cursor.peek.kind ≠ .eof := fun heof => by simp [heof, strength] at hlowest
    have hsign : cursor.peek.kind ≠ .semicolon := fun hkind => by simp [hkind, strength] at hlowest
    have hpos := length_pos_of_peek heof
    have hadvance := length_rest_advance cursor
    obtain ⟨count, rfl⟩ : ∃ left, count = left + 1 := ⟨count - 1, by omega⟩
    obtain ⟨more, rfl⟩ : ∃ left, more = left + 1 := ⟨more - 1, by omega⟩
    rw [extensions, extensions]
    refine .bind_peek habreast (.inr heof) ?_
    rw [if_pos hstrong, if_pos hstrong]
    refine .bind_advance habreast (fun _ => .inr heof) fun hmoved => ?_
    have hextension := (extension_together hsound hagree hmoved left hsign).and_cleanly
      (extension_sound hsound hleft hlowest)
    refine hextension.bind fun longer after behind hlast hshorter hread => ?_
    obtain ⟨tokens', hpasses, hlonger⟩ := hread
    have hgap' := hlast.length_eq
    have hcount' : after.rest.length ≤ count := by omega
    have hmore' : behind.rest.length ≤ more := by omega
    have hkind := current_ne_of_passes (.inl rfl) hpasses hlonger
    exact ih after.rest.length (by omega) hlonger hlast hkind hcount' hmore' rfl
  · have hnone : ¬ bound < strength other.peek.kind := by rwa [hpeek]
    exact .of_eq habreast (extensions_of_not_lt inner count left hstrong)
      (extensions_of_not_lt twin more left hnone) trivial

section
variable {cursor other : Cursor} (habreast : Abreast seam cursor other)
include habreast

theorem expression_together {bound : Nat} (hbound : lowest ≤ bound) :
    Together seam (expression inner bound) (expression twin bound) cursor other
      fun _ after => after.current.kind ≠ .semicolon := by
  have hboth : Together seam (expression inner bound) (expression twin bound) cursor other
      fun _ _ => True := by
    have hoperand := (operand_together hsound hagree habreast).and_cleanly
      (operand_sound hsound cursor)
    refine hoperand.bind fun left after behind hlast _ hreads => .bind_remaining ?_
    have hkind := hreads.current_ne (.inl rfl)
    obtain ⟨tokens, _, hleft⟩ := hreads
    exact extensions_together hsound hagree hbound hleft hlast hkind (Nat.le_refl _) (Nat.le_refl _)
  have hreads := hboth.and_cleanly (expression_sound hsound bound hbound cursor)
  exact hreads.mono fun _ _ => Reads.current_ne (.inl rfl)

/-! ## Statements -/

theorem bindingStatement_together :
    Together seam (bindingStatement inner) (bindingStatement twin) cursor other
      fun _ _ => True := by
  refine .bind_current habreast (.bind (expectName_together habreast) ?_)
  intro target _ _ h₁ _ _
  refine .bind_expect h₁ (by decide) fun _ _ h₂ _ _ => ?_
  refine bind_next hsound hagree h₂ (by decide) fun value _ _ h₃ _ hfollows => ?_
  exact .closing h₃ (hfollows.current_ne (.inl rfl)) _

theorem returnStatement_together :
    Together seam (returnStatement inner) (returnStatement twin) cursor other fun _ _ => True := by
  refine .bind_current habreast ?_
  refine bind_next hsound hagree habreast (by decide) fun value _ _ h₁ _ hfollows => ?_
  exact .closing h₁ (hfollows.current_ne (.inl rfl)) _

omit hsound hagree in
theorem signedIncrement_together :
    Together seam signedIncrement signedIncrement cursor other fun _ _ => True :=
  .bind_current habreast (.bind (expectName_together habreast) fun _ _ _ hlast _ hkind =>
    .closing hlast hkind _)

omit hsound hagree in
theorem incrementOfName_together (hsign : cursor.peek.kind = .doublePlus) :
    Together seam incrementOfName incrementOfName cursor other fun _ _ => True := by
  have hsees : Sees cursor := .of_kind hsign (by decide)
  have hkind : cursor.advance.current.kind ≠ .semicolon := by
    show cursor.peek.kind ≠ .semicolon
    rw [hsign]
    decide
  have hname : Together seam name name cursor other fun _ after => after = cursor :=
    .bind_current habreast (.pure habreast rfl)
  refine hname.bind ?_
  rintro target _ behind h₁ _ rfl
  refine .bind_advance h₁ (fun _ => hsees) fun h₂ => .bind_current h₂ ?_
  exact .closing h₂ hkind _

theorem expressionStatement_together :
    Together seam (expressionStatement inner) (expressionStatement twin) cursor other
      fun _ _ => True := by
  have hexpression := expression_together hsound hagree habreast (Nat.le_refl lowest)
  exact .bind_current habreast (hexpression.orHole.bind fun _ _ _ hlast _ hkind =>
    .closing hlast hkind _)

end

/-- A clause that is not closed when the first text is over is complained about. -/
theorem clauseBody_together {count more : Nat} {cursor other : Cursor}
    (habreast : Abreast seam cursor other) (hcount : cursor.rest.length < count)
    (hmore : other.rest.length < more) :
    Together seam (clauseBody inner count) (clauseBody twin more) cursor other
      fun _ _ => True := by
  induction count generalizing cursor other more with
  | zero => omega
  | succ count ih =>
      obtain ⟨more, rfl⟩ : ∃ left, more = left + 1 := ⟨more - 1, by omega⟩
      have hgap := habreast.length_eq
      rw [clauseBody, clauseBody]
      by_cases heof : cursor.peek.kind = .eof
      · refine .of_complaint ?_
        rw [bind_peek_apply, if_neg (by rw [heof]; decide), if_pos (.inl heof)]
        simp [bind_apply]
      · refine .bind_peek habreast (.inr heof) ?_
        split
        · exact .pure habreast trivial
        · split
          · exact .bind_complain
          · refine bind_next_attempt hsound hagree habreast (by decide) ?_
            intro first after behind hlast _ hfollows
            obtain ⟨tokens, hpasses, hderives⟩ := hfollows
            have hshorter := hpasses.length_lt (hderives.ne_nil (by decide))
            have hgap' := hlast.length_eq
            have hmore' : behind.rest.length < more := by omega
            exact (ih hlast (by omega) hmore').bind fun _ _ _ hend _ _ => .pure hend trivial

theorem clause_together {cursor other : Cursor} (habreast : Abreast seam cursor other) :
    Together seam (clause inner) (clause twin) cursor other fun _ _ => True := by
  refine .bind_current habreast ?_
  refine bind_next hsound hagree habreast (by decide) fun condition _ _ h₁ _ _ => ?_
  refine .bind_expect h₁ (by decide) fun c₂ _ h₂ _ _ => .bind_remaining ?_
  have hbody := (clauseBody_together hsound hagree h₂ (Nat.lt_succ_self _)
    (Nat.lt_succ_self _)).and_cleanly (clauseBody_sound hsound _ c₂ (Nat.lt_succ_self _))
  refine hbody.bind fun body c₃ _ h₃ _ hread => ?_
  obtain ⟨_, _, _, _, hbreak⟩ := hread
  have hsees : Sees c₃ := .of_kind hbreak (by decide)
  have hkind : c₃.advance.current.kind ≠ .semicolon := by
    show c₃.peek.kind ≠ .semicolon
    rw [hbreak]
    decide
  exact .bind_advance h₃ (fun _ => hsees) fun h₄ => .closing h₄ hkind _

/-- Clauses are read alike, unless the first text is over where the next one could begin. -/
theorem clauses_alongside {count more : Nat} {cursor other : Cursor}
    (habreast : Abreast seam cursor other) (hcount : cursor.rest.length ≤ count)
    (hmore : other.rest.length ≤ more) (hclean : (clauses inner count cursor).complaints = []) :
    ∃ nodes after, clauses inner count cursor = ⟨some nodes, [], after⟩ ∧
      after.rest.length ≤ cursor.rest.length ∧
      (after.peek.kind = .eof ∨
        ∃ behind, clauses twin more other = ⟨some nodes, [], behind⟩ ∧
          Abreast seam after behind) := by
  induction hlength : cursor.rest.length using Nat.strongRecOn
    generalizing cursor other count more with
  | ind length ih =>
  have hgap := habreast.length_eq
  by_cases hcase : cursor.peek.kind = .caseWord
  · obtain ⟨hpeek, hmoved⟩ := habreast.next (.of_kind hcase (by decide))
    have hpos : 0 < cursor.rest.length := length_pos_of_peek (by rw [hcase]; decide)
    have hadvance := length_rest_advance cursor
    obtain ⟨count, rfl⟩ : ∃ left, count = left + 1 := ⟨count - 1, by omega⟩
    obtain ⟨more, rfl⟩ : ∃ left, more = left + 1 := ⟨more - 1, by omega⟩
    obtain ⟨first, after, behind, hfirst, htwin, hlast, hshorter, _⟩ :=
      clause_together hsound hagree hmoved (clause_of_clauses hcase hclean)
    rw [clauses_of_clause count hcase hfirst] at hclean ⊢
    rw [clauses_of_clause more (hpeek ▸ hcase) htwin]
    have hgap' := hlast.length_eq
    have hmore' : behind.rest.length ≤ more := by omega
    obtain ⟨nodes, last, hnodes, hend, hcases⟩ :=
      ih after.rest.length (by omega) hlast (by omega) hmore' hclean rfl
    rw [hnodes]
    refine ⟨first :: nodes, last, rfl, by omega, hcases.imp_right ?_⟩
    rintro ⟨final, hfinal, habreast'⟩
    rw [hfinal]
    exact ⟨final, rfl, habreast'⟩
  · refine ⟨[], cursor, clauses_of_ne_case inner count hcase, by omega, ?_⟩
    by_cases heof : cursor.peek.kind = .eof
    · exact .inl heof
    · have hpeek := (habreast.next (.inr heof)).1
      exact .inr ⟨other, clauses_of_ne_case twin more (by rwa [hpeek]), habreast⟩

section
variable {cursor other : Cursor} (habreast : Abreast seam cursor other)
include habreast

theorem subject_together (hword : cursor.current.kind = .switchWord) :
    Together seam (subject inner) (subject twin) cursor other fun _ _ => True := by
  refine .bind_peek habreast (.inl (by rw [hword]; decide)) ?_
  split
  · exact .pure habreast trivial
  · refine .bind_advance habreast (fun hclean => ?_) fun hmoved => ?_
    · have hinner : (inner (.expression lowest) cursor.advance).complaints = [] := hclean
      exact hsound.sees (by decide) hinner
    · exact (hagree.follows hsound (by decide) hmoved).orHole.mono fun _ _ _ => trivial

theorem switchStatement_together (hword : cursor.current.kind = .switchWord) :
    Together seam (switchStatement inner) (switchStatement twin) cursor other
      fun _ _ => True := by
  refine .bind_current habreast ?_
  refine .bind (subject_together hsound hagree habreast hword) fun value _ _ h₁ _ _ => ?_
  refine .bind_expect h₁ (by decide) fun c₂ d₂ h₂ _ _ => .bind_remaining ?_
  intro hclean
  obtain ⟨nodes, c₃, hnodes, hlength, heof | ⟨d₃, hcopies, h₃⟩⟩ :=
    clauses_alongside hsound hagree h₂ (Nat.le_refl _) (Nat.le_refl _) (complaints_of_bind hclean)
  · -- the closing brace is missing
    have hexpect : (expect .rbrace c₃).complaints ≠ [] := by simp [expect_apply, heof]
    rw [bind_of_value hnodes] at hclean
    exact absurd (complaints_of_bind hclean) hexpect
  · refine Together.bind_of hnodes hcopies hlength ?_ hclean
    exact .bind_expect h₃ (by decide) fun _ _ h₄ _ _ => .pure h₄ trivial

theorem statement_together :
    Together seam (statement inner) (statement twin) cursor other fun _ _ => True := by
  refine .bind_current habreast (.bind_peeks ?_)
  split
  next => exact bindingStatement_together hsound hagree habreast
  next => exact returnStatement_together hsound hagree habreast
  next => exact signedIncrement_together habreast
  next hword => exact switchStatement_together hsound hagree habreast hword
  next hname =>
      have hsees : Sees cursor := .inl (by rw [hname]; decide)
      rw [(habreast.next hsees).1]
      split
      next hsign => exact incrementOfName_together habreast hsign
      next => exact expressionStatement_together hsound hagree habreast
  next => exact expressionStatement_together hsound hagree habreast

end

/-! ## All levels -/

theorem level_agree : Agree seam (level inner) (level twin) := by
  intro phrase hbound cursor other habreast
  cases phrase with
  | statement => exact statement_together hsound hagree habreast
  | expression bound =>
      exact (expression_together hsound hagree habreast hbound).mono fun _ _ _ => trivial

end

/-- More levels read what fewer levels read without complaint. -/
theorem phrase_agree (seam : Option Seam) {depth deeper : Nat} (h : depth ≤ deeper) :
    Agree seam (phrase depth) (phrase deeper) := by
  have hnone (twin : Inner) : Agree seam (fun _ => noExpression) twin :=
    fun _ _ cursor _ _ => .of_complaint (noExpression_complains cursor)
  have hsound : Sound fun _ => noExpression := fun _ _ _ => .bind_current .bind_complain
  induction depth generalizing deeper with
  | zero =>
      cases deeper with
      | zero => exact level_agree hsound (hnone _)
      | succ deeper => exact level_agree hsound (hnone _)
  | succ depth ih =>
      obtain ⟨deeper, rfl⟩ : ∃ left, deeper = left + 1 := ⟨deeper - 1, by omega⟩
      exact level_agree (phrase_sound depth) (ih (by omega))

/-! ## Programs -/

/-- Where a list of statements cannot go on, it is what has been read of it. -/
theorem exists_value_statementsUpTo (inner : Inner) (closes : Kind → Bool) (count : Nat)
    (cursor : Cursor) : ∃ nodes, (statementsUpTo inner closes count cursor).value = some nodes := by
  induction count generalizing cursor with
  | zero => exact ⟨[], rfl⟩
  | succ count ih =>
      by_cases hclosed : cursor.current.kind = .eof ∨ closes cursor.current.kind
      · exact ⟨[], by rw [statementsUpTo_of_closed inner _ hclosed]⟩
      · obtain ⟨nodes, hnodes⟩ := ih (inner .statement cursor).after.advance
        refine ⟨(inner .statement cursor).value.toList ++ nodes, ?_⟩
        have hattempt : attempt (inner .statement) cursor =
            ⟨some (inner .statement cursor).value, (inner .statement cursor).complaints,
              (inner .statement cursor).after⟩ := rfl
        rw [statementsUpTo, bind_current_apply, if_neg hclosed, bind_of_value hattempt,
          bind_advance_apply, bind_append_apply, Reading.prepend, hnodes]
        rfl

theorem topLevel_append {seam : Seam} {cursor other : Cursor}
    (habreast : Abreast (some seam) cursor other) (hclean : (topLevel cursor).complaints = []) :
    ∃ nodes others after, topLevel cursor = ⟨some nodes, [], after⟩ ∧
      (topLevel (ofTokens seam.more)).value = some others ∧
      (topLevel other).value = some (nodes ++ others) ∧
      (topLevel other).complaints = (topLevel (ofTokens seam.more)).complaints := by
  have hgap := habreast.length_eq
  have hagree := phrase_agree (some seam)
    (show cursor.rest.length + 1 ≤ other.rest.length + 1 by omega)
  obtain ⟨nodes, after, hnodes, _, halong⟩ := statementsUpTo_alongside hagree (fun _ => false)
    habreast (Nat.lt_succ_self _) (Nat.lt_succ_self _) hclean
  cases halong with
  | closed _ hlast hclosed =>
      -- in front of the seam there is no end marker
      have hend := hclosed.resolve_right Bool.false_ne_true
      cases hlast with
      | apart _ hkinds => exact absurd hend (hkinds _ (by simp))
  | @beyond found left hseam _ hleft hreading =>
      obtain rfl := Option.some.inj hseam
      obtain ⟨first, rest, hsplit⟩ := List.exists_cons_of_ne_nil seam.ne_nil
      have hlength : seam.more.length = (ofTokens seam.more).rest.length + 1 := by
        simp [hsplit, ofTokens]
      have hdepth : (ofTokens seam.more).rest.length < other.rest.length + 1 := by
        simp only [Seam.extra] at hgap
        omega
      have hmore := statementsUpTo_of_topLevel (.refl (ofTokens seam.more)) hdepth
        (show _ < left by omega)
      obtain ⟨others, hothers⟩ : ∃ others, (topLevel (ofTokens seam.more)).value = some others :=
        exists_value_statementsUpTo _ _ _ _
      refine ⟨nodes, others, after, hnodes, hothers, ?_⟩
      rw [topLevel_apply other, hreading, Reading.prepend, hmore.value_eq, hothers]
      exact ⟨rfl, hmore.complaints_eq⟩

/-- Tokens that end in a semicolon and are read without complaint, with other tokens in the place of
their end marker, give the statements of both and the complaints about the others. -/
theorem tokens_append {ts : List Token} {last : Token} (hts : ∀ token ∈ ts, token.kind ≠ .eof)
    (hlast : ts.getLast? = some last) (hsemicolon : last.kind = .semicolon) (seam : Seam)
    (hclean : (tokens (ts ++ [seam.eof])).isClean) :
    (tokens (ts ++ seam.more)).statements =
        (tokens (ts ++ [seam.eof])).statements ++ (tokens seam.more).statements ∧
      (tokens (ts ++ seam.more)).complaints = (tokens seam.more).complaints := by
  obtain ⟨first, ahead, rfl⟩ : ∃ first ahead, ts = first :: ahead :=
    List.exists_cons_of_ne_nil (by rintro rfl; simp at hlast)
  have hcurrent : (ahead.getLastD first).kind = .semicolon := by
    rw [List.getLast?_cons, ← List.getLastD_eq_getLast?] at hlast
    rwa [Option.some.inj hlast]
  have habreast : Abreast (some seam) (ofTokens (first :: ahead ++ [seam.eof]))
      (ofTokens (first :: ahead ++ seam.more)) := .apart hcurrent hts
  obtain ⟨nodes, others, after, hnodes, hothers, hboth, hcomplaints⟩ :=
    topLevel_append habreast (List.isEmpty_iff.mp hclean)
  simp only [tokens, hnodes, hothers, hboth]
  exact ⟨rfl, hcomplaints⟩

/-- Programs are put together at a semicolon, and complaints stay where they belong: tokens that end
in a semicolon and are read without complaint give the same statements whatever follows them, and
what follows, well formed or not, is read and complained about as it is alone. -/
theorem semicolon_separates {ts others : List Token} (hts : ∀ token ∈ ts, token.kind ≠ .eof)
    (hlast : ts.getLast?.map (·.kind) = some .semicolon) (hclean : (tokens ts).isClean) :
    (tokens (ts ++ others)).statements = (tokens ts).statements ++ (tokens others).statements ∧
      (tokens (ts ++ others)).complaints = (tokens others).complaints := by
  have hcomplaints : (tokens ts).complaints = [] := List.isEmpty_iff.mp hclean
  by_cases hothers : others = []
  · subst hothers
    rw [List.append_nil, hcomplaints]
    exact ⟨(List.append_nil _).symm, rfl⟩
  · obtain ⟨last, hsome, hkind⟩ := Option.map_eq_some_iff.mp hlast
    let seam : Seam := ⟨.eofAt .start, others, rfl, hothers⟩
    obtain ⟨hstatements, hnone⟩ :=
      tokens_append_of_eof ts (List.forall_mem_singleton.mpr seam.kind_eof)
    have hsame : (tokens (ts ++ [seam.eof])).isClean := by
      rw [Parsed.isClean, hnone, hcomplaints]
      rfl
    rw [← hstatements]
    exact tokens_append hts hsome hkind seam hsame

/-- A binding, and behind it a binding without a name and a call that is not closed. -/
theorem semicolon_separates_malformed :
    let ofLexeme : Kind × String → Token := fun lexeme => ⟨lexeme.1, lexeme.2, .start⟩
    let ts := List.map ofLexeme [(.letWord, "let"), (.ident, "a"), (.assign, "="), (.int, "1"),
      (.semicolon, ";")]
    let others := List.map ofLexeme [(.letWord, "let"), (.int, "5"), (.semicolon, ";"),
      (.ident, "f"), (.lparen, "("), (.int, "1"), (.semicolon, ";")]
    (tokens (ts ++ others)).statements = (tokens ts).statements ++ (tokens others).statements ∧
      (tokens (ts ++ others)).complaints = (tokens others).complaints ∧
      (tokens others).complaints = [.expected .ident .int, .expected .rparen .semicolon] := by
  intro ofLexeme ts others
  have hclean : (tokens ts).isClean := by decide
  obtain ⟨hstatements, hcomplaints⟩ := @semicolon_separates ts others (by decide) rfl hclean
  exact ⟨hstatements, hcomplaints, by decide⟩

/-! ## Texts -/

/-- What is parsed without complaint holds no illegal token. -/
theorem kind_ne_illegal_of_isClean {ts : List Token} {eof : Token}
    (hts : ∀ token ∈ ts, token.kind ≠ .eof) (heof : eof.kind = .eof)
    (hclean : (tokens (ts ++ [eof])).isClean) : ∀ token ∈ ts, token.kind ≠ .illegal := by
  obtain ⟨parts, rfl, _, hparts⟩ := exists_parts_of_isClean hts heof hclean
  have hderives : Derives .program (yield parts) (.program default (trees parts)) := .program hparts
  exact fun token hmem => (kind_ne_of_derives hderives hmem).2.1

/-- A clean text that ends in a semicolon can be followed by another. The statements of the second
stand as many lines further down as the first has. -/
theorem source_join {first second : String} (hfirst : (source first).isClean)
    (hsecond : (source second).isClean)
    (hlast : (Token.ofSource first).dropLast.getLast?.map (·.kind) = some .semicolon) :
    (source (first ++ "\n" ++ second)).isClean ∧
      (source (first ++ "\n" ++ second)).statements =
        (source first).statements ++
          (source second).statements.map
            (·.relocate (.down (first.toList.count '\n' + 1))) := by
  obtain ⟨ts, eof, htokens, heof, hts⟩ := Token.ofSource_eq_concat first
  obtain ⟨others, last, hothers, _, _⟩ := Token.ofSource_eq_concat second
  rw [source, htokens] at hfirst
  have hlegal : ∀ token ∈ Token.ofSource first, token.kind ≠ .illegal := by
    intro token hmem
    rw [htokens, List.mem_append, List.mem_singleton] at hmem
    rcases hmem with hmem | rfl
    · exact kind_ne_illegal_of_isClean hts heof hfirst token hmem
    · simp [heof]
  rw [htokens, List.dropLast_concat] at hlast
  obtain ⟨semicolon, hsemicolon, hkind⟩ := Option.map_eq_some_iff.mp hlast
  have hne : Token.ofSource second ≠ [] := by simp [hothers]
  have hmoved := tokens_relocate (.down (first.toList.count '\n' + 1)) hne
  let seam : Seam :=
    ⟨eof, (Token.ofSource second).map (·.relocate (.down (first.toList.count '\n' + 1))), heof,
      by simpa using hne⟩
  have hmore : (tokens seam.more).isClean := by
    rw [hmoved]
    exact hsecond
  obtain ⟨hstatements, hcomplaints⟩ := tokens_append hts hsemicolon hkind seam hfirst
  have hjoined : Token.ofSource (first ++ "\n" ++ second) = ts ++ seam.more := by
    rw [Token.ofSource_join hlegal, htokens, List.dropLast_concat]
  rw [source, hjoined, source, htokens]
  refine ⟨?_, ?_⟩
  · rwa [Parsed.isClean, hcomplaints]
  · rw [hstatements, hmoved]
    rfl

end Monkey.Parse
