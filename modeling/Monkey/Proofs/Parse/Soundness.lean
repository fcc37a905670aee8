import Monkey.Parse.Program
import Monkey.Proofs.Parse.Reading

/-!
# What is read without complaint is in the grammar

Each parser is sound if the phrases inside it are: where it does not complain, the tokens from the
cursor it starts at to the one it ends at stand for its tree. The levels of the grammar are tied
together by induction on their number. Main statement: tokens that are parsed without complaint are
those of a program, all of them and in their order.
-/
namespace Monkey.Parse

open Monkey.Parse.Parser Monkey.Parse.Cursor

/-- From the current token on, the tokens passed stand for the tree. -/
def Reads (category : Category) (cursor : Cursor) (node : Node) (after : Cursor) : Prop :=
  ∃ tokens, cursor.Passes tokens after ∧ Derives category (cursor.current :: tokens) node

/-- The tokens passed behind the current one stand for the tree. -/
def Follows (category : Category) (cursor : Cursor) (node : Node) (after : Cursor) : Prop :=
  ∃ tokens, cursor.Passes tokens after ∧ Derives category tokens node

/-- The strength that operators in a phrase must exceed. -/
def Phrase.bound : Phrase → Nat
  | .statement => lowest
  | .expression strength => strength

/-- A bound below the lowest strength would take any token for an operator. -/
def Sound (inner : Inner) : Prop :=
  ∀ phrase, lowest ≤ phrase.bound → ∀ cursor,
    Cleanly (inner phrase) cursor (Reads phrase.category cursor)

/-- Kinds that no phrase has. -/
theorem kind_ne_of_derives {category : Category} {tokens : List Token} {node : Node}
    (h : Derives category tokens node) {token : Token} (htoken : token ∈ tokens) :
    token.kind ≠ .eof ∧ token.kind ≠ .illegal ∧ token.kind ≠ .and := by
  have absent (kind : Kind) (hkind : kind ∈ accountedKinds) (hclause : perClause kind = 0)
      (hentry : perEntry kind = 0) : token.kind ≠ kind := by
    have hzero := (occurrences_of_derives hkind h).trans (tally_eq_zero hclause hentry node)
    exact (occurrences_eq_zero_iff kind tokens).mp hzero token htoken
  exact ⟨absent .eof (by decide) rfl rfl, absent .illegal (by decide) rfl rfl,
    absent .and (by decide) rfl rfl⟩

/-- A phrase at the next token shows that there is a next token. -/
theorem Reads.follows {category : Category} {cursor after : Cursor} {node : Node}
    (h : Reads category cursor.advance node after) : Follows category cursor node after := by
  obtain ⟨tokens, hpasses, hderives⟩ := h
  have hkind : cursor.peek.kind ≠ .eof := (kind_ne_of_derives hderives List.mem_cons_self).1
  exact ⟨_, (passes_advance hkind).trans hpasses, hderives⟩

/-! ## Lists of statements -/

theorem statementsUpTo_of_eof (inner : Inner) (closes : Kind → Bool) (count : Nat)
    {cursor : Cursor} (h : cursor.current.kind = .eof) :
    Cleanly (statementsUpTo inner closes count) cursor
      fun nodes after => nodes = [] ∧ after.current.kind = .eof := by
  cases count with
  | zero => exact .pure ⟨rfl, h⟩
  | succ count =>
      refine .bind_current ?_
      rw [if_pos (.inl h)]
      exact .pure ⟨rfl, h⟩

/-- What is left of the tokens when a list of statements has been passed. The cursor may have
moved beyond the last token. -/
def Leaves (left : List Token) (after : Cursor) : Prop :=
  left = after.current :: after.rest ∨ left = [] ∧ after.current.kind = .eof

/-- From the current token on there are statements up to a closing token or the end. -/
def ReadsAll (closes : Kind → Bool) (cursor : Cursor) (nodes : List Node) (after : Cursor) : Prop :=
  ∃ parts left, nodes = trees parts ∧
    (∀ part ∈ parts, Derives .statement part.tokens part.tree) ∧
    cursor.current :: cursor.rest = yield parts ++ left ∧ Leaves left after ∧
    (after.current.kind = .eof ∨ closes after.current.kind)

section
variable {inner : Inner} (h : Sound inner)
include h

theorem Sound.follows {phrase : Phrase} (hbound : lowest ≤ phrase.bound) (cursor : Cursor) :
    Cleanly (inner phrase) cursor.advance (Follows phrase.category cursor) :=
  (h phrase hbound cursor.advance).mono fun _ _ => Reads.follows

/-- Statements are passed up to a closing token or the end; the bound on their number is not met
before. -/
theorem statementsUpTo_sound (closes : Kind → Bool) (count : Nat) (cursor : Cursor)
    (hcount : cursor.rest.length < count) :
    Cleanly (statementsUpTo inner closes count) cursor (ReadsAll closes cursor) := by
  induction count generalizing cursor with
  | zero => omega
  | succ count ih =>
      unfold statementsUpTo
      refine .bind_current ?_
      split
      next hend => exact .pure ⟨[], _, rfl, by simp, rfl, .inl rfl, hend⟩
      next hend =>
          refine .bind (h .statement (Nat.le_refl _) cursor).attempt ?_
          intro _ after hread
          obtain ⟨current, rest⟩ := after
          obtain ⟨first, rfl, tokens, ⟨hrest, hcurrent⟩, hfirst⟩ := hread
          refine .bind_advance ?_
          cases rest with
          | nil =>
              -- behind the last token the list is over
              refine .bind (statementsUpTo_of_eof inner closes count rfl) ?_
              intro _ after hread
              obtain ⟨rfl, heof⟩ := hread
              exact .pure ⟨[⟨cursor.current :: tokens, first⟩], [], by simp,
                by simpa using hfirst, by simpa using hrest, .inr ⟨rfl, heof⟩, .inl heof⟩
          | cons next rest =>
              have hlength := congrArg List.length hrest
              simp only [List.length_append, List.length_cons] at hlength
              refine .bind (ih ⟨next, rest⟩ (by simp only; omega)) ?_
              intro _ after hread
              obtain ⟨parts, left, rfl, hparts, hyield, hleft, hclosed⟩ := hread
              refine .pure ⟨⟨cursor.current :: tokens, first⟩ :: parts, left, by simp, ?_, ?_,
                hleft, hclosed⟩
              · intro part hpart
                rcases List.mem_cons.mp hpart with rfl | hpart
                · exact hfirst
                · exact hparts part hpart
              · simp only at hrest hyield
                simp [hrest, hyield]

theorem statements_sound (closes : Kind → Bool) (cursor : Cursor) :
    Cleanly (statements inner closes) cursor (ReadsAll closes cursor) :=
  .bind_remaining (statementsUpTo_sound h closes _ cursor (Nat.lt_succ_self _))

theorem block_sound {cursor : Cursor} (hopening : cursor.current.kind = .lbrace) :
    Cleanly (block inner) cursor (Reads .block cursor) := by
  refine .bind_current (.bind_advance (.bind (statements_sound h _ cursor.advance) ?_))
  intro _ after hread
  obtain ⟨parts, left, rfl, hparts, hyield, hleft, hclosed⟩ := hread
  refine .bind_current ?_
  split
  next => exact .bind_complain
  next hkind =>
      have hclosing : after.current.kind = .rbrace := by simpa [hkind] using hclosed
      obtain rfl : left = after.current :: after.rest :=
        hleft.resolve_right fun hend => hkind hend.2
      exact .pure ⟨_, passes_of_advance hyield hkind, .block hopening hparts hclosing⟩

/-! ## Operands -/

omit h in
theorem integer_sound {cursor : Cursor}
    (hkind : cursor.current.kind = .int ∨ cursor.current.kind = .hex) :
    Cleanly integer cursor (Reads .expression cursor) := by
  refine .bind_current ?_
  split
  next value hvalue => exact .pure ⟨_, .refl cursor, .integer hkind hvalue⟩
  next => exact .bind_complain

theorem unary_sound {cursor : Cursor} (hsign : cursor.current.kind ∈ unaryKinds) :
    Cleanly (unary inner) cursor (Reads .expression cursor) := by
  refine .bind_current (.bind_advance (.bind (h.follows (by decide) cursor).orHole ?_))
  intro operand after hread
  obtain ⟨tokens, hpasses, hoperand⟩ := hread
  exact .pure ⟨_, hpasses, .unary hsign hoperand⟩

theorem group_sound {cursor : Cursor} (hopening : cursor.current.kind = .lparen) :
    Cleanly (group inner) cursor (Reads .expression cursor) := by
  refine .bind_advance (.bind (h.follows (by decide) cursor).attempt ?_)
  intro _ after hread
  obtain ⟨body, rfl, tokens, hpasses, hbody⟩ := hread
  refine .bind_expect (by decide) fun last hlast hclosing => ?_
  exact .pure ⟨_, hpasses.trans hlast, .group hopening hbody hclosing⟩

theorem conditional_sound {cursor : Cursor} (hword : cursor.current.kind = .ifWord) :
    Cleanly (conditional inner) cursor (Reads .expression cursor) := by
  refine .bind_current (.bind_expect (by decide) fun paren hparen hopening => ?_)
  refine .bind_advance (.bind (h.follows (by decide) paren).orHole ?_)
  intro test c₁ hread
  obtain ⟨condition, h₁, hcondition⟩ := hread
  refine .bind_expect (by decide) fun c₂ h₂ hclosing => ?_
  refine .bind_expect (by decide) fun c₃ h₃ hbrace => ?_
  refine .bind (block_sound h hbrace) ?_
  intro consequence c₄ hread
  obtain ⟨inside, h₄, hconsequence⟩ := hread
  refine .bind_peek ?_
  have hpasses := (((hparen.trans h₁).trans h₂).trans h₃).trans h₄
  split
  next helse =>
      have h₅ : c₄.Passes [c₄.peek] c₄.advance := passes_advance (by rw [helse]; decide)
      refine .bind_advance (.bind_expect (by decide) fun c₆ h₆ hbrace' => ?_)
      refine .bind (block_sound h hbrace') ?_
      intro alternative c₇ hread
      obtain ⟨inside', h₇, halternative⟩ := hread
      refine .pure ⟨_, ((hpasses.trans h₅).trans h₆).trans h₇, ?_⟩
      simpa using Derives.conditionalElse hword hopening hcondition hclosing hconsequence helse
        halternative
  next =>
      refine .pure ⟨_, hpasses, ?_⟩
      simpa using Derives.conditional hword hopening hcondition hclosing hconsequence

theorem loop_sound {cursor : Cursor} (hword : cursor.current.kind = .forWord) :
    Cleanly (loop inner) cursor (Reads .expression cursor) := by
  refine .bind_current (.bind_expect (by decide) fun paren hparen hopening => ?_)
  refine .bind_advance (.bind (h.follows (by decide) paren).orHole ?_)
  intro init c₁ hread
  obtain ⟨start, h₁, hinit⟩ := hread
  refine .bind_current ?_
  split
  next => exact .bind_complain
  next hfirst =>
      obtain ⟨start, rfl⟩ : ∃ tokens, start = tokens ++ [c₁.current] :=
        h₁.eq_concat fun heq => by simp [heq, hopening] at hfirst
      refine .bind_advance (.bind (h.follows (by decide) c₁).orHole ?_)
      intro test c₂ hread
      obtain ⟨condition, h₂, hcondition⟩ := hread
      refine .bind_expect (by decide) fun c₃ h₃ hsecond => .bind_advance ?_
      refine .bind (h.follows (by decide) c₃).orHole ?_
      intro post c₄ hread
      obtain ⟨step, h₄, hpost⟩ := hread
      refine .bind_expect (by decide) fun c₅ h₅ hclosing => ?_
      refine .bind_expect (by decide) fun c₆ h₆ hbrace => ?_
      refine .bind (block_sound h hbrace) ?_
      intro body c₇ hread
      obtain ⟨inside, h₇, hbody⟩ := hread
      have hpasses := ((((((hparen.trans h₁).trans h₂).trans h₃).trans h₄).trans h₅).trans
        h₆).trans h₇
      refine .pure ⟨_, hpasses, ?_⟩
      simpa using Derives.loop hword hopening hinit (not_not.mp hfirst) hcondition hsecond hpost
        hclosing hbody

/-! ## Lists between brackets -/

/-- Pieces that each follow a comma can be put behind any first piece. -/
def Continues (pieces : List (List Token)) (tokens : List Token) : Prop :=
  ∀ first, Commas (first :: pieces) (first ++ tokens)

omit h in
theorem Continues.nil : Continues [] [] := by
  intro first
  simpa using Commas.one first

omit h in
theorem Continues.cons {comma : Token} {piece tokens : List Token} {pieces : List (List Token)}
    (hcomma : comma.kind = .comma) (hrest : Continues pieces tokens) :
    Continues (piece :: pieces) (comma :: (piece ++ tokens)) :=
  fun _ => .more hcomma (hrest piece)

omit h in
theorem name_sound (cursor : Cursor) :
    Cleanly name cursor fun target after => target = nameOf cursor.current ∧ after = cursor :=
  .bind_current (.pure ⟨rfl, rfl⟩)

section List
variable {α ρ : Type} {parser : Parser α} {valueOf : ρ → α} {tokensOf : ρ → List Token}
  {good : ρ → Prop}

omit h in
theorem moreOf_sound
    (hitem : ∀ cursor, Cleanly parser cursor fun value after =>
      ∃ piece, value = valueOf piece ∧ good piece ∧ cursor.Passes (tokensOf piece) after)
    (count : Nat) (cursor : Cursor) :
    Cleanly (moreOf parser count) cursor fun values after =>
      ∃ (pieces : List ρ) (tokens : List Token), values = pieces.map valueOf ∧
        (∀ piece ∈ pieces, good piece) ∧ cursor.Passes tokens after ∧
        Continues (pieces.map tokensOf) tokens := by
  induction count generalizing cursor with
  | zero => exact .pure ⟨[], [], rfl, by simp, .refl cursor, .nil⟩
  | succ count ih =>
      refine .bind_peek ?_
      split
      next hcomma =>
          have hnext : cursor.Passes [cursor.peek] cursor.advance :=
            passes_advance (by rw [hcomma]; decide)
          refine .bind_advance (.bind (hitem cursor.advance) ?_)
          intro _ c₁ hread
          obtain ⟨piece, rfl, hpiece, h₁⟩ := hread
          refine .bind (ih c₁) ?_
          intro _ c₂ hread
          obtain ⟨pieces, tokens, rfl, hpieces, h₂, hcommas⟩ := hread
          exact .pure ⟨piece :: pieces, _, rfl, by simpa using ⟨hpiece, hpieces⟩,
            (hnext.trans h₁).trans h₂, hcommas.cons hcomma⟩
      next => exact .pure ⟨[], [], rfl, by simp, .refl cursor, .nil⟩

omit h in
theorem listOf_sound
    (hitem : ∀ cursor, Cleanly parser cursor fun value after =>
      ∃ piece, value = valueOf piece ∧ good piece ∧ cursor.Passes (tokensOf piece) after)
    {closer : Kind} (hcloser : closer ≠ .eof) (cursor : Cursor) :
    Cleanly (listOf parser closer) cursor fun values after =>
      ∃ (pieces : List ρ) (inside : List Token), values = pieces.map valueOf ∧
        (∀ piece ∈ pieces, good piece) ∧ Listed (pieces.map tokensOf) inside ∧
        cursor.Passes (inside ++ [after.current]) after ∧ after.current.kind = closer := by
  refine .bind_peek ?_
  split
  next hclosing =>
      have hnext : cursor.Passes [cursor.peek] cursor.advance :=
        passes_advance (by rwa [hclosing])
      exact .bind_advance (.pure ⟨[], [], rfl, by simp, .empty, hnext, hclosing⟩)
  next =>
      refine .bind (hitem cursor) ?_
      intro _ c₁ hread
      obtain ⟨piece, rfl, hpiece, h₁⟩ := hread
      refine .bind_remaining (.bind (moreOf_sound hitem _ c₁) ?_)
      intro _ c₂ hread
      obtain ⟨pieces, tokens, rfl, hpieces, h₂, hcommas⟩ := hread
      refine .bind_expect hcloser fun c₃ h₃ hclosing => ?_
      exact .pure ⟨piece :: pieces, _, rfl, by simpa using ⟨hpiece, hpieces⟩,
        .some (hcommas (tokensOf piece)), (h₁.trans h₂).trans h₃, hclosing⟩

end List

omit h in
theorem expectName_sound (cursor : Cursor) :
    Cleanly expectName cursor fun target after =>
      ∃ token, target = nameOf token ∧ token.kind = .ident ∧ cursor.Passes [token] after :=
  .bind_expect (by decide) fun _ hpasses hkind => .bind_current (.pure ⟨_, rfl, hkind, hpasses⟩)

theorem function_sound {cursor : Cursor} (hword : cursor.current.kind = .fnWord) :
    Cleanly (function inner) cursor (Reads .expression cursor) := by
  refine .bind_current (.bind_expect (by decide) fun c₁ h₁ hopening => ?_)
  refine .bind (listOf_sound expectName_sound (by decide) c₁) ?_
  intro _ c₂ hread
  obtain ⟨names, inside, rfl, hnames, hinside, h₂, hclosing⟩ := hread
  refine .bind_expect (by decide) fun c₃ h₃ hbrace => .bind (block_sound h hbrace) ?_
  intro body c₄ hread
  obtain ⟨tokens, h₄, hbody⟩ := hread
  refine .pure ⟨_, ((h₁.trans h₂).trans h₃).trans h₄, ?_⟩
  simpa using Derives.function hword hopening hnames hinside hclosing hbody

theorem item_sound (cursor : Cursor) :
    Cleanly (item inner) cursor fun node after =>
      ∃ part : Part, node = part.tree ∧ Derives .expression part.tokens part.tree ∧
        cursor.Passes part.tokens after := by
  refine .bind_advance ((h.follows (by decide) cursor).mono ?_)
  intro node after hread
  obtain ⟨tokens, hpasses, hnode⟩ := hread
  exact ⟨⟨tokens, node⟩, rfl, hnode, hpasses⟩

theorem items_sound {closer : Kind} (hcloser : closer ≠ .eof) (cursor : Cursor) :
    Cleanly (items inner closer) cursor fun nodes after =>
      ∃ parts inside, nodes = trees parts ∧
        (∀ part ∈ parts, Derives .expression part.tokens part.tree) ∧
        Listed (parts.map (·.tokens)) inside ∧ cursor.Passes (inside ++ [after.current]) after ∧
        after.current.kind = closer :=
  listOf_sound (item_sound h) hcloser cursor

theorem array_sound {cursor : Cursor} (hopening : cursor.current.kind = .lbracket) :
    Cleanly (array inner) cursor (Reads .expression cursor) := by
  refine .bind_current (.bind (items_sound h (by decide) cursor) ?_)
  intro _ after hread
  obtain ⟨parts, inside, rfl, hparts, hinside, hpasses, hclosing⟩ := hread
  exact .pure ⟨_, hpasses, .array hopening hparts hinside hclosing⟩

theorem pair_sound (cursor : Cursor) :
    Cleanly (pair inner) cursor fun nodes after =>
      ∃ entry : Entry, nodes = entry.trees ∧
        (Derives .expression entry.key.tokens entry.key.tree ∧ entry.colon.kind = .colon ∧
          Derives .expression entry.value.tokens entry.value.tree) ∧
        cursor.Passes entry.tokens after := by
  refine .bind (item_sound h cursor) ?_
  intro _ c₁ hread
  obtain ⟨key, rfl, hkey, h₁⟩ := hread
  refine .bind_expect (by decide) fun c₂ h₂ hcolon => .bind (item_sound h c₂) ?_
  intro _ c₃ hread
  obtain ⟨value, rfl, hvalue, h₃⟩ := hread
  refine .pure ⟨⟨key, c₂.current, value⟩, rfl, ⟨hkey, hcolon, hvalue⟩, ?_⟩
  simpa [Entry.tokens] using (h₁.trans h₂).trans h₃

theorem hash_sound {cursor : Cursor} (hopening : cursor.current.kind = .lbrace) :
    Cleanly (hash inner) cursor (Reads .expression cursor) := by
  refine .bind_current (.bind (listOf_sound (pair_sound h) (by decide) cursor) ?_)
  intro _ after hread
  obtain ⟨entries, inside, rfl, hentries, hinside, hpasses, hclosing⟩ := hread
  exact .pure ⟨_, hpasses,
    .hash hopening (fun entry he => (hentries entry he).1) (fun entry he => (hentries entry he).2.1)
      (fun entry he => (hentries entry he).2.2) hinside hclosing⟩

/-! ## Expressions -/

theorem operand_sound (cursor : Cursor) :
    Cleanly (operand inner) cursor (Reads .expression cursor) := by
  refine .bind_current ?_
  split
  next hkind => exact .pure ⟨_, .refl cursor, .identifier hkind⟩
  next hkind => exact integer_sound (.inl hkind)
  next hkind => exact integer_sound (.inr hkind)
  next hkind => exact .pure ⟨_, .refl cursor, .text hkind⟩
  next hkind => exact .pure ⟨_, .refl cursor, .truth hkind⟩
  next hkind => exact .pure ⟨_, .refl cursor, .falsity hkind⟩
  next hkind => exact unary_sound h (by simp [hkind, unaryKinds])
  next hkind => exact unary_sound h (by simp [hkind, unaryKinds])
  next hkind => exact group_sound h hkind
  next hkind => exact conditional_sound h hkind
  next hkind => exact loop_sound h hkind
  next hkind => exact function_sound h hkind
  next hkind => exact array_sound h hkind
  next hkind => exact hash_sound h hkind
  next => exact .bind_current .bind_complain

omit h in
/-- A token that binds more strongly than nothing is a bracket or a sign between operands. -/
theorem mem_binaryKinds_of_lowest_lt {kind : Kind} (hstrength : lowest < strength kind)
    (hparen : kind ≠ .lparen) (hbracket : kind ≠ .lbracket) : kind ∈ binaryKinds := by
  revert hstrength
  cases kind <;> first | contradiction | decide

/-- An extension makes a longer expression of the tokens before it and its own. -/
theorem extension_sound {tokens : List Token} {left : Node}
    (hleft : Derives .expression tokens left) {cursor : Cursor}
    (hstrength : lowest < strength cursor.current.kind) :
    Cleanly (extension inner left) cursor fun node after =>
      ∃ more, cursor.Passes more after ∧
        Derives .expression (tokens ++ cursor.current :: more) node := by
  refine .bind_current ?_
  split
  next hopening =>
      refine .bind (items_sound h (by decide) cursor) ?_
      intro _ after hread
      obtain ⟨parts, inside, rfl, hparts, hinside, hpasses, hclosing⟩ := hread
      exact .pure ⟨_, hpasses, .call hleft hopening hparts hinside hclosing⟩
  next hopening =>
      refine .bind_advance (.bind (h.follows (by decide) cursor).orHole ?_)
      intro key c₁ hread
      obtain ⟨inside, h₁, hkey⟩ := hread
      refine .bind_expect (by decide) fun c₂ h₂ hclosing => ?_
      exact .pure ⟨_, h₁.trans h₂, .index hleft hopening hkey hclosing⟩
  next hparen hbracket =>
      have hbound : lowest ≤ (Phrase.expression (strength cursor.current.kind)).bound :=
        lowest_le_strength _
      refine .bind_advance (.bind (h.follows hbound cursor).orHole ?_)
      intro right after hread
      obtain ⟨more, hpasses, hright⟩ := hread
      exact .pure ⟨_, hpasses,
        .binary hleft (mem_binaryKinds_of_lowest_lt hstrength hparen hbracket) hright⟩

theorem extensions_sound (bound count : Nat) (hbound : lowest ≤ bound) {tokens : List Token}
    {left : Node} (hleft : Derives .expression tokens left) (cursor : Cursor) :
    Cleanly (extensions inner bound count left) cursor fun node after =>
      ∃ more, cursor.Passes more after ∧ Derives .expression (tokens ++ more) node := by
  induction count generalizing tokens left cursor with
  | zero => exact .pure ⟨[], .refl cursor, by simpa using hleft⟩
  | succ count ih =>
      refine .bind_peek ?_
      split
      next hstrength =>
          have hlowest : lowest < strength cursor.peek.kind := Nat.lt_of_le_of_lt hbound hstrength
          have hnext : cursor.Passes [cursor.peek] cursor.advance :=
            passes_advance fun heof => by simp [heof, strength] at hlowest
          refine .bind_advance (.bind (extension_sound h hleft hlowest) ?_)
          intro longer c₁ hread
          obtain ⟨more, h₁, hlonger⟩ := hread
          refine (ih hlonger c₁).mono ?_
          intro node c₂ hread
          obtain ⟨others, h₂, hnode⟩ := hread
          refine ⟨_, (hnext.trans h₁).trans h₂, ?_⟩
          simpa [Cursor.advance] using hnode
      next => exact .pure ⟨[], .refl cursor, by simpa using hleft⟩

theorem expression_sound (bound : Nat) (hbound : lowest ≤ bound) (cursor : Cursor) :
    Cleanly (expression inner bound) cursor (Reads .expression cursor) := by
  refine .bind (operand_sound h cursor) ?_
  intro left c₁ hread
  obtain ⟨tokens, h₁, hleft⟩ := hread
  refine .bind_remaining ((extensions_sound h bound _ hbound hleft c₁).mono ?_)
  intro node c₂ hread
  obtain ⟨more, h₂, hnode⟩ := hread
  exact ⟨_, h₁.trans h₂, hnode⟩

/-! ## Statements -/

omit h in
/-- A semicolon behind a statement belongs to it. -/
theorem closing_sound {cursor middle : Cursor} {node : Node} {tokens : List Token}
    (hpasses : cursor.Passes tokens middle)
    (hnode : ∀ ending, Ending ending →
      Derives .statement (cursor.current :: (tokens ++ ending)) node) :
    Cleanly (closing node) middle (Reads .statement cursor) := by
  refine .bind .skip_semicolon ?_
  intro _ after hread
  obtain ⟨ending, hafter, hending⟩ := hread
  exact .pure ⟨_, hpasses.trans hafter, hnode ending hending⟩

theorem bindingStatement_sound {cursor : Cursor} (hword : cursor.current.kind = .letWord) :
    Cleanly (bindingStatement inner) cursor (Reads .statement cursor) := by
  refine .bind_current (.bind (expectName_sound cursor) ?_)
  intro _ c₁ hread
  obtain ⟨target, rfl, htarget, h₁⟩ := hread
  refine .bind_expect (by decide) fun c₂ h₂ hsign => ?_
  refine .bind_advance (.bind (h.follows (by decide) c₂).orHole ?_)
  intro node c₃ hread
  obtain ⟨value, h₃, hvalue⟩ := hread
  refine closing_sound ((h₁.trans h₂).trans h₃) fun ending hending => ?_
  simpa using Derives.binding hword htarget hsign hvalue hending

theorem returnStatement_sound {cursor : Cursor} (hword : cursor.current.kind = .returnWord) :
    Cleanly (returnStatement inner) cursor (Reads .statement cursor) := by
  refine .bind_current (.bind_advance (.bind (h.follows (by decide) cursor).orHole ?_))
  intro node c₁ hread
  obtain ⟨value, h₁, hvalue⟩ := hread
  exact closing_sound h₁ fun _ => Derives.returning hword hvalue

omit h in
theorem signedIncrement_sound {cursor : Cursor} (hsign : cursor.current.kind = .doublePlus) :
    Cleanly signedIncrement cursor (Reads .statement cursor) := by
  refine .bind_current (.bind (expectName_sound cursor) ?_)
  intro _ c₁ hread
  obtain ⟨target, rfl, htarget, h₁⟩ := hread
  exact closing_sound h₁ fun _ => Derives.signedIncrement hsign htarget

omit h in
theorem incrementOfName_sound {cursor : Cursor} (htarget : cursor.current.kind = .ident)
    (hsign : cursor.peek.kind = .doublePlus) :
    Cleanly incrementOfName cursor (Reads .statement cursor) := by
  have hnext : cursor.Passes [cursor.peek] cursor.advance :=
    passes_advance (by rw [hsign]; decide)
  refine .bind (name_sound cursor) ?_
  intro _ _ hread
  obtain ⟨rfl, rfl⟩ := hread
  refine .bind_advance (.bind_current ?_)
  exact closing_sound hnext fun _ => Derives.incrementOfName htarget hsign

theorem expressionStatement_sound (cursor : Cursor) :
    Cleanly (expressionStatement inner) cursor (Reads .statement cursor) := by
  refine .bind_current (.bind (expression_sound h lowest (Nat.le_refl _) cursor).orHole ?_)
  intro node c₁ hread
  obtain ⟨tokens, h₁, hbody⟩ := hread
  exact closing_sound h₁ fun _ => Derives.expression hbody

/-- The statements of a clause are passed up to its closing word; the bound on their number is not
met before. -/
theorem clauseBody_sound (count : Nat) (cursor : Cursor) (hcount : cursor.rest.length < count) :
    Cleanly (clauseBody inner count) cursor fun nodes after =>
      ∃ parts, nodes = trees parts ∧
        (∀ part ∈ parts, Derives .statement part.tokens part.tree) ∧
        cursor.Passes (yield parts) after ∧ after.peek.kind = .breakWord := by
  induction count generalizing cursor with
  | zero => omega
  | succ count ih =>
      refine .bind_peek ?_
      split
      next hlast => exact .pure ⟨[], rfl, by simp, .refl cursor, hlast⟩
      next =>
          split
          next => exact .bind_complain
          next =>
              refine .bind_advance (.bind (h.follows (by decide) cursor).attempt ?_)
              intro _ c₁ hread
              obtain ⟨first, rfl, tokens, h₁, hfirst⟩ := hread
              have hlength := h₁.length_lt (hfirst.ne_nil (by decide))
              refine .bind (ih c₁ (by omega)) ?_
              intro _ c₂ hread
              obtain ⟨parts, rfl, hparts, h₂, hlast⟩ := hread
              exact .pure ⟨⟨tokens, first⟩ :: parts, by simp, by simpa using ⟨hfirst, hparts⟩,
                h₁.trans h₂, hlast⟩

theorem clause_sound {cursor : Cursor} (hword : cursor.current.kind = .caseWord) :
    Cleanly (clause inner) cursor (Reads .clause cursor) := by
  refine .bind_current (.bind_advance (.bind (h.follows (by decide) cursor).orHole ?_))
  intro node c₁ hread
  obtain ⟨condition, h₁, hcondition⟩ := hread
  refine .bind_expect (by decide) fun c₂ h₂ hcolon => .bind_remaining ?_
  refine .bind (clauseBody_sound h _ c₂ (Nat.lt_succ_self _)) ?_
  intro _ c₃ hread
  obtain ⟨parts, rfl, hparts, h₃, hlast⟩ := hread
  have h₄ : c₃.Passes [c₃.peek] c₃.advance := passes_advance (by rw [hlast]; decide)
  refine .bind_advance (.bind .skip_semicolon ?_)
  intro _ c₅ hread
  obtain ⟨ending, h₅, hending⟩ := hread
  refine .pure ⟨_, (((h₁.trans h₂).trans h₃).trans h₄).trans h₅, ?_⟩
  simpa using Derives.clause hword hcondition hcolon hparts hlast hending

theorem clauses_sound (count : Nat) (cursor : Cursor) :
    Cleanly (clauses inner count) cursor fun nodes after =>
      ∃ parts, nodes = trees parts ∧ (∀ part ∈ parts, Derives .clause part.tokens part.tree) ∧
        cursor.Passes (yield parts) after := by
  induction count generalizing cursor with
  | zero => exact .pure ⟨[], rfl, by simp, .refl cursor⟩
  | succ count ih =>
      refine .bind_peek ?_
      split
      next hword =>
          have hnext : cursor.Passes [cursor.peek] cursor.advance :=
            passes_advance (by rw [hword]; decide)
          refine .bind_advance (.bind (clause_sound h hword) ?_)
          intro first c₁ hread
          obtain ⟨tokens, h₁, hfirst⟩ := hread
          refine .bind (ih c₁) ?_
          intro _ c₂ hread
          obtain ⟨parts, rfl, hparts, h₂⟩ := hread
          exact .pure ⟨⟨cursor.peek :: tokens, first⟩ :: parts, rfl,
            by simpa using ⟨hfirst, hparts⟩, (hnext.trans h₁).trans h₂⟩
      next => exact .pure ⟨[], rfl, by simp, .refl cursor⟩

theorem subject_sound (cursor : Cursor) :
    Cleanly (subject inner) cursor fun node after =>
      node = .hole ∧ after = cursor ∨ Follows .expression cursor node after := by
  refine .bind_peek ?_
  split
  next => exact .pure (.inl ⟨rfl, rfl⟩)
  next => exact .bind_advance ((h.follows (by decide) cursor).orHole.mono fun _ _ => .inr)

theorem switchStatement_sound {cursor : Cursor} (hword : cursor.current.kind = .switchWord) :
    Cleanly (switchStatement inner) cursor (Reads .statement cursor) := by
  refine .bind_current (.bind (subject_sound h cursor) ?_)
  intro value c₁ hsubject
  refine .bind_expect (by decide) fun c₂ h₂ hopening => ?_
  refine .bind_remaining (.bind (clauses_sound h _ c₂) ?_)
  intro _ c₃ hread
  obtain ⟨parts, rfl, hparts, h₃⟩ := hread
  refine .bind_expect (by decide) fun c₄ h₄ hclosing => ?_
  obtain ⟨rfl, rfl⟩ | ⟨tokens, h₁, hvalue⟩ := hsubject
  · refine .pure ⟨_, (h₂.trans h₃).trans h₄, ?_⟩
    simpa using Derives.switch hword hopening hparts hclosing
  · refine .pure ⟨_, ((h₁.trans h₂).trans h₃).trans h₄, ?_⟩
    simpa using Derives.switchOn hword hvalue hopening hparts hclosing

theorem statement_sound (cursor : Cursor) :
    Cleanly (statement inner) cursor (Reads .statement cursor) := by
  refine .bind_current (.bind_peek ?_)
  split
  next hkind => exact bindingStatement_sound h hkind
  next hkind => exact returnStatement_sound h hkind
  next hkind => exact signedIncrement_sound hkind
  next hkind => exact switchStatement_sound h hkind
  next hkind =>
      split
      next hsign => exact incrementOfName_sound hkind hsign
      next => exact expressionStatement_sound h cursor
  next => exact expressionStatement_sound h cursor

/-! ## All levels -/

theorem level_sound : Sound (level inner) := by
  intro phrase hbound cursor
  cases phrase with
  | statement => exact statement_sound h cursor
  | expression bound => exact expression_sound h bound hbound cursor

end

theorem phrase_sound (depth : Nat) : Sound (phrase depth) := by
  induction depth with
  | zero => exact level_sound fun _ _ _ => .bind_current .bind_complain
  | succ depth ih => exact level_sound ih

/-- The tokens in front of the first end marker. -/
theorem eq_of_append_eof {first second left right : List Token} {token other : Token}
    (hfirst : ∀ t ∈ first, t.kind ≠ .eof) (hsecond : ∀ t ∈ second, t.kind ≠ .eof)
    (htoken : token.kind = .eof) (hother : other.kind = .eof)
    (h : first ++ token :: left = second ++ other :: right) : first = second := by
  have htake := congrArg (List.takeWhile fun t => decide (t.kind ≠ .eof)) h
  rw [List.takeWhile_append_of_pos (by simpa using hfirst),
    List.takeWhile_append_of_pos (by simpa using hsecond)] at htake
  simpa [htoken, hother] using htake

theorem topLevel_sound (cursor : Cursor) :
    Cleanly topLevel cursor (ReadsAll (fun _ => false) cursor) :=
  .bind_remaining (statements_sound (phrase_sound _) _ cursor)

/-- Tokens that are parsed without complaint are those of the statements. -/
theorem exists_parts_of_isClean {ts : List Token} {eof : Token}
    (hts : ∀ token ∈ ts, token.kind ≠ .eof) (heof : eof.kind = .eof)
    (hclean : (tokens (ts ++ [eof])).isClean) :
    ∃ parts, ts = yield parts ∧ (tokens (ts ++ [eof])).statements = trees parts ∧
      ∀ part ∈ parts, Derives .statement part.tokens part.tree := by
  have hcursor : (ofTokens (ts ++ [eof])).current :: (ofTokens (ts ++ [eof])).rest =
      ts ++ [eof] := by
    cases ts <;> rfl
  obtain ⟨nodes, hvalue, parts, left, rfl, hparts, hyield, hleft, hclosed⟩ :=
    topLevel_sound (ofTokens (ts ++ [eof])) (List.isEmpty_iff.mp hclean)
  have hyields : ∀ token ∈ yield parts, token.kind ≠ .eof := by
    intro token htoken
    have hderives : Derives .program (yield parts) (.program default (trees parts)) :=
      .program hparts
    exact (kind_ne_of_derives hderives htoken).1
  rw [hcursor] at hyield
  refine ⟨parts, ?_, by simp [tokens, hvalue], hparts⟩
  obtain rfl | ⟨rfl, _⟩ := hleft
  · have hend := hclosed.resolve_right Bool.false_ne_true
    exact eq_of_append_eof hts hyields heof hend hyield
  · rw [List.append_nil] at hyield
    exact absurd heof (hyields eof (by simp [← hyield]))

/-- Tokens that are parsed without complaint are those of the program, each once and in their
order. So none of them is of a kind that the grammar does not use, each word that closes a clause
belongs to a clause of the program, and each colon to a clause or to an entry of a hash. -/
theorem derives_of_isClean (ts : List Token) (eof : Token) (hts : ∀ token ∈ ts, token.kind ≠ .eof)
    (heof : eof.kind = .eof) (hclean : (tokens (ts ++ [eof])).isClean) :
    Derives .program ts (tokens (ts ++ [eof])).program ∧
      (∀ token ∈ ts, token.kind ≠ .illegal ∧ token.kind ≠ .and) ∧
      occurrences .breakWord ts = tally .breakWord (tokens (ts ++ [eof])).program ∧
      occurrences .colon ts = tally .colon (tokens (ts ++ [eof])).program := by
  have hcursor : (ofTokens (ts ++ [eof])).current :: (ofTokens (ts ++ [eof])).rest =
      ts ++ [eof] := by
    cases ts <;> rfl
  obtain ⟨nodes, hvalue, parts, left, rfl, hparts, hyield, hleft, hclosed⟩ :=
    topLevel_sound (ofTokens (ts ++ [eof])) (List.isEmpty_iff.mp hclean)
  have hend := hclosed.resolve_right Bool.false_ne_true
  have hderives : Derives .program (yield parts) (tokens (ts ++ [eof])).program := by
    have hstatements : (tokens (ts ++ [eof])).statements = trees parts := by
      simp [tokens, hvalue]
    rw [Parsed.program, hstatements]
    exact .program hparts
  have hyields : ∀ token ∈ yield parts, token.kind ≠ .eof :=
    fun _ htoken => (kind_ne_of_derives hderives htoken).1
  rw [hcursor] at hyield
  obtain rfl : ts = yield parts := by
    obtain rfl | ⟨rfl, _⟩ := hleft
    · exact eq_of_append_eof hts hyields heof hend hyield
    · rw [List.append_nil] at hyield
      exact absurd heof (hyields eof (hyield ▸ by simp))
  exact ⟨hderives, fun _ htoken => (kind_ne_of_derives hderives htoken).2,
    occurrences_of_derives (by decide) hderives, occurrences_of_derives (by decide) hderives⟩

/-- A switch with a clause that holds a hash: both uses of a colon, and a word that closes. -/
def switchTokens : List Token :=
  ([(.switchWord, "switch"), (.ident, "x"), (.lbrace, "\x7b"), (.caseWord, "case"), (.int, "1"),
    (.colon, ":"), (.ident, "x"), (.doublePlus, "++"), (.semicolon, ";"), (.lbrace, "\x7b"),
    (.string, "k"), (.colon, ":"), (.minus, "-"), (.ident, "x"), (.rbrace, "\x7d"),
    (.breakWord, "break"), (.semicolon, ";"), (.rbrace, "\x7d")] : List (Kind × String)).map
      fun lexeme => ⟨lexeme.1, lexeme.2, .start⟩

theorem derives_switchTokens :
    (tokens (switchTokens ++ [.eofAt .start])).isClean ∧
      Derives .program switchTokens (tokens (switchTokens ++ [.eofAt .start])).program ∧
      occurrences .breakWord switchTokens = 1 ∧ occurrences .colon switchTokens = 2 := by
  have hclean : (tokens (switchTokens ++ [.eofAt .start])).isClean := by decide
  exact ⟨hclean, (derives_of_isClean switchTokens (.eofAt .start) (by decide) rfl hclean).1,
    by decide, by decide⟩

end Monkey.Parse
