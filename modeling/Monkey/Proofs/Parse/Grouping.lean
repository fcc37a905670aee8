import Monkey.Proofs.Parse.Cohesion
import Monkey.Proofs.Parts

/-!
# Operators group in one way

A formula is written without parentheses that group: operands with operators between them, where an
operand may have signs in front and calls and indexes behind. Many trees have the same tokens in the
same order. Only one of them is well grouped, stronger operators inside weaker ones and equal ones to
the left (`formula_groups_in_one_way`), and that one is parsed. It is found by adding operand after
operand at the right edge of the tree, and it is the only one because tokens that cohere are read as
their tree.
-/
namespace Monkey

/-- The strength of the operator that a tree is made with, if its operator has operands on both
sides. -/
def Node.operatorStrength? : Node → Option Nat
  | binary sign .. => some (Parse.strength sign.kind)
  | _ => none

def Node.isUnary : Node → Bool
  | unary .. => true
  | _ => false

namespace Parse

/-! ## Formulas -/

/-- The signs between operands are the operators of the four levels, which order them by
strength. -/
theorem mem_binaryKinds_iff {kind : Kind} :
    kind ∈ binaryKinds ↔ ∃ level ∈ levels, kind ∈ level := by
  cases kind <;> decide

/-- A token that is an operand by itself: a name, a truth value, or a numeral that is not too
large. -/
def IsLeaf (token : Token) : Prop :=
  token.kind = .ident ∨ token.kind = .trueWord ∨ token.kind = .falseWord ∨
    ((token.kind = .int ∨ token.kind = .hex) ∧ (integerValue? token).isSome)

instance (token : Token) : Decidable (IsLeaf token) :=
  inferInstanceAs (Decidable (_ ∨ _))

inductive Shape where
  /-- A leaf with calls and indexes behind it. -/
  | primary
  /-- A primary with signs in front. -/
  | operand
  /-- Operands with operators between them. -/
  | formula
  deriving DecidableEq, Repr

/-- Tokens of a formula. Arguments and keys are formulas again. -/
inductive Formula : Shape → List Token → Prop where
  | leaf {token : Token} (h : IsLeaf token) : Formula .primary [token]
  | call {opening closing : Token} {callee inside : List Token} {pieces : List (List Token)}
      (hcallee : Formula .primary callee) (hopening : opening.kind = .lparen)
      (hpieces : ∀ piece ∈ pieces, Formula .formula piece) (hinside : Listed pieces inside)
      (hclosing : closing.kind = .rparen) :
      Formula .primary (callee ++ opening :: (inside ++ [closing]))
  | index {opening closing : Token} {collection key : List Token}
      (hcollection : Formula .primary collection) (hopening : opening.kind = .lbracket)
      (hkey : Formula .formula key) (hclosing : closing.kind = .rbracket) :
      Formula .primary (collection ++ opening :: (key ++ [closing]))
  | bare {tokens : List Token} (h : Formula .primary tokens) : Formula .operand tokens
  | signed {sign : Token} {tokens : List Token} (hsign : sign.kind ∈ unaryKinds)
      (h : Formula .operand tokens) : Formula .operand (sign :: tokens)
  | single {tokens : List Token} (h : Formula .operand tokens) : Formula .formula tokens
  | chain {sign : Token} {tokens last : List Token} (h : Formula .formula tokens)
      (hsign : sign.kind ∈ binaryKinds) (hlast : Formula .operand last) :
      Formula .formula (tokens ++ sign :: last)

/-! ## Trees -/

/-- The tokens of a tree in their order, with the brackets and commas of calls and indexes. None are
there to group. -/
inductive Inorder : List Token → Node → Prop where
  | identifier {token : Token} (h : token.kind = .ident) :
      Inorder [token] (.identifier (nameOf token))
  | integer {token : Token} {value : Int} (hkind : token.kind = .int ∨ token.kind = .hex)
      (hvalue : integerValue? token = some value) : Inorder [token] (.integer token value)
  | truth {token : Token} (h : token.kind = .trueWord) : Inorder [token] (.boolean token true)
  | falsity {token : Token} (h : token.kind = .falseWord) : Inorder [token] (.boolean token false)
  | unary {sign : Token} {operand : List Token} {node : Node} (hsign : sign.kind ∈ unaryKinds)
      (hoperand : Inorder operand node) :
      Inorder (sign :: operand) (.unary sign sign.literal node)
  | binary {sign : Token} {left right : List Token} {first second : Node}
      (hleft : Inorder left first) (hsign : sign.kind ∈ binaryKinds)
      (hright : Inorder right second) :
      Inorder (left ++ sign :: right) (.binary sign first sign.literal second)
  | call {opening closing : Token} {callee inside : List Token} {node : Node} {items : List Part}
      (hcallee : Inorder callee node) (hopening : opening.kind = .lparen)
      (hitems : ∀ part ∈ items, Inorder part.tokens part.tree)
      (hinside : Listed (items.map (·.tokens)) inside) (hclosing : closing.kind = .rparen) :
      Inorder (callee ++ opening :: (inside ++ [closing])) (.call opening node (trees items))
  | index {opening closing : Token} {collection key : List Token} {first second : Node}
      (hcollection : Inorder collection first) (hopening : opening.kind = .lbracket)
      (hkey : Inorder key second) (hclosing : closing.kind = .rbracket) :
      Inorder (collection ++ opening :: (key ++ [closing])) (.index opening first second)

/-- A left operand with an operator has one that is at least as strong, a right operand one that is
stronger. A sign stands in front of no operator, and neither a call nor an index behind a sign or an
operator. -/
def WellGrouped : Node → Prop
  | .binary sign left _ right =>
      (∀ inner ∈ left.operatorStrength?, strength sign.kind ≤ inner) ∧
        ∀ inner ∈ right.operatorStrength?, strength sign.kind < inner
  | .unary _ _ operand => operand.operatorStrength? = none
  | .call _ callee _ => callee.operatorStrength? = none ∧ callee.isUnary = false
  | .index _ collection _ => collection.operatorStrength? = none ∧ collection.isUnary = false
  | _ => True

/-- Tokens of a well-grouped tree in their order. -/
structure Grouped (tokens : List Token) (node : Node) : Prop where
  inorder : Inorder tokens node
  everywhere : node.Everywhere WellGrouped

/-! ## Well-grouped trees are parsed -/

/-- The strength with which the tokens of a well-grouped tree cohere. -/
def hold : Node → Nat
  | .binary sign .. => strength sign.kind
  | .unary .. => unaryStrength
  | _ => undivided

theorem le_hold {node : Node} {bound : Nat} (hbound : bound ≤ unaryStrength)
    (h : ∀ inner ∈ node.operatorStrength?, bound ≤ inner) : bound ≤ hold node := by
  have hundivided : unaryStrength ≤ undivided := by decide
  cases node with
  | binary sign left operator right => exact h _ rfl
  | unary => exact hbound
  | _ => exact Nat.le_trans hbound hundivided

theorem hold_eq_undivided {node : Node} (hoperator : node.operatorStrength? = none)
    (hunary : node.isUnary = false) : hold node = undivided := by
  cases node with
  | binary => cases hoperator
  | unary => cases hunary
  | _ => rfl

theorem Inorder.lowest_lt_hold {tokens : List Token} {node : Node} (h : Inorder tokens node) :
    lowest + 1 ≤ hold node := by
  have hstrong : ∀ kind ∈ binaryKinds, lowest + 1 ≤ strength kind := by decide
  have hunary : lowest + 1 ≤ unaryStrength := by decide
  apply le_hold hunary
  cases h with
  | binary _ hsign _ => simpa [Node.operatorStrength?] using hstrong _ hsign
  | _ => simp [Node.operatorStrength?]

/-- The tokens of a well-grouped tree cohere. -/
theorem Inorder.coheres {tokens : List Token} {node : Node} (h : Inorder tokens node)
    (hgrouped : node.Everywhere WellGrouped) : Coheres (hold node) tokens node := by
  have hweak : ∀ kind ∈ binaryKinds, strength kind + 1 ≤ unaryStrength := by decide
  induction h with
  | identifier h => exact .identifier h
  | integer hkind hvalue => exact .integer hkind hvalue
  | truth h => exact .truth h
  | falsity h => exact .falsity h
  | unary hsign _ ih =>
      have hown : Node.operatorStrength? _ = none := hgrouped.own
      have hoperand := ih (hgrouped.of_mem_parts (List.mem_singleton_self _))
      exact .unary hsign (hoperand.weaken (le_hold (Nat.le_refl _) (by simp [hown])))
  | binary _ hsign _ ihl ihr =>
      obtain ⟨hleft, hright⟩ := hgrouped.own
      have hfirst := ihl (hgrouped.of_mem_parts (by simp [Node.parts]))
      have hsecond := ihr (hgrouped.of_mem_parts (by simp [Node.parts]))
      have hsigned := hweak _ hsign
      exact .binary (hfirst.weaken (le_hold (by omega) hleft)) hsign
        (hsecond.weaken (le_hold hsigned hright))
  | call _ hopening hitems hinside hclosing ih ihs =>
      obtain ⟨hoperator, hunary⟩ := hgrouped.own
      have hcallee := ih (hgrouped.of_mem_parts (by simp [Node.parts]))
      rw [hold_eq_undivided hoperator hunary] at hcallee
      refine .call hcallee hopening (fun part hpart => ?_) hinside hclosing
      have hmem : part.tree ∈ trees _ := List.mem_map_of_mem hpart
      have hpart' := ihs part hpart (hgrouped.of_mem_parts (by simp [Node.parts, hmem]))
      exact hpart'.weaken (hitems part hpart).lowest_lt_hold
  | index _ hopening hkey hclosing ihc ihk =>
      obtain ⟨hoperator, hunary⟩ := hgrouped.own
      have hcollection := ihc (hgrouped.of_mem_parts (by simp [Node.parts]))
      rw [hold_eq_undivided hoperator hunary] at hcollection
      have hkey' := ihk (hgrouped.of_mem_parts (by simp [Node.parts]))
      exact .index hcollection hopening (hkey'.weaken hkey.lowest_lt_hold) hclosing

theorem Grouped.tokens_eq {first : Token} {more ends : List Token} {node : Node}
    (h : Grouped (first :: more) node) (hends : ∀ token ∈ ends, token.kind = .eof) :
    tokens (first :: more ++ ends) = ⟨first, [.expression first node], []⟩ := by
  have hcoheres : Coheres (lowest + 1) (first :: more) node :=
    (h.inorder.coheres h.everywhere).weaken h.inorder.lowest_lt_hold
  have hahead : ahead ends = .eof := by
    cases ends with
    | nil => rfl
    | cons token ends => exact hends token List.mem_cons_self
  exact tokens_of_coheres hcoheres hahead

/-! ## Every formula has a well-grouped tree -/

theorem Grouped.binary {sign : Token} {left right : List Token} {first second : Node}
    (hleft : Grouped left first) (hsign : sign.kind ∈ binaryKinds) (hright : Grouped right second)
    (hfirst : ∀ inner ∈ first.operatorStrength?, strength sign.kind ≤ inner)
    (hsecond : ∀ inner ∈ second.operatorStrength?, strength sign.kind < inner) :
    Grouped (left ++ sign :: right) (.binary sign first sign.literal second) := by
  refine ⟨.binary hleft.inorder hsign hright.inorder, .intro ⟨hfirst, hsecond⟩ ?_⟩
  simpa [Node.parts] using ⟨hleft.everywhere, hright.everywhere⟩

/-- The operator that the tree is made with, if there is one, is stronger. -/
def Exceeds (bound : Nat) (node : Node) : Prop :=
  ∀ inner ∈ node.operatorStrength?, bound < inner

/-- An operand is added at the right edge of a tree: below the operators that are weaker than the
new one, and above all others. The tree does not get weaker than it was, or than the new
operator. -/
theorem Grouped.exists_chain {sign : Token} {left right : List Token} {tree operand : Node}
    (htree : Grouped left tree) (hsign : sign.kind ∈ binaryKinds) (hoperand : Grouped right operand)
    (hsimple : operand.operatorStrength? = none) :
    ∃ longer, Grouped (left ++ sign :: right) longer ∧
      ∀ bound < strength sign.kind, Exceeds bound tree → Exceeds bound longer := by
  have hmade (first : Node) (bound : Nat) (hbound : bound < strength sign.kind) :
      Exceeds bound (.binary sign first sign.literal operand) := by
    simpa [Exceeds, Node.operatorStrength?] using hbound
  have hinorder := htree.inorder
  induction hinorder with
  | @binary other before after first second hbefore hother hafter _ ih =>
      obtain ⟨hfirst, hsecond⟩ := htree.everywhere.own
      by_cases hstrong : strength sign.kind ≤ strength other.kind
      · refine ⟨_, htree.binary hsign hoperand ?_ (by simp [hsimple]), fun bound hbound _ =>
          hmade _ bound hbound⟩
        simpa [Node.operatorStrength?] using hstrong
      · have hfirst' : Grouped before first :=
          ⟨hbefore, htree.everywhere.of_mem_parts (by simp [Node.parts])⟩
        have hsecond' : Grouped after second :=
          ⟨hafter, htree.everywhere.of_mem_parts (by simp [Node.parts])⟩
        obtain ⟨longer, hlonger, hexceeds⟩ := ih hsecond'
        have hright := hexceeds (strength other.kind) (by omega) hsecond
        refine ⟨.binary other first other.literal longer, ?_, fun bound _ hbound => hbound⟩
        rw [List.append_assoc, List.cons_append]
        exact hfirst'.binary hother hlonger hfirst hright
  | _ =>
      refine ⟨_, htree.binary hsign hoperand ?_ (by simp [hsimple]),
        fun bound hbound _ => hmade _ bound hbound⟩
      simp [Node.operatorStrength?]

/-- What is known of each piece is known of parts with these pieces. -/
theorem exists_parts_of_pieces {property : List Token → Node → Prop} {pieces : List (List Token)}
    (h : ∀ piece ∈ pieces, ∃ node, property piece node) :
    ∃ parts : List Part, parts.map (·.tokens) = pieces ∧
      ∀ part ∈ parts, property part.tokens part.tree := by
  induction pieces with
  | nil => exact ⟨[], rfl, List.forall_mem_nil _⟩
  | cons piece rest ih =>
      obtain ⟨hpiece, hrest⟩ := List.forall_mem_cons.mp h
      obtain ⟨node, hnode⟩ := hpiece
      obtain ⟨parts, rfl, hparts⟩ := ih hrest
      exact ⟨⟨piece, node⟩ :: parts, rfl, List.forall_mem_cons.mpr ⟨hnode, hparts⟩⟩

theorem exists_grouped_of_isLeaf {token : Token} (h : IsLeaf token) :
    ∃ node, Grouped [token] node ∧ node.operatorStrength? = none ∧ node.isUnary = false := by
  have hleaf {node : Node} (hparts : node.parts = []) (hown : WellGrouped node) :
      node.Everywhere WellGrouped := .intro hown (by simp [hparts])
  rcases h with h | h | h | ⟨hkind, hvalue⟩
  · exact ⟨_, ⟨.identifier h, hleaf rfl trivial⟩, rfl, rfl⟩
  · exact ⟨_, ⟨.truth h, hleaf rfl trivial⟩, rfl, rfl⟩
  · exact ⟨_, ⟨.falsity h, hleaf rfl trivial⟩, rfl, rfl⟩
  · obtain ⟨value, hvalue⟩ := Option.isSome_iff_exists.mp hvalue
    exact ⟨_, ⟨.integer hkind hvalue, hleaf rfl trivial⟩, rfl, rfl⟩

theorem Formula.exists_grouped {shape : Shape} {tokens : List Token} (h : Formula shape tokens) :
    ∃ node, Grouped tokens node ∧ (shape ≠ .formula → node.operatorStrength? = none) ∧
      (shape = .primary → node.isUnary = false) := by
  induction h with
  | leaf h =>
      obtain ⟨node, hnode, hoperator, hunary⟩ := exists_grouped_of_isLeaf h
      exact ⟨node, hnode, fun _ => hoperator, fun _ => hunary⟩
  | @call opening closing callee inside pieces _ hopening _ hinside hclosing ih ihs =>
      obtain ⟨node, hnode, hoperator, hunary⟩ := ih
      have hpieces : ∀ piece ∈ pieces, ∃ node, Grouped piece node := by
        intro piece hpiece
        obtain ⟨node, hnode, _⟩ := ihs piece hpiece
        exact ⟨node, hnode⟩
      obtain ⟨parts, rfl, hparts⟩ := exists_parts_of_pieces hpieces
      refine ⟨.call opening node (trees parts), ⟨.call hnode.inorder hopening
        (fun part hpart => (hparts part hpart).inorder) hinside hclosing, .intro ?_ ?_⟩,
        fun _ => rfl, fun _ => rfl⟩
      · exact ⟨hoperator (by decide), hunary rfl⟩
      · refine List.forall_mem_cons.mpr ⟨hnode.everywhere, ?_⟩
        rw [trees, List.forall_mem_map]
        exact fun part hpart => (hparts part hpart).everywhere
  | @index opening closing collection key _ hopening _ hclosing ihc ihk =>
      obtain ⟨first, hfirst, hoperator, hunary⟩ := ihc
      obtain ⟨second, hsecond, _⟩ := ihk
      refine ⟨.index opening first second, ⟨.index hfirst.inorder hopening hsecond.inorder hclosing,
        .intro ?_ ?_⟩, fun _ => rfl, fun _ => rfl⟩
      · exact ⟨hoperator (by decide), hunary rfl⟩
      · simpa [Node.parts] using ⟨hfirst.everywhere, hsecond.everywhere⟩
  | bare _ ih =>
      obtain ⟨node, hnode, hoperator, _⟩ := ih
      exact ⟨node, hnode, fun _ => hoperator (by decide), by simp⟩
  | @signed sign tokens hsign _ ih =>
      obtain ⟨node, hnode, hoperator, _⟩ := ih
      refine ⟨.unary sign sign.literal node, ⟨.unary hsign hnode.inorder, .intro ?_ ?_⟩,
        fun _ => rfl, by simp⟩
      · exact hoperator (by decide)
      · simpa [Node.parts] using hnode.everywhere
  | single _ ih =>
      obtain ⟨node, hnode, _⟩ := ih
      exact ⟨node, hnode, fun hne => absurd rfl hne, by simp⟩
  | chain _ hsign _ ih ihl =>
      obtain ⟨tree, htree, _⟩ := ih
      obtain ⟨operand, hoperand, hsimple, _⟩ := ihl
      obtain ⟨longer, hlonger, _⟩ := htree.exists_chain hsign hoperand (hsimple (by decide))
      exact ⟨longer, hlonger, fun hne => absurd rfl hne, by simp⟩

/-- A formula is parsed without complaint into a single expression. Its tree has the tokens of the
formula in their order and is well grouped, and it is the only tree of that kind. -/
theorem formula_groups_in_one_way {ts ends : List Token} (h : Formula .formula ts)
    (hends : ∀ token ∈ ends, token.kind = .eof) :
    ∃ first body, ts.head? = some first ∧
      (tokens (ts ++ ends)).complaints = [] ∧
      (tokens (ts ++ ends)).statements = [.expression first body] ∧
      Inorder ts body ∧ body.Everywhere WellGrouped ∧
      ∀ other, Inorder ts other → other.Everywhere WellGrouped → other = body := by
  obtain ⟨body, hbody, _⟩ := h.exists_grouped
  obtain ⟨first, more, rfl, _⟩ := (hbody.inorder.coheres hbody.everywhere).begins
  have hparsed := hbody.tokens_eq hends
  refine ⟨first, body, rfl, by rw [hparsed], by rw [hparsed], hbody.inorder, hbody.everywhere, ?_⟩
  intro other hinorder hgrouped
  have hother := Grouped.tokens_eq ⟨hinorder, hgrouped⟩ hends
  rw [hparsed] at hother
  simpa using hother.symm

/-- Operators of three levels, with a sign in front of a call. -/
theorem formula_groups_in_one_way_mixed :
    let ts := List.map Token.ofLexeme [(.ident, "a"), (.plus, "+"), (.minus, "-"), (.ident, "f"),
      (.lparen, "("), (.int, "1"), (.eq, "=="), (.ident, "b"), (.rparen, ")"), (.asterisk, "*"),
      (.trueWord, "true")]
    Formula .formula ts ∧
      ∃ first body, ts.head? = some first ∧
        (tokens (ts ++ [Token.eofAt .start])).complaints = [] ∧
        (tokens (ts ++ [Token.eofAt .start])).statements = [.expression first body] ∧
        Inorder ts body ∧ body.Everywhere WellGrouped ∧
        ∀ other, Inorder ts other → other.Everywhere WellGrouped → other = body := by
  intro ts
  have hname (text : String) : Formula .primary [Token.ofLexeme (.ident, text)] := .leaf (.inl rfl)
  have hone : Formula .formula [Token.ofLexeme (.int, "1")] :=
    .single (.bare (.leaf (by decide)))
  have hargument : Formula .formula
      ([Token.ofLexeme (.int, "1")] ++ Token.ofLexeme (.eq, "==") :: [Token.ofLexeme (.ident, "b")]) :=
    .chain hone (by decide) (.bare (hname "b"))
  have hcall : Formula .primary ([Token.ofLexeme (.ident, "f")] ++ Token.ofLexeme (.lparen, "(") ::
      ([Token.ofLexeme (.int, "1"), Token.ofLexeme (.eq, "=="), Token.ofLexeme (.ident, "b")] ++
        [Token.ofLexeme (.rparen, ")")])) :=
    .call (hname "f") rfl (List.forall_mem_singleton.mpr hargument) (.some (.one _)) rfl
  have hsum : Formula .formula ([Token.ofLexeme (.ident, "a")] ++ Token.ofLexeme (.plus, "+") ::
      (Token.ofLexeme (.minus, "-") :: _)) :=
    .chain (.single (.bare (hname "a"))) (by decide) (.signed (by decide) (.bare hcall))
  have hformula : Formula .formula (_ ++ Token.ofLexeme (.asterisk, "*") ::
      [Token.ofLexeme (.trueWord, "true")]) :=
    .chain hsum (by decide) (.bare (.leaf (by decide)))
  exact ⟨hformula, formula_groups_in_one_way hformula (by decide)⟩

end Parse

end Monkey
