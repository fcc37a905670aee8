import Monkey.Node.Outline
import Monkey.Node.Source
import Mathlib.Tactic.Common

/-!
# Moving tokens to other places

To relocate something is to move every token it holds, with everything else as it was. Names and
trees hold the tokens they were read from, so the same text read elsewhere gives relocated trees.
-/
namespace Monkey

/-- The place that many lines further down. -/
def Position.down (lines : Nat) (position : Position) : Position :=
  ⟨position.line + lines, position.column⟩

/-- One place for all. -/
def Position.erase (_ : Position) : Position := .start

namespace Token

def relocate (move : Position → Position) (token : Token) : Token :=
  { token with position := move token.position }

variable (move other : Position → Position) (token : Token)

@[simp] theorem kind_relocate : (token.relocate move).kind = token.kind := rfl

@[simp] theorem literal_relocate : (token.relocate move).literal = token.literal := rfl

@[simp] theorem span_relocate : (token.relocate move).span = token.span := rfl

@[simp] theorem relocate_eofAt (position : Position) :
    (eofAt position).relocate move = eofAt (move position) := rfl

@[simp] theorem relocate_relocate :
    (token.relocate move).relocate other = token.relocate (other ∘ move) := rfl

end Token

namespace Name

def relocate (move : Position → Position) (name : Name) : Name :=
  ⟨name.token.relocate move, name.text⟩

@[simp] theorem text_relocate (move : Position → Position) (name : Name) :
    (name.relocate move).text = name.text := rfl

@[simp] theorem relocate_relocate (move other : Position → Position) (name : Name) :
    (name.relocate move).relocate other = name.relocate (other ∘ move) := rfl

end Name

namespace Node

mutual

@[simp] def relocate (move : Position → Position) : Node → Node
  | hole => hole
  | program token nodes => program (token.relocate move) (relocateAll move nodes)
  | block token nodes => block (token.relocate move) (relocateAll move nodes)
  | binding token name value =>
      binding (token.relocate move) (name.relocate move) (value.relocate move)
  | returning token value => returning (token.relocate move) (value.relocate move)
  | expression token body => expression (token.relocate move) (body.relocate move)
  | increment token name => increment (token.relocate move) (name.relocate move)
  | clause token condition body =>
      clause (token.relocate move) (condition.relocate move) (relocateAll move body)
  | switch token subject clauses =>
      switch (token.relocate move) (subject.relocate move) (relocateAll move clauses)
  | identifier name => identifier (name.relocate move)
  | integer token value => integer (token.relocate move) value
  | text token value => text (token.relocate move) value
  | boolean token value => boolean (token.relocate move) value
  | unary token operator operand =>
      unary (token.relocate move) operator (operand.relocate move)
  | binary token left operator right =>
      binary (token.relocate move) (left.relocate move) operator (right.relocate move)
  | conditional token condition consequence alternative =>
      conditional (token.relocate move) (condition.relocate move) (consequence.relocate move)
        (alternative.relocate move)
  | loop token init condition post body =>
      loop (token.relocate move) (init.relocate move) (condition.relocate move)
        (post.relocate move) (body.relocate move)
  | function token names body =>
      function (token.relocate move) (names.map (·.relocate move)) (body.relocate move)
  | call token callee arguments =>
      call (token.relocate move) (callee.relocate move) (relocateAll move arguments)
  | array token elements => array (token.relocate move) (relocateAll move elements)
  | index token collection key =>
      index (token.relocate move) (collection.relocate move) (key.relocate move)
  | hash token pairs => hash (token.relocate move) (relocatePairs move pairs)

def relocateAll (move : Position → Position) : List Node → List Node
  | [] => []
  | node :: rest => node.relocate move :: relocateAll move rest

def relocatePairs (move : Position → Position) : List (Node × Node) → List (Node × Node)
  | [] => []
  | (key, value) :: rest => (key.relocate move, value.relocate move) :: relocatePairs move rest

end

@[simp] theorem relocateAll_eq_map (move : Position → Position) (nodes : List Node) :
    relocateAll move nodes = nodes.map (·.relocate move) := by
  induction nodes with
  | nil => rfl
  | cons node rest ih => simp [relocateAll, ih]

@[simp] theorem relocatePairs_eq_map (move : Position → Position) (pairs : List (Node × Node)) :
    relocatePairs move pairs = pairs.map (Prod.map (·.relocate move) (·.relocate move)) := by
  induction pairs with
  | nil => rfl
  | cons pair rest ih => simp [relocatePairs, ih, Prod.map]

@[simp] theorem isHole_relocate (move : Position → Position) (node : Node) :
    (node.relocate move).isHole = node.isHole := by
  cases node <;> rfl

@[simp] theorem isBinding_relocate (move : Position → Position) (node : Node) :
    (node.relocate move).isBinding = node.isBinding := by
  cases node <;> rfl

section
variable (move other : Position → Position)

mutual

/-- Only the last place counts. -/
theorem relocate_relocate (node : Node) :
    (node.relocate move).relocate other = node.relocate (other ∘ move) := by
  cases node <;>
    simp [-relocateAll_eq_map, -relocatePairs_eq_map, relocate_relocate, relocateAll_relocateAll,
      relocatePairs_relocatePairs]

theorem relocateAll_relocateAll (nodes : List Node) :
    relocateAll other (relocateAll move nodes) = relocateAll (other ∘ move) nodes := by
  match nodes with
  | [] => rfl
  | node :: rest =>
      simp only [relocateAll, relocate_relocate node, relocateAll_relocateAll rest]

theorem relocatePairs_relocatePairs (pairs : List (Node × Node)) :
    relocatePairs other (relocatePairs move pairs) = relocatePairs (other ∘ move) pairs := by
  match pairs with
  | [] => rfl
  | (key, value) :: rest =>
      simp only [relocatePairs, relocate_relocate key, relocate_relocate value,
        relocatePairs_relocatePairs rest]

end

end

/-! ## Texts of relocated trees -/

section
variable (move : Position → Position)

mutual

/-- A tree is written without regard to the places of its tokens. -/
theorem source_relocate (node : Node) : (node.relocate move).source = node.source := by
  cases node <;>
    simp [-relocateAll_eq_map, -relocatePairs_eq_map, source, source_relocate, sources_relocate,
      pairSources_relocate, Function.comp_def]

theorem sources_relocate (nodes : List Node) :
    sources (relocateAll move nodes) = sources nodes := by
  match nodes with
  | [] => rfl
  | node :: rest =>
      rw [relocateAll, sources, sources, source_relocate node, sources_relocate rest]

theorem pairSources_relocate (pairs : List (Node × Node)) :
    pairSources (relocatePairs move pairs) = pairSources pairs := by
  match pairs with
  | [] => rfl
  | (key, value) :: rest =>
      rw [relocatePairs, pairSources, pairSources, source_relocate key, source_relocate value,
        pairSources_relocate rest]

end

mutual

theorem outline_relocate (node : Node) : (node.relocate move).outline = node.outline := by
  cases node <;>
    simp [-relocateAll_eq_map, -relocatePairs_eq_map, outline, outline_relocate, outlines_relocate,
      pairOutlines_relocate, nameLeaf, Function.comp_def]

theorem outlines_relocate (nodes : List Node) :
    outlines (relocateAll move nodes) = outlines nodes := by
  match nodes with
  | [] => rfl
  | node :: rest =>
      rw [relocateAll, outlines, outlines, outline_relocate node, outlines_relocate rest]

theorem pairOutlines_relocate (pairs : List (Node × Node)) :
    pairOutlines (relocatePairs move pairs) = pairOutlines pairs := by
  match pairs with
  | [] => rfl
  | (key, value) :: rest =>
      rw [relocatePairs, pairOutlines, pairOutlines, outline_relocate key, outline_relocate value,
        pairOutlines_relocate rest]

end

end

end Node

end Monkey
