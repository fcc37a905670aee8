import Monkey.Node
import Mathlib.Tactic.Common

/-!
# Trees inside trees

The parts of a tree are the trees right inside it. A tree is smaller than what it is part of, so a
property that every tree takes over from its parts is one of all trees. `Everywhere` says that a
property holds of a tree, of its parts, of their parts and so on. An evaluation turns to `evaluated`
trees only, which are the parts but for a switch: its clauses are looked into, not evaluated.
-/
namespace Monkey.Node

/-- The trees right inside a tree. -/
def parts : Node → List Node
  | program _ statements | block _ statements => statements
  | binding _ _ value | returning _ value => [value]
  | expression _ body => [body]
  | clause _ condition body => condition :: body
  | switch _ subject clauses => subject :: clauses
  | unary _ _ operand => [operand]
  | binary _ left _ right => [left, right]
  | conditional _ condition consequence alternative => [condition, consequence, alternative]
  | loop _ init condition post body => [init, condition, post, body]
  | function _ _ body => [body]
  | call _ callee arguments => callee :: arguments
  | array _ elements => elements
  | index _ collection key => [collection, key]
  | hash _ pairs => pairs.flatMap fun pair => [pair.1, pair.2]
  | hole | increment .. | identifier _ | integer .. | text .. | boolean .. => []

theorem sizeOf_lt_of_mem_parts {node part : Node} (h : part ∈ node.parts) :
    sizeOf part < sizeOf node := by
  cases node with
  | hash token pairs =>
      obtain ⟨⟨key, value⟩, hpair, hpart⟩ := List.mem_flatMap.mp h
      have hsize := List.sizeOf_lt_of_mem hpair
      have hcases : part = key ∨ part = value := by simpa using hpart
      rcases hcases with rfl | rfl <;> simp at hsize ⊢ <;> omega
  | program _ nodes | block _ nodes | array _ nodes =>
      have hsize : sizeOf part < sizeOf nodes := List.sizeOf_lt_of_mem h
      simp
      omega
  | clause _ node nodes | switch _ node nodes | call _ node nodes =>
      rcases List.mem_cons.mp h with rfl | hmem
      · simp
        omega
      · have hsize := List.sizeOf_lt_of_mem hmem
        simp
        omega
  | _ => simp [parts] at h ⊢ <;> grind

/-- A property that a tree has if all its parts have it. -/
@[elab_as_elim]
theorem parts_induction {motive : Node → Prop}
    (h : ∀ node, (∀ part ∈ node.parts, motive part) → motive node) (node : Node) : motive node :=
  h node fun part hpart =>
    have := sizeOf_lt_of_mem_parts hpart
    parts_induction h part
termination_by sizeOf node

/-- The property holds of the tree and of every tree inside it. -/
inductive Everywhere (property : Node → Prop) : Node → Prop where
  | intro {node : Node} (hown : property node)
      (hparts : ∀ part ∈ node.parts, Everywhere property part) : Everywhere property node

namespace Everywhere

variable {property : Node → Prop} {node : Node}

theorem own (h : Everywhere property node) : property node := by
  cases h with
  | intro hown _ => exact hown

theorem of_mem_parts (h : Everywhere property node) {part : Node} (hpart : part ∈ node.parts) :
    Everywhere property part := by
  cases h with
  | intro _ hparts => exact hparts part hpart

end Everywhere

/-! ## Trees to evaluate -/

/-- The trees inside a clause; what is no clause stands for none. -/
def insideClause : Node → List Node
  | clause _ condition body => condition :: body
  | _ => []

/-- The trees that the evaluation of a tree turns to, the body of a function included. -/
def evaluated : Node → List Node
  | switch _ subject clauses => subject :: clauses.flatMap insideClause
  | clause .. => []
  | node => node.parts

theorem insideClause_subset_parts (node : Node) : node.insideClause ⊆ node.parts := by
  cases node with
  | clause token condition body => exact List.Subset.refl _
  | _ => exact List.nil_subset _

/-- What passes on to the parts of a tree passes on to the trees that are evaluated. -/
theorem forall_evaluated {tree : Node → Prop}
    (hparts : ∀ node, tree node → ∀ part ∈ node.parts, tree part) {node : Node} (h : tree node) :
    ∀ part ∈ node.evaluated, tree part := by
  cases node with
  | switch token subject clauses =>
      obtain ⟨hsubject, hclauses⟩ := List.forall_mem_cons.mp (hparts _ h)
      refine List.forall_mem_cons.mpr ⟨hsubject, fun part hpart => ?_⟩
      obtain ⟨clause, hclause, hinside⟩ := List.mem_flatMap.mp hpart
      exact hparts clause (hclauses clause hclause) part (insideClause_subset_parts clause hinside)
  | clause => exact List.forall_mem_nil _
  | _ => exact hparts _ h

end Monkey.Node
