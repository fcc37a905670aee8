import Monkey.Proofs.Eval.Throughout

/-!
# Where the trees of an evaluation come from

An evaluation visits the tree at hand, its parts, and the bodies of functions with theirs. What
holds everywhere in the tree and in the bodies of all functions that the scopes hold at the start
therefore holds of every tree that is visited, and of all functions that are made on the way.
-/
namespace Monkey

namespace Value

mutual

/-- The bodies of the functions inside a value. -/
def bodies : Value → List Node
  | array _ elements => bodiesOfAll elements
  | hash _ entries => bodiesOfEntries entries
  | function _ _ body _ => [body]
  | _ => []

def bodiesOfAll : List Value → List Node
  | [] => []
  | value :: rest => value.bodies ++ bodiesOfAll rest

def bodiesOfEntries : List (Key × Value) → List Node
  | [] => []
  | (_, value) :: rest => value.bodies ++ bodiesOfEntries rest

end

theorem forall_mem_bodiesOfAll {tree : Node → Prop} {values : List Value} :
    (∀ body ∈ bodiesOfAll values, tree body) ↔ ∀ value ∈ values, ∀ body ∈ value.bodies, tree body := by
  induction values with
  | nil => simp [bodiesOfAll]
  | cons value rest ih => rw [bodiesOfAll, List.forall_mem_append, ih, List.forall_mem_cons]

theorem forall_mem_bodiesOfEntries {tree : Node → Prop} {entries : List (Key × Value)} :
    (∀ body ∈ bodiesOfEntries entries, tree body) ↔
      ∀ entry ∈ entries, ∀ body ∈ entry.2.bodies, tree body := by
  induction entries with
  | nil => simp [bodiesOfEntries]
  | cons entry rest ih => rw [bodiesOfEntries, List.forall_mem_append, ih, List.forall_mem_cons]

@[simp] theorem bodies_key (key : Key) : key.value.bodies = [] := by
  cases key <;> rfl

end Value

namespace Eval

/-- Rules that say nothing but what the trees are like that are evaluated. -/
def treeRules (tree : Node → Prop) : Rules where
  good value := ∀ body ∈ value.bodies, tree body
  brief _ := True
  tree := tree
  returns := True
  catches := True

theorem treeRules_lawful {tree : Node → Prop}
    (hevaluated : ∀ node, tree node → ∀ part ∈ node.evaluated, tree part) :
    (treeRules tree).Lawful where
  null := List.forall_mem_nil _
  boolean _ := List.forall_mem_nil _
  string _ := List.forall_mem_nil _
  builtin _ := List.forall_mem_nil _
  word _ _ := List.forall_mem_nil _
  remainder _ _ _ := List.forall_mem_nil _
  bytes _ _ := List.forall_mem_nil _
  count _ _ _ := List.forall_mem_nil _
  array _ _ := Value.forall_mem_bodiesOfAll
  hash _ entries := by
    simp [treeRules, Value.bodies, Value.forall_mem_bodiesOfEntries]
  function _ _ _ _ := List.forall_mem_singleton
  literal _ _ _ := List.forall_mem_nil _
  evaluated := hevaluated

theorem treeRules_grants (tree : Node → Prop) (maxTurns depth : Nat) (visit : Visit) :
    (treeRules tree).Grants maxTurns depth visit where
  value _ _ := trivial
  count _ _ _ _ := List.forall_mem_nil _

/-- What passes on to all that is evaluated is kept from the tree and the functions at hand. -/
theorem abides_treeRules {tree : Node → Prop} {maxTurns depth : Nat} {visit : Visit}
    (hevaluated : ∀ node, tree node → ∀ part ∈ node.evaluated, tree part)
    (hworld : Holds (fun value => ∀ body ∈ value.bodies, tree body) visit.world)
    (hnode : tree visit.node) : Abides (treeRules tree) maxTurns depth visit :=
  abides_of_grants (treeRules_lawful hevaluated) trivial trivial hworld hnode fun _ _ =>
    treeRules_grants tree _ _ _

/-- What holds everywhere in the tree at hand and in the functions at hand holds of all visits. -/
theorem everywhere_of_mem_visits {property : Node → Prop} {maxTurns depth : Nat} {visit : Visit}
    (hworld : Holds (fun value => ∀ body ∈ value.bodies, body.Everywhere property) visit.world)
    (hnode : visit.node.Everywhere property) {entry : Nat × Visit}
    (hentry : entry ∈ visits maxTurns depth visit) : entry.2.node.Everywhere property := by
  have hevaluated : ∀ node : Node, node.Everywhere property →
      ∀ part ∈ node.evaluated, part.Everywhere property :=
    fun _ hnode => Node.forall_evaluated (fun _ h _ hpart => h.of_mem_parts hpart) hnode
  exact ((abides_treeRules hevaluated hworld hnode).visits entry hentry).2

end Eval

end Monkey
