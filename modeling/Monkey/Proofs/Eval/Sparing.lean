import Monkey.Proofs.Eval.Steps
import Monkey.Proofs.Eval.Throughout

/-!
# Names that an evaluation spares

A name that is planted in a scope, in front of all its bindings, is seen only by an operation with
that very name. Operations that spare the name do the same in a world where it is planted as in one
where it is not, and leave it there. A level of evaluation spares all names but those that its node
itself mentions: parameters are bound in a new scope, where nothing was planted. Main statement:
`eval_plant`.
-/
namespace Monkey

namespace World

/-- The name bound in a scope, in front of all that the scope binds. -/
def plant (world : World) (home : Nat) (name : String) (value : Value) : World :=
  { world with
    scopes := world.scopes.modify home fun found =>
      { found with bindings := (name, value) :: found.bindings } }

variable {world : World} {home : Nat} {name other : String} {value : Value}

theorem getElem?_plant (world : World) (home : Nat) (name : String) (value : Value) (scope : Nat) :
    (world.plant home name value).scopes[scope]? =
      world.scopes[scope]?.map fun found =>
        if home = scope then { found with bindings := (name, value) :: found.bindings }
        else found := by
  rw [plant, Array.getElem?_modify]
  by_cases hscope : home = scope
  · simp [hscope]
  · simp [hscope]

@[simp] theorem size_plant : (world.plant home name value).scopes.size = world.scopes.size := by
  simp [plant]

theorem bound?_plant_self (h : home < world.scopes.size) :
    (world.plant home name value).bound? name home = some value := by
  have hfound : world.scopes[home]? = some world.scopes[home] := by simp [h]
  rw [bound?, getElem?_plant, hfound, Option.map_some, if_pos rfl, Option.bind_some]
  simp [Bindings.get?]

theorem bound?_plant_of_ne (h : name ≠ other) (scope : Nat) :
    (world.plant home name value).bound? other scope = world.bound? other scope := by
  rw [bound?, bound?, getElem?_plant]
  cases world.scopes[scope]? with
  | none => rfl
  | some found => by_cases hscope : home = scope <;> simp [hscope, Bindings.get?, h]

/-- The way outward does not depend on what scopes bind. -/
theorem chain_plant (world : World) (home : Nat) (name : String) (value : Value) (scope : Nat) :
    chain (world.plant home name value).scopes scope = chain world.scopes scope := by
  fun_induction chain world.scopes scope with
  | case1 scope hnone => rw [chain, getElem?_plant, hnone, Option.map_none]
  | case2 scope found hfound houter =>
      rw [chain, getElem?_plant, hfound, Option.map_some]
      by_cases hscope : home = scope <;> simp [hscope, houter]
  | case3 scope found hfound outer houter ih =>
      rw [chain, getElem?_plant, hfound, Option.map_some]
      by_cases hlt : outer < scope
      · by_cases hscope : home = scope <;> simp [hscope, houter, hlt, ← ih hlt]
      · by_cases hscope : home = scope <;> simp [hscope, houter, hlt]

theorem holder?_plant (h : name ≠ other) (scope : Nat) :
    (world.plant home name value).holder? scope other = world.holder? scope other := by
  simp [holder?, chain_plant, bound?_plant_of_ne h]

theorem builtin?_plant (scope : Nat) :
    (world.plant home name value).builtin? scope other = world.builtin? scope other := by
  rw [builtin?, builtin?, getElem?_plant]
  cases world.scopes[scope]? with
  | none => rfl
  | some found => by_cases hscope : home = scope <;> simp [hscope]

theorem get?_plant (h : name ≠ other) (scope : Nat) :
    (world.plant home name value).get? scope other = world.get? scope other := by
  simp [get?, holder?_plant h, bound?_plant_of_ne h, builtin?_plant]

/-- Other names, and all names in other scopes, are set as ever. -/
theorem set_plant {scope : Nat} (h : name ≠ other ∨ home ≠ scope) (new : Value) :
    (world.plant home name value).set scope other new =
      (world.set scope other new).plant home name value := by
  have hscopes : ((world.plant home name value).set scope other new).scopes =
      ((world.set scope other new).plant home name value).scopes := by
    apply Array.ext_getElem?
    intro number
    rw [getElem?_plant, set, set, Array.getElem?_modify, Array.getElem?_modify, getElem?_plant]
    cases world.scopes[number]? with
    | none => simp
    | some found =>
        by_cases hscope : scope = number
        · by_cases hhome : home = number
          · have hne : name ≠ other := h.resolve_right (not_not_intro (hhome.trans hscope.symm))
            simp [hscope, hhome, Bindings.put, hne]
          · simp [hscope, hhome]
        · simp [hscope]
  exact congrArg (fun scopes => { world with scopes }) hscopes

theorem assign_plant (h : name ≠ other) (scope : Nat) (new : Value) :
    (world.plant home name value).assign scope other new =
      ((world.assign scope other new).1,
        (world.assign scope other new).2.plant home name value) := by
  rw [assign, assign, holder?_plant h]
  cases world.holder? scope other with
  | none => rfl
  | some number => simp [set_plant (.inl h)]

theorem enclose_plant (h : home < world.scopes.size) (outer : Nat) :
    (world.plant home name value).enclose outer =
      ((world.enclose outer).1, (world.enclose outer).2.plant home name value) := by
  have hbuiltins : ((world.plant home name value).scopes[outer]?.map (·.builtins)).getD [] =
      (world.scopes[outer]?.map (·.builtins)).getD [] := by
    rw [getElem?_plant]
    cases world.scopes[outer]? with
    | none => rfl
    | some found => by_cases hhome : home = outer <;> simp [hhome]
  have hscopes : ((world.plant home name value).enclose outer).2.scopes =
      ((world.enclose outer).2.plant home name value).scopes := by
    apply Array.ext_getElem?
    intro number
    rw [getElem?_plant, enclose, enclose, hbuiltins, Array.getElem?_push, Array.getElem?_push,
      size_plant]
    by_cases hnumber : number = world.scopes.size
    · simp [hnumber]
      omega
    · simp only [if_neg hnumber, getElem?_plant]
  refine Prod.ext ?_ (congrArg (fun scopes => { world with scopes }) hscopes)
  simp [enclose]

end World

namespace Eval

open Monkey.Eval.Action

/-! ## Operations and scripts -/

namespace Operation

/-- What the operation does has nothing to do with the name in the scope `home`. -/
def Spares (home : Nat) (name : String) : Operation → Prop
  | look _ other => name ≠ other
  | set scope other _ => name ≠ other ∨ home ≠ scope
  | assign _ other _ => name ≠ other
  | _ => True

/-- If the operation opens a scope, that is not the scope `home`. -/
def Leaves (home : Nat) : (operation : Operation) → operation.Reply → Prop
  | enclose _, own => home ≠ own
  | _, _ => True

theorem leaves_perform {home : Nat} {world : World} (h : home < world.scopes.size)
    (operation : Operation) : operation.Leaves home (operation.perform world).1 := by
  cases operation with
  | enclose outer => exact Nat.ne_of_lt h
  | _ => trivial

theorem Spares.perform_plant {home : Nat} {name : String} {operation : Operation}
    (h : operation.Spares home name) {world : World} (hhome : home < world.scopes.size)
    (value : Value) :
    operation.perform (world.plant home name value) =
      ((operation.perform world).1, (operation.perform world).2.plant home name value) := by
  cases operation with
  | enclose outer => exact World.enclose_plant hhome outer
  | look scope other => exact congrArg (·, world.plant home name value) (World.get?_plant h scope)
  | set scope other new => exact congrArg ((), ·) (World.set_plant h new)
  | assign scope other new => exact World.assign_plant h scope new
  | _ => rfl

end Operation

/-- The steps that have nothing to do with the name in the scope `home`, where every scope that is
opened is another. -/
def sparing (home : Nat) (name : String) : Steps where
  may := Operation.Spares home name
  gives := Operation.Leaves home

/-- A result with the name planted in its world. -/
def Result.plant (result : Result α) (home : Nat) (name : String) (value : Value) : Result α :=
  ⟨result.value, result.world.plant home name value⟩

/-- A script that spares the name runs in the same way where it is planted, if the evaluations
inside it do. -/
theorem Script.Keeps.run_plant {home : Nat} {name : String} {inner : Evaluator} {value : Value}
    {script : Script α} (h : script.Keeps (sparing home name)) {world : World}
    (hhome : home < world.scopes.size)
    (hgrows : ∀ scope node world, world.scopes.size ≤ (inner scope node world).world.scopes.size)
    (hinner : ∀ visit ∈ script.visits inner world, home < visit.world.scopes.size →
      inner visit.scope visit.node (visit.world.plant home name value) =
        (visit.under inner).plant home name value) :
    script.run inner (world.plant home name value) =
      (script.run inner world).plant home name value := by
  induction script generalizing world with
  | done | exhausted => rfl
  | perform operation next ih =>
      have hreply := Operation.leaves_perform hhome operation
      have hsize := size_le_perform operation world
      rw [Script.run, Operation.Spares.perform_plant h.1 hhome value]
      exact ih _ (h.2 _ (operation.gives_perform world) hreply) (by omega) hinner
  | evaluate scope node next ih =>
      have hfirst := hinner ⟨scope, node, world⟩ Arrives.here.mem_visits hhome
      have hsize := hgrows scope node world
      rcases hresult : inner scope node world with ⟨_ | reply, after⟩
      · rw [Visit.under, hresult] at hfirst
        rw [run_evaluate_none hresult, run_evaluate_none hfirst]
        rfl
      · rw [Visit.under, hresult] at hfirst
        rw [hresult] at hsize
        rw [run_evaluate_some hresult, run_evaluate_some hfirst]
        rw [visits_evaluate_some hresult] at hinner
        refine ih reply (h reply) (Nat.lt_of_lt_of_le hhome hsize) fun visit hvisit => ?_
        exact hinner visit (List.mem_cons_of_mem _ hvisit)

/-- A level has to do with the names of its node only. -/
theorem level_spares {node : Node} {home : Nat} {name : String} (h : name ∉ node.names)
    (maxTurns scope : Nat) : (level maxTurns scope node).script.Keeps (sparing home name) := by
  have hne : ∀ other ∈ node.names, name ≠ other := fun other hother heq => h (heq ▸ hother)
  refine level_keeps ?_ maxTurns
  exact {
    enclose := fun _ => trivial
    -- nothing is planted in a scope that was opened, so all names can be bound there
    bind := fun _ _ _ _ hown => .inr hown
    write := fun _ => trivial
    newArray := fun _ => trivial
    newHash := fun _ => trivial
    newFunction := fun _ _ _ => trivial
    look := hne
    set := fun other hother _ => .inl (hne other hother)
    assign := fun other hother _ => hne other hother
    raise := fun _ _ => trivial }

/-! ## All levels -/

theorem size_le_replay (operations : List Operation) (world : World) :
    world.scopes.size ≤ (replay operations world).scopes.size := by
  induction operations generalizing world with
  | nil => exact Nat.le_refl _
  | cons operation rest ih => exact Nat.le_trans (size_le_perform operation world) (ih _)

theorem size_le_eval (maxTurns depth scope : Nat) (node : Node) (world : World) :
    world.scopes.size ≤ (eval maxTurns depth scope node world).world.scopes.size := by
  rw [eval_world_eq_replay]
  exact size_le_replay _ world

/-- If no node that is visited mentions the name, the evaluation comes to the same where the name is
planted, and leaves it there. -/
theorem eval_plant {maxTurns depth home : Nat} {name : String} {visit : Visit}
    (hhome : home < visit.world.scopes.size)
    (hnames : ∀ entry ∈ visits maxTurns depth visit, name ∉ entry.2.node.names) (value : Value) :
    eval maxTurns depth visit.scope visit.node (visit.world.plant home name value) =
      (visit.under (eval maxTurns depth)).plant home name value := by
  induction depth generalizing visit with
  | zero => rfl
  | succ depth ih =>
      have hown := hnames _ (mem_visits_self maxTurns (depth + 1) visit)
      apply (level_spares hown maxTurns visit.scope).run_plant hhome (size_le_eval maxTurns depth)
      intro part hpart hsize
      exact ih hsize fun entry hentry => hnames entry (visits_subset_of_mem hpart hentry)

end Eval

end Monkey
