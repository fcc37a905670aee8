import Monkey.World
import Mathlib.Tactic.Common

/-!
# Bindings of a world

How each operation on a world changes the bindings of its scopes. A new scope has none, a name is
set in one scope only, and a name that has an integer as its value is held by some scope, because
the builtins are no integers.
-/
namespace Monkey.World

variable {world : World} {name : String} {scope : Nat}

theorem size_set (world : World) (scope : Nat) (name : String) (value : Value) :
    (world.set scope name value).scopes.size = world.scopes.size := by
  simp [set]

theorem bound?_eq_none_of_size_le (h : world.scopes.size ≤ scope) :
    world.bound? name scope = none := by
  simp [bound?, Array.getElem?_eq_none h]

theorem lt_size_of_bound {value : Value} (h : world.bound? name scope = some value) :
    scope < world.scopes.size := by
  by_contra hle
  have hnone : world.bound? name scope = none := bound?_eq_none_of_size_le (Nat.le_of_not_lt hle)
  rw [hnone] at h
  cases h

theorem bound?_set_of_ne {other : Nat} (value : Value) (key : String) (h : scope ≠ other) :
    (world.set scope name value).bound? key other = world.bound? key other := by
  have hget : (world.set scope name value).scopes[other]? = world.scopes[other]? := by
    simp [set, Array.getElem?_modify, h]
  rw [bound?, bound?, hget]

theorem bound?_set_self (value : Value) (key : String) (h : scope < world.scopes.size) :
    (world.set scope name value).bound? key scope =
      if name = key then some value else world.bound? key scope := by
  have hold : world.scopes[scope]? = some world.scopes[scope] := by simp [h]
  have hget : (world.set scope name value).scopes[scope]? =
      some { world.scopes[scope] with
        bindings := world.scopes[scope].bindings.put name value } := by
    simp only [set, Array.getElem?_modify, hold]
    rfl
  rw [bound?, bound?, hget, hold]
  exact Bindings.get?_put _ name key value

theorem size_enclose (world : World) (outer : Nat) :
    (world.enclose outer).2.scopes.size = world.scopes.size + 1 := by
  simp [enclose]

/-- A new scope binds nothing, and the others keep their bindings. -/
theorem bound?_enclose (world : World) (outer : Nat) (key : String) (other : Nat) :
    (world.enclose outer).2.bound? key other = world.bound? key other := by
  by_cases hlt : other < world.scopes.size
  · have hget : (world.enclose outer).2.scopes[other]? = world.scopes[other]? := by
      simp [enclose, Array.getElem?_push, Nat.ne_of_lt hlt]
    rw [bound?, bound?, hget]
  · rw [bound?_eq_none_of_size_le (Nat.le_of_not_lt hlt)]
    by_cases heq : other = world.scopes.size
    · subst heq
      simp [bound?, enclose, Bindings.get?]
    · apply bound?_eq_none_of_size_le
      rw [size_enclose]
      omega

theorem bound?_root (world : World) (builtins : List Builtin) (key : String) (other : Nat) :
    (world.root builtins).2.bound? key other = world.bound? key other := by
  by_cases h : other = world.scopes.size
  · simp [bound?, World.root, h, Bindings.get?]
  · simp [bound?, World.root, Array.getElem?_push, h]

/-- An integer is never the value of a builtin, so some scope holds it. -/
theorem exists_holder_of_integer {number : Int}
    (h : world.get? scope name = some (.integer number)) :
    ∃ holder, world.holder? scope name = some holder ∧
      world.bound? name holder = some (.integer number) := by
  rw [get?] at h
  cases hholder : world.holder? scope name with
  | some holder =>
      rw [hholder] at h
      exact ⟨holder, rfl, h⟩
  | none =>
      rw [hholder, builtin?] at h
      cases hscope : world.scopes[scope]? with
      | none => simp [hscope] at h
      | some found =>
          cases hfind : found.builtins.find? (·.name == name) <;> simp [hscope, hfind] at h

theorem assign_of_holder {holder : Nat} {value : Value}
    (h : world.holder? scope name = some holder) :
    (world.assign scope name value).2 = world.set holder name value := by
  rw [assign, h]

end Monkey.World
