import Monkey.Eval.Run
import Monkey.Proofs.Eval.Bindings
import Monkey.Proofs.Eval.Contract

/-!
# Evaluation keeps its contract

A contract for evaluation: the scopes hold good values only, and names are bound in `own` scopes and
in scopes that were not there at the start. It is lawful for every hereditary property of values,
so evaluation to any depth keeps it.
-/
namespace Monkey.Eval

/-- Every value that a scope holds is good. -/
def Holds (good : Value → Prop) (world : World) : Prop :=
  ∀ scope name value, world.bound? name scope = some value → good value

variable {good : Value → Prop} {own : Nat → Prop} {assigns : Nat → String → Prop}
  {start world : World}

theorem holds_true (world : World) : Holds (fun _ => True) world :=
  fun _ _ _ _ => trivial

namespace Holds

theorem empty (good : Value → Prop) : Holds good .empty :=
  fun _ _ _ hbound => nomatch hbound

theorem root (h : Holds good world) (builtins : List Builtin) :
    Holds good (world.root builtins).2 := by
  intro scope name value hbound
  rw [World.bound?_root] at hbound
  exact h scope name value hbound

theorem initial (good : Value → Prop) : Holds good .initial :=
  (empty good).root Builtin.all

theorem of_scopes_eq {after : World} (h : Holds good world) (heq : after.scopes = world.scopes) :
    Holds good after := by
  intro scope name value hbound
  rw [World.bound?, heq] at hbound
  exact h scope name value hbound

theorem enclose (h : Holds good world) (outer : Nat) : Holds good (world.enclose outer).2 := by
  intro scope name value hbound
  rw [World.bound?_enclose] at hbound
  exact h scope name value hbound

theorem set {value : Value} (h : Holds good world) (scope : Nat) (name : String)
    (hvalue : good value) : Holds good (world.set scope name value) := by
  intro other key found hfound
  by_cases hother : scope = other
  · subst hother
    have hlt := World.lt_size_of_bound hfound
    rw [World.size_set] at hlt
    rw [World.bound?_set_self value key hlt] at hfound
    split at hfound
    · rwa [← Option.some.inj hfound]
    · exact h scope key found hfound
  · rw [World.bound?_set_of_ne value key hother] at hfound
    exact h other key found hfound

theorem assign {value : Value} (h : Holds good world) (scope : Nat) (name : String)
    (hvalue : good value) : Holds good (world.assign scope name value).2 := by
  cases hholder : world.holder? scope name with
  | some holder =>
      rw [World.assign_of_holder hholder]
      exact h.set holder name hvalue
  | none =>
      rw [World.assign, hholder]
      exact h

theorem good_of_get? (h : Holds good world) (hbuiltin : ∀ builtin, good (.builtin builtin))
    {scope : Nat} {name : String} {value : Value} (hvalue : world.get? scope name = some value) :
    good value := by
  rw [World.get?] at hvalue
  split at hvalue
  · exact h _ name value hvalue
  · rw [World.builtin?] at hvalue
    obtain ⟨found, _, hfind⟩ := Option.bind_eq_some_iff.mp hvalue
    obtain ⟨builtin, _, rfl⟩ := Option.map_eq_some_iff.mp hfind
    exact hbuiltin builtin

end Holds

/-- Good values only, bound in `own` scopes and in those that are new since the start. -/
def within (good : Value → Prop) (own : Nat → Prop) (assigns : Nat → String → Prop)
    (start : World) : Contract where
  holds world := Holds good world ∧ start.scopes.size ≤ world.scopes.size
  reaches scope := own scope ∨ start.scopes.size ≤ scope
  assigns := assigns
  good := good

theorem holds_perform (hgood : Hereditary good) {operation : Operation} (hworld : Holds good world)
    (hmay : (within good own assigns start).May world operation) :
    Holds good (operation.perform world).2 := by
  cases operation with
  | enclose outer => exact hworld.enclose outer
  | set scope name value => exact hworld.set scope name hmay.2
  | assign scope name value =>
      obtain ⟨_, old, new, _, rfl⟩ := hmay
      exact hworld.assign scope name (hgood.integer new)
  | _ => exact hworld.of_scopes_eq rfl

theorem size_le_perform (operation : Operation) (world : World) :
    world.scopes.size ≤ (operation.perform world).2.scopes.size := by
  cases operation with
  | enclose outer =>
      have hsize := World.size_enclose world outer
      simp only [Operation.perform]
      omega
  | set scope name value =>
      have hsize := World.size_set world scope name value
      simp only [Operation.perform]
      omega
  | assign scope name value =>
      simp only [Operation.perform, World.assign]
      split
      next holder _ =>
          have hsize := World.size_set world holder name value
          dsimp only
          omega
      next => exact Nat.le_refl _
  | _ => exact Nat.le_refl _

theorem lawful_within (hgood : Hereditary good) : (within good own assigns start).Lawful where
  toHereditary := hgood
  keeps _ operation hworld hmay :=
    ⟨holds_perform hgood hworld.1 hmay, Nat.le_trans hworld.2 (size_le_perform operation _)⟩
  raises _ _ hworld := ⟨hworld.1.of_scopes_eq rfl, hworld.2⟩
  looks _ _ _ _ hworld hvalue := hworld.1.good_of_get? hgood.builtin hvalue
  opens _ hworld := .inr hworld.2

/-- The node increments the name, and the scope is the one it is evaluated in. -/
def Increments (scope : Nat) (node : Node) (inside : Nat) (name : String) : Prop :=
  inside = scope ∧ ∃ token identifier, node = .increment token identifier ∧ identifier.text = name

/-- The contract of a node's own steps: it binds names in its scope and in new ones, and only an
increment assigns. -/
theorem level_within (hgood : Hereditary good) (hworld : Holds good world) (maxTurns scope : Nat)
    (node : Node) :
    Meets (within good (· = scope) (Increments scope node) world)
      (within good (· = scope) (Increments scope node) world).Carries
      (level maxTurns scope node).script world := by
  have hlawful : (within good (· = scope) (Increments scope node) world).Lawful :=
    lawful_within hgood
  refine level_meets hlawful ⟨hworld, Nat.le_refl _⟩ maxTurns (.inl rfl) ?_
  intro token name hnode
  exact ⟨rfl, token, name, hnode, rfl⟩

/-- What the level below does from a later world on is within reach from the start on. -/
theorem keptBy_eval (hgood : Hereditary good) (own : Nat → Prop) (assigns : Nat → String → Prop)
    (start : World) (maxTurns depth : Nat) :
    (within good own assigns start).KeptBy (eval maxTurns depth) := by
  induction depth generalizing own assigns start with
  | zero =>
      intro scope node world hworld _
      exact .of_none hworld
  | succ depth ih =>
      intro scope node world hworld _
      have hmeets := level_within hgood hworld.1 maxTurns scope node
      have hends := hmeets.run (lawful_within hgood) (ih _ _ world)
      exact ⟨⟨hends.world.1, Nat.le_trans hworld.2 hends.world.2⟩, hends.reply⟩

end Monkey.Eval
