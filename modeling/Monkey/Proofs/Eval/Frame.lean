import Monkey.Proofs.Eval.History
import Monkey.Proofs.Eval.Kept
import Mathlib

/-!
# What an evaluation leaves alone

An evaluation binds names in its own scope and in scopes that it opens itself. In every other scope
it can only turn an integer into another one, by an assignment that stands in its history. Nested
evaluations work in their own scope, which is the same or a new one, so their laws add up to the
law of the whole.
-/
namespace Monkey.Eval

/-- The binding stays, or an integer took the place of an integer and the name was assigned to. -/
def Steady (operations : List Operation) (name : String) (before after : Option Value) : Prop :=
  after = before ∨
    (∃ old new, before = some (.integer old) ∧ after = some (.integer new)) ∧
      ∃ scope value, .assign scope name value ∈ operations

namespace Steady

variable {first second : List Operation} {name : String} {before middle after : Option Value}

theorem mono (h : Steady first name before after) (hsub : ∀ operation ∈ first, operation ∈ second) :
    Steady second name before after := by
  obtain heq | ⟨hintegers, scope, value, hmem⟩ := h
  · exact .inl heq
  · exact .inr ⟨hintegers, scope, value, hsub _ hmem⟩

theorem trans (h : Steady first name before middle) (h' : Steady second name middle after) :
    Steady (first ++ second) name before after := by
  obtain rfl | ⟨⟨old, between, hold, hbetween⟩, scope, value, hmem⟩ := h
  · exact h'.mono fun _ hmem => List.mem_append_right _ hmem
  · have hassigned : ∃ scope value, .assign scope name value ∈ first ++ second :=
      ⟨scope, value, List.mem_append_left _ hmem⟩
    obtain rfl | ⟨⟨_, new, _, hnew⟩, _⟩ := h'
    · exact .inr ⟨⟨old, between, hold, hbetween⟩, hassigned⟩
    · exact .inr ⟨⟨old, new, hold, hnew⟩, hassigned⟩

end Steady

/-- Scopes stay, none loses a name, and the bindings of those that are not `own` are steady. -/
structure Frame (own : Nat → Prop) (operations : List Operation) (before after : World) : Prop where
  size : before.scopes.size ≤ after.scopes.size
  steady : ∀ scope < before.scopes.size, ¬ own scope → ∀ name,
    Steady operations name (before.bound? name scope) (after.bound? name scope)
  kept : ∀ scope name, (before.bound? name scope).isSome → (after.bound? name scope).isSome

namespace Frame

variable {own : Nat → Prop} {operations : List Operation} {world before middle after : World}

theorem of_bound?_eq (hsize : before.scopes.size ≤ after.scopes.size)
    (h : ∀ name scope, after.bound? name scope = before.bound? name scope) :
    Frame own operations before after := by
  constructor
  · exact hsize
  · intro scope _ _ name
    exact .inl (h name scope)
  · intro scope name hsome
    rwa [h]

theorem of_scopes_eq (h : after.scopes = before.scopes) : Frame own operations before after := by
  refine of_bound?_eq (Nat.le_of_eq (congrArg Array.size h.symm)) fun name scope => ?_
  rw [World.bound?, World.bound?, h]

theorem refl (own : Nat → Prop) (operations : List Operation) (world : World) :
    Frame own operations world world :=
  of_scopes_eq rfl

theorem trans {more : List Operation} (h : Frame own operations before middle)
    (h' : Frame own more middle after) : Frame own (operations ++ more) before after := by
  constructor
  · exact Nat.le_trans h.size h'.size
  · intro scope hscope hown name
    have hlater : scope < middle.scopes.size := Nat.lt_of_lt_of_le hscope h.size
    exact (h.steady scope hscope hown name).trans (h'.steady scope hlater hown name)
  · intro scope name hsome
    exact h'.kept scope name (h.kept scope name hsome)

theorem mono {other : Nat → Prop} (h : Frame own operations before after)
    (hsub : ∀ scope < before.scopes.size, own scope → other scope) :
    Frame other operations before after :=
  ⟨h.size, fun scope hscope hother name =>
    h.steady scope hscope (fun hown => hother (hsub scope hscope hown)) name, h.kept⟩

theorem isSome_bound?_set (world : World) (target : Nat) (name : String) (value : Value)
    {scope : Nat} {key : String} (h : (world.bound? key scope).isSome) :
    ((world.set target name value).bound? key scope).isSome := by
  by_cases heq : target = scope
  · subst heq
    obtain ⟨old, hold⟩ := Option.isSome_iff_exists.mp h
    rw [World.bound?_set_self value key (World.lt_size_of_bound hold)]
    split
    · rfl
    · exact h
  · rwa [World.bound?_set_of_ne value key heq]

theorem set {scope : Nat} (name : String) (value : Value) (hown : own scope) :
    Frame own operations world (world.set scope name value) := by
  constructor
  · exact Nat.le_of_eq (World.size_set world scope name value).symm
  · intro other _ hother key
    have hne : scope ≠ other := by
      rintro rfl
      exact hother hown
    exact .inl (World.bound?_set_of_ne value key hne)
  · intro other key hsome
    exact isSome_bound?_set world scope name value hsome

/-- To put an integer in the place of an integer is allowed everywhere. -/
theorem assign {scope : Nat} {name : String} {old new : Int}
    (h : world.get? scope name = some (.integer old))
    (hmem : .assign scope name (.integer new) ∈ operations) :
    Frame own operations world (world.assign scope name (.integer new)).2 := by
  obtain ⟨holder, hholder, hbound⟩ := World.exists_holder_of_integer h
  rw [World.assign_of_holder hholder]
  constructor
  · exact Nat.le_of_eq (World.size_set world holder name (.integer new)).symm
  · intro other _ _ key
    by_cases hother : holder = other
    · subst hother
      rw [World.bound?_set_self _ key (World.lt_size_of_bound hbound)]
      by_cases hkey : name = key
      · subst hkey
        exact .inr ⟨⟨old, new, hbound, if_pos rfl⟩, scope, .integer new, hmem⟩
      · exact .inl (if_neg hkey)
    · exact .inl (World.bound?_set_of_ne _ key hother)
  · intro other key hsome
    exact isSome_bound?_set world holder name _ hsome

theorem perform {good : Value → Prop} {assigns : Nat → String → Prop} {start : World}
    {operation : Operation}
    (hmay : (within good own assigns start).May world operation) :
    Frame (within good own assigns start).reaches [operation] world
      (operation.perform world).2 := by
  cases operation with
  | enclose outer =>
      refine of_bound?_eq ?_ (World.bound?_enclose world outer)
      exact size_le_perform (.enclose outer) world
  | set scope name value => exact .set name value hmay.1
  | assign scope name value =>
      obtain ⟨_, old, new, hold, rfl⟩ := hmay
      exact .assign hold (by simp)
  | _ => exact .of_scopes_eq rfl

end Frame

section
variable {α : Type} {good : Value → Prop} {own : Nat → Prop} {assigns : Nat → String → Prop}
  {start world : World} {inner : Evaluator} {doings : Nat → Node → World → List Operation}
  {post : α → Prop} {script : Script (Except Stop α)}

/-- A script that writes within reach leaves the rest alone if its evaluations do. -/
theorem Meets.frame (h : Meets (within good own assigns start) post script world)
    (hinner : (within good own assigns start).KeptBy inner)
    (hframe : ∀ scope node world, Holds good world →
      Frame (· = scope) (doings scope node world) world (inner scope node world).world) :
    Frame (within good own assigns start).reaches (script.operations inner doings world) world
      (script.run inner world).world := by
  induction h with
  | done | returning | failed | exhausted => exact .refl _ _ _
  | @raise world fault next _ hnext =>
      have hraise : Frame (within good own assigns start).reaches
          ((Script.perform (.raise fault) next).operations inner doings world) world
          (world.freshFailure fault).2 := .of_scopes_eq rfl
      simpa [Script.run, hnext, Operation.perform] using hraise
  | perform _ hmay _ ih => exact (Frame.perform hmay).trans ih
  | @evaluate world scope node next hworld hscope hfailed _ ih =>
      have hpart : Frame (within good own assigns start).reaches (doings scope node world) world
          (inner scope node world).world := by
        refine (hframe scope node world hworld.1).mono fun other _ hother => ?_
        rwa [hother]
      obtain ⟨after, hresult, hafter⟩ | ⟨failure, after, hresult, hafter⟩ |
        ⟨reply, after, hresult, hafter, hbrings⟩ := hinner.cases node hworld hscope
      · rw [Script.run_evaluate_none hresult, Script.operations_evaluate_none hresult]
        rwa [hresult] at hpart
      · rw [Script.run_evaluate_some hresult, Script.operations_evaluate_some hresult, hfailed]
        rw [hresult] at hpart
        exact hpart.trans (.refl _ _ _)
      · rw [Script.run_evaluate_some hresult, Script.operations_evaluate_some hresult]
        rw [hresult] at hpart
        exact hpart.trans (ih reply after hafter hbrings)

/-- Among its own steps, a script assigns only where its contract says so. -/
theorem Meets.assigns_of_performed {contract : Contract} (h : Meets contract post script world)
    (hinner : contract.KeptBy inner) {scope : Nat} {name : String} {value : Value}
    (hmem : .performed (.assign scope name value) ∈ script.events inner world) :
    contract.assigns scope name := by
  induction h with
  | done | returning | failed | exhausted => simp [Script.events] at hmem
  | raise _ hnext =>
      rw [Script.events_raise hnext] at hmem
      simp at hmem
  | perform _ hmay _ ih =>
      rw [Script.events, List.mem_cons] at hmem
      obtain heq | hlater := hmem
      · obtain rfl := Event.performed.inj heq
        exact hmay.1
      · exact ih hlater
  | @evaluate world part body next hworld hscope hfailed _ ih =>
      obtain ⟨after, hresult, hafter⟩ | ⟨failure, after, hresult, hafter⟩ |
        ⟨reply, after, hresult, hafter, hbrings⟩ := hinner.cases body hworld hscope
      · rw [Script.events_evaluate_none hresult] at hmem
        simp at hmem
      · rw [Script.events_evaluate_some hresult, hfailed] at hmem
        simp [Script.events] at hmem
      · rw [Script.events_evaluate_some hresult, List.mem_cons] at hmem
        obtain heq | hlater := hmem
        · cases heq
        · exact ih reply after hafter hbrings hlater

end

/-- The scopes that were there at the start are reached only if they are `own`. -/
theorem Frame.of_reaches {good : Value → Prop} {own : Nat → Prop} {assigns : Nat → String → Prop}
    {operations : List Operation} {before after : World}
    (h : Frame (within good own assigns before).reaches operations before after) :
    Frame own operations before after := by
  apply h.mono
  intro scope hscope hreaches
  obtain hown | hnew := hreaches
  · exact hown
  · omega

/-- What an evaluation leaves alone, by its history. -/
theorem history_frame (maxTurns depth scope : Nat) (node : Node) (world : World) :
    Frame (· = scope) (history maxTurns depth scope node world) world
      (eval maxTurns depth scope node world).world := by
  induction depth generalizing scope node world with
  | zero => exact .refl _ _ _
  | succ depth ih =>
      have hmeets := level_within hereditary_true (holds_true world) maxTurns scope node
      have hkept :=
        keptBy_eval hereditary_true (· = scope) (Increments scope node) world maxTurns depth
      exact (hmeets.frame hkept fun inside part middle _ => ih inside part middle).of_reaches

/-- A script that needs no scope to bind names in leaves all scopes alone. -/
theorem frame_of_meets {α : Type} {action : Action α} {post : α → Prop} {world : World}
    (maxTurns depth : Nat)
    (h : Meets (within (fun _ => True) (fun _ => False) (fun _ _ => True) world) post
      action.script world) :
    Frame (fun _ => False)
      (action.script.operations (eval maxTurns depth) (history maxTurns depth) world) world
      (action.run (eval maxTurns depth) world).world := by
  have hkept := keptBy_eval hereditary_true (fun _ => False) (fun _ _ => True) world maxTurns depth
  exact (h.frame hkept fun inside part middle _ =>
    history_frame maxTurns depth inside part middle).of_reaches

theorem apply_frame (maxTurns depth : Nat) (callee : Value) (arguments : List Value)
    (world : World) :
    Frame (fun _ => False)
      ((apply callee arguments).script.operations (eval maxTurns depth) (history maxTurns depth)
        world) world
      ((apply callee arguments).run (eval maxTurns depth) world).world := by
  apply frame_of_meets maxTurns depth
  exact apply_meets (lawful_within hereditary_true) ⟨holds_true world, Nat.le_refl _⟩ trivial
    fun _ _ => trivial

theorem loop_frame (maxTurns depth scope : Nat) (token : Token) (init condition post body : Node)
    (world : World) :
    Frame (fun _ => False)
      (history maxTurns depth scope (.loop token init condition post body) world) world
      (eval maxTurns depth scope (.loop token init condition post body) world).world := by
  cases depth with
  | zero => exact .refl _ _ _
  | succ depth =>
      apply frame_of_meets maxTurns depth
      exact loop_meets (lawful_within hereditary_true) ⟨holds_true world, Nat.le_refl _⟩
        maxTurns scope init condition post body

/-- The scope binds the same names as before. Where a binding is another, an integer was and is
bound, and the name was assigned to. -/
structure Undisturbed (operations : List Operation) (scope : Nat) (before after : World) :
    Prop where
  names : ∀ name, (after.bound? name scope).isSome = (before.bound? name scope).isSome
  changes : ∀ name, after.bound? name scope ≠ before.bound? name scope →
    (∃ old, before.bound? name scope = some (.integer old)) ∧
      (∃ new, after.bound? name scope = some (.integer new)) ∧
      ∃ inside value, .assign inside name value ∈ operations

theorem Frame.undisturbed {own : Nat → Prop} {operations : List Operation} {before after : World}
    (h : Frame own operations before after) {scope : Nat} (hscope : scope < before.scopes.size)
    (hown : ¬ own scope) : Undisturbed operations scope before after := by
  constructor
  · intro name
    obtain heq | ⟨⟨old, new, hold, hnew⟩, _⟩ := h.steady scope hscope hown name
    · rw [heq]
    · rw [hold, hnew]
      rfl
  · intro name hne
    obtain heq | ⟨⟨old, new, hold, hnew⟩, hassigned⟩ := h.steady scope hscope hown name
    · exact absurd heq hne
    · exact ⟨⟨old, hold⟩, ⟨new, hnew⟩, hassigned⟩

/-- Evaluation leaves all scopes but its own undisturbed, and its own loses no name. A call and a
loop leave all scopes undisturbed that were there before. Nothing but an increment assigns. -/
theorem scopes_undisturbed (maxTurns depth : Nat) (world : World) :
    (∀ scope node,
      (∀ other < world.scopes.size, other ≠ scope →
        Undisturbed (history maxTurns depth scope node world) other world
          (eval maxTurns depth scope node world).world) ∧
      ∀ name, (world.bound? name scope).isSome →
        ((eval maxTurns depth scope node world).world.bound? name scope).isSome) ∧
    (∀ callee arguments, ∀ other < world.scopes.size,
      Undisturbed
        ((apply callee arguments).script.operations (eval maxTurns depth) (history maxTurns depth)
          world)
        other world ((apply callee arguments).run (eval maxTurns depth) world).world) ∧
    (∀ scope token init condition post body, ∀ other < world.scopes.size,
      Undisturbed (history maxTurns depth scope (.loop token init condition post body) world)
        other world
        (eval maxTurns depth scope (.loop token init condition post body) world).world) ∧
    ∀ scope node inside name value,
      .performed (.assign inside name value) ∈
          (level maxTurns scope node).script.events (eval maxTurns depth) world →
        inside = scope ∧
          ∃ token identifier, node = .increment token identifier ∧ identifier.text = name := by
  refine ⟨fun scope node => ⟨?_, ?_⟩, ?_, ?_, ?_⟩
  · intro other hother hne
    exact (history_frame maxTurns depth scope node world).undisturbed hother hne
  · intro name hsome
    exact (history_frame maxTurns depth scope node world).kept scope name hsome
  · intro callee arguments other hother
    exact (apply_frame maxTurns depth callee arguments world).undisturbed hother id
  · intro scope token init condition post body other hother
    exact (loop_frame maxTurns depth scope token init condition post body world).undisturbed
      hother id
  · intro scope node inside name value hmem
    have hmeets := level_within hereditary_true (holds_true world) maxTurns scope node
    exact hmeets.assigns_of_performed (keptBy_eval hereditary_true _ _ world maxTurns depth) hmem

/-- A closure that counts in the scope it was made in. -/
theorem scopes_undisturbed_counter :
    let world := World.initial.set 0 "i" (.integer 1)
    let counter := Value.function 0 [] (.increment default ⟨default, "i"⟩) 0
    let called := (apply counter []).run (eval 3 3) world
    called.world.bound? "i" 0 = some (.integer 2) ∧
      Undisturbed ((apply counter []).script.operations (eval 3 3) (history 3 3) world) 0 world
        called.world := by
  constructor
  · cbv
  · exact (scopes_undisturbed 3 3 _).2.1 _ [] 0 (by decide)

end Monkey.Eval
