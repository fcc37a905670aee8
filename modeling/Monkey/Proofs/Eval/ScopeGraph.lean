import Monkey.Proofs.Eval.Rules
import Monkey.Proofs.Eval.Upkeep

/-!
# The graph of scopes

Scopes point outward to older ones, and functions point to the scopes they were made in. That no
pointer leads astray is an invariant of evaluation: a new scope is opened inside one that is there,
and a function is made in one. So the way from a scope outward ends at a root, and reading a name
comes to the nearest scope on it that holds the name, or else to a builtin of the root.
-/
namespace Monkey

namespace Value

mutual

/-- The scopes in which the functions inside a value were made. -/
def captured : Value → List Nat
  | integer _ | boolean _ | string _ | null | builtin _ | error _ => []
  | array _ elements => capturedByAll elements
  | hash _ entries => capturedByEntries entries
  | function _ _ _ scope => [scope]

def capturedByAll : List Value → List Nat
  | [] => []
  | value :: rest => value.captured ++ capturedByAll rest

def capturedByEntries : List (Key × Value) → List Nat
  | [] => []
  | (_, value) :: rest => value.captured ++ capturedByEntries rest

end

theorem mem_capturedByAll {scope : Nat} {values : List Value} :
    scope ∈ capturedByAll values ↔ ∃ value ∈ values, scope ∈ value.captured := by
  induction values with
  | nil => simp [capturedByAll]
  | cons value rest ih => simp [capturedByAll, ih]

theorem mem_capturedByEntries {scope : Nat} {entries : List (Key × Value)} :
    scope ∈ capturedByEntries entries ↔ ∃ entry ∈ entries, scope ∈ entry.2.captured := by
  induction entries with
  | nil => simp [capturedByEntries]
  | cons entry rest ih => simp [capturedByEntries, ih]

/-- Every function in the value was made in one of the first `count` scopes. -/
def CapturesBelow (count : Nat) (value : Value) : Prop :=
  ∀ scope ∈ value.captured, scope < count

instance (count : Nat) (value : Value) : Decidable (value.CapturesBelow count) :=
  inferInstanceAs (Decidable (∀ scope ∈ value.captured, scope < count))

theorem CapturesBelow.mono {count larger : Nat} {value : Value} (h : value.CapturesBelow count)
    (hle : count ≤ larger) : value.CapturesBelow larger :=
  fun scope hscope => Nat.lt_of_lt_of_le (h scope hscope) hle

theorem capturesBelow_key (count : Nat) (key : Key) : key.value.CapturesBelow count := by
  cases key <;> exact List.forall_mem_nil _

theorem capturesBelow_array {count stamp : Nat} {elements : List Value} :
    (array stamp elements).CapturesBelow count ↔ ∀ value ∈ elements, value.CapturesBelow count := by
  simp only [CapturesBelow, captured, mem_capturedByAll]
  constructor
  · exact fun h value hvalue scope hscope => h scope ⟨value, hvalue, hscope⟩
  · rintro h scope ⟨value, hvalue, hscope⟩
    exact h value hvalue scope hscope

theorem capturesBelow_hash {count stamp : Nat} {entries : List (Key × Value)} :
    (hash stamp entries).CapturesBelow count ↔
      ∀ entry ∈ entries, entry.1.value.CapturesBelow count ∧ entry.2.CapturesBelow count := by
  simp only [capturesBelow_key, true_and]
  simp only [CapturesBelow, captured, mem_capturedByEntries]
  constructor
  · exact fun h entry hentry scope hscope => h scope ⟨entry, hentry, hscope⟩
  · rintro h scope ⟨entry, hentry, hscope⟩
    exact h entry hentry scope hscope

theorem closed_capturesBelow (count : Nat) : Eval.Closed (CapturesBelow count) fun _ => True where
  null := List.forall_mem_nil _
  boolean _ := List.forall_mem_nil _
  string _ := List.forall_mem_nil _
  builtin _ := List.forall_mem_nil _
  word _ _ := List.forall_mem_nil _
  remainder _ _ _ := List.forall_mem_nil _
  bytes _ _ := List.forall_mem_nil _
  count _ _ _ := List.forall_mem_nil _
  array _ _ := capturesBelow_array
  hash _ _ := capturesBelow_hash

end Value

/-! ## Frames -/

namespace World

/-- The scope around a scope, if it is no root, and the builtins it knows. -/
def frame? (world : World) (scope : Nat) : Option (Option Nat × List Builtin) :=
  world.scopes[scope]?.map fun found => (found.outer, found.builtins)

variable {world : World} {scope : Nat}

theorem lt_size_of_frame? {frame : Option Nat × List Builtin}
    (h : world.frame? scope = some frame) : scope < world.scopes.size := by
  obtain ⟨found, hfound, _⟩ := Option.map_eq_some_iff.mp h
  exact (Array.getElem?_eq_some_iff.mp hfound).1

theorem exists_frame? (h : scope < world.scopes.size) : ∃ frame, world.frame? scope = some frame :=
  ⟨_, by rw [frame?, Array.getElem?_eq_getElem h]; rfl⟩

theorem frame?_set (world : World) (scope : Nat) (name : String) (value : Value) (other : Nat) :
    (world.set scope name value).frame? other = world.frame? other := by
  by_cases h : scope = other
  · simp [frame?, set, Array.getElem?_modify, h, Function.comp_def]
  · simp [frame?, set, Array.getElem?_modify, h]

theorem frame?_assign (world : World) (scope : Nat) (name : String) (value : Value) (other : Nat) :
    (world.assign scope name value).2.frame? other = world.frame? other := by
  rw [assign]
  split
  · exact frame?_set ..
  · rfl

theorem frame?_enclose (h : scope < world.scopes.size) (outer : Nat) :
    (world.enclose outer).2.frame? scope = world.frame? scope := by
  simp [frame?, enclose, Array.getElem?_push, Nat.ne_of_lt h]

/-- A new scope knows the builtins of the one around it. -/
theorem frame?_enclose_self {outer : Nat} {frame : Option Nat × List Builtin}
    (h : world.frame? outer = some frame) :
    (world.enclose outer).2.frame? world.scopes.size = some (some outer, frame.2) := by
  obtain ⟨found, hfound, rfl⟩ := Option.map_eq_some_iff.mp h
  simp [frame?, enclose, hfound]

theorem frame?_root (h : scope < world.scopes.size) (builtins : List Builtin) :
    (world.root builtins).2.frame? scope = world.frame? scope := by
  simp [frame?, root, Array.getElem?_push, Nat.ne_of_lt h]

theorem frame?_root_self (world : World) (builtins : List Builtin) :
    (world.root builtins).2.frame? world.scopes.size = some (none, builtins) := by
  simp [frame?, root]

theorem builtin?_of_frame? {above : Option Nat} {builtins : List Builtin}
    (h : world.frame? scope = some (above, builtins)) (name : String) :
    world.builtin? scope name = (builtins.find? (·.name == name)).map .builtin := by
  obtain ⟨found, hfound, hparts⟩ := Option.map_eq_some_iff.mp h
  obtain ⟨_, rfl⟩ := Prod.mk.inj hparts
  simp [builtin?, hfound]

/-- Pointers outward lead to older scopes with the same builtins, and functions that are bound were
made in scopes that are there. -/
structure WellScoped (world : World) : Prop where
  outer : ∀ scope outer builtins, world.frame? scope = some (some outer, builtins) →
    outer < scope ∧ ∃ above, world.frame? outer = some (above, builtins)
  captured : Eval.Holds (·.CapturesBelow world.scopes.size) world

/-- What is well scoped stays so if the scopes that are there keep their frames, new ones point to
those, and values are bound that are good. -/
theorem WellScoped.grow {after : World} (h : world.WellScoped)
    (hkept : ∀ scope < world.scopes.size, after.frame? scope = world.frame? scope)
    (hnew : ∀ scope outer builtins, world.scopes.size ≤ scope →
      after.frame? scope = some (some outer, builtins) →
        outer < world.scopes.size ∧ ∃ above, world.frame? outer = some (above, builtins))
    (hcaptured : Eval.Holds (·.CapturesBelow after.scopes.size) after) : after.WellScoped := by
  refine ⟨fun scope outer builtins hframe => ?_, hcaptured⟩
  by_cases hscope : scope < world.scopes.size
  · rw [hkept scope hscope] at hframe
    obtain ⟨hlt, above, habove⟩ := h.outer scope outer builtins hframe
    exact ⟨hlt, above, by rwa [hkept outer (Nat.lt_trans hlt hscope)]⟩
  · have hold := Nat.le_of_not_lt hscope
    obtain ⟨hlt, above, habove⟩ := hnew scope outer builtins hold hframe
    exact ⟨Nat.lt_of_lt_of_le hlt hold, above, by rwa [hkept outer hlt]⟩

theorem wellScoped_empty : empty.WellScoped where
  outer _ _ _ hframe := nomatch hframe
  captured _ _ _ hbound := nomatch hbound

theorem WellScoped.root (h : world.WellScoped) (builtins : List Builtin) :
    (world.root builtins).2.WellScoped := by
  have hsize : (world.root builtins).2.scopes.size = world.scopes.size + 1 := by simp [World.root]
  apply h.grow (fun scope hscope => frame?_root hscope builtins)
  · intro scope outer found hold hframe
    have hlt := lt_size_of_frame? hframe
    obtain rfl : scope = world.scopes.size := by omega
    rw [frame?_root_self] at hframe
    cases hframe
  · intro scope name value hbound
    rw [bound?_root] at hbound
    exact (h.captured scope name value hbound).mono (by omega)

end World

namespace Eval

open World

/-- No pointer leads astray. -/
def wellScoped : Invariant where
  holds := WellScoped
  good world value := value.CapturesBelow world.scopes.size

theorem frame?_perform {world : World} {scope : Nat} (hscope : scope < world.scopes.size)
    (operation : Operation) : (operation.perform world).2.frame? scope = world.frame? scope := by
  cases operation with
  | enclose outer => exact frame?_enclose hscope outer
  | set scope name value => exact frame?_set ..
  | assign scope name value => exact frame?_assign ..
  | _ => rfl

theorem Holds.mono {good better : Value → Prop} {world : World} (h : Holds good world)
    (hgood : ∀ value, good value → better value) : Holds better world :=
  fun scope name value hbound => hgood value (h scope name value hbound)

theorem bears_of_may {world : World} {operation : Operation}
    (hmay : wellScoped.May world operation) :
    operation.Bears (·.CapturesBelow world.scopes.size) := by
  cases operation with
  | set | assign => exact hmay.2
  | newArray => exact hmay
  | newHash => exact fun entry hentry => ⟨Value.capturesBelow_key _ _, hmay entry hentry⟩
  | _ => trivial

/-- Only one kind of operation makes a scope. -/
theorem size_perform (operation : Operation) (world : World) :
    (∃ outer, operation = .enclose outer) ∨
      (operation.perform world).2.scopes.size = world.scopes.size := by
  cases operation with
  | enclose outer => exact .inl ⟨outer, rfl⟩
  | set scope name value => exact .inr (size_set world scope name value)
  | assign scope name value =>
      right
      simp only [Operation.perform, World.assign]
      split
      · exact size_set ..
      · rfl
  | _ => exact .inr rfl

/-- A scope that an operation makes points to one that was there, and knows its builtins. -/
theorem exists_frame?_of_perform {world : World} {operation : Operation} {scope outer : Nat}
    {builtins : List Builtin} (hmay : wellScoped.May world operation)
    (hnew : world.scopes.size ≤ scope)
    (hframe : (operation.perform world).2.frame? scope = some (some outer, builtins)) :
    outer < world.scopes.size ∧ ∃ above, world.frame? outer = some (above, builtins) := by
  have hlt := lt_size_of_frame? hframe
  rcases size_perform operation world with ⟨around, rfl⟩ | hsame
  · have hgrown : ((Operation.enclose around).perform world).2.scopes.size =
        world.scopes.size + 1 := size_enclose world around
    obtain rfl : scope = world.scopes.size := by omega
    have hinside : around < world.scopes.size := hmay
    obtain ⟨⟨above, shared⟩, haround⟩ := exists_frame? hinside
    rw [Operation.perform, frame?_enclose_self haround] at hframe
    obtain ⟨houter, rfl⟩ := Prod.mk.inj (Option.some.inj hframe)
    obtain rfl := Option.some.inj houter
    exact ⟨hmay, above, haround⟩
  · omega

theorem wellScoped_perform {world : World} {operation : Operation} (h : world.WellScoped)
    (hmay : wellScoped.May world operation) : (operation.perform world).2.WellScoped := by
  apply h.grow fun scope hscope => frame?_perform hscope operation
  · exact fun _ _ _ hnew hframe => exists_frame?_of_perform hmay hnew hframe
  · have hbound := h.captured.perform (bears_of_may hmay)
    exact hbound.mono fun value hvalue => hvalue.mono (size_le_perform operation world)

/-- What an operation comes back with has no function but those made in scopes that are there. -/
theorem capturesBelow_of_given {world : World} {operation : Operation} (h : world.WellScoped)
    (hmay : wellScoped.May world operation) {value : Value}
    (hgiven : value ∈ operation.given (operation.perform world).1) :
    value.CapturesBelow (operation.perform world).2.scopes.size := by
  cases operation with
  | look scope name =>
      have hget : world.get? scope name = some value := Option.mem_toList.mp hgiven
      exact h.captured.good_of_get? (fun _ => List.forall_mem_nil _) hget
  | newArray elements =>
      rw [List.mem_singleton.mp hgiven]
      exact Value.capturesBelow_array.mpr hmay
  | newHash entries =>
      rw [List.mem_singleton.mp hgiven]
      exact Value.capturesBelow_hash.mpr fun entry hentry =>
        ⟨Value.capturesBelow_key _ _, hmay entry hentry⟩
  | newFunction parameters body scope =>
      rw [List.mem_singleton.mp hgiven]
      exact List.forall_mem_singleton.mpr hmay
  | _ => cases hgiven

theorem lawful_wellScoped : wellScoped.Lawful where
  keeps _ _ := wellScoped_perform
  gives _ _ h hmay _ := capturesBelow_of_given h hmay
  stays world operation _ _ _ hvalue := hvalue.mono (size_le_perform operation world)
  null _ := (Value.closed_capturesBelow _).null
  integer _ _ := List.forall_mem_nil _
  boolean _ := (Value.closed_capturesBelow _).boolean
  string _ := (Value.closed_capturesBelow _).string
  function _ _ _ _ home hvalue := hvalue home List.mem_cons_self
  elements _ _ _ hvalue := Value.capturesBelow_array.mp hvalue
  unary _ _ _ _ := (Value.closed_capturesBelow _).unary
  binary _ _ _ _ _ := (Value.closed_capturesBelow _).binary
  index _ _ _ _ := (Value.closed_capturesBelow _).index

end Eval

/-! ## The way outward -/

namespace World

/-- The scopes from one to its root, each followed by the one around it. -/
inductive Outward (world : World) : Nat → List Nat → Nat → Prop where
  | root {scope : Nat} {builtins : List Builtin} (h : world.frame? scope = some (none, builtins)) :
      Outward world scope [scope] scope
  | step {scope outer root : Nat} {builtins : List Builtin} {path : List Nat}
      (h : world.frame? scope = some (some outer, builtins))
      (hpath : Outward world outer path root) : Outward world scope (scope :: path) root

variable {world : World} {scope root : Nat} {path : List Nat}

theorem Outward.lt_size (h : world.Outward scope path root) : scope < world.scopes.size := by
  cases h with
  | root hframe => exact lt_size_of_frame? hframe
  | step hframe => exact lt_size_of_frame? hframe

theorem Outward.unique {other : List Nat} {last : Nat} (h : world.Outward scope path root)
    (h' : world.Outward scope other last) : other = path ∧ last = root := by
  induction h generalizing other with
  | root hframe =>
      cases h' with
      | root => exact ⟨rfl, rfl⟩
      | step hframe' => simp [hframe] at hframe'
  | step hframe _ ih =>
      cases h' with
      | root hframe' => simp [hframe] at hframe'
      | step hframe' hpath' =>
          rw [hframe] at hframe'
          obtain ⟨houter, _⟩ := Prod.mk.inj (Option.some.inj hframe')
          obtain rfl := Option.some.inj houter
          obtain ⟨rfl, rfl⟩ := ih hpath'
          exact ⟨rfl, rfl⟩

section
variable (h : world.WellScoped)
include h

/-- Every way outward ends. -/
theorem WellScoped.exists_outward (hscope : scope < world.scopes.size) :
    ∃ path root, world.Outward scope path root := by
  -- what lies around a scope is older, so the induction is on its number
  induction scope using Nat.strongRecOn with
  | ind scope ih =>
      obtain ⟨⟨_ | outer, builtins⟩, hframe⟩ := exists_frame? hscope
      · exact ⟨[scope], scope, .root hframe⟩
      · obtain ⟨hlt, _⟩ := h.outer scope outer builtins hframe
        obtain ⟨path, root, hpath⟩ := ih outer hlt (Nat.lt_trans hlt hscope)
        exact ⟨scope :: path, root, .step hframe hpath⟩

/-- The builtins of a scope are those of every scope on the way. -/
theorem WellScoped.frame?_of_outward (hpath : world.Outward scope path root)
    {above : Option Nat} {builtins : List Builtin}
    (hframe : world.frame? scope = some (above, builtins)) :
    ∀ number ∈ root :: path, ∃ outer, world.frame? number = some (outer, builtins) := by
  induction hpath generalizing above with
  | root _ => simpa using ⟨above, hframe⟩
  | step hstep _ ih =>
      rw [hframe] at hstep
      obtain ⟨rfl, rfl⟩ := Prod.mk.inj (Option.some.inj hstep)
      obtain ⟨_, around, haround⟩ := h.outer _ _ _ hframe
      have hrest := ih haround
      intro number hmem
      rcases List.mem_cons.mp hmem with rfl | hmem
      · exact hrest _ List.mem_cons_self
      · rcases List.mem_cons.mp hmem with rfl | hmem
        · exact ⟨_, hframe⟩
        · exact hrest number (List.mem_cons_of_mem _ hmem)

theorem WellScoped.chain_eq (hpath : world.Outward scope path root) :
    chain world.scopes scope = path := by
  induction hpath with
  | root hframe =>
      obtain ⟨found, hfound, hparts⟩ := Option.map_eq_some_iff.mp hframe
      rw [chain, hfound]
      simp [(Prod.mk.inj hparts).1]
  | @step scope outer root builtins path hframe _ ih =>
      obtain ⟨hlt, _⟩ := h.outer scope outer builtins hframe
      obtain ⟨found, hfound, hparts⟩ := Option.map_eq_some_iff.mp hframe
      rw [chain, hfound]
      simp [(Prod.mk.inj hparts).1, hlt, ih]

/-- A name has the value of its nearest binding on the way outward, or else of a builtin that the
root knows. -/
theorem WellScoped.get?_of_outward (hpath : world.Outward scope path root) (name : String) :
    world.get? scope name = (path.findSome? (world.bound? name)).or (world.builtin? root name) := by
  rw [get?, holder?, h.chain_eq hpath]
  cases hfind : path.find? fun number => (world.bound? name number).isSome with
  | some number =>
      obtain ⟨hheld, front, back, hsplit, hfront⟩ := List.find?_eq_some_iff_append.mp hfind
      obtain ⟨value, hvalue⟩ := Option.isSome_iff_exists.mp hheld
      have hfirst : path.findSome? (world.bound? name) = some value :=
        List.findSome?_eq_some_iff.mpr
          ⟨front, number, back, hsplit, hvalue, by simpa using hfront⟩
      simp [hvalue, hfirst]
  | none =>
      have hnone : path.findSome? (world.bound? name) = none := by simpa using hfind
      obtain ⟨⟨above, builtins⟩, hframe⟩ := exists_frame? hpath.lt_size
      obtain ⟨outer, hroot⟩ := h.frame?_of_outward hpath hframe root List.mem_cons_self
      simp [hnone, builtin?_of_frame? hframe, builtin?_of_frame? hroot]

/-- What is assigned to a name goes to its nearest binding on the way outward. -/
theorem WellScoped.assign_of_outward (hpath : world.Outward scope path root) (name : String)
    (value : Value) :
    world.assign scope name value =
      (path.find? fun number => (world.bound? name number).isSome).elim (false, world)
        fun number => (true, world.set number name value) := by
  rw [assign, holder?, h.chain_eq hpath]
  cases path.find? fun number => (world.bound? name number).isSome with
  | none => rfl
  | some number => rfl

end

end World

end Monkey
