import Monkey.Proofs.Eval.Equality
import Monkey.Proofs.Eval.ScopeGraph

/-!
# What was made, in order

Arrays, hashes and functions have an identity, the stamp they were made with. A ledger lists them
beside the world, in the order in which they were made. Their stamps are their places in this list,
and a value is put together from nothing that is not in it: that is an invariant of evaluation, of
values on their way as of those that scopes hold, captured scopes included. So what has a stamp in
common is one and the same.
-/
namespace Monkey

namespace Value

/-- The stamp of an array, a hash or a function. -/
def stamp? : Value → Option Nat
  | array stamp _ | hash stamp _ | function stamp _ _ _ => some stamp
  | _ => none

mutual

/-- The arrays, hashes and functions that a value is put together from, itself included. -/
def objects : Value → List Value
  | array stamp elements => array stamp elements :: objectsOfAll elements
  | hash stamp entries => hash stamp entries :: objectsOfEntries entries
  | function stamp parameters body scope => [function stamp parameters body scope]
  | _ => []

def objectsOfAll : List Value → List Value
  | [] => []
  | value :: rest => value.objects ++ objectsOfAll rest

def objectsOfEntries : List (Key × Value) → List Value
  | [] => []
  | (_, value) :: rest => value.objects ++ objectsOfEntries rest

end

/-- The value is put together from these. -/
def StemsFrom (made : List Value) (value : Value) : Prop :=
  value.objects ⊆ made

variable {made : List Value}

theorem StemsFrom.mono {larger : List Value} {value : Value} (h : value.StemsFrom made)
    (hsubset : made ⊆ larger) : value.StemsFrom larger :=
  List.Subset.trans h hsubset

theorem stemsFrom_key (made : List Value) (key : Key) : key.value.StemsFrom made := by
  cases key <;> exact List.nil_subset _

theorem stemsFrom_array {stamp : Nat} {elements : List Value} :
    (array stamp elements).StemsFrom made ↔
      array stamp elements ∈ made ∧ ∀ value ∈ elements, value.StemsFrom made := by
  have hall : objectsOfAll elements ⊆ made ↔ ∀ value ∈ elements, value.StemsFrom made := by
    induction elements with
    | nil => simp [objectsOfAll]
    | cons value rest ih => simp [objectsOfAll, ih, StemsFrom]
  rw [StemsFrom, objects, List.cons_subset, hall]

theorem stemsFrom_hash {stamp : Nat} {entries : List (Key × Value)} :
    (hash stamp entries).StemsFrom made ↔
      hash stamp entries ∈ made ∧ ∀ entry ∈ entries, entry.2.StemsFrom made := by
  have hall : objectsOfEntries entries ⊆ made ↔ ∀ entry ∈ entries, entry.2.StemsFrom made := by
    induction entries with
    | nil => simp [objectsOfEntries]
    | cons entry rest ih => simp [objectsOfEntries, ih, StemsFrom]
  rw [StemsFrom, objects, List.cons_subset, hall]

/-- What has an identity stems from itself at least. -/
theorem StemsFrom.mem {value : Value} {stamp : Nat} (h : value.StemsFrom made)
    (hstamp : value.stamp? = some stamp) : value ∈ made := by
  cases value with
  | array _ elements => exact (stemsFrom_array.mp h).1
  | hash _ entries => exact (stemsFrom_hash.mp h).1
  | function _ parameters body scope => exact h List.mem_cons_self
  | _ => cases hstamp

theorem stamp?_eq_of_same {left right : Value} (h : left.same right = true) :
    left.stamp? = right.stamp? := by
  cases left <;> cases right <;> simp_all [same, stamp?]

/-! ## What the language makes of values -/

/-- Operators make nothing that has an identity. -/
theorem objects_of_unary {operator : String} {operand value : Value}
    (h : operand.unary operator = .ok value) : value.objects = [] := by
  unfold unary at h
  split at h
  · obtain rfl := Except.ok.inj h
    rfl
  · split at h
    · obtain rfl := Except.ok.inj h
      rfl
    · cases h
  · cases h

theorem objects_of_integerBinary {operator : String} {a b : Int} {value : Value}
    (h : integerBinary operator a b = .ok value) : value.objects = [] := by
  unfold integerBinary at h
  split at h
  case h_4 | h_5 =>
      split at h
      · cases h
      · obtain rfl := Except.ok.inj h
        rfl
  case h_10 => cases h
  all_goals
    obtain rfl := Except.ok.inj h
    rfl

theorem objects_of_stringBinary {operator a b : String} {value : Value}
    (h : stringBinary operator a b = .ok value) : value.objects = [] := by
  unfold stringBinary at h
  split at h
  case h_4 => cases h
  all_goals
    obtain rfl := Except.ok.inj h
    rfl

theorem objects_of_comparison {operator : String} {left right value : Value}
    (h : comparison operator left right = .ok value) : value.objects = [] := by
  unfold comparison at h
  split at h
  · split at h
    case h_3 => cases h
    all_goals
      obtain rfl := Except.ok.inj h
      rfl
  · cases h

theorem objects_of_binary {operator : String} {left right value : Value}
    (h : binary operator left right = .ok value) : value.objects = [] := by
  unfold binary at h
  split at h
  · exact objects_of_integerBinary h
  · exact objects_of_stringBinary h
  · exact objects_of_comparison h

/-- The values that a collection holds. -/
def contents : Value → List Value
  | array _ elements => elements
  | hash _ entries => entries.map (·.2)
  | _ => []

theorem StemsFrom.contents {collection : Value} (h : collection.StemsFrom made) :
    ∀ value ∈ collection.contents, value.StemsFrom made := by
  cases collection with
  | array _ elements => exact (stemsFrom_array.mp h).2
  | hash _ entries =>
      intro value hvalue
      obtain ⟨entry, hentry, rfl⟩ := List.mem_map.mp hvalue
      exact (stemsFrom_hash.mp h).2 entry hentry
  | _ => nofun

theorem mem_of_valueOf? {key : Key} {entries : List (Key × Value)} {value : Value}
    (h : valueOf? key entries = some value) : (key, value) ∈ entries := by
  induction entries with
  | nil => cases h
  | cons entry rest ih =>
      unfold valueOf? at h
      split at h
      next hkey =>
          obtain rfl := hkey
          obtain rfl := Option.some.inj h
          exact List.mem_cons_self
      · exact List.mem_cons_of_mem _ (ih h)

/-- To index a collection gives one of the values that it holds, as it is, or null. -/
theorem mem_contents_of_index {collection key value : Value}
    (h : collection.index key = .ok value) : value = .null ∨ value ∈ collection.contents := by
  unfold index at h
  split at h
  next stamp elements position =>
      obtain rfl := Except.ok.inj h
      unfold elementAt
      split
      · exact .inl rfl
      · cases hget : elements[position.toNat]? with
        | none => exact .inl rfl
        | some element => exact .inr (List.mem_of_getElem? hget)
  next stamp entries =>
      split at h
      next found _ =>
          obtain rfl := Except.ok.inj h
          cases hfound : valueOf? found entries with
          | none => exact .inl rfl
          | some value => exact .inr (List.mem_map.mpr ⟨_, mem_of_valueOf? hfound, rfl⟩)
      · cases h
  · cases h

end Value

namespace Eval

open World

/-- What an operation makes that has an identity. -/
def Operation.makes : Operation → World → List Value
  | .newArray elements, world => [(world.freshArray elements).1]
  | .newHash entries, world => [(world.freshHash entries).1]
  | .newFunction parameters body scope, world => [(world.freshFunction parameters body scope).1]
  | _, _ => []

theorem objects_perform (operation : Operation) (world : World) :
    (operation.perform world).2.objects = world.objects + (operation.makes world).length := by
  cases operation with
  | assign scope name value =>
      simp only [Operation.perform, World.assign]
      split <;> rfl
  | _ => rfl

theorem stamp?_of_makes {operation : Operation} {world : World} {value : Value} {place : Nat}
    (h : (operation.makes world)[place]? = some value) :
    value.stamp? = some (world.objects + place) := by
  have hbound := (List.getElem?_eq_some_iff.mp h).1
  cases operation with
  | newArray | newHash | newFunction =>
      obtain rfl : place = 0 := Nat.lt_one_iff.mp hbound
      obtain rfl := Option.some.inj h
      rfl
  | _ => cases hbound

structure Ledger where
  world : World
  /-- What was made so far, in order. -/
  made : List Value

namespace Ledger

def step (operation : Operation) (ledger : Ledger) : Ledger :=
  ⟨(operation.perform ledger.world).2, ledger.made ++ operation.makes ledger.world⟩

def replay (operations : List Operation) (ledger : Ledger) : Ledger :=
  operations.foldl (fun ledger operation => ledger.step operation) ledger

structure Sound (ledger : Ledger) : Prop where
  wellScoped : ledger.world.WellScoped
  count : ledger.made.length = ledger.world.objects
  /-- What was made has its place as its stamp. -/
  stamps : ∀ (event : Nat) (value : Value), ledger.made[event]? = some value →
    value.stamp? = some event
  bound : Holds (·.StemsFrom ledger.made) ledger.world

end Ledger

/-- Everything that has an identity is in the ledger. -/
def recorded : Invariant where
  State := Ledger
  world := Ledger.world
  step := Ledger.step
  world_step _ _ := rfl
  holds := Ledger.Sound
  good ledger value :=
    value.CapturesBelow ledger.world.scopes.size ∧ value.StemsFrom ledger.made

section
variable {ledger : Ledger} {operation : Operation}

theorem wellScoped_of_recorded (hmay : recorded.May ledger operation) :
    wellScoped.May ledger.world operation := by
  cases operation with
  | set | assign => exact ⟨hmay.1, hmay.2.1⟩
  | newArray => exact fun value hvalue => (hmay value hvalue).1
  | newHash => exact fun entry hentry => (hmay entry hentry).1
  | _ => exact hmay

theorem bears_of_recorded (hmay : recorded.May ledger operation) :
    operation.Bears (·.StemsFrom ledger.made) := by
  cases operation with
  | set | assign => exact hmay.2.2
  | newArray => exact fun value hvalue => (hmay value hvalue).2
  | newHash => exact fun entry hentry => ⟨Value.stemsFrom_key _ _, (hmay entry hentry).2⟩
  | _ => trivial

theorem stemsFrom_step {value : Value} (h : value.StemsFrom ledger.made) (operation : Operation) :
    value.StemsFrom (ledger.step operation).made :=
  h.mono (List.subset_append_left _ _)

theorem Ledger.Sound.step (h : ledger.Sound) (hmay : recorded.May ledger operation) :
    (ledger.step operation).Sound where
  wellScoped := wellScoped_perform h.wellScoped (wellScoped_of_recorded hmay)
  count := by
    show (ledger.made ++ operation.makes ledger.world).length = _
    rw [List.length_append, h.count]
    exact (objects_perform operation ledger.world).symm
  stamps event value hvalue := by
    have hplace : (ledger.made ++ operation.makes ledger.world)[event]? = some value := hvalue
    rw [List.getElem?_append] at hplace
    split at hplace
    · exact h.stamps event value hplace
    next hnew =>
        rw [stamp?_of_makes hplace, ← h.count]
        congr 1
        omega
  bound := by
    have hbound := h.bound.perform (bears_of_recorded hmay)
    exact hbound.mono fun value hvalue => stemsFrom_step hvalue operation

/-- What is made stems from the ledger behind it. -/
theorem stemsFrom_of_given (h : ledger.Sound) (hmay : recorded.May ledger operation) {value : Value}
    (hgiven : value ∈ operation.given (operation.perform ledger.world).1) :
    value.StemsFrom (ledger.step operation).made := by
  have hbears := bears_of_recorded hmay
  have hmade : ∀ made ∈ operation.makes ledger.world, made ∈ (ledger.step operation).made :=
    fun made hmem => List.mem_append_right _ hmem
  cases operation with
  | look scope name =>
      have hget : ledger.world.get? scope name = some value := Option.mem_toList.mp hgiven
      have hstems := h.bound.good_of_get? (fun _ => List.nil_subset _) hget
      exact stemsFrom_step hstems _
  | newArray elements =>
      rw [List.mem_singleton.mp hgiven]
      refine Value.stemsFrom_array.mpr ⟨hmade _ List.mem_cons_self, fun element helement => ?_⟩
      exact stemsFrom_step (hbears element helement) _
  | newHash entries =>
      rw [List.mem_singleton.mp hgiven]
      refine Value.stemsFrom_hash.mpr ⟨hmade _ List.mem_cons_self, fun entry hentry => ?_⟩
      exact stemsFrom_step (hbears entry hentry).2 _
  | newFunction parameters body scope =>
      rw [List.mem_singleton.mp hgiven]
      exact List.cons_subset.mpr ⟨hmade _ List.mem_cons_self, List.nil_subset _⟩
  | _ => cases hgiven

end

theorem lawful_recorded : recorded.Lawful where
  keeps _ _ h hmay := h.step hmay
  stays ledger operation _ _ _ hvalue :=
    ⟨hvalue.1.mono (size_le_perform operation ledger.world), stemsFrom_step hvalue.2 operation⟩
  gives _ _ h hmay _ hgiven :=
    ⟨capturesBelow_of_given h.wellScoped (wellScoped_of_recorded hmay) hgiven,
      stemsFrom_of_given h hmay hgiven⟩
  null _ := ⟨List.forall_mem_nil _, List.nil_subset _⟩
  integer _ _ := ⟨List.forall_mem_nil _, List.nil_subset _⟩
  boolean _ _ := ⟨List.forall_mem_nil _, List.nil_subset _⟩
  string _ _ := ⟨List.forall_mem_nil _, List.nil_subset _⟩
  function _ _ _ _ home hvalue := hvalue.1 home List.mem_cons_self
  elements _ _ _ hvalue value hmem :=
    ⟨Value.capturesBelow_array.mp hvalue.1 value hmem,
      (Value.stemsFrom_array.mp hvalue.2).2 value hmem⟩
  unary _ _ _ _ hresult := by
    refine ⟨(Value.closed_capturesBelow _).unary hresult, ?_⟩
    rw [Value.StemsFrom, Value.objects_of_unary hresult]
    exact List.nil_subset _
  binary _ _ _ _ _ hleft hresult := by
    refine ⟨(Value.closed_capturesBelow _).binary hleft.1 hresult, ?_⟩
    rw [Value.StemsFrom, Value.objects_of_binary hresult]
    exact List.nil_subset _
  index _ _ _ value hcollection hresult := by
    refine ⟨(Value.closed_capturesBelow _).index hcollection.1 hresult, ?_⟩
    obtain rfl | hmem := Value.mem_contents_of_index hresult
    · exact List.nil_subset _
    · exact hcollection.2.contents value hmem

/-! ## Identity -/

section
variable {ledger : Ledger} (h : ledger.Sound)
include h

/-- What has a stamp in common is one and the same, and was made at one place. -/
theorem Ledger.Sound.same_iff {left right : Value} (hleft : left ∈ ledger.made)
    (hright : right ∈ ledger.made) :
    left.same right = true ↔
      ∃ event : Nat, ledger.made[event]? = some left ∧ ledger.made[event]? = some right := by
  obtain ⟨first, hfirst⟩ := List.mem_iff_getElem?.mp hleft
  obtain ⟨second, hsecond⟩ := List.mem_iff_getElem?.mp hright
  constructor
  · intro hsame
    have hstamps := Value.stamp?_eq_of_same hsame
    rw [h.stamps first left hfirst, h.stamps second right hsecond] at hstamps
    obtain rfl := Option.some.inj hstamps
    exact ⟨first, hfirst, hsecond⟩
  · rintro ⟨event, hevent, hevent'⟩
    obtain rfl := Option.some.inj (hevent.symm.trans hevent')
    exact Value.same_equivalence.refl left

/-- What is made next is the same as nothing that stems from the ledger. -/
theorem Ledger.Sound.same_eq_false {operation : Operation} {value other : Value}
    (hmade : operation.makes ledger.world = [value]) (hother : other.StemsFrom ledger.made) :
    other.same value = false := by
  have hplace : (operation.makes ledger.world)[0]? = some value := by rw [hmade]; rfl
  have hstamp : value.stamp? = some ledger.world.objects := stamp?_of_makes hplace
  rw [Bool.eq_false_iff]
  intro hsame
  -- all that was made before has a smaller stamp, its place in the ledger
  have hold := (Value.stamp?_eq_of_same hsame).trans hstamp
  obtain ⟨event, hevent⟩ := List.mem_iff_getElem?.mp (hother.mem hold)
  have hbound := (List.getElem?_eq_some_iff.mp hevent).1
  have heq := (h.stamps event other hevent).symm.trans hold
  rw [← h.count] at heq
  exact absurd (Option.some.inj heq) (Nat.ne_of_lt hbound)

end

end Eval

end Monkey
