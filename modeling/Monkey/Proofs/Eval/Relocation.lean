import Monkey.Value.Operator
import Monkey.World
import Monkey.Proofs.Relocation

/-!
# Values and worlds moved to other places

Functions hold the trees of their bodies, so values and worlds hold tokens too. No operation on them
asks for the place of a token: each gives on relocated values and worlds what it gives on the
values and worlds themselves, relocated.
-/
namespace Monkey

/-! ## Values -/

namespace Value

mutual

@[simp] def relocate (move : Position → Position) : Value → Value
  | integer value => integer value
  | boolean value => boolean value
  | string value => string value
  | null => null
  | array stamp elements => array stamp (relocateAll move elements)
  | hash stamp entries => hash stamp (relocateEntries move entries)
  | function stamp parameters body scope =>
      function stamp (parameters.map (·.relocate move)) (body.relocate move) scope
  | .builtin own => .builtin own
  | error failure => error failure

def relocateAll (move : Position → Position) : List Value → List Value
  | [] => []
  | value :: rest => value.relocate move :: relocateAll move rest

def relocateEntries (move : Position → Position) : List (Key × Value) → List (Key × Value)
  | [] => []
  | (key, value) :: rest => (key, value.relocate move) :: relocateEntries move rest

end

variable (move : Position → Position)

@[simp] theorem relocateAll_eq_map (values : List Value) :
    relocateAll move values = values.map (·.relocate move) := by
  induction values with
  | nil => rfl
  | cons value rest ih => simp [relocateAll, ih]

@[simp] theorem relocateEntries_eq_map (entries : List (Key × Value)) :
    relocateEntries move entries = entries.map (Prod.map id (·.relocate move)) := by
  induction entries with
  | nil => rfl
  | cons entry rest ih => simp [relocateEntries, ih, Prod.map]

@[simp] theorem type_relocate (value : Value) : (value.relocate move).type = value.type := by
  cases value <;> rfl

@[simp] theorem holds_relocate (value : Value) : (value.relocate move).holds = value.holds := by
  cases value <;> rfl

@[simp] theorem isNull_relocate (value : Value) : (value.relocate move).isNull = value.isNull := by
  cases value <;> rfl

@[simp] theorem key?_relocate (value : Value) : (value.relocate move).key? = value.key? := by
  cases value <;> rfl

@[simp] theorem same_relocate (left right : Value) :
    (left.relocate move).same (right.relocate move) = left.same right := by
  cases left <;> cases right <;> rfl

mutual

/-- A function shows the names of its parameters only. -/
theorem display_relocate (value : Value) : (value.relocate move).display = value.display := by
  cases value with
  | array stamp elements =>
      rw [relocate, display, display, displayAll_relocate elements]
  | hash stamp entries =>
      rw [relocate, display, display, displayEntries_relocate entries]
  | function stamp parameters body scope => simp [display, Function.comp_def]
  | _ => rfl

theorem displayAll_relocate (values : List Value) :
    displayAll (relocateAll move values) = displayAll values := by
  match values with
  | [] => rfl
  | value :: rest =>
      rw [relocateAll, displayAll, displayAll, display_relocate value, displayAll_relocate rest]

theorem displayEntries_relocate (entries : List (Key × Value)) :
    displayEntries (relocateEntries move entries) = displayEntries entries := by
  match entries with
  | [] => rfl
  | (key, value) :: rest =>
      rw [relocateEntries, displayEntries, displayEntries, display_relocate value,
        displayEntries_relocate rest]

end

/-! ## Operators -/

theorem map_integerBinary (operator : String) (a b : Int) :
    (integerBinary operator a b).map (·.relocate move) = integerBinary operator a b := by
  unfold integerBinary
  split
  case h_4 | h_5 => split <;> rfl
  all_goals rfl

theorem map_stringBinary (operator a b : String) :
    (stringBinary operator a b).map (·.relocate move) = stringBinary operator a b := by
  unfold stringBinary
  split <;> rfl

theorem comparison_relocate (operator : String) (left right : Value) :
    comparison operator (left.relocate move) (right.relocate move) =
      (comparison operator left right).map (·.relocate move) := by
  simp only [comparison, type_relocate, same_relocate]
  split
  · split <;> rfl
  · rfl

theorem binary_relocate (operator : String) (left right : Value) :
    binary operator (left.relocate move) (right.relocate move) =
      (binary operator left right).map (·.relocate move) := by
  have hcomparison := comparison_relocate move operator left right
  cases left with
  | integer a =>
      cases right with
      | integer b => exact (map_integerBinary move operator a b).symm
      | _ => exact hcomparison
  | string a =>
      cases right with
      | string b => exact (map_stringBinary move operator a b).symm
      | _ => exact hcomparison
  | _ => exact hcomparison

theorem unary_relocate (operator : String) (operand : Value) :
    (operand.relocate move).unary operator =
      (operand.unary operator).map (·.relocate move) := by
  unfold unary
  split
  · rw [holds_relocate]
    rfl
  · cases operand <;> rfl
  · rw [type_relocate]
    rfl

theorem increment_relocate (value : Value) :
    (value.relocate move).increment = value.increment.map (·.relocate move) := by
  cases value <;> rfl

theorem elementAt_relocate (elements : List Value) (index : Int) :
    elementAt (elements.map (·.relocate move)) index =
      (elementAt elements index).relocate move := by
  unfold elementAt
  split
  · rfl
  · rw [List.getElem?_map]
    cases elements[index.toNat]? <;> rfl

theorem valueOf?_relocate (key : Key) (entries : List (Key × Value)) :
    valueOf? key (entries.map (Prod.map id (·.relocate move))) =
      (valueOf? key entries).map (·.relocate move) := by
  induction entries with
  | nil => rfl
  | cons entry rest ih =>
      obtain ⟨other, value⟩ := entry
      by_cases hkey : other = key <;> simp [valueOf?, hkey, ih]

theorem putEntry_relocate (key : Key) (value : Value) (entries : List (Key × Value)) :
    putEntry key (value.relocate move) (entries.map (Prod.map id (·.relocate move))) =
      (putEntry key value entries).map (Prod.map id (·.relocate move)) := by
  induction entries with
  | nil => rfl
  | cons entry rest ih =>
      obtain ⟨other, old⟩ := entry
      by_cases hkey : other = key <;> simp [putEntry, hkey, ih]

theorem index_relocate (collection key : Value) :
    (collection.relocate move).index (key.relocate move) =
      (collection.index key).map (·.relocate move) := by
  cases collection with
  | array stamp elements =>
      cases key with
      | integer position =>
          have helement := elementAt_relocate move elements position
          simp [index, helement, Except.map]
      | _ => rfl
  | hash stamp entries =>
      simp only [relocate, relocateEntries_eq_map, index, key?_relocate, type_relocate]
      cases key.key? with
      | none => rfl
      | some found =>
          have hvalue := valueOf?_relocate move found entries
          cases hfound : valueOf? found entries <;> simp [hvalue, hfound, Except.map]
  | _ => cases key <;> rfl

end Value

/-! ## Worlds -/

namespace Bindings

def relocate (move : Position → Position) (bindings : Bindings) : Bindings :=
  bindings.map (Prod.map id (·.relocate move))

variable (move : Position → Position) (bindings : Bindings)

theorem get?_relocate (name : String) :
    (bindings.relocate move).get? name = (bindings.get? name).map (·.relocate move) := by
  induction bindings with
  | nil => rfl
  | cons binding rest ih =>
      obtain ⟨other, value⟩ := binding
      by_cases hname : other = name
      · simp [relocate, get?, hname]
      · simpa [relocate, get?, hname] using ih

theorem put_relocate (name : String) (value : Value) :
    (bindings.relocate move).put name (value.relocate move) =
      (bindings.put name value).relocate move := by
  induction bindings with
  | nil => rfl
  | cons binding rest ih =>
      obtain ⟨other, old⟩ := binding
      by_cases hname : other = name
      · simp [relocate, put, hname]
      · simpa [relocate, put, hname] using ih

end Bindings

def Scope.relocate (move : Position → Position) (scope : Scope) : Scope :=
  { scope with bindings := scope.bindings.relocate move }

@[simp] theorem Scope.outer_relocate (move : Position → Position) (scope : Scope) :
    (scope.relocate move).outer = scope.outer := rfl

@[simp] theorem Scope.builtins_relocate (move : Position → Position) (scope : Scope) :
    (scope.relocate move).builtins = scope.builtins := rfl

namespace World

def relocate (move : Position → Position) (world : World) : World :=
  { world with scopes := world.scopes.map (·.relocate move) }

variable (move : Position → Position) (world : World)

@[simp] theorem getElem?_scopes_relocate (scope : Nat) :
    (world.relocate move).scopes[scope]? = world.scopes[scope]?.map (·.relocate move) := by
  simp [relocate]

theorem chain_relocate (scopes : Array Scope) (scope : Nat) :
    chain (scopes.map (·.relocate move)) scope = chain scopes scope := by
  fun_induction chain scopes scope with
  | case1 scope hnone =>
      rw [chain]
      simp [hnone]
  | case2 scope found hfound houter =>
      rw [chain]
      simp [hfound, houter]
  | case3 scope found hfound outer houter ih =>
      rw [chain]
      by_cases hlt : outer < scope
      · simp [hfound, houter, hlt, ih hlt]
      · simp [hfound, houter, hlt]

theorem bound?_relocate (name : String) (scope : Nat) :
    (world.relocate move).bound? name scope = (world.bound? name scope).map (·.relocate move) := by
  rw [bound?, bound?, getElem?_scopes_relocate]
  cases world.scopes[scope]? with
  | none => rfl
  | some found => exact found.bindings.get?_relocate move name

theorem holder?_relocate (scope : Nat) (name : String) :
    (world.relocate move).holder? scope name = world.holder? scope name := by
  have hchain : chain (world.relocate move).scopes scope = chain world.scopes scope :=
    chain_relocate move world.scopes scope
  simp [holder?, hchain, bound?_relocate]

theorem get?_relocate (scope : Nat) (name : String) :
    (world.relocate move).get? scope name = (world.get? scope name).map (·.relocate move) := by
  rw [get?, get?, holder?_relocate]
  cases world.holder? scope name with
  | some number => exact bound?_relocate move world name number
  | none =>
      rw [builtin?, builtin?, getElem?_scopes_relocate]
      cases world.scopes[scope]? with
      | none => rfl
      | some found => simp [Function.comp_def]

theorem enclose_relocate (outer : Nat) :
    (world.relocate move).enclose outer =
      ((world.enclose outer).1, (world.enclose outer).2.relocate move) := by
  simp [enclose, relocate, Scope.relocate, Bindings.relocate, Function.comp_def]

theorem set_relocate (scope : Nat) (name : String) (value : Value) :
    (world.relocate move).set scope name (value.relocate move) =
      (world.set scope name value).relocate move := by
  have hscopes : ((world.relocate move).set scope name (value.relocate move)).scopes =
      ((world.set scope name value).relocate move).scopes := by
    apply Array.ext_getElem?
    intro other
    by_cases hother : scope = other
    · subst hother
      simp only [set, relocate, Array.getElem?_modify, Array.getElem?_map, if_true]
      cases world.scopes[scope]? with
      | none => rfl
      | some found => simp [Scope.relocate, Bindings.put_relocate]
    · simp [set, relocate, Array.getElem?_modify, hother]
  simp only [set, relocate, World.mk.injEq] at hscopes ⊢
  simpa using hscopes

theorem assign_relocate (scope : Nat) (name : String) (value : Value) :
    (world.relocate move).assign scope name (value.relocate move) =
      ((world.assign scope name value).1, (world.assign scope name value).2.relocate move) := by
  rw [assign, assign, holder?_relocate]
  cases world.holder? scope name with
  | none => rfl
  | some number => simp [set_relocate]

end World

end Monkey
