import Monkey.Value

/-!
# Scopes and the world of an evaluation

Scopes are numbered in the order in which they are made. Each but a root has an outer scope, which
is older. Reading a name goes outward from scope to scope and ends at the builtins of the root;
writing to a bound name changes the nearest scope that holds it. Beside the scopes, the world keeps
the output so far and counts the objects and the errors made, for the next stamp.
-/
namespace Monkey

/-- Names with their values, each name once. -/
abbrev Bindings := List (String × Value)

namespace Bindings

def get? (bindings : Bindings) (name : String) : Option Value :=
  match bindings with
  | [] => none
  | (other, value) :: rest => if other = name then some value else get? rest name

def put (bindings : Bindings) (name : String) (value : Value) : Bindings :=
  match bindings with
  | [] => [(name, value)]
  | (other, old) :: rest =>
      if other = name then (name, value) :: rest else (other, old) :: put rest name value

theorem get?_put (bindings : Bindings) (name other : String) (value : Value) :
    (bindings.put name value).get? other =
      if name = other then some value else bindings.get? other := by
  induction bindings with
  | nil => rfl
  | cons binding rest ih =>
      obtain ⟨key, old⟩ := binding
      by_cases hk : key = name
      · subst hk
        by_cases ho : key = other <;> simp [put, get?, ho]
      · by_cases ho : key = other
        · subst ho
          simp [put, get?, hk, Ne.symm hk]
        · simp [put, get?, hk, ho, ih]

end Bindings

structure Scope where
  bindings : Bindings
  outer : Option Nat
  builtins : List Builtin

structure World where
  scopes : Array Scope
  objects : Nat
  errors : Nat
  output : String

namespace World

def empty : World := ⟨#[], 0, 0, ""⟩

/-- A new root scope that knows some builtins, and its number. -/
def root (world : World) (builtins : List Builtin) : Nat × World :=
  (world.scopes.size, { world with scopes := world.scopes.push ⟨[], none, builtins⟩ })

/-- A world with one root scope, of number zero. -/
def initial : World := (empty.root Builtin.all).2

/-- A new scope inside another, and its number. -/
def enclose (world : World) (outer : Nat) : Nat × World :=
  let builtins := (world.scopes[outer]?.map (·.builtins)).getD []
  (world.scopes.size, { world with scopes := world.scopes.push ⟨[], some outer, builtins⟩ })

/-- A scope, then the one around it, up to its root. -/
def chain (scopes : Array Scope) (scope : Nat) : List Nat :=
  match scopes[scope]? with
  | none => []
  | some found =>
      match found.outer with
      | none => [scope]
      | some outer => scope :: (if _h : outer < scope then chain scopes outer else [])
termination_by scope

/-- The binding of a name in one scope. -/
def bound? (world : World) (name : String) (scope : Nat) : Option Value :=
  world.scopes[scope]?.bind fun found => found.bindings.get? name

/-- The nearest scope around `scope` that binds the name. -/
def holder? (world : World) (scope : Nat) (name : String) : Option Nat :=
  (chain world.scopes scope).find? fun number => (world.bound? name number).isSome

/-- The builtin of a name that the root of a scope knows. -/
def builtin? (world : World) (scope : Nat) (name : String) : Option Value :=
  world.scopes[scope]?.bind fun found =>
    (found.builtins.find? (·.name == name)).map .builtin

/-- The value of a name as seen from a scope. -/
def get? (world : World) (scope : Nat) (name : String) : Option Value :=
  match world.holder? scope name with
  | some number => world.bound? name number
  | none => world.builtin? scope name

/-- Binds a name in a scope. -/
def set (world : World) (scope : Nat) (name : String) (value : Value) : World :=
  { world with
    scopes := world.scopes.modify scope fun found =>
      { found with bindings := found.bindings.put name value } }

/-- Changes the binding of a name where it is held, or reports that none holds it. -/
def assign (world : World) (scope : Nat) (name : String) (value : Value) : Bool × World :=
  match world.holder? scope name with
  | some number => (true, world.set number name value)
  | none => (false, world)

def write (world : World) (text : String) : World :=
  { world with output := world.output ++ text }

/-- Takes the output out of the world. -/
def flush (world : World) : String × World :=
  (world.output, { world with output := "" })

def freshArray (world : World) (elements : List Value) : Value × World :=
  (.array world.objects elements, { world with objects := world.objects + 1 })

def freshHash (world : World) (entries : List (Key × Value)) : Value × World :=
  (.hash world.objects entries, { world with objects := world.objects + 1 })

def freshFunction (world : World) (parameters : List Name) (body : Node) (scope : Nat) :
    Value × World :=
  (.function world.objects parameters body scope, { world with objects := world.objects + 1 })

def freshFailure (world : World) (fault : Fault) : Failure × World :=
  (⟨world.errors, fault⟩, { world with errors := world.errors + 1 })

/-- The bindings of one scope, sorted by name, with their values as shown. -/
def listing (world : World) (scope : Nat) : List (String × String) :=
  let bindings := (world.scopes[scope]?.map (·.bindings)).getD []
  (bindings.mergeSort fun a b => !(b.1 < a.1)).map fun binding =>
    (binding.1, binding.2.display)

end World

end Monkey
