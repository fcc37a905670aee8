import Monkey.Node
import Monkey.Text.Quoted

/-!
# Values

Integers, booleans and strings are equal by content. Arrays, hashes and functions have an identity,
the stamp they were made with, and errors have one too. A function remembers the number of the
scope it was made in.
-/
namespace Monkey

inductive Builtin where
  | first
  | last
  | len
  | push
  | puts
  | rest
  deriving DecidableEq, Repr

namespace Builtin

/-- Every builtin, in alphabetical order. -/
def all : List Builtin := [first, last, len, push, puts, rest]

def name : Builtin → String
  | first => "first"
  | last => "last"
  | len => "len"
  | push => "push"
  | puts => "puts"
  | rest => "rest"

/-- The number of arguments, where it is fixed. -/
def arity : Builtin → Option Nat
  | puts => none
  | push => some 2
  | _ => some 1

def ofName? (text : String) : Option Builtin :=
  all.find? (·.name == text)

theorem mem_all (builtin : Builtin) : builtin ∈ all := by
  cases builtin <;> decide

theorem ofName?_name (builtin : Builtin) : ofName? builtin.name = some builtin := by
  cases builtin <;> decide

end Builtin

/-- The table that builtins are registered in. It is filled before it is first used, and frozen from
then on. -/
structure Registry where
  names : List String
  frozen : Bool

namespace Registry

/-- A name that comes too late. -/
structure Late where
  name : String

def Late.message (late : Late) : String :=
  "builtin table already frozen; cannot register " ++ Text.quote late.name

def register (registry : Registry) (name : String) : Except Late Registry :=
  if registry.frozen then .error ⟨name⟩
  else .ok { registry with names := registry.names.insert name }

/-- The table once it is in use. -/
def inUse : Registry := ⟨Builtin.all.map (·.name), true⟩

end Registry

/-- The type of a value. -/
inductive ValueType where
  | integer
  | boolean
  | string
  | null
  | array
  | hash
  | function
  | builtin
  | error
  deriving DecidableEq, Repr

def ValueType.name : ValueType → String
  | integer => "INTEGER"
  | boolean => "BOOLEAN"
  | string => "STRING"
  | null => "NULL"
  | array => "ARRAY"
  | hash => "HASH"
  | function => "FUNCTION"
  | builtin => "BUILTIN"
  | error => "ERROR"

/-- Why an evaluation failed. -/
inductive Fault where
  | typeMismatch (left : ValueType) (operator : String) (right : ValueType)
  | unknownBinary (left : ValueType) (operator : String) (right : ValueType)
  | unknownUnary (operator : String) (operand : ValueType)
  | unknownIncrement (operand : ValueType)
  | divisionByZero
  | unbound (name : String)
  | notFunction (callee : ValueType)
  | wrongCount (given wanted : Nat)
  | noLength (argument : ValueType)
  | notArray (builtin : Builtin) (argument : ValueType)
  | unusableKey (key : ValueType)
  | notIndexable (collection : ValueType)
  /-- A clause that stands outside a switch. -/
  | strayClause
  /-- An error that was made elsewhere. -/
  | stated (text : String)
  deriving DecidableEq, Repr

def Fault.message : Fault → String
  | typeMismatch left operator right =>
      "type mismatch: " ++ left.name ++ " " ++ operator ++ " " ++ right.name
  | unknownBinary left operator right =>
      "unknown operator: " ++ left.name ++ " " ++ operator ++ " " ++ right.name
  | unknownUnary operator operand => "unknown operator: " ++ operator ++ operand.name
  | unknownIncrement operand => "unknown operator: " ++ operand.name ++ "++"
  | divisionByZero => "division by zero"
  | unbound name => "identifier not found: " ++ name
  | notFunction callee => "not a function: " ++ callee.name
  | wrongCount given wanted =>
      "wrong number of arguments. got=" ++ toString given ++ ", want=" ++ toString wanted
  | noLength argument => "argument to `len` not supported, got " ++ argument.name
  | notArray builtin argument =>
      "argument to `" ++ builtin.name ++ "` must be ARRAY, got " ++ argument.name
  | unusableKey key => "unusable as hash key: " ++ key.name
  | notIndexable collection => "index operator not supported: " ++ collection.name
  | strayClause => "unsupported node: CaseStatement"
  | stated text => text

/-- An error as a value. -/
structure Failure where
  stamp : Nat
  fault : Fault
  deriving DecidableEq, Repr

/-- What a hash may be indexed by. -/
inductive Key where
  | integer (value : Int)
  | boolean (value : Bool)
  | string (value : String)
  deriving DecidableEq, Repr

inductive Value where
  | integer (value : Int)
  | boolean (value : Bool)
  | string (value : String)
  | null
  | array (stamp : Nat) (elements : List Value)
  /-- Entries are in the order in which their keys were first seen. -/
  | hash (stamp : Nat) (entries : List (Key × Value))
  | function (stamp : Nat) (parameters : List Name) (body : Node) (scope : Nat)
  | builtin (builtin : Builtin)
  | error (failure : Failure)
  deriving Inhabited

def Key.value : Key → Value
  | integer value => .integer value
  | boolean value => .boolean value
  | string value => .string value

namespace Value

def type : Value → ValueType
  | integer _ => .integer
  | boolean _ => .boolean
  | string _ => .string
  | null => .null
  | array .. => .array
  | hash .. => .hash
  | function .. => .function
  | builtin _ => .builtin
  | error _ => .error

def key? : Value → Option Key
  | integer value => some (.integer value)
  | boolean value => some (.boolean value)
  | string value => some (.string value)
  | _ => none

@[simp] theorem key?_value (key : Key) : key.value.key? = some key := by
  cases key <;> rfl

theorem value_of_key? {value : Value} {key : Key} (h : value.key? = some key) :
    key.value = value := by
  cases value <;> simp_all [key?, Key.value] <;> subst h <;> rfl

/-- Only `false` and the null value do not hold. -/
def holds : Value → Bool
  | boolean value => value
  | null => false
  | _ => true

def isFailure : Value → Bool
  | error _ => true
  | _ => false

def isNull : Value → Bool
  | null => true
  | _ => false

/-- Scalars are the same by content, all other values by identity. -/
def same : Value → Value → Bool
  | integer a, integer b => a == b
  | boolean a, boolean b => a == b
  | string a, string b => a == b
  | null, null => true
  | array a _, array b _ => a == b
  | hash a _, hash b _ => a == b
  | function a _ _ _, function b _ _ _ => a == b
  | builtin a, builtin b => a == b
  | error a, error b => a.stamp == b.stamp
  | _, _ => false

end Value

/-! ## Text of values -/

def Key.display : Key → String
  | integer value => toString value
  | boolean value => if value then "true" else "false"
  | string value => value

namespace Value

mutual

/-- A value as the shell shows it. -/
def display : Value → String
  | integer value => toString value
  | boolean value => if value then "true" else "false"
  | string value => value
  | null => "null"
  | array _ elements => "[" ++ ", ".intercalate (displayAll elements) ++ "]"
  | hash _ entries => "\x7b" ++ ", ".intercalate (displayEntries entries) ++ "\x7d"
  | function _ parameters _ _ =>
      "fn(" ++ ", ".intercalate (parameters.map (·.text)) ++ ") \x7b...\x7d"
  | builtin _ => "builtin function"
  | error failure => "ERROR: " ++ failure.fault.message

def displayAll : List Value → List String
  | [] => []
  | value :: rest => value.display :: displayAll rest

def displayEntries : List (Key × Value) → List String
  | [] => []
  | (key, value) :: rest => (key.display ++ ": " ++ value.display) :: displayEntries rest

end

theorem displayAll_eq_map (values : List Value) : displayAll values = values.map display := by
  induction values with
  | nil => rfl
  | cons value rest ih => simp [displayAll, ih]

end Value

end Monkey
