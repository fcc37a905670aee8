import Monkey.Value
import Monkey.Value.Word

/-!
# Operators

Operators on values: each gives a value or the fault it met. An operator is its text, so that any
text can be asked for.
-/
namespace Monkey

namespace Value

def integerBinary (operator : String) (a b : Int) : Except Fault Value :=
  match operator with
  | "+" => .ok (.integer (wrap (a + b)))
  | "-" => .ok (.integer (wrap (a - b)))
  | "*" => .ok (.integer (wrap (a * b)))
  | "/" => if b = 0 then .error .divisionByZero else .ok (.integer (wrap (quotient a b)))
  | "%" => if b = 0 then .error .divisionByZero else .ok (.integer (remainder a b))
  | "<" => .ok (.boolean (a < b))
  | ">" => .ok (.boolean (a > b))
  | "==" => .ok (.boolean (a == b))
  | "!=" => .ok (.boolean (a != b))
  | _ => .error (.unknownBinary .integer operator .integer)

def stringBinary (operator : String) (a b : String) : Except Fault Value :=
  match operator with
  | "+" => .ok (.string (a ++ b))
  | "==" => .ok (.boolean (a == b))
  | "!=" => .ok (.boolean (a != b))
  | _ => .error (.unknownBinary .string operator .string)

/-- Values of other types can only be compared. -/
def comparison (operator : String) (left right : Value) : Except Fault Value :=
  if left.type = right.type then
    match operator with
    | "==" => .ok (.boolean (left.same right))
    | "!=" => .ok (.boolean (!left.same right))
    | _ => .error (.unknownBinary left.type operator right.type)
  else .error (.typeMismatch left.type operator right.type)

def binary (operator : String) (left right : Value) : Except Fault Value :=
  match left, right with
  | .integer a, .integer b => integerBinary operator a b
  | .string a, .string b => stringBinary operator a b
  | left, right => comparison operator left right

def unary (operator : String) (operand : Value) : Except Fault Value :=
  match operator with
  | "!" => .ok (.boolean (!operand.holds))
  | "-" =>
      match operand with
      | .integer value => .ok (.integer (wrap (-value)))
      | operand => .error (.unknownUnary "-" operand.type)
  | operator => .error (.unknownUnary operator operand.type)

def increment (value : Value) : Except Fault Value :=
  match value with
  | .integer number => .ok (.integer (wrap (number + 1)))
  | value => .error (.unknownIncrement value.type)

/-- Only integers are incremented. -/
theorem exists_of_increment {old new : Value} (h : old.increment = .ok new) :
    ∃ number, old = .integer number ∧ new = .integer (wrap (number + 1)) := by
  cases old with
  | integer number => exact ⟨number, rfl, (Except.ok.inj h).symm⟩
  | _ => cases h

/-- The value of a key. -/
def valueOf? (key : Key) : List (Key × Value) → Option Value
  | [] => none
  | (other, value) :: rest => if other = key then some value else valueOf? key rest

/-- Writes an entry: in the place of an older one with this key, else behind all others. -/
def putEntry (key : Key) (value : Value) : List (Key × Value) → List (Key × Value)
  | [] => [(key, value)]
  | (other, old) :: rest =>
      if other = key then (key, value) :: rest else (other, old) :: putEntry key value rest

/-- The element at an index that may lie outside the list. -/
def elementAt (elements : List Value) (index : Int) : Value :=
  if index < 0 then .null else (elements[index.toNat]?).getD .null

def index (collection key : Value) : Except Fault Value :=
  match collection, key with
  | .array _ elements, .integer position => .ok (elementAt elements position)
  | .hash _ entries, key =>
      match key.key? with
      | some key => .ok ((valueOf? key entries).getD .null)
      | none => .error (.unusableKey key.type)
  | collection, _ => .error (.notIndexable collection.type)

end Value

end Monkey
