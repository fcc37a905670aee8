import Monkey.Text.Blank
import Monkey.Text.Number

/-!
# Integer numerals

An integer is written as blanks, a sign, a radix mark, digits and blanks, all but the digits
optional. The mark must belong to the base, single underscores may divide the digits or follow the
mark, and the decimal digits of every script count. Only a limited number of decimal digits is
read.
-/
namespace Monkey.Text.Numeral

/-- The most digits of a numeral in base ten. -/
def maxDecimalDigits : Nat := 4300

/-- The blanks that may surround a numeral: separators in the ASCII range are not among them. -/
def isMargin (c : Char) : Bool :=
  if c.toNat < 128 then (9 ≤ c.toNat && c.toNat ≤ 13) || c.toNat == 32 else isBlank c

/-- The value of a digit or of an ASCII letter that serves as one. -/
def digitValue? (c : Char) : Option Nat :=
  if c.isLower then some (c.toNat - 'a'.toNat + 10)
  else if c.isUpper then some (c.toNat - 'A'.toNat + 10)
  else decimalValue? c

def digit? (base : Nat) (c : Char) : Option Nat :=
  (digitValue? c).filter (· < base)

/-- One or more digits, with at most one underscore between two of them. -/
def digits? (base : Nat) : List Char → Option (List Nat)
  | [] => none
  | [c] => (digit? base c).map ([·])
  | c :: '_' :: rest => do
      let value ← digit? base c
      let values ← digits? base rest
      return value :: values
  | c :: rest => do
      let value ← digit? base c
      let values ← digits? base rest
      return value :: values

/-- The number whose digits, the highest first, are `values`. -/
def ofDigits (base : Nat) (values : List Nat) : Nat :=
  values.foldl (fun total value => total * base + value) 0

/-- The letter of the radix mark of a base. -/
def isRadixLetter (base : Nat) (c : Char) : Bool :=
  (base == 16 && (c == 'x' || c == 'X')) || (base == 8 && (c == 'o' || c == 'O'))

/-- Drops the radix mark of the base, with an underscore that follows it. The mark starts with the
zero of any script, as the digits do. -/
def dropRadixMark (base : Nat) : List Char → List Char
  | zero :: letter :: rest =>
      if decimalValue? zero = some 0 ∧ isRadixLetter base letter then
        match rest with
        | '_' :: digits => digits
        | digits => digits
      else zero :: letter :: rest
  | text => text

def magnitude? (base : Nat) (text : List Char) : Option Nat := do
  let values ← digits? base (dropRadixMark base text)
  if base = 10 ∧ maxDecimalDigits < values.length then none else ofDigits base values

/-- The integer that a numeral in the given base denotes. -/
def read? (base : Nat) (text : List Char) : Option Int :=
  match trim isMargin text with
  | '-' :: digits => (magnitude? base digits).map fun n => -(n : Int)
  | '+' :: digits => (magnitude? base digits).map fun n => (n : Int)
  | digits => (magnitude? base digits).map fun n => (n : Int)

end Monkey.Text.Numeral
