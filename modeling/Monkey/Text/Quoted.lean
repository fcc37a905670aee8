import Monkey.Text.Printable

/-!
# Quoted text

A text in quotes on one line. Apostrophes are the quotes, unless the text has an apostrophe and no
double quote. The quote in use, the backslash and the line controls have short escapes; any other
character that cannot be printed is written by its code point in two, four or eight hexadecimal
digits.
-/
namespace Monkey.Text

/-- Lower-case hexadecimal digits, padded with zeros to at least `width`. -/
def hex (width code : Nat) : List Char :=
  let digits := Nat.toDigits 16 code
  List.replicate (width - digits.length) '0' ++ digits

def escapeByCode (code : Nat) : List Char :=
  if code < 0x100 then '\\' :: 'x' :: hex 2 code
  else if code < 0x10000 then '\\' :: 'u' :: hex 4 code
  else '\\' :: 'U' :: hex 8 code

/-- How a character is written between two `mark`s. -/
def escape (mark c : Char) : List Char :=
  if c = '\\' ∨ c = mark then ['\\', c]
  else if c = '\n' then ['\\', 'n']
  else if c = '\r' then ['\\', 'r']
  else if c = '\t' then ['\\', 't']
  else if isPrintable c then [c]
  else escapeByCode c.toNat

def quoteMark (text : List Char) : Char :=
  if '\'' ∈ text ∧ '"' ∉ text then '"' else '\''

def quote (text : String) : String :=
  let mark := quoteMark text.toList
  .ofList (mark :: text.toList.flatMap (escape mark) ++ [mark])

end Monkey.Text
