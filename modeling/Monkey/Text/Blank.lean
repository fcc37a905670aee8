/-!
# Blanks

The white space that may be stripped from the ends of a text.
-/
namespace Monkey.Text

def isBlank (c : Char) : Bool :=
  let code := c.toNat
  (9 ≤ code && code ≤ 13) || (28 ≤ code && code ≤ 32) || code == 0x85 || code == 0xa0 ||
    code == 0x1680 || (0x2000 ≤ code && code ≤ 0x200a) || code == 0x2028 || code == 0x2029 ||
    code == 0x202f || code == 0x205f || code == 0x3000

/-- Drops the characters of a class from both ends. -/
def trim (drop : Char → Bool) (text : List Char) : List Char :=
  ((text.dropWhile drop).reverse.dropWhile drop).reverse

/-- The text without the blanks at its ends. -/
def strip (text : String) : String :=
  .ofList (trim isBlank text.toList)

@[simp] theorem trim_nil (drop : Char → Bool) : trim drop [] = [] := rfl

@[simp] theorem toList_strip (text : String) :
    (strip text).toList = trim isBlank text.toList := by
  simp [strip]

end Monkey.Text
