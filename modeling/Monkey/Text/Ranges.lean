/-!
# Classes of characters as ranges of code points

A class is a list of closed ranges. ASCII is decided by rule in each class, so a table holds only
what lies beyond it and a statement about ASCII characters never opens a table.
-/
namespace Monkey.Text

/-- Closed ranges of code points, in ascending order. -/
abbrev Ranges := List (Nat × Nat)

def Ranges.covers (ranges : Ranges) (code : Nat) : Bool :=
  ranges.any fun range => range.1 ≤ code && code ≤ range.2

@[simp] theorem Ranges.covers_nil (code : Nat) : Ranges.covers [] code = false := rfl

end Monkey.Text
