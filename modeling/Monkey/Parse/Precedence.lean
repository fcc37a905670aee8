import Monkey.Token

/-!
# Binding strength

Each operator binds with a strength, and so do the brackets of a call and of an index. Operators of
equal strength group to the left.
-/
namespace Monkey.Parse

/-- The strength below every operator. -/
def lowest : Nat := 1

/-- The strength with which a sign in front holds its operand. -/
def unaryStrength : Nat := 6

/-- The strength of a token behind an operand. -/
def strength : Kind → Nat
  | .eq | .notEq => 2
  | .lt | .gt => 3
  | .plus | .minus => 4
  | .slash | .asterisk | .percent => 5
  | .lparen => 7
  | .lbracket => 8
  | _ => lowest

theorem lowest_le_strength (kind : Kind) : lowest ≤ strength kind := by
  cases kind <;> decide

/-- The operators that stand between two operands, from the weakest level to the strongest. -/
def levels : List (List Kind) :=
  [[.eq, .notEq], [.lt, .gt], [.plus, .minus], [.slash, .asterisk, .percent]]

/-- Operators are ordered by their levels. -/
theorem strength_lt_strength_iff {i j : Fin levels.length} {weak strong : Kind}
    (hweak : weak ∈ levels[i]) (hstrong : strong ∈ levels[j]) :
    strength weak < strength strong ↔ i < j := by
  have hall : ∀ i j : Fin levels.length, ∀ weak ∈ levels[i], ∀ strong ∈ levels[j],
      (strength weak < strength strong ↔ i < j) := by decide
  exact hall i j weak hweak strong hstrong

/-- A sign in front holds its operand more strongly than any of them. -/
theorem strength_lt_unaryStrength {level : List Kind} (hlevel : level ∈ levels) {kind : Kind}
    (h : kind ∈ level) : strength kind < unaryStrength := by
  have hall : ∀ level ∈ levels, ∀ kind ∈ level, strength kind < unaryStrength := by decide
  exact hall level hlevel kind h

/-- The brackets of a call and of an index are stronger still. -/
theorem unaryStrength_lt_strength :
    unaryStrength < strength .lparen ∧ strength .lparen < strength .lbracket := by
  decide

end Monkey.Parse
