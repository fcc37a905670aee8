/-!
# Integers of 64 bits

Sums, differences, products and quotients are taken of unbounded integers and then brought back
into the range of a signed word of 64 bits. A quotient is the one of the absolute values, with its
sign put in front, and a remainder is what the quotient leaves.
-/
namespace Monkey

/-- The number of words, two to the power of 64. -/
def wordCount : Nat := 0x10000000000000000

def minWord : Int := -0x8000000000000000

def maxWord : Int := 0x7fffffffffffffff

/-- The word that agrees with `value` modulo the number of words: how far the value is above the
smallest word, counted round and round. -/
def wrap (value : Int) : Int :=
  (value - minWord) % wordCount + minWord

/-- The quotient of two integers, without what is behind the point. -/
def quotient (a b : Int) : Int :=
  let size : Int := a.natAbs / b.natAbs
  if (a < 0) ≠ (b < 0) then -size else size

/-- What the quotient leaves of the dividend. -/
def remainder (a b : Int) : Int :=
  a - b * quotient a b

def InWord (value : Int) : Prop :=
  minWord ≤ value ∧ value ≤ maxWord

instance (value : Int) : Decidable (InWord value) :=
  inferInstanceAs (Decidable (_ ∧ _))

theorem inWord_wrap (value : Int) : InWord (wrap value) := by
  simp only [InWord, wrap, wordCount, minWord, maxWord]
  omega

theorem wrap_of_inWord {value : Int} (h : InWord value) : wrap value = value := by
  simp only [InWord, wrap, wordCount, minWord, maxWord] at *
  omega

/-- Counted from the smallest word on or from zero on, the words are the same. -/
theorem wrap_eq_bmod (value : Int) : wrap value = value.bmod wordCount := by
  simp only [wrap, Int.bmod, wordCount, minWord]
  omega

/-- The absolute values have the quotient that is cut off toward zero, but for its sign. -/
theorem quotient_eq_tdiv (a b : Int) : quotient a b = a.tdiv b := by
  have hnat (n : Nat) : ¬ Int.ofNat n < 0 := Int.not_lt.mpr (Int.natCast_nonneg n)
  have hneg (n : Nat) : Int.negSucc n < 0 := Int.negSucc_lt_zero n
  rw [quotient]
  rcases a with m | m <;> rcases b with n | n <;> simp only [hnat, hneg] <;> rfl

theorem remainder_eq_tmod (a b : Int) : remainder a b = a.tmod b := by
  rw [remainder, quotient_eq_tdiv, Int.tmod_def]

end Monkey
