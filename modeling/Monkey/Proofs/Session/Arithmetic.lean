import Monkey.Proofs.Eval.Success
import Mathlib

/-!
# Arithmetic is that of machine words

Integers are unbounded numbers that stay within the range of a word. Their operators give what the
operations on bit vectors of 64 bits give, read as signed numbers: sums, differences and products go
around, quotients are cut off toward zero, and a remainder is what the quotient leaves. So quotient
and remainder make up the dividend again, even where the quotient itself goes around.
-/
namespace Monkey

section
variable {a b : Int}

/-- To bring a number into the range of a word is to read its lowest 64 bits as signed. -/
theorem wrap_eq_toInt (value : Int) : wrap value = (BitVec.ofInt 64 value).toInt := by
  rw [BitVec.toInt_ofInt, wrap_eq_bmod]
  rfl

theorem toInt_ofInt_of_inWord (h : InWord a) : (BitVec.ofInt 64 a).toInt = a := by
  rw [← wrap_eq_toInt, wrap_of_inWord h]

theorem wrap_add_eq_toInt (ha : InWord a) (hb : InWord b) :
    wrap (a + b) = (BitVec.ofInt 64 a + BitVec.ofInt 64 b).toInt := by
  rw [BitVec.toInt_add, toInt_ofInt_of_inWord ha, toInt_ofInt_of_inWord hb, wrap_eq_bmod]
  rfl

theorem wrap_sub_eq_toInt (ha : InWord a) (hb : InWord b) :
    wrap (a - b) = (BitVec.ofInt 64 a - BitVec.ofInt 64 b).toInt := by
  rw [BitVec.toInt_sub, toInt_ofInt_of_inWord ha, toInt_ofInt_of_inWord hb, wrap_eq_bmod]
  rfl

theorem wrap_mul_eq_toInt (ha : InWord a) (hb : InWord b) :
    wrap (a * b) = (BitVec.ofInt 64 a * BitVec.ofInt 64 b).toInt := by
  rw [BitVec.toInt_mul, toInt_ofInt_of_inWord ha, toInt_ofInt_of_inWord hb, wrap_eq_bmod]
  rfl

theorem wrap_neg_eq_toInt (ha : InWord a) : wrap (-a) = (-BitVec.ofInt 64 a).toInt := by
  rw [BitVec.toInt_neg, toInt_ofInt_of_inWord ha, wrap_eq_bmod]
  rfl

theorem wrap_quotient_eq_toInt (ha : InWord a) (hb : InWord b) :
    wrap (quotient a b) = ((BitVec.ofInt 64 a).sdiv (BitVec.ofInt 64 b)).toInt := by
  rw [BitVec.toInt_sdiv, toInt_ofInt_of_inWord ha, toInt_ofInt_of_inWord hb, wrap_eq_bmod,
    quotient_eq_tdiv]
  rfl

theorem remainder_eq_toInt (ha : InWord a) (hb : InWord b) :
    remainder a b = ((BitVec.ofInt 64 a).srem (BitVec.ofInt 64 b)).toInt := by
  rw [BitVec.toInt_srem, toInt_ofInt_of_inWord ha, toInt_ofInt_of_inWord hb, remainder_eq_tmod]

/-- Only the smallest word has a quotient that is no word, and only by minus one. -/
theorem wrap_quotient (ha : InWord a) (h : ¬ (a = minWord ∧ b = -1)) :
    wrap (quotient a b) = a.tdiv b := by
  rw [quotient_eq_tdiv]
  have hsize : (a.tdiv b).natAbs = a.natAbs / b.natAbs := Int.natAbs_tdiv a b
  have hle : a.natAbs / b.natAbs ≤ a.natAbs := Nat.div_le_self _ _
  apply wrap_of_inWord
  simp only [InWord, minWord, maxWord] at *
  by_cases hsmall : a.natAbs < 0x8000000000000000
  · omega
  · -- the dividend is the smallest word
    have hmin : a = -0x8000000000000000 := by omega
    by_cases htwo : 2 ≤ b.natAbs
    · have hhalf : a.natAbs / b.natAbs ≤ a.natAbs / 2 := Nat.div_le_div_left htwo (by decide)
      omega
    · have hcases : b = 0 ∨ b = 1 := by omega
      rcases hcases with rfl | rfl
      · simp
      · simp only [Int.tdiv_one]
        omega

theorem natAbs_remainder_lt (a : Int) (hb : b ≠ 0) : (remainder a b).natAbs < b.natAbs := by
  rw [remainder_eq_tmod, Int.natAbs_tmod]
  exact Nat.mod_lt _ (Int.natAbs_pos.mpr hb)

theorem remainder_eq_zero_or_sign_eq (a b : Int) :
    remainder a b = 0 ∨ (remainder a b).sign = a.sign := by
  rw [remainder_eq_tmod, Int.sign_tmod]
  by_cases hdvd : b ∣ a
  · exact .inl (Int.tmod_eq_zero_of_dvd hdvd)
  · exact .inr (if_neg hdvd)

/-- Wrapping a factor or a summand first makes no difference in the end. -/
theorem wrap_quotient_add_remainder (ha : InWord a) (b : Int) :
    wrap (wrap (wrap (quotient a b) * b) + remainder a b) = a := by
  calc wrap (wrap (wrap (quotient a b) * b) + remainder a b)
      = wrap (quotient a b * b + remainder a b) := by
        simp only [wrap_eq_bmod, Int.bmod_mul_bmod, Int.bmod_add_bmod]
    _ = wrap a := by rw [remainder, mul_comm b, add_sub_cancel]
    _ = a := wrap_of_inWord ha

end

/-! ## In a session -/

namespace Session

open Eval

/-- A name on the first line of a text. -/
def nameAt (text : String) (column : Nat) : Node :=
  .identifier ⟨⟨.ident, text, ⟨1, column⟩⟩, text⟩

/-- An operator on the first line of a text. -/
def operatorAt (kind : Kind) (operator : String) (column : Nat) (left right : Node) : Node :=
  .binary ⟨kind, operator, ⟨1, column⟩⟩ left operator right

/-- The dividend, put together from quotient and remainder and compared with itself. -/
def divisionCheck : Node :=
  operatorAt .eq "==" 21
    (operatorAt .plus "+" 13
      (operatorAt .asterisk "*" 9 (operatorAt .slash "/" 4 (nameAt "a" 2) (nameAt "b" 6))
        (nameAt "b" 11))
      (operatorAt .percent "%" 17 (nameAt "a" 15) (nameAt "b" 19)))
    (nameAt "a" 24)

theorem source_divisionCheck :
    Parse.source "(a / b) * b + a % b == a" =
      ⟨⟨.lparen, "(", ⟨1, 1⟩⟩, [.expression ⟨.lparen, "(", ⟨1, 1⟩⟩ divisionCheck], []⟩ := by
  cbv

theorem comes_divisionCheck {maxTurns depth scope : Nat} {world : World} {a b : Int}
    (ha : InWord a) (hb : b ≠ 0) (hfirst : world.get? scope "a" = some (.integer a))
    (hsecond : world.get? scope "b" = some (.integer b)) :
    Comes maxTurns (depth + 5) scope divisionCheck world (.boolean true) world := by
  have hname {name : String} {value : Int} (h : world.get? scope name = some (.integer value))
      (column depth : Nat) :
      Comes maxTurns (depth + 1) scope (nameAt name column) world (.integer value) world :=
    .identifier h rfl
  have hquotient : Value.binary "/" (.integer a) (.integer b) =
      .ok (.integer (wrap (quotient a b))) := if_neg hb
  have hremainder : Value.binary "%" (.integer a) (.integer b) =
      .ok (.integer (remainder a b)) := if_neg hb
  have hproduct : Value.binary "*" (.integer (wrap (quotient a b))) (.integer b) =
      .ok (.integer (wrap (wrap (quotient a b) * b))) := rfl
  have hsum : Value.binary "+" (.integer (wrap (wrap (quotient a b) * b)))
      (.integer (remainder a b)) =
        .ok (.integer (wrap (wrap (wrap (quotient a b) * b) + remainder a b))) := rfl
  have hequal : Value.binary "=="
      (.integer (wrap (wrap (wrap (quotient a b) * b) + remainder a b))) (.integer a) =
        .ok (.boolean true) := by
    simp [Value.binary, Value.integerBinary, wrap_quotient_add_remainder ha]
  have hdivided (token : Token) :=
    Comes.binary (hname hfirst 2 depth) (hname hsecond 6 depth) hquotient rfl token
  have hmultiplied (first second : Token) :=
    Comes.binary (hdivided first) (hname hsecond 11 (depth + 1)) hproduct rfl second
  have hleft (token : Token) := Comes.binary (hname hfirst 15 (depth + 1))
    (hname hsecond 19 (depth + 1)) hremainder rfl token
  exact .binary (.binary (hmultiplied _ _) (hleft _) hsum rfl _) (hname hfirst 24 (depth + 3))
    hequal rfl _

/-- On words, operators give what the operations of bit vectors of 64 bits give, read as signed. A
quotient is cut off toward zero, with the smallest word by minus one going around to itself; a
remainder is smaller than the divisor and has the sign of the dividend unless it is zero. Quotient
and remainder make up the dividend in a program too. Both fail exactly if the divisor is zero. -/
theorem arithmetic_is_of_words {a b : Int} (ha : InWord a) (hb : InWord b) :
    let x := BitVec.ofInt 64 a
    let y := BitVec.ofInt 64 b
    (x.toInt = a ∧ y.toInt = b) ∧
    Value.binary "+" (.integer a) (.integer b) = .ok (.integer (x + y).toInt) ∧
    Value.binary "-" (.integer a) (.integer b) = .ok (.integer (x - y).toInt) ∧
    Value.binary "*" (.integer a) (.integer b) = .ok (.integer (x * y).toInt) ∧
    Value.unary "-" (.integer a) = .ok (.integer (-x).toInt) ∧
    (b ≠ 0 →
      Value.binary "/" (.integer a) (.integer b) = .ok (.integer (x.sdiv y).toInt) ∧
      Value.binary "%" (.integer a) (.integer b) = .ok (.integer (x.srem y).toInt) ∧
      (¬ (a = minWord ∧ b = -1) → (x.sdiv y).toInt = a.tdiv b) ∧
      (x.srem y).toInt = a.tmod b ∧
      (x.srem y).toInt.natAbs < b.natAbs ∧
      ((x.srem y).toInt = 0 ∨ (x.srem y).toInt.sign = a.sign) ∧
      ∀ (limits : Limits) (scope : Nat) (world : World), 7 ≤ limits.depth →
        world.get? scope "a" = some (.integer a) → world.get? scope "b" = some (.integer b) →
        run limits scope "(a / b) * b + a % b == a" world =
          (.finished (.boolean true) false, world)) ∧
    Value.binary "/" (.integer minWord) (.integer (-1)) = .ok (.integer minWord) ∧
    Value.binary "%" (.integer minWord) (.integer (-1)) = .ok (.integer 0) ∧
    (Value.binary "/" (.integer a) (.integer b) = .error .divisionByZero ↔ b = 0) ∧
    (Value.binary "%" (.integer a) (.integer b) = .error .divisionByZero ↔ b = 0) := by
  intro x y
  refine ⟨⟨toInt_ofInt_of_inWord ha, toInt_ofInt_of_inWord hb⟩, ?_, ?_, ?_, ?_, fun hne => ?_,
    by cbv, by cbv, ?_, ?_⟩
  · rw [← wrap_add_eq_toInt ha hb]
    rfl
  · rw [← wrap_sub_eq_toInt ha hb]
    rfl
  · rw [← wrap_mul_eq_toInt ha hb]
    rfl
  · rw [← wrap_neg_eq_toInt ha]
    rfl
  · rw [← wrap_quotient_eq_toInt ha hb, ← remainder_eq_toInt ha hb]
    refine ⟨if_neg hne, if_neg hne, wrap_quotient ha, remainder_eq_tmod a b,
      natAbs_remainder_lt a hne, remainder_eq_zero_or_sign_eq a b, ?_⟩
    intro limits scope world hdepth hfirst hsecond
    obtain ⟨depth, hlevels⟩ : ∃ depth, limits.depth = depth + 5 + 2 :=
      ⟨limits.depth - 7, by omega⟩
    exact run_of_comes source_divisionCheck hlevels (comes_divisionCheck ha hne hfirst hsecond)
  · by_cases hzero : b = 0 <;> simp [Value.binary, Value.integerBinary, hzero]
  · by_cases hzero : b = 0 <;> simp [Value.binary, Value.integerBinary, hzero]

/-- The smallest word divided by minus one. -/
theorem arithmetic_is_of_words_smallest :
    let world := (World.initial.set 0 "a" (.integer minWord)).set 0 "b" (.integer (-1))
    InWord minWord ∧ InWord (-1) ∧ world.get? 0 "a" = some (.integer minWord) ∧
      world.get? 0 "b" = some (.integer (-1)) ∧
      Value.binary "-" (.integer minWord) (.integer (-1)) =
        .ok (.integer (BitVec.ofInt 64 minWord - BitVec.ofInt 64 (-1)).toInt) ∧
      run ⟨7, 9⟩ 0 "(a / b) * b + a % b == a" world = (.finished (.boolean true) false, world) := by
  intro world
  have hwords : InWord minWord ∧ InWord (-1) := by decide
  have hfirst : world.get? 0 "a" = some (.integer minWord) := by cbv
  have hsecond : world.get? 0 "b" = some (.integer (-1)) := by cbv
  obtain ⟨_, _, hminus, _, _, hdivision, _⟩ := arithmetic_is_of_words hwords.1 hwords.2
  obtain ⟨_, _, _, _, _, _, hrun⟩ := hdivision (by decide)
  exact ⟨hwords.1, hwords.2, hfirst, hsecond, hminus,
    hrun ⟨7, 9⟩ 0 world (by decide) hfirst hsecond⟩

end Session

end Monkey
