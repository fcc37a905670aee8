import Monkey.Proofs.Parse.Literals
import Monkey.Proofs.Token.Respacing
import Mathlib.Tactic.IntervalCases
import Mathlib.Tactic.Ring

/-!
# Numerals

A numeral denotes the number that its digits make by their places, in the base that its kind and its
first digit give. The parser gives it this value as long as it is not larger than a word, and
complains otherwise; the limit on decimal digits makes no difference, since it lies beyond the
words. The decimal digits of a number do not begin with a zero, which would make the numeral an
octal one, unless the number is zero, so they denote the number.
-/
namespace Monkey

namespace Text

/-! ## Places -/

/-- The digits of base sixteen in order. Those of a smaller base are the first of them. -/
def digitSigns : List Char :=
  ['0', '1', '2', '3', '4', '5', '6', '7', '8', '9', 'a', 'b', 'c', 'd', 'e', 'f']

/-- What a digit counts for, a letter the same in both cases. -/
def ordinal (c : Char) : Nat :=
  digitSigns.idxOf c.toLower

/-- The number that digits make by their places, the highest place first. -/
def positional (base : Nat) : List Char → Nat
  | [] => 0
  | c :: rest => ordinal c * base ^ rest.length + positional base rest

theorem positional_append (base : Nat) (front back : List Char) :
    positional base (front ++ back) =
      positional base front * base ^ back.length + positional base back := by
  induction front with
  | nil => simp [positional]
  | cons c rest ih =>
      rw [List.cons_append, positional, positional, ih, List.length_append, pow_add]
      ring

/-- Zeros in front count for nothing. -/
theorem positional_zeros (base count : Nat) (digits : List Char) :
    positional base (List.replicate count '0' ++ digits) = positional base digits := by
  induction count with
  | zero => rfl
  | succ count ih =>
      have hzero : ordinal '0' = 0 := by decide
      rw [List.replicate_succ, List.cons_append, positional, ih, hzero, Nat.zero_mul, Nat.zero_add]

theorem positional_map_toLower (base : Nat) (digits : List Char) :
    positional base (digits.map Char.toLower) = positional base digits := by
  induction digits with
  | nil => rfl
  | cons c rest ih =>
      have hcase : ordinal c.toLower = ordinal c := by
        rw [ordinal, ordinal, Char.toLower_toLower_eq_toLower]
      rw [List.map_cons, positional, positional, ih, hcase, List.length_map]

theorem ordinal_digitChar : ∀ digit < 16, ordinal (Nat.digitChar digit) = digit := by
  decide

theorem positional_toDigits {base : Nat} (hone : 1 < base) (hbase : base ≤ 16) (n : Nat) :
    positional base (Nat.toDigits base n) = n := by
  induction n using Nat.strongRecOn with
  | ind n ih =>
  rw [Nat.toDigits_eq_if hone]
  split
  next hsmall => simp [positional, ordinal_digitChar n (by omega)]
  next hlarge =>
      have hless : n / base < n := Nat.div_lt_self (by omega) hone
      have hlast : ordinal (Nat.digitChar (n % base)) = n % base :=
        ordinal_digitChar _ (Nat.lt_of_lt_of_le (Nat.mod_lt n (by omega)) hbase)
      rw [positional_append, ih _ hless]
      simpa [positional, hlast] using Nat.div_add_mod' n base

/-- A text of many digits is a large number, unless a zero begins it. -/
theorem pow_le_positional (base : Nat) {c : Char} {rest : List Char} (h : ordinal c ≠ 0) :
    base ^ rest.length ≤ positional base (c :: rest) := by
  rw [positional]
  exact Nat.le_add_right_of_le (Nat.le_mul_of_pos_left _ (Nat.pos_of_ne_zero h))

/-! ## Reading digits -/

theorem trim_of_forall {drop : Char → Bool} {text : List Char} (h : ∀ c ∈ text, drop c = false) :
    trim drop text = text := by
  have hkept (text : List Char) (h : ∀ c ∈ text, drop c = false) :
      text.dropWhile drop = text := by
    cases text with
    | nil => rfl
    | cons c rest => simp [h c List.mem_cons_self]
  rw [trim, hkept text h, hkept _ (fun c hmem => h c (List.mem_reverse.mp hmem)),
    List.reverse_reverse]

/-- The digits of base sixteen in both cases. -/
def hexDigits : List Char :=
  digitSigns ++ ['A', 'B', 'C', 'D', 'E', 'F']

theorem mem_hexDigits {c : Char} (h : isHexDigit c) : c ∈ hexDigits := by
  have hall : ∀ code < 128, isHexDigit (Char.ofNat code) → Char.ofNat code ∈ hexDigits := by
    decide +kernel
  have hascii : c.toNat < 128 := by
    simp only [isHexDigit, Char.isDigit, Char.le_def, UInt32.le_iff_toNat_le, Bool.or_eq_true,
      Bool.and_eq_true, decide_eq_true_eq] at h
    change ((_ ∧ c.toNat ≤ 57) ∨ (_ ∧ c.toNat ≤ 102)) ∨ (_ ∧ c.toNat ≤ 70) at h
    omega
  simpa using hall c.toNat hascii (by simpa using h)

theorem of_isHexDigit {p : Char → Prop} [DecidablePred p] (hall : hexDigits.all fun c => p c)
    {c : Char} (h : isHexDigit c) : p c := by
  simpa using List.all_eq_true.mp hall c (mem_hexDigits h)

theorem isHexDigit_of_isDigit {c : Char} (h : c.isDigit) : isHexDigit c := by
  simp [isHexDigit, h]

theorem ordinal_lt_sixteen {c : Char} (h : isHexDigit c) : ordinal c < 16 := by
  have hall : hexDigits.all fun c => ordinal c < 16 := by decide
  exact of_isHexDigit hall h

theorem ordinal_lt_ten {c : Char} (h : c.isDigit) : ordinal c < 10 := by
  have hall : hexDigits.all fun c => c.isDigit → ordinal c < 10 := by decide
  exact of_isHexDigit hall (isHexDigit_of_isDigit h) h

namespace Numeral

theorem isMargin_of_isHexDigit {c : Char} (h : isHexDigit c) : isMargin c = false := by
  have hall : hexDigits.all fun c => isMargin c = false := by decide
  exact of_isHexDigit hall h

theorem digit?_of_isHexDigit (base : Nat) {c : Char} (h : isHexDigit c) :
    digit? base c = if ordinal c < base then some (ordinal c) else none := by
  have hall : hexDigits.all fun c => digitValue? c = some (ordinal c) := by decide
  rw [digit?, of_isHexDigit hall h, Option.filter_some]
  simp

/-- Without underscores, every character is a digit. -/
theorem digits?_of_forall {base : Nat} {valueOf : Char → Nat} {text : List Char} (hsome : text ≠ [])
    (h : ∀ c ∈ text, digit? base c = some (valueOf c)) (hscore : '_' ∉ text) :
    digits? base text = some (text.map valueOf) := by
  fun_induction digits? base text with
  | case1 => exact absurd rfl hsome
  | case2 c => simp [h c (by simp)]
  | case3 c rest ih => simp at hscore
  | case4 c rest hrest _ ih =>
      obtain ⟨hfirst, hothers⟩ := List.forall_mem_cons.mp h
      have hlater := ih hrest hothers fun hmem => hscore (.tail _ hmem)
      simp [hfirst, hlater]

theorem digits?_eq_none {base : Nat} {text : List Char} {c : Char} (hmem : c ∈ text)
    (hscore : c ≠ '_') (h : digit? base c = none) : digits? base text = none := by
  fun_induction digits? base text with
  | case1 => cases hmem
  | case2 first =>
      obtain rfl := List.mem_singleton.mp hmem
      simp [h]
  | case3 first rest ih =>
      rcases List.mem_cons.mp hmem with rfl | hmem
      · simp [h]
      · simp [ih ((List.mem_cons.mp hmem).resolve_left hscore)]
  | case4 first rest _ _ ih =>
      rcases List.mem_cons.mp hmem with rfl | hmem
      · simp [h]
      · simp [ih hmem]

theorem ofDigits_map_ordinal (base : Nat) (digits : List Char) :
    ofDigits base (digits.map ordinal) = positional base digits := by
  -- the number read so far moves up by one place for each digit that follows
  have hfold (total : Nat) : (digits.map ordinal).foldl (fun total value => total * base + value)
      total = total * base ^ digits.length + positional base digits := by
    induction digits generalizing total with
    | nil => simp [positional]
    | cons c rest ih =>
        rw [List.map_cons, List.foldl_cons, ih, positional, List.length_cons, pow_succ]
        ring
  rw [ofDigits, hfold, Nat.zero_mul, Nat.zero_add]

/-- Digits that the base has are read by their places, unless there are too many of them. -/
theorem magnitude?_of_digits {base : Nat} {text digits : List Char}
    (hmark : dropRadixMark base text = digits) (hsome : digits ≠ [])
    (hdigits : ∀ c ∈ digits, isHexDigit c) :
    magnitude? base text =
      if (∀ c ∈ digits, ordinal c < base) ∧ ¬ (base = 10 ∧ maxDecimalDigits < digits.length) then
        some (positional base digits)
      else none := by
  have hscore : ∀ c ∈ digits, c ≠ '_' := by
    rintro _ hmem rfl
    exact absurd (hdigits _ hmem) (by decide)
  rw [magnitude?, hmark]
  by_cases hbase : ∀ c ∈ digits, ordinal c < base
  · have hvalues : digits? base digits = some (digits.map ordinal) := by
      refine digits?_of_forall hsome (fun c hmem => ?_) fun hmem => hscore _ hmem rfl
      rw [digit?_of_isHexDigit base (hdigits c hmem), if_pos (hbase c hmem)]
    rw [hvalues, Option.bind_eq_bind, Option.bind_some, List.length_map, ofDigits_map_ordinal]
    by_cases hlong : base = 10 ∧ maxDecimalDigits < digits.length
    · rw [if_pos hlong, if_neg fun h => h.2 hlong]
    · rw [if_neg hlong, if_pos ⟨hbase, hlong⟩]
  · have hfault : ∃ c ∈ digits, ¬ ordinal c < base := by simpa using hbase
    obtain ⟨c, hmem, hc⟩ := hfault
    have hnone : digits? base digits = none := by
      refine digits?_eq_none hmem (hscore c hmem) ?_
      rw [digit?_of_isHexDigit base (hdigits c hmem), if_neg hc]
    rw [hnone, if_neg fun h => hbase h.1]
    rfl

/-- A numeral that a digit begins has no sign. -/
theorem read?_of_isDigit (base : Nat) {text : List Char} {first : Char}
    (hfirst : text.head? = some first) (hdigit : first.isDigit)
    (hmargin : ∀ c ∈ text, isMargin c = false) :
    read? base text = (magnitude? base text).map Nat.cast := by
  unfold read?
  rw [trim_of_forall hmargin]
  split
  next digits =>
      obtain rfl : '-' = first := by simpa using hfirst
      cases hdigit
  next digits =>
      obtain rfl : '+' = first := by simpa using hfirst
      cases hdigit
  next => cases magnitude? base text <;> rfl

theorem dropRadixMark_of_isDigit (base : Nat) {text : List Char} (h : ∀ c ∈ text, c.isDigit) :
    dropRadixMark base text = text := by
  unfold dropRadixMark
  split
  next zero letter rest =>
      refine if_neg fun hmark => ?_
      have hletter : letter.isDigit := h letter (by simp)
      have hmarks : letter = 'x' ∨ letter = 'X' ∨ letter = 'o' ∨ letter = 'O' := by
        grind [isRadixLetter]
      rcases hmarks with rfl | rfl | rfl | rfl <;> cases hletter
  next => rfl

theorem dropRadixMark_hexadecimal {mark : Char} {digits : List Char}
    (hmark : mark = 'x' ∨ mark = 'X') (hdigits : ∀ c ∈ digits, isHexDigit c) :
    dropRadixMark 16 ('0' :: mark :: digits) = digits := by
  have hzero : decimalValue? '0' = some 0 := by decide
  have hletter : isRadixLetter 16 mark := by rcases hmark with rfl | rfl <;> decide
  rw [dropRadixMark, if_pos ⟨hzero, hletter⟩]
  rintro rest rfl
  exact absurd (hdigits '_' List.mem_cons_self) (by decide)

/-- Decimal digits, which have no radix mark, read in any base. -/
theorem read?_of_forall_isDigit (base : Nat) {text : List Char} (hsome : text ≠ [])
    (hdigits : ∀ c ∈ text, c.isDigit) :
    read? base text =
      (if (∀ c ∈ text, ordinal c < base) ∧ ¬ (base = 10 ∧ maxDecimalDigits < text.length) then
        some (positional base text)
      else none).map Nat.cast := by
  have hhex : ∀ c ∈ text, isHexDigit c := fun c hmem => isHexDigit_of_isDigit (hdigits c hmem)
  rw [read?_of_isDigit base (List.head?_eq_some_head hsome) (hdigits _ (List.head_mem hsome))
      fun c hmem => isMargin_of_isHexDigit (hhex c hmem),
    magnitude?_of_digits (dropRadixMark_of_isDigit base hdigits) hsome hhex]

theorem read?_hexadecimal {mark : Char} {digits : List Char} (hmark : mark = 'x' ∨ mark = 'X')
    (hsome : digits ≠ []) (hdigits : ∀ c ∈ digits, isHexDigit c) :
    read? 16 ('0' :: mark :: digits) = some (positional 16 digits : Int) := by
  have hmargin : ∀ c ∈ '0' :: mark :: digits, isMargin c = false := by
    simp only [List.forall_mem_cons]
    refine ⟨by decide, ?_, fun c hmem => isMargin_of_isHexDigit (hdigits c hmem)⟩
    rcases hmark with rfl | rfl <;> decide
  rw [read?_of_isDigit 16 rfl (by decide) hmargin,
    magnitude?_of_digits (dropRadixMark_hexadecimal hmark hdigits) hsome hdigits,
    if_pos ⟨fun c hmem => ordinal_lt_sixteen (hdigits c hmem), by simp⟩]
  rfl

end Numeral

theorem head?_toDigits_ne {n : Nat} (h : 0 < n) : (Nat.toDigits 10 n).head? ≠ some '0' := by
  induction n using Nat.strongRecOn with
  | ind n ih =>
  rw [Nat.toDigits_eq_if (by decide)]
  split
  next hsmall =>
      interval_cases n <;> decide
  next hlarge =>
      have hfirst := ih (n / 10) (Nat.div_lt_self h (by decide)) (by omega)
      rw [List.head?_append]
      cases hhead : (Nat.toDigits 10 (n / 10)).head? with
      | none => exact absurd (List.head?_eq_none_iff.mp hhead) Nat.toDigits_ne_nil
      | some first => simpa [hhead] using hfirst

end Text

/-! ## Numerals of a source -/

namespace Parse

open Text

/-- The number that a numeral denotes by the places of its digits. The digits behind the mark of a
hexadecimal numeral count in base sixteen. Those behind a zero count in base eight, which has no
eight and no nine, and all others in base ten. -/
def denoted? (token : Token) : Option Nat :=
  let digits := token.literal.toList
  if token.kind = .hex then some (positional 16 (digits.drop 2))
  else if 1 < digits.length ∧ digits.head? = some '0' then
    if digits.all (ordinal · < 8) then some (positional 8 digits) else none
  else some (positional 10 digits)

theorem numeralBase_eq (token : Token) :
    numeralBase token =
      if token.kind = .hex then 16
      else if 1 < token.literal.toList.length ∧ token.literal.toList.head? = some '0' then 8
      else 10 := by
  rw [numeralBase]
  congr 1
  split
  next heq => simp [heq]
  next hother =>
      refine (if_neg ?_).symm
      rintro ⟨hlength, hzero⟩
      obtain ⟨rest, hrest⟩ := List.head?_eq_some_iff.mp hzero
      cases rest with
      | nil => simp [hrest] at hlength
      | cons second rest => exact hother second rest hrest

theorem filter_map_cast (number? : Option Nat) :
    (number?.map Nat.cast).filter (· ≤ maxWord) =
      (number?.filter (· ≤ 2 ^ 63 - 1)).map Nat.cast := by
  cases number? with
  | none => rfl
  | some n =>
      have hword : (n : Int) ≤ maxWord ↔ n ≤ 2 ^ 63 - 1 := by
        simp only [maxWord]
        omega
      simp only [Option.map_some, Option.filter_some, hword, decide_eq_true_eq]
      split <;> rfl

/-- Digits that are too many to be read denote a number that is larger than a word. -/
theorem word_lt_positional {text : List Char} (hdigits : ∀ c ∈ text, c.isDigit)
    (hzero : text.head? ≠ some '0') (h : Numeral.maxDecimalDigits < text.length) :
    2 ^ 63 - 1 < positional 10 text := by
  cases text with
  | nil => cases h
  | cons first rest =>
      have hall : hexDigits.all fun c => ordinal c = 0 → c = '0' := by decide
      have hfirst : ordinal first ≠ 0 := by
        intro hnone
        have heq := of_isHexDigit hall (isHexDigit_of_isDigit (hdigits first (by simp))) hnone
        exact hzero (by rw [heq]; rfl)
      have hlength : 19 ≤ rest.length := by
        simp only [Numeral.maxDecimalDigits, List.length_cons] at h
        omega
      have hlarge : 10 ^ 19 ≤ positional 10 (first :: rest) :=
        (Nat.pow_le_pow_right (by decide) hlength).trans (pow_le_positional 10 hfirst)
      omega

/-- The parser gives a numeral the number that it denotes, if that is not larger than a word. -/
theorem integerValue?_of_fits {token : Token} {after : List Char}
    (h : Fits token.kind token.literal.toList after)
    (hkind : token.kind = .int ∨ token.kind = .hex) :
    integerValue? token = ((denoted? token).filter (· ≤ 2 ^ 63 - 1)).map Nat.cast := by
  rw [integerValue?, numeralBase_eq, denoted?]
  generalize token.kind = kind at *
  generalize token.literal.toList = text at *
  rcases h.numeral hkind with
    ⟨rfl, hsome, hdigits⟩ | ⟨rfl, mark, digits, rfl, hmark, hsome, hdigits⟩
  · have hint : ¬ Kind.int = Kind.hex := by decide
    simp only [if_neg hint]
    split
    next =>
        rw [Numeral.read?_of_forall_isDigit 8 hsome hdigits, filter_map_cast]
        simp
    next hplain =>
        rw [Numeral.read?_of_forall_isDigit 10 hsome hdigits, filter_map_cast]
        by_cases hlong : Numeral.maxDecimalDigits < text.length
        · have hzero : text.head? ≠ some '0' := fun hzero =>
            hplain ⟨Nat.lt_of_le_of_lt (by decide) hlong, hzero⟩
          simpa [hlong] using word_lt_positional hdigits hzero hlong
        · have hbase : ∀ c ∈ text, ordinal c < 10 := fun c hmem => ordinal_lt_ten (hdigits c hmem)
          rw [if_pos ⟨hbase, fun hten => hlong hten.2⟩]
  · rw [if_pos rfl, if_pos rfl, Numeral.read?_hexadecimal hmark hsome hdigits]
    exact filter_map_cast (some _)

end Parse

/-! ## Decimal tokens -/

theorem Fits.of_number (n : Nat) : Fits .int (toString n).toList [] := by
  rw [Nat.toString_eq_ofList_toDigits, String.toList_ofList]
  refine .decimal Nat.toDigits_ne_nil (fun c => ?_) (by simp [RunEnds]) fun _ => ?_
  · exact Nat.isDigit_of_mem_toDigits (by decide) (Nat.le_refl _)
  · exact Divided.nil.not_marksHex

namespace Parse

theorem denoted?_of_number {token : Token} {n : Nat} (hkind : token.kind = .int)
    (hliteral : token.literal = toString n) : denoted? token = some n := by
  have hdigits : token.literal.toList = Nat.toDigits 10 n := by
    rw [hliteral, Nat.toString_eq_ofList_toDigits, String.toList_ofList]
  have hdecimal : ¬ (1 < (Nat.toDigits 10 n).length ∧ (Nat.toDigits 10 n).head? = some '0') := by
    rintro ⟨hlength, hzero⟩
    -- only zero begins with a zero, and it has no second digit
    rcases Nat.eq_zero_or_pos n with rfl | hpos
    · simp at hlength
    · exact Text.head?_toDigits_ne hpos hzero
  rw [denoted?, hdigits, if_neg (by rw [hkind]; decide), if_neg hdecimal,
    Text.positional_toDigits (by decide) (by decide)]

theorem integerValue?_of_number {token : Token} {n : Nat} (hkind : token.kind = .int)
    (hliteral : token.literal = toString n) (h : (n : Int) ≤ maxWord) :
    integerValue? token = some (n : Int) := by
  have hfits : Fits token.kind token.literal.toList [] := by
    rw [hkind, hliteral]
    exact .of_number n
  rw [integerValue?_of_fits hfits (.inl hkind), denoted?_of_number hkind hliteral,
    ← filter_map_cast]
  exact if_pos (by simpa using h)

end Parse

end Monkey
