import Monkey.Proofs.Parse.Cohesion
import Monkey.Proofs.Parse.Numerals
import Monkey.Proofs.Token.Fragments

/-!
# The ways to write a number

A number has decimal, octal and hexadecimal texts, the last two with any zeros in front and the last
in either case. Each of them is one token, which denotes the number. Main statement: what an integer
token is read as, or rejected for, is the number that its digits denote by their places, so a number
that is not larger than a word is read from all of its texts.
-/
namespace Monkey

open Text Parse

/-! ## The digits of a number -/

namespace Text

theorem exists_digit_of_mem_toDigits {base n : Nat} (hone : 1 < base) {c : Char}
    (h : c ∈ Nat.toDigits base n) : ∃ digit < base, c = Nat.digitChar digit := by
  induction n using Nat.strongRecOn with
  | ind n ih =>
  rw [Nat.toDigits_eq_if hone] at h
  split at h
  next hsmall => exact ⟨n, hsmall, List.mem_singleton.mp h⟩
  next hlarge =>
      rcases List.mem_append.mp h with hfront | hlast
      · exact ih (n / base) (Nat.div_lt_self (by omega) hone) hfront
      · exact ⟨n % base, Nat.mod_lt n (by omega), List.mem_singleton.mp hlast⟩

theorem ordinal_lt_of_mem_toDigits {base n : Nat} (hone : 1 < base) (hbase : base ≤ 16) {c : Char}
    (h : c ∈ Nat.toDigits base n) : ordinal c < base := by
  obtain ⟨digit, hdigit, rfl⟩ := exists_digit_of_mem_toDigits hone h
  rwa [ordinal_digitChar digit (by omega)]

theorem isHexDigit_of_toLower {c : Char} (h : isHexDigit c.toLower) : isHexDigit c := by
  have hall : ∀ code < 128, isHexDigit (Char.ofNat code).toLower →
      isHexDigit (Char.ofNat code) := by decide +kernel
  by_cases hupper : c.isUpper
  · have hrange : 65 ≤ c.toNat ∧ c.toNat ≤ 90 := by
      simpa [Char.isUpper, UInt32.le_iff_toNat_le] using hupper
    simpa using hall c.toNat (by omega) (by simpa using h)
  · rwa [Char.toLower_eq_of_not_isUpper hupper] at h

theorem isHexDigit_of_mem_toDigits {n : Nat} {c : Char} (h : c ∈ Nat.toDigits 16 n) :
    isHexDigit c := by
  have hsigns : ∀ digit < 16, isHexDigit (Nat.digitChar digit) := by decide
  obtain ⟨digit, hdigit, rfl⟩ := exists_digit_of_mem_toDigits (by decide) h
  exact hsigns digit hdigit

end Text

/-! ## The texts of a number -/

/-- The texts of a number, with the kind of the token that each of them is: its decimal digits, its
octal digits behind one zero or more, and its hexadecimal digits behind a mark and any zeros. -/
inductive Writes (n : Nat) : Kind → List Char → Prop where
  | decimal : Writes n .int (Nat.toDigits 10 n)
  | octal (zeros : Nat) : Writes n .int (List.replicate (zeros + 1) '0' ++ Nat.toDigits 8 n)
  | hexadecimal {mark : Char} {digits : List Char} (zeros : Nat) (hmark : mark = 'x' ∨ mark = 'X')
      (hdigits : digits.map Char.toLower = List.replicate zeros '0' ++ Nat.toDigits 16 n) :
      Writes n .hex ('0' :: mark :: digits)

namespace Writes

variable {n : Nat} {kind : Kind} {text : List Char}

theorem isNumeral (h : Writes n kind text) : kind = .int ∨ kind = .hex := by
  cases h with
  | decimal | octal => exact .inl rfl
  | hexadecimal => exact .inr rfl

theorem fits (h : Writes n kind text) : Fits kind text [] := by
  cases h with
  | decimal =>
      have hnumber := Fits.of_number n
      rwa [Nat.toString_eq_ofList_toDigits, String.toList_ofList] at hnumber
  | octal zeros =>
      refine .decimal (by simp) (fun c hmem => ?_) (by simp [RunEnds]) fun _ =>
        Divided.nil.not_marksHex
      rcases List.mem_append.mp hmem with hzero | hdigit
      · rw [List.eq_of_mem_replicate hzero]
        decide
      · exact Nat.isDigit_of_mem_toDigits (by decide) (by decide) hdigit
  | hexadecimal zeros hmark hdigits =>
      refine .hexadecimal hmark ?_ (fun c hmem => isHexDigit_of_toLower ?_) (by simp [RunEnds])
      · rintro rfl
        simp at hdigits
      · have hlower := List.mem_map_of_mem (f := Char.toLower) hmem
        rw [hdigits] at hlower
        rcases List.mem_append.mp hlower with hzero | hdigit
        · rw [List.eq_of_mem_replicate hzero]
          decide
        · exact isHexDigit_of_mem_toDigits hdigit

theorem denoted?_eq {token : Token} (h : Writes n token.kind token.literal.toList) :
    denoted? token = some n := by
  generalize hkind : token.kind = kind at h
  generalize htext : token.literal.toList = text at h
  cases h with
  | decimal =>
      refine denoted?_of_number hkind ?_
      rw [Nat.toString_eq_ofList_toDigits, ← htext, String.ofList_toList]
  | octal zeros =>
      have hoctal : 1 < (List.replicate (zeros + 1) '0' ++ Nat.toDigits 8 n).length ∧
          (List.replicate (zeros + 1) '0' ++ Nat.toDigits 8 n).head? = some '0' := by
        have hdigits : 0 < (Nat.toDigits 8 n).length :=
          List.length_pos_of_ne_nil Nat.toDigits_ne_nil
        refine ⟨?_, by simp [List.replicate_succ]⟩
        rw [List.length_append, List.length_replicate]
        omega
      have hbelow : (List.replicate (zeros + 1) '0' ++ Nat.toDigits 8 n).all (ordinal · < 8) := by
        simp only [List.all_eq_true, decide_eq_true_eq, List.mem_append]
        rintro c (hzero | hdigit)
        · rw [List.eq_of_mem_replicate hzero]
          decide
        · exact ordinal_lt_of_mem_toDigits (by decide) (by decide) hdigit
      rw [denoted?, hkind, htext, if_neg (by decide), if_pos hoctal, if_pos hbelow,
        positional_zeros, positional_toDigits (by decide) (by decide)]
  | @hexadecimal mark digits zeros hmark hdigits =>
      have hvalue : positional 16 digits = n := by
        rw [← positional_map_toLower, hdigits, positional_zeros,
          positional_toDigits (by decide) (by decide)]
      rw [denoted?, hkind, htext, if_pos rfl, ← hvalue]
      rfl

end Writes

/-! ## Reading a numeral -/

namespace Parse

theorem source_of_numeral {kind : Kind} {text : String} {value : Int}
    (hfits : Fits kind text.toList []) (hkind : kind = .int ∨ kind = .hex)
    (hvalue : ∀ token : Token, token.lexeme = (kind, text) → integerValue? token = some value) :
    ∃ token, token.lexeme = (kind, text) ∧
      source text = ⟨token, [.expression token (.integer token value)], []⟩ := by
  have hspelled : Spelled text [] [(kind, text)] :=
    .of_fits hfits (by rcases hkind with rfl | rfl <;> decide)
  obtain ⟨ts, eof, htokens, heof, hlexemes⟩ := Token.ofSource_of_spelled hspelled
  obtain ⟨token, rfl, htoken⟩ := Spells.singleton hlexemes
  have hinteger : Coheres undivided [token] (.integer token value) :=
    .integer (by rwa [Token.kind_eq htoken]) (hvalue token htoken)
  refine ⟨token, htoken, ?_⟩
  rw [source, htokens]
  exact tokens_of_coheres (hinteger.weaken (by decide)) heof

theorem integer_apply (cursor : Cursor) :
    integer cursor =
      match integerValue? cursor.current with
      | some value => ⟨some (.integer cursor.current value), [], cursor⟩
      | none => ⟨none, [.badInteger cursor.current.literal], cursor⟩ := by
  rw [integer, Parser.bind_current_apply]
  cases integerValue? cursor.current <;> rfl

/-- An integer token of a text is read as the number that its digits denote by their places, if that
is not larger than a word. Otherwise it is rejected with one complaint, be it for its digits or for
its size. So a number that is not larger than a word is what each of its texts is parsed as. -/
theorem numerals_denote_by_place :
    (∀ (text : String) (cursor : Cursor), cursor.current ∈ Token.ofSource text →
      cursor.current.kind = .int ∨ cursor.current.kind = .hex →
      integer cursor =
        match (denoted? cursor.current).filter (· ≤ 2 ^ 63 - 1) with
        | some n => ⟨some (.integer cursor.current n), [], cursor⟩
        | none => ⟨none, [.badInteger cursor.current.literal], cursor⟩) ∧
    (∀ literal, (Complaint.badInteger literal).message =
      "could not parse \"" ++ literal ++ "\" as integer") ∧
    ∀ n ≤ 2 ^ 63 - 1, ∀ (kind : Kind) (text : String), Writes n kind text.toList →
      ∃ token, token.lexeme = (kind, text) ∧
        source text = ⟨token, [.expression token (.integer token n)], []⟩ := by
  refine ⟨fun text cursor hmem hkind => ?_, fun _ => rfl, fun n hword kind text hwrites => ?_⟩
  · have hnotEnd : cursor.current.kind ≠ .eof := by
      intro hend
      simp [hend] at hkind
    obtain ⟨after, hfits⟩ := Token.readable_of_mem hmem hnotEnd
    rw [integer_apply, integerValue?_of_fits hfits hkind]
    cases (denoted? cursor.current).filter (· ≤ 2 ^ 63 - 1) <;> rfl
  · refine source_of_numeral hwrites.fits hwrites.isNumeral fun token htoken => ?_
    have hliteral : token.literal.toList = text.toList := by rw [Token.literal_eq htoken]
    rw [← Token.kind_eq htoken, ← hliteral] at hwrites
    rw [integerValue?_of_fits hwrites.fits hwrites.isNumeral, hwrites.denoted?_eq]
    simpa using hword

/-- An octal numeral with an eight in it, and the largest word with zeros in front of its letters of
both cases. -/
theorem numerals_denote_by_place_largest :
    let cursor : Cursor := ⟨⟨.int, "08", ⟨1, 3⟩⟩, []⟩
    let text := "0X007fffFFFFffffFFFF"
    cursor.current ∈ Token.ofSource "n 08;" ∧
      integer cursor = ⟨none, [.badInteger "08"], cursor⟩ ∧
      Writes (2 ^ 63 - 1) .hex text.toList ∧
      ∃ token, token.lexeme = (.hex, text) ∧
        source text = ⟨token, [.expression token (.integer token 0x7fffffffffffffff)], []⟩ := by
  intro cursor text
  obtain ⟨hinteger, _, hsource⟩ := numerals_denote_by_place
  have hmem : cursor.current ∈ Token.ofSource "n 08;" := by decide +kernel
  have hdenoted : denoted? cursor.current = none := by decide +kernel
  have hdigits : "007fffFFFFffffFFFF".toList.map Char.toLower =
      List.replicate 2 '0' ++ Nat.toDigits 16 (2 ^ 63 - 1) := by decide +kernel
  have hwrites : Writes (2 ^ 63 - 1) .hex text.toList := by
    have htext : text.toList = '0' :: 'X' :: "007fffFFFFffffFFFF".toList := by decide +kernel
    rw [htext]
    exact .hexadecimal 2 (.inr rfl) hdigits
  refine ⟨hmem, ?_, hwrites, hsource _ (Nat.le_refl _) _ _ hwrites⟩
  rw [hinteger "n 08;" cursor hmem (.inl rfl), hdenoted]
  rfl

end Parse

end Monkey
