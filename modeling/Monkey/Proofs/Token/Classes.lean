import Monkey.Token.Lexer
import Mathlib

/-!
# Classes of tokens

`Fits kind literal after` says what a token of a kind may be, given the text behind it: which
characters its literal has, and that it could not have been longer. The classes are stated by the
tables of signs and keywords and by the classes of characters alone. Main statements: what is
scanned fits (`fits_scan`), and what fits is scanned (`Fits.scan_eq`), so the classes leave no
choice.
-/
namespace Monkey

/-- The text is over, or goes on with a character that is not in the class. -/
def RunEnds (part : Char → Bool) (after : List Char) : Prop :=
  ∀ c, after.head? = some c → part c = false

/-- Behind a zero, this would make a hexadecimal numeral. -/
def MarksHex : List Char → Prop
  | mark :: digit :: _ => (mark = 'x' ∨ mark = 'X') ∧ isHexDigit digit
  | _ => False

/-- With the next character, the text would not be a sign. -/
def LongestSign (text after : List Char) : Prop :=
  ∀ c, after.head? = some c → ∀ kind, (kind, String.ofList (text ++ [c])) ∉ Kind.signs

/-- A keyword has a kind of its own, any other word is a name. -/
def NamesWord (kind : Kind) (word : String) : Prop :=
  (word, kind) ∈ Kind.keywords ∨ kind = .ident ∧ ∀ other, (word, other) ∉ Kind.keywords

inductive Fits : Kind → List Char → List Char → Prop where
  | text {literal after : List Char} (hquote : '"' ∉ literal) : Fits .string literal after
  | decimal {digits after : List Char} (hsome : digits ≠ []) (hdigits : ∀ c ∈ digits, c.isDigit)
      (hend : RunEnds Char.isDigit after) (hzero : digits = ['0'] → ¬ MarksHex after) :
      Fits .int digits after
  | hexadecimal {mark : Char} {digits after : List Char} (hmark : mark = 'x' ∨ mark = 'X')
      (hsome : digits ≠ []) (hdigits : ∀ c ∈ digits, isHexDigit c)
      (hend : RunEnds isHexDigit after) : Fits .hex ('0' :: mark :: digits) after
  | word {kind : Kind} {first : Char} {more after : List Char} (hfirst : isWordStart first)
      (hmore : ∀ c ∈ more, isWordPart c) (hend : RunEnds isWordPart after)
      (hkind : NamesWord kind (String.ofList (first :: more))) : Fits kind (first :: more) after
  | sign {kind : Kind} {text after : List Char} (hsign : (kind, String.ofList text) ∈ Kind.signs)
      (hlongest : LongestSign text after) : Fits kind text after
  /-- A character that begins nothing. -/
  | stray {c : Char} {after : List Char} (hspace : isSpace c = false) (hcomment : c ≠ '#')
      (hquote : c ≠ '"') (hdigit : c.isDigit = false) (hword : isWordStart c = false)
      (hsign : ∀ kind, (kind, String.ofList [c]) ∉ Kind.signs)
      (hlongest : LongestSign [c] after) : Fits .illegal [c] after
  /-- A text that is not closed takes all that is left. -/
  | unclosed {rest : List Char} (hquote : '"' ∉ rest) : Fits .illegal ('"' :: rest) []

/-! ## Tables -/

theorem signKind_eq_iff (c : Char) (kind : Kind) :
    (kind, String.ofList [c]) ∈ Kind.signs ↔ signKind c = kind ∧ kind ≠ .illegal := by
  unfold signKind
  split <;> simp_all [Kind.signs, String.ext_iff] <;> grind

theorem pairKind?_eq_iff (c d : Char) (kind : Kind) :
    (kind, String.ofList [c, d]) ∈ Kind.signs ↔ pairKind? c d = some kind := by
  unfold pairKind?
  split <;> simp_all [Kind.signs, String.ext_iff, eq_comm]

/-- A sign has one character or two. -/
theorem length_of_mem_signs {kind : Kind} {text : List Char}
    (h : (kind, String.ofList text) ∈ Kind.signs) : text.length = 1 ∨ text.length = 2 := by
  have hall : ∀ sign ∈ Kind.signs, sign.2.toList.length = 1 ∨ sign.2.toList.length = 2 := by decide
  simpa using hall _ h

theorem pairKind?_eq_none_iff (c : Char) (after : List Char) :
    LongestSign [c] after ↔ ∀ d, after.head? = some d → pairKind? c d = none := by
  constructor
  · intro h d hd
    by_contra hpair
    obtain ⟨kind, hkind⟩ := Option.ne_none_iff_exists'.mp hpair
    exact h d hd kind ((pairKind?_eq_iff c d kind).mpr hkind)
  · intro h d hd kind hmem
    have hpair := (pairKind?_eq_iff c d kind).mp hmem
    rw [h d hd] at hpair
    cases hpair

theorem ofWord_eq_iff (word : String) (kind : Kind) :
    NamesWord kind word ↔ Kind.ofWord word = kind := by
  have hkeyword : ∀ pair ∈ Kind.keywords, Kind.ofWord pair.1 = pair.2 := by decide
  have hname (hnone : ∀ other, (word, other) ∉ Kind.keywords) : Kind.ofWord word = .ident := by
    have hlookup : Kind.keywords.lookup word = none := by
      rw [List.lookup_eq_none_iff]
      intro pair hpair
      have hne : word ≠ pair.1 := by
        rintro rfl
        exact hnone pair.2 hpair
      simpa using hne
    simp [Kind.ofWord, hlookup]
  constructor
  · rintro (hmem | ⟨rfl, hnone⟩)
    · exact hkeyword _ hmem
    · exact hname hnone
  · rintro rfl
    by_cases hnone : ∀ other, (word, other) ∉ Kind.keywords
    · exact .inr ⟨hname hnone, hnone⟩
    · obtain ⟨other, hother⟩ := not_forall_not.mp hnone
      rw [hkeyword _ hother]
      exact .inl hother

/-! ## First characters

What begins a numeral, a word, a sign or a text begins nothing else, and none of it begins a gap.
-/

theorem isDigit_of_isWordStart {c : Char} (h : isWordStart c = true) : c.isDigit = false := by
  by_contra hdigit
  have hrange : 48 ≤ c.toNat ∧ c.toNat ≤ 57 := by
    simpa [Char.isDigit, UInt32.le_iff_toNat_le] using hdigit
  have hletter : Text.isLetter c = c.isAlpha := Text.isLetter_of_lt (by omega)
  simp only [isWordStart, hletter, Bool.or_eq_true, beq_iff_eq] at h
  rcases h with rfl | halpha
  · exact hdigit (by decide)
  · have hbound : 65 ≤ c.toNat := by
      simp [Char.isAlpha, Char.isUpper, Char.isLower, UInt32.le_iff_toNat_le] at halpha
      omega
    omega

/-- The characters that begin a gap. -/
def gapStarts : List Char := [' ', '\t', '\r', '\n', '#']

theorem mem_gapStarts_iff (c : Char) : c ∈ gapStarts ↔ isSpace c = true ∨ c = '#' := by
  simp [gapStarts, isSpace]
  tauto

theorem of_mem_gapStarts :
    ∀ c ∈ gapStarts, c ≠ '"' ∧ c.isDigit = false ∧ isWordStart c = false := by
  have hall : gapStarts.all fun c =>
      c ≠ '"' ∧ c.isDigit = false ∧ isWordStart c = false := by decide
  intro c hc
  exact of_decide_eq_true (List.all_eq_true.mp hall c hc)

/-- The characters of signs are used for nothing else. -/
theorem of_mem_sign {kind : Kind} {text : List Char}
    (h : (kind, String.ofList text) ∈ Kind.signs) {c : Char} (hc : c ∈ text) :
    c ≠ '"' ∧ c.isDigit = false ∧ isWordStart c = false ∧ c ∉ gapStarts := by
  have hall : Kind.signs.all (·.2.toList.all fun c =>
      c ≠ '"' ∧ c.isDigit = false ∧ isWordStart c = false ∧ c ∉ gapStarts) := by decide
  have htext := List.all_eq_true.mp (List.all_eq_true.mp hall _ h) c (by simpa using hc)
  exact of_decide_eq_true htext

theorem ne_string_of_namesWord {kind : Kind} {word : String} (h : NamesWord kind word) :
    kind ≠ .string ∧ kind ≠ .eof := by
  rw [← (ofWord_eq_iff word kind).mp h]
  exact ⟨Kind.ofWord_ne_string word, Lexer.ofWord_ne_eof word⟩

theorem ne_string_of_mem_signs {kind : Kind} {text : String} (h : (kind, text) ∈ Kind.signs) :
    kind ≠ .string ∧ kind ≠ .eof := by
  have hall : ∀ sign ∈ Kind.signs, sign.1 ≠ .string ∧ sign.1 ≠ .eof := by decide
  exact hall _ h

namespace Fits

variable {kind : Kind} {literal after : List Char}

theorem kind_ne_eof (h : Fits kind literal after) : kind ≠ .eof := by
  cases h with
  | word _ _ _ hkind => exact (ne_string_of_namesWord hkind).2
  | sign hsign => exact (ne_string_of_mem_signs hsign).2
  | _ => decide

/-- The first character of a token begins no gap. -/
theorem exists_span_eq_cons (h : Fits kind literal after) :
    ∃ c more, kind.span literal = c :: more ∧ c ∉ gapStarts := by
  cases h with
  | text => exact ⟨'"', _, rfl, by decide⟩
  | decimal hsome hdigits =>
      obtain ⟨first, more, rfl⟩ := List.exists_cons_of_ne_nil hsome
      refine ⟨first, more, rfl, fun hgap => ?_⟩
      have hdigit := (of_mem_gapStarts first hgap).2.1
      rw [hdigits first (by simp)] at hdigit
      cases hdigit
  | hexadecimal => exact ⟨'0', _, rfl, by decide⟩
  | @word _ first more _ hfirst _ _ hkind =>
      refine ⟨first, more, by simp [Kind.span, (ne_string_of_namesWord hkind).1], fun hgap => ?_⟩
      have hword := (of_mem_gapStarts first hgap).2.2
      rw [hfirst] at hword
      cases hword
  | sign hsign =>
      have hlength := length_of_mem_signs hsign
      obtain ⟨first, more, rfl⟩ := List.exists_cons_of_ne_nil (l := literal) (by
        rintro rfl
        simp at hlength)
      have hspan : kind.span (first :: more) = first :: more := by
        simp [Kind.span, (ne_string_of_mem_signs hsign).1]
      exact ⟨first, more, hspan, (of_mem_sign hsign (by simp)).2.2.2⟩
  | @stray c _ hspace hcomment =>
      refine ⟨c, [], rfl, fun hgap => ?_⟩
      rcases (mem_gapStarts_iff c).mp hgap with hblank | hhash
      · simp [hspace] at hblank
      · exact hcomment hhash
  | unclosed => exact ⟨'"', _, rfl, by decide⟩

end Fits

/-! ## What is scanned fits -/

theorem runEnds_dropWhile (part : Char → Bool) (text : List Char) :
    RunEnds part (text.dropWhile part) := by
  intro c hc
  have hnot := List.head?_dropWhile_not part text
  rwa [hc] at hnot

theorem takeWhile_of_runEnds {part : Char → Bool} {run after : List Char}
    (hrun : ∀ c ∈ run, part c) (hend : RunEnds part after) :
    (run ++ after).takeWhile part = run ∧ (run ++ after).dropWhile part = after := by
  have hstop : after.takeWhile part = [] ∧ after.dropWhile part = after := by
    cases after with
    | nil => exact ⟨rfl, rfl⟩
    | cons c rest =>
        have hc := hend c rfl
        simp [hc]
  rw [List.takeWhile_append_of_pos hrun, List.dropWhile_append_of_pos hrun]
  simp [hstop]

theorem fits_scanText (text : List Char) :
    Fits (scanText text).kind (scanText text).literal (scanText text).rest := by
  unfold scanText
  split
  next hnone =>
      have hquote : '"' ∉ text := by
        intro hmem
        have hall := List.dropWhile_eq_nil_iff.mp hnone '"' hmem
        simp at hall
      exact .unclosed hquote
  next =>
      refine .text fun hmem => ?_
      have hne := List.mem_takeWhile_imp hmem
      simp at hne

theorem fits_decimal {c : Char} {rest : List Char} (hdigit : c.isDigit)
    (hhex : ∀ mark digit more, c :: rest = '0' :: mark :: digit :: more →
      ¬ MarksHex (mark :: digit :: more)) :
    Fits .int ((c :: rest).takeWhile Char.isDigit) ((c :: rest).dropWhile Char.isDigit) := by
  have hsplit := List.takeWhile_append_dropWhile (p := Char.isDigit) (l := c :: rest)
  refine .decimal (by simp [hdigit]) (fun d hd => List.mem_takeWhile_imp hd)
    (runEnds_dropWhile _ _) fun hzero hmarks => ?_
  rw [hzero] at hsplit
  match hafter : (c :: rest).dropWhile Char.isDigit, hmarks with
  | mark :: digit :: more, hmarks =>
      rw [hafter] at hsplit
      exact hhex mark digit more hsplit.symm hmarks

theorem fits_scanNumeral {c : Char} {rest : List Char} (hdigit : c.isDigit) :
    Fits (scanNumeral (c :: rest)).kind (scanNumeral (c :: rest)).literal
      (scanNumeral (c :: rest)).rest := by
  unfold scanNumeral
  split
  next mark digit more heq =>
      obtain ⟨rfl, rfl⟩ := List.cons.inj heq
      split
      next hmark =>
          simp only [Bool.and_eq_true, Bool.or_eq_true, beq_iff_eq] at hmark
          exact .hexadecimal hmark.1 (by simp [scanRun, hmark.2])
            (fun d hd => List.mem_takeWhile_imp hd) (runEnds_dropWhile _ _)
      next hmark =>
          apply fits_decimal hdigit
          intro x first others hsame hhex
          obtain ⟨rfl, rfl, rfl⟩ : mark = x ∧ digit = first ∧ more = others := by simpa using hsame
          simp [hhex.1, hhex.2] at hmark
  next hnot =>
      apply fits_decimal hdigit
      intro mark digit more heq _
      exact hnot mark digit more heq

theorem fits_scanWord {c : Char} {rest : List Char} (hstart : isWordStart c) :
    Fits (scanWord (c :: rest)).kind (scanWord (c :: rest)).literal (scanWord (c :: rest)).rest := by
  have hfirst : (c :: rest).takeWhile isWordPart = c :: rest.takeWhile isWordPart := by
    simp [isWordPart_of_isWordStart hstart]
  have hword : NamesWord (scanWord (c :: rest)).kind
      (String.ofList ((c :: rest).takeWhile isWordPart)) := (ofWord_eq_iff _ _).mpr rfl
  show Fits _ ((c :: rest).takeWhile isWordPart) ((c :: rest).dropWhile isWordPart)
  rw [hfirst] at hword ⊢
  exact .word hstart (fun d hd => List.mem_takeWhile_imp hd) (runEnds_dropWhile _ _) hword

/-- One character that begins no longer sign is a sign or stands for nothing. -/
theorem fits_single {c : Char} {rest : List Char} (hgap : c ∉ gapStarts) (hquote : c ≠ '"')
    (hdigit : c.isDigit = false) (hword : isWordStart c = false)
    (hlongest : LongestSign [c] rest) : Fits (signKind c) [c] rest := by
  by_cases hkind : signKind c = .illegal
  · have hnot := mt (mem_gapStarts_iff c).mpr hgap
    obtain ⟨hspace, hcomment⟩ := not_or.mp hnot
    rw [hkind]
    refine .stray (by simpa using hspace) hcomment hquote hdigit hword (fun kind hmem => ?_)
      hlongest
    obtain ⟨rfl, hne⟩ := (signKind_eq_iff c kind).mp hmem
    exact hne hkind
  · exact .sign ((signKind_eq_iff c _).mpr ⟨rfl, hkind⟩) hlongest

theorem fits_scanSign {c : Char} {rest : List Char} (hgap : c ∉ gapStarts) (hquote : c ≠ '"')
    (hdigit : c.isDigit = false) (hword : isWordStart c = false) :
    Fits (scanSign c rest).kind (scanSign c rest).literal (scanSign c rest).rest := by
  unfold scanSign
  split
  next => exact fits_single hgap hquote hdigit hword (by simp [LongestSign])
  next d after =>
      split
      next kind hpair =>
          refine .sign ((pairKind?_eq_iff c d kind).mpr hpair) fun e _ other hmem => ?_
          have hlength := length_of_mem_signs hmem
          simp at hlength
      next hpair =>
          have hlongest : LongestSign [c] (d :: after) := by
            rw [pairKind?_eq_none_iff]
            rintro _ ⟨⟩
            exact hpair
          exact fits_single hgap hquote hdigit hword hlongest

/-- What is scanned where no gap is left fits its kind and the text behind it. -/
theorem fits_scan {c : Char} (rest : List Char) (hgap : c ∉ gapStarts) :
    Fits (scan c rest).kind (scan c rest).literal (scan c rest).rest := by
  unfold scan
  split
  next => exact fits_scanText rest
  next hquote =>
      split
      next hdigit => exact fits_scanNumeral hdigit
      next hdigit =>
          split
          next hword => exact fits_scanWord hword
          next hword => exact fits_scanSign hgap hquote (by simpa using hdigit) (by simpa using hword)

/-! ## What fits is scanned -/

theorem scanText_of_closed {literal : List Char} (hquote : '"' ∉ literal) (after : List Char) :
    scanText (literal ++ '"' :: after) = ⟨.string, literal, after⟩ := by
  have hrun : ∀ c ∈ literal, (c != '"') = true := by
    intro c hc
    simpa using ne_of_mem_of_not_mem hc hquote
  have hend : RunEnds (· != '"') ('"' :: after) := by simp [RunEnds]
  obtain ⟨htake, hdrop⟩ := takeWhile_of_runEnds hrun hend
  simp [scanText, htake, hdrop]

theorem scanText_of_unclosed {rest : List Char} (hquote : '"' ∉ rest) :
    scanText rest = ⟨.illegal, '"' :: rest, []⟩ := by
  have hnone : rest.dropWhile (· != '"') = [] := by
    rw [List.dropWhile_eq_nil_iff]
    intro c hc
    simpa using ne_of_mem_of_not_mem hc hquote
  simp [scanText, hnone]

theorem scanNumeral_of_decimal {digits after : List Char} (hsome : digits ≠ [])
    (hdigits : ∀ c ∈ digits, c.isDigit) (hend : RunEnds Char.isDigit after)
    (hzero : digits = ['0'] → ¬ MarksHex after) :
    scanNumeral (digits ++ after) = ⟨.int, digits, after⟩ := by
  obtain ⟨htake, hdrop⟩ := takeWhile_of_runEnds hdigits hend
  have hrun : scanRun .int Char.isDigit (digits ++ after) = ⟨.int, digits, after⟩ := by
    simp [scanRun, htake, hdrop]
  unfold scanNumeral
  split
  next mark digit more heq =>
      split
      next hmark =>
          -- the mark is no digit, so the zero stands alone in front of it
          simp only [Bool.and_eq_true, Bool.or_eq_true, beq_iff_eq] at hmark
          rcases digits with _ | ⟨first, _ | ⟨second, others⟩⟩
          · exact absurd rfl hsome
          · obtain ⟨rfl, rfl⟩ : first = '0' ∧ after = mark :: digit :: more := by simpa using heq
            exact absurd hmark (hzero rfl)
          · obtain ⟨_, rfl, _⟩ : first = '0' ∧ second = mark ∧ _ := by simpa using heq
            have hdigit := hdigits second (by simp)
            rcases hmark.1 with rfl | rfl <;> cases hdigit
      next => exact hrun
  next => exact hrun

theorem scanNumeral_of_hexadecimal {mark : Char} {digits after : List Char}
    (hmark : mark = 'x' ∨ mark = 'X') (hsome : digits ≠ []) (hdigits : ∀ c ∈ digits, isHexDigit c)
    (hend : RunEnds isHexDigit after) :
    scanNumeral ('0' :: mark :: (digits ++ after)) = ⟨.hex, '0' :: mark :: digits, after⟩ := by
  obtain ⟨htake, hdrop⟩ := takeWhile_of_runEnds hdigits hend
  obtain ⟨first, others, rfl⟩ := List.exists_cons_of_ne_nil hsome
  have hfirst := hdigits first (by simp)
  rw [List.cons_append] at htake hdrop ⊢
  simp [scanNumeral, scanRun, hmark, hfirst, htake, hdrop]

theorem scanSign_of_longest {c : Char} {after : List Char} (h : LongestSign [c] after) :
    scanSign c after = ⟨signKind c, [c], after⟩ := by
  rw [pairKind?_eq_none_iff] at h
  unfold scanSign
  split
  next => rfl
  next d more => simp [h d rfl]

/-- The token that fits at the front of a text is the one that is scanned there. -/
theorem Fits.scan_eq {kind : Kind} {literal after : List Char} (h : Fits kind literal after)
    {c : Char} {rest : List Char} (heq : kind.span literal ++ after = c :: rest) :
    scan c rest = ⟨kind, literal, after⟩ := by
  cases h with
  | text hquote =>
      obtain ⟨rfl, rfl⟩ : c = '"' ∧ rest = literal ++ '"' :: after := by
        simpa [Kind.span, eq_comm] using heq
      simp [scan, scanText_of_closed hquote]
  | decimal hsome hdigits hend hzero =>
      obtain ⟨first, others, rfl⟩ := List.exists_cons_of_ne_nil hsome
      obtain ⟨rfl, rfl⟩ := List.cons.inj heq
      have hdigit := hdigits first (by simp)
      have hquote : first ≠ '"' := by rintro rfl; cases hdigit
      have hscan := scanNumeral_of_decimal hsome hdigits hend hzero
      rw [scan, if_neg hquote, if_pos hdigit]
      exact hscan
  | hexadecimal hmark hsome hdigits hend =>
      obtain ⟨rfl, rfl⟩ := List.cons.inj heq
      exact scanNumeral_of_hexadecimal hmark hsome hdigits hend
  | @word _ first more _ hfirst hmore hend hkind =>
      have hspan : kind.span (first :: more) = first :: more := by
        simp [Kind.span, (ne_string_of_namesWord hkind).1]
      rw [hspan] at heq
      obtain ⟨rfl, rfl⟩ := List.cons.inj heq
      have hquote : first ≠ '"' := by rintro rfl; cases hfirst
      have hparts : ∀ d ∈ first :: more, isWordPart d := by
        simpa using ⟨isWordPart_of_isWordStart hfirst, hmore⟩
      obtain ⟨htake, hdrop⟩ := takeWhile_of_runEnds hparts hend
      rw [scan, if_neg hquote, if_neg (by simp [isDigit_of_isWordStart hfirst]), if_pos hfirst]
      rw [List.cons_append] at htake hdrop
      rw [← (ofWord_eq_iff _ _).mp hkind]
      simp [scanWord, scanRun, htake, hdrop]
  | sign hsign hlongest =>
      have hlength := length_of_mem_signs hsign
      rw [Kind.span, if_neg (ne_string_of_mem_signs hsign).1] at heq
      rcases hlength with hone | htwo
      · obtain ⟨first, rfl⟩ := List.length_eq_one_iff.mp hone
        obtain ⟨rfl, rfl⟩ := List.cons.inj heq
        obtain ⟨hquote, hdigit, hword, _⟩ := of_mem_sign hsign (c := first) (by simp)
        have hkind := ((signKind_eq_iff first kind).mp hsign).1
        rw [scan, if_neg hquote, if_neg (by simp [hdigit]), if_neg (by simp [hword])]
        rw [← hkind]
        exact scanSign_of_longest hlongest
      · obtain ⟨first, second, rfl⟩ := List.length_eq_two.mp htwo
        obtain ⟨rfl, rfl⟩ := List.cons.inj heq
        obtain ⟨hquote, hdigit, hword, _⟩ := of_mem_sign hsign (c := first) (by simp)
        have hpair := (pairKind?_eq_iff first second kind).mp hsign
        rw [scan, if_neg hquote, if_neg (by simp [hdigit]), if_neg (by simp [hword])]
        simp [scanSign, hpair]
  | @stray first _ _ _ hquote hdigit hword hsign hlongest =>
      obtain ⟨rfl, rfl⟩ := List.cons.inj heq
      have hkind : signKind first = .illegal := by
        by_contra hne
        exact hsign _ ((signKind_eq_iff first _).mpr ⟨rfl, hne⟩)
      rw [scan, if_neg hquote, if_neg (by simp [hdigit]), if_neg (by simp [hword]), ← hkind]
      exact scanSign_of_longest hlongest
  | unclosed hquote =>
      obtain ⟨rfl, rfl⟩ : c = '"' ∧ rest = _ := by simpa [Kind.span, eq_comm] using heq
      simp [scan, scanText_of_unclosed hquote]

end Monkey
