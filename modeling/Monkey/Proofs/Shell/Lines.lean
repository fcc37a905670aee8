import Monkey.Proofs.Token.Division
import Monkey.Proofs.Token.Seam
import Monkey.Shell.Colouring

/-!
# Reading a text line by line

Colouring reads every line by itself, parsing reads the text as a whole. Both see the same tokens
exactly if no token holds a newline: a token that does is cut in two by its lines, and any other
lies on one line, where it is read as it is in the whole, because a newline ends every token but a
text that is not closed.
-/
namespace Monkey

namespace Shell

theorem splitLines_of_not_mem {line : List Char} (h : '\n' ∉ line) : splitLines line = [line] := by
  induction line with
  | nil => rfl
  | cons c line ih =>
      obtain ⟨hc, hline⟩ := not_or.mp (mt List.mem_cons.mpr h)
      simp [splitLines, Ne.symm hc, ih hline]

theorem splitLines_append {line : List Char} (h : '\n' ∉ line) (rest : List Char) :
    splitLines (line ++ '\n' :: rest) = line :: splitLines rest := by
  induction line with
  | nil => simp [splitLines]
  | cons c line ih =>
      obtain ⟨hc, hline⟩ := not_or.mp (mt List.mem_cons.mpr h)
      simp [splitLines, Ne.symm hc, ih hline]

/-- A text is one line, or a line and the text behind it. -/
theorem line_cases (text : List Char) :
    '\n' ∉ text ∨ ∃ line rest, '\n' ∉ line ∧ text = line ++ '\n' :: rest := by
  by_cases h : '\n' ∈ text
  · obtain ⟨line, rest, rfl, hline⟩ := List.eq_append_cons_of_mem h
    exact .inr ⟨line, rest, hline, rfl⟩
  · exact .inl h

theorem not_mem_of_mem_splitLines {text line : List Char} (h : line ∈ splitLines text) :
    '\n' ∉ line := by
  induction hlength : text.length using Nat.strong_induction_on generalizing text with
  | _ length ih =>
  rcases line_cases text with hone | ⟨first, rest, hfirst, rfl⟩
  · rw [splitLines_of_not_mem hone, List.mem_singleton] at h
    rwa [h]
  · rw [splitLines_append hfirst, List.mem_cons] at h
    rcases h with rfl | hrest
    · exact hfirst
    · exact ih rest.length (by simp [← hlength]; omega) hrest rfl

end Shell

/-! ## Tokens of lines -/

namespace Token

/-- The tokens in front of the end marker. -/
def proper (tokens : List Token) : List Token :=
  tokens.filter (·.kind ≠ .eof)

/-- The token in its column on the line of this number. -/
def onLine (number : Nat) (token : Token) : Token :=
  { token with position := ⟨number, token.position.column⟩ }

/-- The tokens of lines that are read one by one, where the first has this number. -/
def ofLines (number : Nat) : List (List Char) → List Token
  | [] => []
  | line :: rest => (proper (ofList line)).map (onLine number) ++ ofLines (number + 1) rest

theorem proper_append (first second : List Token) :
    proper (first ++ second) = proper first ++ proper second :=
  List.filter_append ..

theorem proper_relocate (move : Position → Position) (tokens : List Token) :
    proper (tokens.map (·.relocate move)) = (proper tokens).map (·.relocate move) :=
  List.filter_map ..

end Token

theorem Lexes.unique {before text : List Char} {tokens others : List Token}
    (h : Lexes before text tokens) (h' : Lexes before text others) : tokens = others := by
  have hdrain := h.drain_eq
  rw [h'.drain_eq] at hdrain
  exact (congrArg Prod.fst hdrain).symm

/-- Behind the other tokens stands the end marker. -/
theorem Lexes.eq_concat {before text : List Char} {tokens : List Token}
    (h : Lexes before text tokens) :
    tokens = Token.proper tokens ++ [.eofAt (.behind (before ++ text))] := by
  induction h with
  | ended => simp [Token.proper]
  | @token before gap after token tokens _ _ hfits _ ih =>
      have hproper : Token.proper (token :: tokens) = token :: Token.proper tokens :=
        List.filter_cons_of_pos (by simpa using hfits.kind_ne_eof)
      rw [hproper, List.cons_append]
      exact congrArg (token :: ·) (by simpa using ih)

/-- The characters of a token are characters of the text. -/
theorem Lexes.span_subset {before text : List Char} {tokens : List Token}
    (h : Lexes before text tokens) {token : Token} (hmem : token ∈ tokens) :
    token.span ⊆ text := by
  induction h with
  | ended =>
      rw [List.mem_singleton.mp hmem]
      exact List.nil_subset _
  | token _ _ _ _ ih =>
      rcases List.mem_cons.mp hmem with rfl | hlater
      · exact fun c hc => by simp [hc]
      · exact fun c hc => by simp [ih hlater hc]

theorem Token.literal_subset_span (token : Token) : token.literal.toList ⊆ token.span := by
  intro c hc
  unfold span Kind.span
  split
  · simp [hc]
  · exact hc

theorem Token.newline_not_mem_span {token : Token} (h : '\n' ∉ token.literal.toList) :
    '\n' ∉ token.span := by
  unfold span Kind.span
  split
  · simpa using h
  · exact h

theorem Position.line_behind {text : List Char} (h : '\n' ∉ text) : (behind text).line = 1 := by
  simp [behind, List.count_eq_zero.mpr h]

/-- The tokens of a single line lie on it. -/
theorem Lexes.line_eq {before text : List Char} {tokens : List Token} (h : Lexes before text tokens)
    (hone : '\n' ∉ before ++ text) {token : Token} (hmem : token ∈ tokens) :
    token.position.line = 1 := by
  induction h with
  | ended =>
      rw [List.mem_singleton.mp hmem]
      exact Position.line_behind hone
  | @token before gap after first tokens _ hposition _ _ ih =>
      rcases List.mem_cons.mp hmem with rfl | hlater
      · have hfront : '\n' ∉ before ++ gap := by
          intro hin
          apply hone
          rw [← List.append_assoc]
          exact List.mem_append_left _ hin
        rw [hposition]
        exact Position.line_behind hfront
      · exact ih (by simpa using hone) hlater

namespace Token

open Shell

theorem ofList_eq_concat (text : List Char) :
    ofList text = proper (ofList text) ++ [.eofAt (.behind text)] := by
  have hlexes : Lexes [] text (ofList text) := (lexes_iff _ _).mpr rfl
  exact hlexes.eq_concat

/-- A line that is read by itself, and then moved down to its place. -/
theorem map_onLine_of_not_mem {line : List Char} (h : '\n' ∉ line) (lines : Nat) :
    (proper (ofList line)).map (onLine (lines + 1)) =
      (proper (ofList line)).map (·.relocate (.down lines)) := by
  have hlexes : Lexes [] line (ofList line) := (lexes_iff _ _).mpr rfl
  apply List.map_congr_left
  intro token hmem
  have hline : token.position.line = 1 := hlexes.line_eq h (List.mem_of_mem_filter hmem)
  simp [onLine, relocate, Position.down, hline, Nat.add_comm]

/-- Where no token holds a newline, the lines read one by one give the tokens of the whole. -/
theorem ofLines_splitLines {text : List Char}
    (h : ∀ token ∈ ofList text, '\n' ∉ token.literal.toList) (lines : Nat) :
    ofLines (lines + 1) (splitLines text) =
      (proper (ofList text)).map (·.relocate (.down lines)) := by
  induction hlength : text.length using Nat.strong_induction_on generalizing text lines with
  | _ length ih =>
  rcases line_cases text with hone | ⟨line, rest, hline, rfl⟩
  · rw [splitLines_of_not_mem hone, ofLines, map_onLine_of_not_mem hone]
    simp [ofLines]
  · -- the tokens of the first line, and those of the lines below it, further down
    have hlexes : Lexes [] (line ++ '\n' :: rest) (ofList (line ++ '\n' :: rest)) :=
      (lexes_iff _ _).mpr rfl
    have hdivides := divides_newline [] line rest fun token hmem =>
      newline_not_mem_span (h token hmem)
    obtain ⟨firsts, others, htokens, hfirsts, hothers⟩ := hlexes.cut hdivides
    have hbelow : Lexes [] rest (ofList rest) := (lexes_iff _ _).mpr rfl
    have hmoved := (hothers rest rfl).unique (hbelow.lower line)
    rw [List.count_eq_zero.mpr hline] at hmoved
    have hfirst : proper (ofList line) = proper firsts := by
      rw [(lexes_iff _ _).mp hfirsts, proper_append]
      simp [proper]
    have hkept : ∀ token ∈ ofList rest, '\n' ∉ token.literal.toList := by
      intro token hmem
      have hmem' : token.relocate (.down 1) ∈ others := by
        rw [hmoved]
        exact List.mem_map_of_mem hmem
      apply h (token.relocate (.down 1))
      rw [htokens]
      exact List.mem_append_right _ hmem'
    have hrest := ih rest.length (by simp [← hlength]; omega) hkept (lines + 1) rfl
    rw [splitLines_append hline, ofLines, map_onLine_of_not_mem hline, hrest, hfirst, htokens,
      hmoved, proper_append, proper_relocate]
    simp [Function.comp_def, Position.down, relocate, Nat.add_assoc, Nat.add_comm 1]

theorem ofLines_eq_proper {text : List Char}
    (h : ∀ token ∈ ofList text, '\n' ∉ token.literal.toList) :
    ofLines 1 (splitLines text) = proper (ofList text) := by
  simpa [Position.down, relocate] using ofLines_splitLines h 0

/-- No token of a line holds a newline. -/
theorem not_mem_literal_of_mem_ofLines {number : Nat} {lines : List (List Char)}
    (hlines : ∀ line ∈ lines, '\n' ∉ line) {token : Token} (h : token ∈ ofLines number lines) :
    '\n' ∉ token.literal.toList := by
  induction lines generalizing number with
  | nil => cases h
  | cons line rest ih =>
      obtain ⟨hline, hrest⟩ := List.forall_mem_cons.mp hlines
      rcases List.mem_append.mp h with hfirst | hlater
      · obtain ⟨own, hown, rfl⟩ := List.mem_map.mp hfirst
        have hlexes : Lexes [] line (ofList line) := (lexes_iff _ _).mpr rfl
        intro hnewline
        have hspan : '\n' ∈ own.span := own.literal_subset_span hnewline
        exact hline (hlexes.span_subset (List.mem_of_mem_filter hown) hspan)
      · exact ih hrest hlater

theorem le_line_of_mem_ofLines {number : Nat} {lines : List (List Char)} {token : Token}
    (h : token ∈ ofLines number lines) : number ≤ token.position.line := by
  induction lines generalizing number with
  | nil => cases h
  | cons line rest ih =>
      rcases List.mem_append.mp h with hfirst | hlater
      · obtain ⟨own, _, rfl⟩ := List.mem_map.mp hfirst
        exact Nat.le_refl _
      · have hbelow := ih hlater
        omega

/-- The tokens on one of the lines are those it has by itself. -/
theorem filter_ofLines {lines : List (List Char)} {index : Nat} {line : List Char}
    (h : lines[index]? = some line) (number : Nat) :
    (ofLines number lines).filter (·.position.line = number + index) =
      (proper (ofList line)).map (onLine (number + index)) := by
  induction lines generalizing index number with
  | nil => cases h
  | cons first rest ih =>
      rw [ofLines, List.filter_append]
      cases index with
      | zero =>
          obtain rfl : first = line := Option.some.inj h
          have hown : ((proper (ofList first)).map (onLine number)).filter
              (·.position.line = number + 0) = (proper (ofList first)).map (onLine number) := by
            apply List.filter_eq_self.mpr
            intro token hmem
            obtain ⟨own, _, rfl⟩ := List.mem_map.mp hmem
            simp [onLine]
          have hbelow : (ofLines (number + 1) rest).filter (·.position.line = number + 0) = [] := by
            apply List.filter_eq_nil_iff.mpr
            intro token hmem
            have hline := le_line_of_mem_ofLines hmem
            simp only [decide_eq_true_eq]
            omega
          rw [hown, hbelow, List.append_nil]
          rfl
      | succ index =>
          have habove : ((proper (ofList first)).map (onLine number)).filter
              (·.position.line = number + (index + 1)) = [] := by
            apply List.filter_eq_nil_iff.mpr
            intro token hmem
            obtain ⟨own, _, rfl⟩ := List.mem_map.mp hmem
            simp [onLine]
          have hlater := ih h (number + 1)
          rw [Nat.add_right_comm, Nat.add_assoc] at hlater
          rw [habove, hlater, List.nil_append]

end Token

namespace Shell

open Token

/-- The fragments of a line, given its tokens with an end marker behind them. -/
def colourBy (line : List Char) (tokens : List Token) : List Fragment :=
  if line = [] then [⟨.plain, []⟩] else fragmentsFrom line 0 tokens

/-- Only columns count, neither the number of the line nor the place of the end marker. -/
theorem fragmentsFrom_onLine {last other : Token} (hlast : last.kind = .eof)
    (hother : other.kind = .eof) (line : List Char) (number column : Nat) (tokens : List Token) :
    fragmentsFrom line column (tokens.map (onLine number) ++ [last]) =
      fragmentsFrom line column (tokens ++ [other]) := by
  induction tokens generalizing column with
  | nil => rfl
  | cons token rest ih =>
      cases rest with
      | nil => simp [fragmentsFrom, onLine, Token.span, groupOf, hlast, hother]
      | cons next rest =>
          have hrest := ih (token.position.column - 1 + token.span.length)
          simpa [fragmentsFrom, onLine, Token.span, groupOf] using hrest

/-- The tokens of a text that colouring has to do with on a line: those on the line, and the end
marker. -/
def tokensOn (text : List Char) (number : Nat) : List Token :=
  (ofList text).filter fun token => token.kind = .eof ∨ token.position.line = number + 1

theorem tokensOn_eq {text : List Char}
    (h : ∀ token ∈ ofList text, '\n' ∉ token.literal.toList) {number : Nat} {line : List Char}
    (hline : (splitLines text)[number]? = some line) :
    tokensOn text number =
      (proper (ofList line)).map (onLine (number + 1)) ++ [.eofAt (.behind text)] := by
  have hon := filter_ofLines hline 1
  rw [ofLines_eq_proper h, Nat.add_comm 1 number] at hon
  have hsame : (proper (ofList text)).filter
      (fun token => token.kind = .eof ∨ token.position.line = number + 1) =
        (proper (ofList text)).filter (·.position.line = number + 1) := by
    apply List.filter_congr
    intro token hmem
    have hkind : token.kind ≠ .eof := by simpa using List.of_mem_filter hmem
    simp [hkind]
  rw [tokensOn, ofList_eq_concat, List.filter_append, hsame, hon]
  simp

theorem colourLine_eq {text : List Char}
    (h : ∀ token ∈ ofList text, '\n' ∉ token.literal.toList) {number : Nat} {line : List Char}
    (hline : (splitLines text)[number]? = some line) :
    colourLine text number = colourBy line (tokensOn text number) := by
  have hown : colourLine text number = colourBy line (ofList line) := by
    simp [colourLine, hline, colour, colourBy]
  rw [hown, tokensOn_eq h hline, colourBy, colourBy]
  split
  · rfl
  · have hsame := fragmentsFrom_onLine (kind_eofAt (.behind text)) (kind_eofAt (.behind line)) line
      (number + 1) 0 (proper (ofList line))
    rw [← ofList_eq_concat] at hsame
    exact hsame.symm

/-- The lines of a text, read one by one and numbered, give the tokens of the text exactly if no
token of the text holds a newline. Then the colours of every line are those of the tokens that the
text as a whole has there. -/
theorem lines_read_alike_iff (text : List Char) :
    (ofLines 1 (splitLines text) = proper (ofList text) ↔
      ∀ token ∈ ofList text, '\n' ∉ token.literal.toList) ∧
    ((∀ token ∈ ofList text, '\n' ∉ token.literal.toList) →
      ∀ number line, (splitLines text)[number]? = some line →
        colourLine text number = colourBy line (tokensOn text number)) := by
  constructor
  · constructor
    · intro hsame token hmem
      rw [ofList_eq_concat, ← hsame] at hmem
      rcases List.mem_append.mp hmem with hproper | hend
      · exact not_mem_literal_of_mem_ofLines (fun _ => not_mem_of_mem_splitLines) hproper
      · rw [List.mem_singleton.mp hend]
        simp [eofAt]
    · exact ofLines_eq_proper
  · intro h number line hline
    exact colourLine_eq h hline

/-- A quote in a comment opens no text, so the line below it is read as it stands. -/
theorem lines_read_alike_comment :
    let text := "x # \"off\n  + 0x1F".toList
    (∀ token ∈ ofList text, '\n' ∉ token.literal.toList) ∧
      ofLines 1 (splitLines text) = proper (ofList text) ∧
      colourLine text 1 = colourBy "  + 0x1F".toList (tokensOn text 1) := by
  intro text
  have h : ∀ token ∈ ofList text, '\n' ∉ token.literal.toList := by decide +kernel
  obtain ⟨hiff, hcolours⟩ := lines_read_alike_iff text
  exact ⟨h, hiff.mpr h, hcolours h 1 "  + 0x1F".toList (by decide +kernel)⟩

/-- A text over two lines is two texts that are not closed when its lines are read alone. -/
example : (ofLines 1 (splitLines "\"a\nb\"".toList)).map (·.kind) = [.illegal, .ident, .illegal] ∧
    (proper (ofList "\"a\nb\"".toList)).map (·.kind) = [.string] := by
  decide +kernel

end Shell

end Monkey
