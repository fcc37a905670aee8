import Monkey.Proofs.Token.Classes
import Mathlib.Data.List.DropRight
import Mathlib.Data.List.Induction
import Mathlib.Tactic.Common

/-!
# Layout of a text

`Lexes before text tokens` lays a text out as gaps and tokens, each token at the place that the
newlines in front of it give and each of the class its characters have. Main statements: a text is
laid out in exactly one way, as the lexer reads it (`lexes_iff`); so nothing of a text is lost
(`Token.lossless`) and every token is as long as its class allows (`Token.fits_of_mem`).
-/
namespace Monkey

/-! ## Places -/

namespace Position

/-- The place behind a text: its newlines count the line, what follows the last of them the
column. -/
def behind (text : List Char) : Position :=
  ⟨1 + text.count '\n', 1 + (text.rtakeWhile (· != '\n')).length⟩

theorem behind_concat (text : List Char) (c : Char) : behind (text ++ [c]) = (behind text).step c := by
  by_cases hc : c = '\n'
  · simp [behind, step, hc, Nat.add_assoc]
  · simp [behind, step, hc, Nat.add_assoc]

theorem past_behind (before text : List Char) :
    (behind before).past text = behind (before ++ text) := by
  induction text generalizing before with
  | nil => simp
  | cons c rest ih =>
      have hfirst := behind_concat before c
      rw [past_cons, ← hfirst, ih]
      simp

end Position

/-! ## Gaps -/

/-- Blanks and comments in front of `after`. A comment goes up to the end of its line. -/
inductive Gap : List Char → List Char → Prop where
  | nil {after : List Char} : Gap [] after
  | blank {c : Char} {gap after : List Char} (hspace : isSpace c) (hgap : Gap gap after) :
      Gap (c :: gap) after
  | comment {body gap after : List Char} (hbody : '\n' ∉ body)
      (hend : RunEnds (· != '\n') (gap ++ after)) (hgap : Gap gap after) :
      Gap ('#' :: (body ++ gap)) after

/-- No gap begins the text. -/
def NoGap (text : List Char) : Prop :=
  ∀ c, text.head? = some c → c ∉ gapStarts

theorem splitGap_blank {c : Char} (hspace : isSpace c) (rest : List Char) :
    splitGap false (c :: rest) =
      (c :: (splitGap false rest).1, (splitGap false rest).2) := by
  have hcomment : (c == '#') = false := by
    by_contra h
    obtain rfl : c = '#' := by simpa using h
    cases hspace
  simp [splitGap, hspace, hcomment]

/-- An open comment takes the rest of its line. -/
theorem splitGap_true (text : List Char) :
    splitGap true text =
      (text.takeWhile (· != '\n') ++ (splitGap false (text.dropWhile (· != '\n'))).1,
        (splitGap false (text.dropWhile (· != '\n'))).2) := by
  induction text with
  | nil => rfl
  | cons c rest ih =>
      by_cases hc : c = '\n'
      · have hnewline := splitGap_blank (c := c) (by simp [hc, isSpace]) rest
        simp [hc, splitGap] at hnewline ⊢
        simp [isSpace]
      · have hopen : (c != '\n') = true := by simpa using hc
        simp [splitGap, hopen, ih]

theorem splitGap_comment (rest : List Char) :
    splitGap false ('#' :: rest) = ('#' :: (splitGap true rest).1, (splitGap true rest).2) := by
  simp [splitGap, isSpace]

theorem splitGap_of_noGap {text : List Char} (h : NoGap text) : splitGap false text = ([], text) := by
  cases text with
  | nil => rfl
  | cons c rest =>
      have hc := h c rfl
      rw [mem_gapStarts_iff, not_or] at hc
      simp [splitGap, hc.1, hc.2]

theorem splitGap_cases (text : List Char) :
    NoGap text ∨ (∃ c rest, text = c :: rest ∧ isSpace c) ∨ ∃ rest, text = '#' :: rest := by
  cases text with
  | nil => exact .inl (by simp [NoGap])
  | cons c rest =>
      by_cases hc : c ∈ gapStarts
      · rcases (mem_gapStarts_iff c).mp hc with hspace | rfl
        · exact .inr (.inl ⟨c, rest, rfl, hspace⟩)
        · exact .inr (.inr ⟨rest, rfl⟩)
      · exact .inl (by simpa [NoGap] using hc)

/-- What is skipped is a gap, and all of it. -/
theorem gap_splitGap (text : List Char) :
    Gap (splitGap false text).1 (splitGap false text).2 ∧ NoGap (splitGap false text).2 := by
  induction hlength : text.length using Nat.strong_induction_on generalizing text with
  | _ length ih =>
  rcases splitGap_cases text with hnone | ⟨c, rest, rfl, hspace⟩ | ⟨rest, rfl⟩
  · rw [splitGap_of_noGap hnone]
    exact ⟨.nil, hnone⟩
  · obtain ⟨hgap, hnone⟩ := ih rest.length (by simp [← hlength]) rest rfl
    rw [splitGap_blank hspace]
    exact ⟨.blank hspace hgap, hnone⟩
  · have hshorter := List.length_dropWhile_le (· != '\n') rest
    have hends := runEnds_dropWhile (· != '\n') rest
    rw [List.length_cons] at hlength
    rw [splitGap_comment, splitGap_true]
    generalize rest.dropWhile (· != '\n') = line at hshorter hends
    obtain ⟨hgap, hnone⟩ := ih line.length (by omega) line rfl
    have hbody : '\n' ∉ rest.takeWhile (· != '\n') := by
      intro hmem
      have hne := List.mem_takeWhile_imp hmem
      simp at hne
    exact ⟨.comment hbody (by simpa using hends) hgap, hnone⟩

theorem Gap.splitGap_eq {gap after : List Char} (h : Gap gap after) (hnone : NoGap after) :
    splitGap false (gap ++ after) = (gap, after) := by
  induction h with
  | nil => exact splitGap_of_noGap hnone
  | blank hspace _ ih => rw [List.cons_append, splitGap_blank hspace, ih hnone]
  | @comment body gap after hbody hend _ ih =>
      have hrun : ∀ c ∈ body, (c != '\n') = true := by
        intro c hc
        simpa using ne_of_mem_of_not_mem hc hbody
      obtain ⟨htake, hdrop⟩ := takeWhile_of_runEnds hrun hend
      rw [List.cons_append, List.append_assoc, splitGap_comment, splitGap_true, htake, hdrop,
        ih hnone]

theorem noGap_span {token : Token} {after : List Char}
    (h : Fits token.kind token.literal.toList after) (rest : List Char) :
    NoGap (token.span ++ rest) := by
  obtain ⟨c, more, hspan, hc⟩ := h.exists_span_eq_cons
  intro d hd
  rw [Token.span, hspan] at hd
  obtain rfl : c = d := by simpa using hd
  exact hc

/-! ## Texts -/

/-- Behind `before`, the text is laid out as these tokens, the last of them the end marker. -/
inductive Lexes : List Char → List Char → List Token → Prop where
  | ended {before gap : List Char} (hgap : Gap gap []) :
      Lexes before gap [.eofAt (.behind (before ++ gap))]
  | token {before gap after : List Char} {token : Token} {tokens : List Token}
      (hgap : Gap gap (token.span ++ after)) (hposition : token.position = .behind (before ++ gap))
      (hfits : Fits token.kind token.literal.toList after)
      (hrest : Lexes (before ++ gap ++ token.span) after tokens) :
      Lexes before (gap ++ (token.span ++ after)) (token :: tokens)

namespace Lexer

/-- The lexer that has read `before`. -/
def behind (before text : List Char) : Lexer := ⟨.behind before, text⟩

theorem next_of_gap {gap : List Char} (h : Gap gap []) (before : List Char) :
    (behind before gap).next = (.eofAt (.behind (before ++ gap)), behind (before ++ gap) []) := by
  have hsplit := h.splitGap_eq (by simp [NoGap])
  rw [List.append_nil] at hsplit
  simp [next, behind, hsplit, read, Position.past_behind]

theorem next_of_fits {before gap after : List Char} {token : Token}
    (hgap : Gap gap (token.span ++ after)) (hposition : token.position = .behind (before ++ gap))
    (hfits : Fits token.kind token.literal.toList after) :
    (behind before (gap ++ (token.span ++ after))).next =
      (token, behind (before ++ gap ++ token.span) after) := by
  obtain ⟨c, more, hspan, _⟩ := hfits.exists_span_eq_cons
  have hscan : scan c (more ++ after) = ⟨token.kind, token.literal.toList, after⟩ :=
    hfits.scan_eq (by rw [hspan]; rfl)
  have hsplit := hgap.splitGap_eq (noGap_span hfits after)
  have htext : token.span ++ after = c :: (more ++ after) := by rw [Token.span, hspan]; rfl
  have hplace : token.position.past token.span = .behind (before ++ gap ++ token.span) := by
    rw [hposition, Position.past_behind]
  rw [next, behind, hsplit, htext, read, hscan, Position.past_behind, ← hposition]
  simpa [behind, Token.span] using hplace

/-- A text is over, or a gap and a token begin it. -/
theorem begins (text : List Char) :
    Gap text [] ∨ ∃ gap kind literal after, text = gap ++ (Kind.span kind literal ++ after) ∧
      Gap gap (Kind.span kind literal ++ after) ∧ Fits kind literal after ∧
      after.length < text.length := by
  obtain ⟨hgap, hnone⟩ := gap_splitGap text
  have hsplit := splitGap_append false text
  generalize (splitGap false text).1 = gap at hgap hsplit
  generalize (splitGap false text).2 = rest at hgap hnone hsplit
  subst hsplit
  cases rest with
  | nil => exact .inl (by simpa using hgap)
  | cons c rest =>
      have hspan := span_append_rest_scan c rest
      have hshorter := length_rest_scan_lt c rest
      refine .inr ⟨gap, (scan c rest).kind, (scan c rest).literal, (scan c rest).rest, ?_, ?_,
        fits_scan rest (hnone c rfl), ?_⟩
      · rw [hspan]
      · rw [hspan]
        exact hgap
      · rw [List.length_append]
        omega

end Lexer

/-- The lexer reads what a text is laid out as, and stays at its end. -/
theorem Lexes.drain_eq {before text : List Char} {tokens : List Token}
    (h : Lexes before text tokens) :
    (Lexer.behind before text).drain = (tokens, .behind (before ++ text) []) := by
  induction h with
  | ended hgap =>
      rw [Lexer.drain, Lexer.next_of_gap hgap]
      simp
  | token hgap hposition hfits _ ih =>
      rw [Lexer.drain, Lexer.next_of_fits hgap hposition hfits]
      rw [List.append_assoc, List.append_assoc] at ih
      simp [hfits.kind_ne_eof, ih]

theorem exists_lexes (before text : List Char) : ∃ tokens, Lexes before text tokens := by
  induction hlength : text.length using Nat.strong_induction_on generalizing before text with
  | _ length ih =>
  rcases Lexer.begins text with hgap | ⟨gap, kind, literal, after, rfl, hgap, hfits, hshorter⟩
  · exact ⟨_, .ended hgap⟩
  · let token : Token := ⟨kind, .ofList literal, .behind (before ++ gap)⟩
    have hspan : token.span = kind.span literal := by simp [token, Token.span]
    obtain ⟨tokens, hrest⟩ := ih after.length (by omega) (before ++ gap ++ token.span) after rfl
    rw [← hspan] at hgap ⊢
    exact ⟨token :: tokens, .token hgap rfl (by simpa [token] using hfits) hrest⟩

/-- A text is laid out in one way, and that is how it is read. -/
theorem lexes_iff (text : List Char) (tokens : List Token) :
    Lexes [] text tokens ↔ Token.ofList text = tokens := by
  have hread {others : List Token} (h : Lexes [] text others) : Token.ofList text = others := by
    have hdrain := h.drain_eq
    simp only [Token.ofList, Lexer.ofList]
    exact congrArg Prod.fst hdrain
  constructor
  · exact hread
  · rintro rfl
    obtain ⟨others, h⟩ := exists_lexes [] text
    rwa [hread h]

/-! ## Pieces -/

/-- A token with the gap in front of it. -/
structure Piece where
  gap : List Char
  token : Token

def Piece.text (piece : Piece) : List Char := piece.gap ++ piece.token.span

/-- The text that pieces make up. -/
def Piece.texts (pieces : List Piece) : List Char := pieces.flatMap Piece.text

@[simp] theorem Piece.texts_nil : texts [] = [] := rfl

@[simp] theorem Piece.texts_cons (piece : Piece) (pieces : List Piece) :
    texts (piece :: pieces) = piece.gap ++ (piece.token.span ++ texts pieces) := by
  simp [texts, Piece.text]

/-- The pieces and the last gap of a text that is laid out. -/
theorem Lexes.exists_pieces {before text : List Char} {tokens : List Token}
    (h : Lexes before text tokens) :
    ∃ pieces last, tokens = pieces.map Piece.token ++ [.eofAt (.behind (before ++ text))] ∧
      text = Piece.texts pieces ++ last ∧ Gap last [] ∧
      ∀ front piece back, pieces = front ++ piece :: back →
        Gap piece.gap (piece.token.span ++ (Piece.texts back ++ last)) ∧
        piece.token.position = .behind (before ++ (Piece.texts front ++ piece.gap)) ∧
        Fits piece.token.kind piece.token.literal.toList (Piece.texts back ++ last) := by
  induction h with
  | @ended before gap hgap => exact ⟨[], gap, rfl, rfl, hgap, by simp⟩
  | @token before gap after token tokens hgap hposition hfits _ ih =>
      obtain ⟨pieces, last, rfl, rfl, hlast, hpieces⟩ := ih
      refine ⟨⟨gap, token⟩ :: pieces, last, by simp, by simp, hlast, ?_⟩
      intro front piece back hsplit
      cases front with
      | nil =>
          obtain ⟨rfl, rfl⟩ : ⟨gap, token⟩ = piece ∧ pieces = back := by simpa using hsplit
          exact ⟨hgap, by simpa using hposition, hfits⟩
      | cons first front =>
          obtain ⟨rfl, rfl⟩ : ⟨gap, token⟩ = first ∧ pieces = front ++ piece :: back := by
            simpa using hsplit
          have hinner := hpieces front piece back rfl
          simpa using hinner

namespace Lexer

/-- At the end of a text the lexer gives the end marker again and again. -/
theorem take_ended (before : List Char) (count : Nat) :
    (behind before []).take count = List.replicate count (.eofAt (.behind before)) := by
  induction count with
  | zero => rfl
  | succ count ih =>
      have hnext := next_of_gap .nil before
      rw [List.append_nil] at hnext
      rw [take, hnext, ih, List.replicate_succ]

theorem take_of_lexes {before text : List Char} {tokens : List Token}
    (h : Lexes before text tokens) (extra : Nat) :
    (behind before text).take (tokens.length + extra) =
      tokens ++ List.replicate extra (.eofAt (.behind (before ++ text))) := by
  induction h with
  | @ended before gap hgap =>
      rw [List.length_singleton, Nat.add_comm, take, next_of_gap hgap, take_ended]
      rfl
  | @token before gap after token tokens hgap hposition hfits _ ih =>
      rw [List.length_cons, Nat.add_right_comm, take, next_of_fits hgap hposition hfits, ih]
      simp

end Lexer

namespace Token

/-- The token can be read from some text. -/
def Readable (token : Token) : Prop :=
  ∃ after, Fits token.kind token.literal.toList after

theorem readable_of_mem {source : String} {token : Token} (hmem : token ∈ ofSource source)
    (hkind : token.kind ≠ .eof) : token.Readable := by
  have hlexes : Lexes [] source.toList (ofSource source) := (lexes_iff _ _).mpr rfl
  obtain ⟨pieces, last, htokens, _, _, hpieces⟩ := hlexes.exists_pieces
  rw [htokens, List.mem_append, List.mem_singleton] at hmem
  rcases hmem with hmem | rfl
  · obtain ⟨piece, hpiece, rfl⟩ := List.mem_map.mp hmem
    obtain ⟨front, back, rfl⟩ := List.append_of_mem hpiece
    exact ⟨_, (hpieces front piece back rfl).2.2⟩
  · simp at hkind

/-- Nothing of a text is lost: it is the spans of its tokens with gaps around them, every token
stands at the place that the text in front of it gives, and the end marker, which comes once, comes
again if more tokens are asked for. -/
theorem lossless (source : String) :
    ∃ pieces last,
      ofSource source = pieces.map Piece.token ++ [.eofAt (.behind source.toList)] ∧
      source.toList = Piece.texts pieces ++ last ∧ Gap last [] ∧
      (∀ front piece back, pieces = front ++ piece :: back →
        piece.token.kind ≠ .eof ∧ piece.token.span ≠ [] ∧
        Gap piece.gap (piece.token.span ++ (Piece.texts back ++ last)) ∧
        piece.token.position = .behind (Piece.texts front ++ piece.gap)) ∧
      ∀ extra, (Lexer.ofList source.toList).take ((ofSource source).length + extra) =
        ofSource source ++ List.replicate extra (.eofAt (.behind source.toList)) := by
  have hlexes : Lexes [] source.toList (ofSource source) := (lexes_iff _ _).mpr rfl
  obtain ⟨pieces, last, htokens, htext, hlast, hpieces⟩ := hlexes.exists_pieces
  refine ⟨pieces, last, htokens, htext, hlast, ?_, Lexer.take_of_lexes hlexes⟩
  intro front piece back hsplit
  obtain ⟨hgap, hposition, hfits⟩ := hpieces front piece back hsplit
  obtain ⟨c, more, hspan, _⟩ := hfits.exists_span_eq_cons
  have hsome : piece.token.span ≠ [] := by simp [Token.span, hspan]
  exact ⟨hfits.kind_ne_eof, hsome, hgap, hposition⟩

/-- Every token has the class of its kind, and could not be longer where it stands. -/
theorem fits_of_mem {source : String} {token : Token} (hmem : token ∈ ofSource source)
    (hkind : token.kind ≠ .eof) :
    ∃ before after, source.toList = before ++ (token.span ++ after) ∧
      token.position = .behind before ∧ Fits token.kind token.literal.toList after := by
  have hlexes : Lexes [] source.toList (ofSource source) := (lexes_iff _ _).mpr rfl
  obtain ⟨pieces, last, htokens, htext, _, hpieces⟩ := hlexes.exists_pieces
  rw [htokens, List.mem_append, List.mem_singleton] at hmem
  rcases hmem with hmem | rfl
  · obtain ⟨piece, hpiece, rfl⟩ := List.mem_map.mp hmem
    obtain ⟨front, back, rfl⟩ := List.append_of_mem hpiece
    obtain ⟨_, hposition, hfits⟩ := hpieces front piece back rfl
    refine ⟨Piece.texts front ++ piece.gap, Piece.texts back ++ last, ?_, hposition, hfits⟩
    simpa [Piece.texts, Piece.text] using htext
  · simp at hkind

/-- A hexadecimal numeral on the second line ends where its digits do. -/
theorem fits_of_mem_numeral :
    let token : Token := ⟨.hex, "0x1F", ⟨2, 3⟩⟩
    ∃ before after, "n # sum\n+ 0x1Fg;".toList = before ++ (token.span ++ after) ∧
      token.position = .behind before ∧ Fits token.kind token.literal.toList after := by
  intro token
  have hmem : token ∈ ofSource "n # sum\n+ 0x1Fg;" := by decide +kernel
  exact fits_of_mem hmem (by decide)

end Token

end Monkey
