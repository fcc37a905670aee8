import Monkey.Proofs.Parse.Rendering
import Monkey.Proofs.Relocation
import Monkey.Proofs.Token.Layout

/-!
# Tokens with single spaces between them

A space ends every token but a text that is not closed, and such a text is the last token of its
source; a bracket, a comma, a colon or a semicolon ends the same tokens. So the spans of the tokens
of a source, joined by single spaces, are read as the same tokens again, at other places: gaps and
comments decide nothing.
-/
namespace Monkey

/-- The characters that end whatever stands in front of them, but for a text that is not closed. -/
def dividers : List Char := [' ', '(', ')', '[', ']', '\x7b', '\x7d', ',', ':', ';']

/-- The text is over, or a divider begins it. -/
def Divided (after : List Char) : Prop :=
  ∀ c, after.head? = some c → c ∈ dividers

theorem Divided.nil : Divided [] := by
  simp [Divided]

theorem Divided.cons {c : Char} (h : c ∈ dividers) (more : List Char) : Divided (c :: more) := by
  simpa [Divided] using h

section
variable {after other : List Char}

theorem Divided.runEnds {part : Char → Bool} (h : Divided after)
    (hpart : dividers.all (!part ·)) : RunEnds part after := by
  intro c hc
  simpa using List.all_eq_true.mp hpart c (h c hc)

/-- A sign with more than one character has no divider. -/
theorem Divided.longestSign (h : Divided after) {text : List Char} (htext : text ≠ []) :
    LongestSign text after := by
  have hall : ∀ sign ∈ Kind.signs, sign.2.toList.dropLast = [] ∨
      sign.2.toList.all (!dividers.contains ·) := by decide
  intro c hc kind hmem
  rcases hall _ hmem with hone | hnone
  · exact htext (by simpa using hone)
  · have hdivider := h c hc
    simp_all

theorem Divided.not_marksHex (h : Divided after) : ¬ MarksHex after := by
  intro hmarks
  match after, hmarks with
  | mark :: _ :: _, hmarks =>
      have hmark := h mark rfl
      rcases hmarks.1 with rfl | rfl <;> simp [dividers] at hmark

/-- A token stays what it is in front of a divider. Only a text that is not closed has to stay at
the end. -/
theorem Fits.divided {kind : Kind} {literal : List Char} (h : Fits kind literal after)
    (hother : Divided other) (hend : kind = .illegal → after = [] → other = []) :
    Fits kind literal other := by
  cases h with
  | text hquote => exact .text hquote
  | decimal hsome hdigits =>
      exact .decimal hsome hdigits (hother.runEnds (by decide)) fun _ => hother.not_marksHex
  | hexadecimal hmark hsome hdigits =>
      exact .hexadecimal hmark hsome hdigits (hother.runEnds (by decide))
  | word hfirst hmore _ hkind => exact .word hfirst hmore (hother.runEnds (by decide)) hkind
  | sign hsign =>
      refine .sign hsign (hother.longestSign ?_)
      rintro rfl
      simpa using length_of_mem_signs hsign
  | stray hspace hcomment hquote hdigit hword hsign =>
      exact .stray hspace hcomment hquote hdigit hword hsign
        (hother.longestSign (List.cons_ne_nil _ _))
  | unclosed hquote =>
      rw [hend rfl rfl]
      exact .unclosed hquote

end

namespace Token

/-- The spans of the tokens in front of the end marker, with single spaces between them. -/
def respaced (tokens : List Token) : List Char :=
  [' '].intercalate ((tokens.filter (·.kind ≠ .eof)).map span)

/-- What follows a token: nothing, or a space and the other tokens. -/
def following (tokens : List Token) : List Char :=
  if tokens.filter (·.kind ≠ .eof) = [] then [] else ' ' :: respaced tokens

theorem divided_following (tokens : List Token) : Divided (following tokens) := by
  unfold following
  split
  · exact .nil
  · exact .cons (by decide) _

theorem respaced_cons {token : Token} (hkind : token.kind ≠ .eof) (tokens : List Token) :
    respaced (token :: tokens) = token.span ++ following tokens := by
  have hfilter : (token :: tokens).filter (·.kind ≠ .eof) =
      token :: tokens.filter (·.kind ≠ .eof) := List.filter_cons_of_pos (by simpa using hkind)
  rw [respaced, hfilter, following, respaced]
  cases tokens.filter (·.kind ≠ .eof) with
  | nil => simp
  | cons other others => simp [List.intercalate_cons_cons]

end Token

namespace Lexes

variable {before text : List Char} {tokens : List Token}

/-- A space in front of a text is part of its first gap. -/
theorem behind_space (h : Lexes (before ++ [' ']) text tokens) :
    Lexes before (' ' :: text) tokens := by
  cases h with
  | ended hgap =>
      have hended : Lexes before (' ' :: text) _ := .ended (.blank rfl hgap)
      simpa using hended
  | @token _ gap after token tokens hgap hposition hfits hrest =>
      have hspaced : Gap (' ' :: gap) (token.span ++ after) := .blank rfl hgap
      have htoken : Lexes before ((' ' :: gap) ++ (token.span ++ after)) (token :: tokens) :=
        .token hspaced (by simpa using hposition) hfits (by simpa using hrest)
      simpa using htoken

/-- The end of a text has no token but the end marker. -/
theorem filter_of_nil (h : Lexes before [] tokens) : tokens.filter (·.kind ≠ .eof) = [] := by
  generalize hnone : ([] : List Char) = none at h
  cases h with
  | ended => simp
  | token _ _ hfits _ =>
      obtain ⟨c, more, hspan, _⟩ := hfits.exists_span_eq_cons
      simp [Token.span, hspan] at hnone

/-- The tokens of a text are read again from their spans, wherever these stand. -/
theorem respaced (h : Lexes before text tokens) (place : List Char) :
    ∃ others, Lexes place (Token.respaced tokens) others ∧
      others.map (·.lexeme) = tokens.map (·.lexeme) := by
  induction h generalizing place with
  | ended =>
      have hended : Lexes place [] _ := .ended .nil
      exact ⟨_, hended, rfl⟩
  | @token before gap after token tokens _ _ hfits hrest ih =>
      let moved : Token := ⟨token.kind, token.literal, .behind (place ++ [])⟩
      have hend : after = [] → Token.following tokens = [] := by
        intro hnil
        rw [hnil] at hrest
        exact if_pos hrest.filter_of_nil
      have hfits' : Fits moved.kind moved.literal.toList (Token.following tokens) :=
        hfits.divided (Token.divided_following tokens) fun _ => hend
      have htail : ∃ others, Lexes (place ++ [] ++ moved.span) (Token.following tokens) others ∧
          others.map (·.lexeme) = tokens.map (·.lexeme) := by
        unfold Token.following
        split
        next hnone =>
            have hnil : Token.respaced tokens = [] := by rw [Token.respaced, hnone]; rfl
            have hrest := ih (place ++ [] ++ moved.span)
            rwa [hnil] at hrest
        next =>
            obtain ⟨others, hothers, hlexemes⟩ := ih (place ++ [] ++ moved.span ++ [' '])
            exact ⟨others, hothers.behind_space, hlexemes⟩
      obtain ⟨others, hothers, hlexemes⟩ := htail
      have hnogap : Gap [] (moved.span ++ Token.following tokens) := .nil
      have htoken : Lexes place (moved.span ++ Token.following tokens) (moved :: others) :=
        .token hnogap rfl hfits' hothers
      rw [Token.respaced_cons hfits.kind_ne_eof]
      refine ⟨moved :: others, htoken, ?_⟩
      rw [List.map_cons, List.map_cons, hlexemes]
      rfl

end Lexes

namespace Token

/-- The source with its tokens kept and single spaces in the place of all gaps. -/
def respace (source : String) : String :=
  .ofList (respaced (ofSource source))

theorem lexemes_respace (source : String) :
    (ofSource (respace source)).map (·.lexeme) = (ofSource source).map (·.lexeme) := by
  have hlexes : Lexes [] source.toList (ofSource source) := (lexes_iff _ _).mpr rfl
  obtain ⟨others, hothers, hlexemes⟩ := hlexes.respaced []
  have hread : ofSource (respace source) = others := by
    rw [ofSource, respace, String.toList_ofList]
    exact (lexes_iff _ _).mp hothers
  rw [hread, hlexemes]

/-- Without its place, a token is what it says. -/
theorem relocate_erase (token : Token) : token.relocate .erase = ofLexeme token.lexeme := rfl

theorem relocate_erase_of_lexeme {token other : Token} (h : token.lexeme = other.lexeme) :
    token.relocate .erase = other.relocate .erase := by
  rw [relocate_erase, relocate_erase, h]

theorem relocate_erase_of_lexemes {ts others : List Token}
    (h : ts.map (·.lexeme) = others.map (·.lexeme)) :
    ts.map (·.relocate .erase) = others.map (·.relocate .erase) := by
  have hone := congrArg (List.map ofLexeme) h
  simpa [Function.comp_def, ← relocate_erase] using hone

end Token

end Monkey
