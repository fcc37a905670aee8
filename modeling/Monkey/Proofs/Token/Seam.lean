import Monkey.Proofs.Relocation
import Monkey.Proofs.Token.Layout

/-!
# Texts on lines of their own

A newline ends whatever token or comment stands in front of it, except a text that is not closed. So
if a text is read without illegal tokens, a second text behind it, on a line of its own, leaves its
tokens as they are; and the tokens of the second text are those it has alone, further down.
-/
namespace Monkey

section
variable {gap after more : List Char}

theorem RunEnds.append_newline {part : Char → Bool} (h : RunEnds part after)
    (hnewline : part '\n' = false) : RunEnds part (after ++ '\n' :: more) := by
  intro c hc
  cases after with
  | nil =>
      obtain rfl : '\n' = c := by simpa using hc
      exact hnewline
  | cons first rest => exact h c (by simpa using hc)

theorem LongestSign.append_newline {text : List Char} (h : LongestSign text after) :
    LongestSign text (after ++ '\n' :: more) := by
  intro c hc kind hmem
  cases after with
  | nil =>
      obtain rfl : '\n' = c := by simpa using hc
      have hgap := (of_mem_sign hmem (c := '\n') (by simp)).2.2.2
      exact hgap (by decide)
  | cons first rest => exact h c (by simpa using hc) kind hmem

theorem marksHex_of_append_newline (h : MarksHex (after ++ '\n' :: more)) : MarksHex after := by
  match after, more, h with
  | [], _ :: _, h => rcases h.1 with hmark | hmark <;> cases hmark
  | [_], _, h => cases h.2
  | _ :: _ :: _, _, h => exact h

/-- A legal token is the same with a newline behind the text. -/
theorem Fits.append_newline {kind : Kind} {literal : List Char} (h : Fits kind literal after)
    (hkind : kind ≠ .illegal) (more : List Char) : Fits kind literal (after ++ '\n' :: more) := by
  cases h with
  | text hquote => exact .text hquote
  | decimal hsome hdigits hend hzero =>
      refine .decimal hsome hdigits (hend.append_newline rfl) fun hliteral hmarks => ?_
      exact hzero hliteral (marksHex_of_append_newline hmarks)
  | hexadecimal hmark hsome hdigits hend =>
      exact .hexadecimal hmark hsome hdigits (hend.append_newline rfl)
  | word hfirst hmore hend hword =>
      exact .word hfirst hmore (hend.append_newline (by decide)) hword
  | sign hsign hlongest => exact .sign hsign hlongest.append_newline
  | stray => exact absurd rfl hkind
  | unclosed => exact absurd rfl hkind

/-- A gap in front of a token is the same whatever follows the token. -/
theorem Gap.append (h : Gap gap after) (hafter : after ≠ []) (more : List Char) :
    Gap gap (after ++ more) := by
  induction h with
  | nil => exact .nil
  | blank hspace _ ih => exact .blank hspace (ih hafter)
  | @comment body gap after hbody hend _ ih =>
      refine .comment hbody (fun c hc => hend c ?_) (ih hafter)
      obtain ⟨first, rest, hsplit⟩ : ∃ first rest, gap ++ after = first :: rest :=
        List.exists_cons_of_ne_nil (by simp [hafter])
      rw [← List.append_assoc, hsplit] at hc
      rwa [hsplit]

/-- The gap at the end of a text, a newline and a gap behind it make one gap. -/
theorem Gap.append_newline {other : List Char} (h : Gap gap []) (hother : Gap other after) :
    Gap (gap ++ '\n' :: other) after := by
  generalize hnone : ([] : List Char) = none at h
  induction h with
  | nil => exact .blank rfl hother
  | blank hspace _ ih => exact .blank hspace (ih hnone)
  | @comment body gap none hbody hend _ ih =>
      subst hnone
      have hline : RunEnds (· != '\n') ((gap ++ '\n' :: other) ++ after) := by
        rw [List.append_nil] at hend
        have hopen : RunEnds (· != '\n') (gap ++ '\n' :: (other ++ after)) :=
          hend.append_newline rfl
        simpa using hopen
      simpa using Gap.comment hbody hline (ih rfl)

end

/-! ## The second text -/

theorem Position.behind_newline (before text : List Char) :
    behind (before ++ '\n' :: text) = (behind text).down (before.count '\n' + 1) := by
  induction text using List.reverseRecOn with
  | nil =>
      have hlines : (before ++ ['\n']).count '\n' = before.count '\n' + 1 := by simp
      have hcolumn : (before ++ ['\n']).rtakeWhile (· != '\n') = [] := by simp
      rw [behind, hlines, hcolumn]
      rfl
  | append_singleton text c ih =>
      have hsplit : before ++ '\n' :: (text ++ [c]) = (before ++ '\n' :: text) ++ [c] := by simp
      rw [hsplit, behind_concat, behind_concat, ih]
      by_cases hc : c = '\n'
      · simp [step, down, hc, Nat.add_right_comm]
      · simp [step, down, hc]

/-- Behind a line, a text has the same tokens further down. -/
theorem Lexes.lower {before text : List Char} {tokens : List Token} (h : Lexes before text tokens)
    (above : List Char) :
    Lexes (above ++ '\n' :: before) text
      (tokens.map (·.relocate (.down (above.count '\n' + 1)))) := by
  induction h with
  | @ended before gap hgap =>
      have hplace := Position.behind_newline above (before ++ gap)
      have hended : Lexes (above ++ '\n' :: before) gap _ := .ended hgap
      simpa [← hplace] using hended
  | @token before gap after token tokens hgap hposition hfits _ ih =>
      have hplace := Position.behind_newline above (before ++ gap)
      rw [← hposition] at hplace
      rw [List.map_cons, ← token.span_relocate (.down (above.count '\n' + 1))]
      refine .token hgap ?_ hfits ?_
      · simp only [Token.relocate, ← hplace]
        simp
      · simpa using ih

/-! ## Both texts -/

/-- The gap at the end of the first text joins the one that begins the second. -/
theorem Lexes.behind_gap {before gap second : List Char} {tokens : List Token} (hgap : Gap gap [])
    (h : Lexes (before ++ gap ++ ['\n']) second tokens) :
    Lexes before (gap ++ '\n' :: second) tokens := by
  cases h with
  | ended hother =>
      have hended : Lexes before _ _ := .ended (hgap.append_newline hother)
      simpa using hended
  | @token _ other after token tokens hother hposition hfits hrest =>
      have hboth := hgap.append_newline hother
      have htoken : Lexes before ((gap ++ '\n' :: other) ++ (token.span ++ after))
          (token :: tokens) := .token hboth (by simpa using hposition) hfits (by simpa using hrest)
      simpa using htoken

/-- A text without illegal tokens keeps its tokens in front of a newline and another text. -/
theorem Lexes.append {before first second : List Char} {tokens others : List Token}
    (h : Lexes before first tokens) (hlegal : ∀ token ∈ tokens, token.kind ≠ .illegal)
    (hsecond : Lexes (before ++ first ++ ['\n']) second others) :
    Lexes before (first ++ '\n' :: second) (tokens.dropLast ++ others) := by
  induction h with
  | ended hgap => exact .behind_gap hgap hsecond
  | @token before gap after token tokens hgap hposition hfits hrest ih =>
      have htail := ih (fun other hother => hlegal other (by simp [hother])) (by simpa using hsecond)
      have hkept := hfits.append_newline (hlegal token (by simp)) second
      obtain ⟨c, more, hspan, _⟩ := hfits.exists_span_eq_cons
      have hnext := hgap.append (by simp [Token.span, hspan]) ('\n' :: second)
      rw [List.append_assoc] at hnext
      have htokens : (token :: tokens).dropLast = token :: tokens.dropLast := by
        cases hrest <;> rfl
      rw [htokens]
      simpa using Lexes.token hnext hposition hkept htail

/-- The end marker is the last token and the only one of its kind. -/
theorem Token.ofSource_eq_concat (source : String) :
    ∃ ts eof, Token.ofSource source = ts ++ [eof] ∧ eof.kind = .eof ∧
      ∀ token ∈ ts, token.kind ≠ .eof := by
  have hlexes : Lexes [] source.toList (ofSource source) := (lexes_iff _ _).mpr rfl
  obtain ⟨pieces, last, htokens, _, _, hpieces⟩ := hlexes.exists_pieces
  refine ⟨_, _, htokens, rfl, ?_⟩
  intro token hmem
  obtain ⟨piece, hpiece, rfl⟩ := List.mem_map.mp hmem
  obtain ⟨front, back, hsplit⟩ := List.append_of_mem hpiece
  exact (hpieces front piece back hsplit).2.2.kind_ne_eof

/-- The tokens of two texts, the second on a line of its own. -/
theorem Token.ofSource_join {first second : String}
    (hlegal : ∀ token ∈ Token.ofSource first, token.kind ≠ .illegal) :
    Token.ofSource (first ++ "\n" ++ second) =
      (Token.ofSource first).dropLast ++
        (Token.ofSource second).map
          (·.relocate (.down (first.toList.count '\n' + 1))) := by
  have hfirst : Lexes [] first.toList (ofSource first) := (lexes_iff _ _).mpr rfl
  have hsecond : Lexes [] second.toList (ofSource second) := (lexes_iff _ _).mpr rfl
  have hboth := hfirst.append hlegal (hsecond.lower first.toList)
  rw [ofSource, ← (lexes_iff _ _).mp hboth]
  simp

end Monkey
