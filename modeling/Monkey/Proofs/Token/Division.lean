import Monkey.Proofs.Token.Layout

/-!
# Texts cut in two

A text may be cut wherever no token has characters on both sides. A token ends where it does
because of what follows it, and with less behind it there is less to go on with, so the part in
front of the cut has the tokens that it has in the whole (`Lexes.cut`). A newline in front of the
rest is part of a gap, and then the rest has its tokens too.
-/
namespace Monkey

section
variable {gap after more : List Char}

theorem RunEnds.of_append {part : Char → Bool} (h : RunEnds part (after ++ more)) :
    RunEnds part after := by
  intro c hc
  apply h c
  rw [List.head?_append, hc]
  exact Option.some_or

theorem LongestSign.of_append {text : List Char} (h : LongestSign text (after ++ more)) :
    LongestSign text after := by
  intro c hc
  apply h c
  rw [List.head?_append, hc]
  exact Option.some_or

theorem MarksHex.append (h : MarksHex after) (more : List Char) : MarksHex (after ++ more) := by
  match after, h with
  | _ :: _ :: _, h => exact h

/-- A token stays what it is when the text behind it is cut short. -/
theorem Fits.of_append {kind : Kind} {literal : List Char} (h : Fits kind literal (after ++ more)) :
    Fits kind literal after := by
  generalize hall : after ++ more = all at h
  cases h with
  | text hquote => exact .text hquote
  | decimal hsome hdigits hend hzero =>
      subst hall
      exact .decimal hsome hdigits hend.of_append fun hliteral hmarks =>
        hzero hliteral (hmarks.append more)
  | hexadecimal hmark hsome hdigits hend =>
      subst hall
      exact .hexadecimal hmark hsome hdigits hend.of_append
  | word hfirst hmore hend hkind =>
      subst hall
      exact .word hfirst hmore hend.of_append hkind
  | sign hsign hlongest =>
      subst hall
      exact .sign hsign hlongest.of_append
  | stray hspace hcomment hquote hdigit hword hsign hlongest =>
      subst hall
      exact .stray hspace hcomment hquote hdigit hword hsign hlongest.of_append
  | unclosed hquote =>
      have hnil : after = [] := (List.append_eq_nil_iff.mp hall).1
      rw [hnil]
      exact .unclosed hquote

theorem Gap.of_append (h : Gap gap (after ++ more)) : Gap gap after := by
  generalize hall : after ++ more = all at h
  induction h with
  | nil => exact .nil
  | blank hspace _ ih => exact .blank hspace (ih hall)
  | comment hbody hend _ ih =>
      subst hall
      rw [← List.append_assoc] at hend
      exact .comment hbody hend.of_append (ih rfl)

/-- The beginning of a gap is a gap at the end of a text. -/
theorem Gap.front {front back : List Char} (h : Gap gap after) (hgap : gap = front ++ back) :
    Gap front [] := by
  induction h generalizing front with
  | nil =>
      have hnil : front = [] := (List.append_eq_nil_iff.mp hgap.symm).1
      rw [hnil]
      exact .nil
  | blank hspace _ ih =>
      cases front with
      | nil => exact .nil
      | cons c front =>
          obtain ⟨hc, hrest⟩ := List.cons.inj hgap
          rw [← hc]
          exact .blank hspace (ih hrest)
  | @comment body gap after hbody hend _ ih =>
      cases front with
      | nil => exact .nil
      | cons c front =>
          obtain ⟨hc, hrest⟩ := List.cons.inj hgap
          rw [← hc]
          obtain ⟨later, hfront, hlater⟩ | ⟨later, hbodySplit, _⟩ :=
            List.append_eq_append_iff.mp hrest
          · rw [hlater, List.append_assoc] at hend
            rw [hfront]
            exact .comment hbody (by simpa using hend.of_append) (ih hlater)
          · -- the cut lies inside the comment
            rw [hbodySplit] at hbody
            have hopen : '\n' ∉ front := fun hmem => hbody (List.mem_append_left _ hmem)
            have hcomment : Gap ('#' :: (front ++ [])) [] := .comment hopen nofun .nil
            simpa using hcomment

/-- A gap goes on behind a newline inside it. -/
theorem Gap.back {front back : List Char} (h : Gap gap after) (hgap : gap = front ++ '\n' :: back) :
    Gap back after := by
  induction h generalizing front with
  | nil => simp at hgap
  | blank _ hrest ih =>
      cases front with
      | nil =>
          rw [← (List.cons.inj hgap).2]
          exact hrest
      | cons c front => exact ih (List.cons.inj hgap).2
  | @comment body gap after hbody _ _ ih =>
      cases front with
      | nil => simp at hgap
      | cons c front =>
          have hrest := (List.cons.inj hgap).2
          obtain ⟨later, _, hlater⟩ | ⟨later, hbodySplit, hlater⟩ :=
            List.append_eq_append_iff.mp hrest
          · exact ih hlater
          · cases later with
            | nil =>
                have hfirst : gap = [] ++ '\n' :: back := hlater.symm
                exact ih hfirst
            | cons d later =>
                have hd : '\n' = d := (List.cons.inj hlater).1
                simp [hbodySplit, ← hd] at hbody

end

/-! ## Cuts -/

/-- No token has characters on both sides of this place in the text, which follows `before`. -/
def Divides (before text : List Char) (place : Nat) (tokens : List Token) : Prop :=
  ∀ token ∈ tokens, ∀ count ≤ text.length, token.span <+: text.drop count →
    token.position = .behind (before ++ text.take count) →
    place ≤ count ∨ count + token.span.length ≤ place

instance (before text : List Char) (place : Nat) (tokens : List Token) :
    Decidable (Divides before text place tokens) :=
  inferInstanceAs (Decidable (∀ token ∈ tokens, ∀ count ≤ text.length, _ → _ → _ ∨ _))

/-- Behind its first token, a text is divided where it was. -/
theorem Divides.tail {before gap after : List Char} {token : Token} {tokens : List Token}
    {place : Nat}
    (h : Divides before (gap ++ (token.span ++ after)) (gap.length + (token.span.length + place))
      (token :: tokens)) :
    Divides (before ++ gap ++ token.span) after place tokens := by
  intro other hother count hcount hspan hposition
  have hlength : gap.length + (token.span.length + count) ≤
      (gap ++ (token.span ++ after)).length := by
    simp only [List.length_append]
    omega
  have htake : (gap ++ (token.span ++ after)).take (gap.length + (token.span.length + count)) =
      gap ++ (token.span ++ after.take count) := by
    rw [List.take_length_add_append, List.take_length_add_append]
  have hdrop : (gap ++ (token.span ++ after)).drop (gap.length + (token.span.length + count)) =
      after.drop count := by
    rw [List.drop_length_add_append, List.drop_length_add_append]
  have hplace := h other (List.mem_cons_of_mem _ hother) _ hlength (by rwa [hdrop])
    (by rw [htake, hposition]; simp)
  omega

/-- Tokens without newlines are not divided where a newline stands. -/
theorem divides_newline (before front back : List Char) {tokens : List Token}
    (h : ∀ token ∈ tokens, '\n' ∉ token.span) :
    Divides before (front ++ '\n' :: back) front.length tokens := by
  intro token htoken count hcount hspan _
  by_contra hinside
  have hlow : count ≤ front.length := by omega
  have hhigh : front.length - count < token.span.length := by omega
  have hnewline : ((front ++ '\n' :: back).drop count)[front.length - count]? = some '\n' := by
    rw [List.getElem?_drop, Nat.add_sub_of_le hlow]
    simp
  obtain ⟨later, hlater⟩ := hspan
  rw [← hlater, List.getElem?_append_left hhigh] at hnewline
  exact h token htoken (List.mem_of_getElem? hnewline)

/-- The tokens of a text that is cut where it may be: those in front of the cut are the tokens of
the part there, and if a newline follows the cut, the others are those of what stands behind it. -/
theorem Lexes.cut {before front back : List Char} {tokens : List Token}
    (h : Lexes before (front ++ back) tokens)
    (hdivides : Divides before (front ++ back) front.length tokens) :
    ∃ firsts others, tokens = firsts ++ others ∧
      Lexes before front (firsts ++ [.eofAt (.behind (before ++ front))]) ∧
      ∀ rest, back = '\n' :: rest → Lexes (before ++ front ++ ['\n']) rest others := by
  generalize htext : front ++ back = text at h
  induction h generalizing front with
  | @ended before gap hgap =>
      refine ⟨[], _, rfl, .ended (hgap.front htext.symm), ?_⟩
      rintro rest rfl
      have hended : Lexes (before ++ front ++ ['\n']) rest _ := .ended (hgap.back htext.symm)
      simpa [← htext] using hended
  | @token before gap after token tokens hgap hposition hfits hrest ih =>
      have hplace := hdivides token List.mem_cons_self gap.length (by simp [htext])
        (by simp [htext]) (by simpa [htext] using hposition)
      have hprefix : front <+: gap ++ (token.span ++ after) := ⟨back, htext⟩
      rcases hplace with hshort | hlong
      · have hgapPrefix : gap <+: gap ++ (token.span ++ after) := List.prefix_append _ _
        obtain ⟨later, rfl⟩ := List.prefix_of_prefix_length_le hprefix hgapPrefix hshort
        have hback : back = later ++ (token.span ++ after) := by simpa using htext
        refine ⟨[], token :: tokens, rfl, .ended (hgap.front rfl), ?_⟩
        rintro rest rfl
        obtain ⟨c, more, hspan, hc⟩ := hfits.exists_span_eq_cons
        cases later with
        | nil =>
            -- no token begins with a newline
            rw [List.nil_append, Token.span, hspan, List.cons_append] at hback
            rw [← (List.cons.inj hback).1] at hc
            exact absurd (by decide) hc
        | cons d later =>
            obtain ⟨rfl, rfl⟩ := List.cons.inj hback
            exact .token (hgap.back rfl) (by simpa using hposition) hfits (by simpa using hrest)
      · have hspan : gap ++ token.span <+: gap ++ (token.span ++ after) := by simp
        obtain ⟨later, rfl⟩ := List.prefix_of_prefix_length_le hspan hprefix (by simpa using hlong)
        obtain rfl : later ++ back = after := by simpa using htext
        have htail : Divides (before ++ gap ++ token.span) (later ++ back) later.length tokens := by
          apply Divides.tail
          simpa using hdivides
        obtain ⟨firsts, others, rfl, hfirsts, hothers⟩ := ih htail rfl
        rw [← List.append_assoc] at hgap
        have hhead : Lexes before (gap ++ (token.span ++ later)) _ :=
          .token hgap.of_append hposition hfits.of_append hfirsts
        refine ⟨token :: firsts, others, rfl, by simpa using hhead, ?_⟩
        intro rest hback
        simpa using hothers rest hback

end Monkey
