import Monkey.Proofs.Parse.Soundness
import Monkey.Proofs.Token.Seam
import Monkey.Value.Word

/-!
# What tokens give to their trees

A numeral has no sign, so its value is not negative, and the parser sets a bound to it. The tokens of
a part are among those of the whole, so what they are like carries over from texts to the trees of
their phrases.
-/
namespace Monkey

/-! ## Numerals -/

namespace Text

theorem mem_of_mem_trim {drop : Char → Bool} {text : List Char} {c : Char}
    (h : c ∈ trim drop text) : c ∈ text := by
  rw [trim, List.mem_reverse] at h
  have hreverse := (List.dropWhile_sublist drop).subset h
  exact (List.dropWhile_sublist drop).subset (List.mem_reverse.mp hreverse)

/-- Without a minus sign a numeral is not negative. -/
theorem Numeral.read?_nonneg {base : Nat} {text : List Char} {value : Int} (hminus : '-' ∉ text)
    (h : read? base text = some value) : 0 ≤ value := by
  unfold read? at h
  split at h
  next digits htrim =>
      have hmem : '-' ∈ trim isMargin text := by simp [htrim]
      exact absurd (mem_of_mem_trim hmem) hminus
  all_goals
    obtain ⟨number, hnumber, rfl⟩ := Option.map_eq_some_iff.mp h
    obtain ⟨count, _, hcount⟩ := Option.bind_eq_some_iff.mp hnumber
    obtain rfl := Option.some.inj hcount
    exact Int.natCast_nonneg count

end Text

/-- A numeral consists of digits, and of the mark of its base. -/
theorem Fits.numeral {kind : Kind} {literal after : List Char} (h : Fits kind literal after)
    (hkind : kind = .int ∨ kind = .hex) :
    (kind = .int ∧ literal ≠ [] ∧ ∀ c ∈ literal, c.isDigit) ∨
      (kind = .hex ∧ ∃ mark digits, literal = '0' :: mark :: digits ∧ (mark = 'x' ∨ mark = 'X') ∧
        digits ≠ [] ∧ ∀ c ∈ digits, isHexDigit c) := by
  cases h with
  | decimal hsome hdigits => exact .inl ⟨rfl, hsome, hdigits⟩
  | hexadecimal hmark hsome hdigits => exact .inr ⟨rfl, _, _, rfl, hmark, hsome, hdigits⟩
  | word _ _ _ hword =>
      rcases hword with hkeyword | ⟨rfl, _⟩
      · rcases hkind with rfl | rfl <;> simp [Kind.keywords] at hkeyword
      · simp at hkind
  | sign hsign _ => rcases hkind with rfl | rfl <;> simp [Kind.signs] at hsign
  | text | stray | unclosed => simp at hkind

theorem Fits.not_mem_minus {kind : Kind} {literal after : List Char} (h : Fits kind literal after)
    (hkind : kind = .int ∨ kind = .hex) : '-' ∉ literal := by
  intro hmem
  rcases h.numeral hkind with ⟨_, _, hdigits⟩ | ⟨_, mark, digits, rfl, hmark, _, hdigits⟩
  · exact absurd (hdigits _ hmem) (by decide)
  · rcases List.mem_cons.mp hmem with hzero | hmem
    · exact absurd hzero (by decide)
    · rcases List.mem_cons.mp hmem with rfl | hmem
      · exact absurd hmark (by decide)
      · exact absurd (hdigits _ hmem) (by decide)

namespace Parse

/-- The value of a numeral is not negative, and the parser bounds it. -/
theorem bounds_of_fits {token : Token} {after : List Char} {value : Int}
    (h : Fits token.kind token.literal.toList after)
    (hkind : token.kind = .int ∨ token.kind = .hex) (hvalue : integerValue? token = some value) :
    0 ≤ value ∧ value ≤ maxWord := by
  obtain ⟨hread, hbound⟩ := Option.filter_eq_some_iff.mp hvalue
  exact ⟨Text.Numeral.read?_nonneg (h.not_mem_minus hkind) hread, by simpa using hbound⟩

/-! ## Phrases -/

theorem subset_of_commas {pieces : List (List Token)} {tokens piece : List Token}
    (h : Commas pieces tokens) (hpiece : piece ∈ pieces) : piece ⊆ tokens := by
  induction h with
  | one tokens =>
      rw [List.mem_singleton.mp hpiece]
      exact List.Subset.refl _
  | more _ _ ih =>
      rcases List.mem_cons.mp hpiece with rfl | hlater
      · exact List.subset_append_left _ _
      · intro token hmem
        simp [ih hlater hmem]

theorem subset_of_listed {pieces : List (List Token)} {tokens piece : List Token}
    (h : Listed pieces tokens) (hpiece : piece ∈ pieces) : piece ⊆ tokens := by
  cases h with
  | empty => cases hpiece
  | some h => exact subset_of_commas h hpiece

theorem subset_yield {parts : List Part} {part : Part} (h : part ∈ parts) :
    part.tokens ⊆ yield parts :=
  fun _ htoken => List.mem_flatMap.mpr ⟨part, h, htoken⟩

section
variable {fits : Token → Prop} {property : Node → Prop} {parts : List Part}
  (h : ∀ part ∈ parts, (∀ token ∈ part.tokens, fits token) → property part.tree)
include h

/-- What each part has because of its tokens, all have whose tokens are among these. -/
theorem forall_trees_of_subset {tokens : List Token} (htokens : ∀ token ∈ tokens, fits token)
    (hsubset : ∀ part ∈ parts, part.tokens ⊆ tokens) : ∀ node ∈ trees parts, property node := by
  rw [trees, List.forall_mem_map]
  intro part hpart
  exact h part hpart fun token hmem => htokens token (hsubset part hpart hmem)

theorem forall_trees_of_yield (htokens : ∀ token ∈ yield parts, fits token) :
    ∀ node ∈ trees parts, property node :=
  forall_trees_of_subset h htokens fun _ => subset_yield

theorem forall_trees_of_listed {tokens : List Token} (htokens : ∀ token ∈ tokens, fits token)
    (hlisted : Listed (parts.map (·.tokens)) tokens) : ∀ node ∈ trees parts, property node :=
  forall_trees_of_subset h htokens fun part hpart =>
    subset_of_listed hlisted (List.mem_map.mpr ⟨part, hpart, rfl⟩)

end

/-- The program of a text without complaints is derived from its tokens. -/
theorem derives_program_of_isClean {text : String} (h : (source text).isClean) :
    ∃ tokens, tokens ⊆ Token.ofSource text ∧ Derives .program tokens (source text).program := by
  obtain ⟨ts, eof, htokens, heof, hts⟩ := Token.ofSource_eq_concat text
  rw [source, htokens] at h
  obtain ⟨parts, rfl, hstatements, hparts⟩ := exists_parts_of_isClean hts heof h
  refine ⟨yield parts, by simp [htokens], ?_⟩
  rw [Parsed.program, source, htokens, hstatements]
  exact .program hparts

end Parse

end Monkey
