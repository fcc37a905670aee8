import Monkey.Proofs.Parse.Parts
import Monkey.Proofs.Token.Fragments

/-!
# Complete parses

A reader that complains of nothing leaves nothing out. The tree of a text without complaints is
complete: a child is absent only where the language lets it be, every operator is one that the
language has, and every node stands where its category is wanted (`complete_of_isClean`). Its
integers are the values of numerals, which have no sign (`numerals_of_isClean`).
-/
namespace Monkey

/-- If the node is an integer, a numeral can denote it. -/
def Node.IsNumeral : Node → Prop
  | integer _ value => 0 ≤ value ∧ value < 2 ^ 63
  | _ => True

namespace Parse

/-! ## Signs -/

theorem spelling_of_sign {sign : Token} {kinds : List Kind} (hsign : sign.Readable)
    (hkind : sign.kind ∈ kinds) (halike : ∀ kind ∈ kinds, kind ∉ variousKinds) :
    sign.literal = sign.kind.spelling :=
  Token.literal_eq (hsign.lexeme_eq_mark rfl (halike _ hkind))

theorem mem_unaryOperators {sign : Token} (hsign : sign.Readable) (hkind : sign.kind ∈ unaryKinds) :
    sign.literal ∈ unaryOperators := by
  have hspelling : ∀ kind ∈ unaryKinds, kind.spelling ∈ unaryOperators := by decide
  rw [spelling_of_sign hsign hkind (by decide)]
  exact hspelling _ hkind

theorem mem_binaryOperators {sign : Token} (hsign : sign.Readable)
    (hkind : sign.kind ∈ binaryKinds) : sign.literal ∈ binaryOperators := by
  have hspelling : ∀ kind ∈ binaryKinds, kind.spelling ∈ binaryOperators := by decide
  rw [spelling_of_sign hsign hkind (by decide)]
  exact hspelling _ hkind

/-! ## Trees -/

/-- A switch ends with a bracket, so a statement that ends with a semicolon is none. -/
theorem isSwitch_of_derives {tokens : List Token} {last : Token} {node : Node}
    (h : Derives .statement (tokens ++ [last]) node) (hlast : last.kind = .semicolon) :
    isSwitch node = false := by
  have hends : ∀ front closing, tokens ++ [last] = front ++ [closing] → closing.kind ≠ .rbrace := by
    intro front closing heq
    obtain rfl := List.singleton_inj.mp (List.append_inj' heq rfl).2
    simp [hlast]
  generalize tokens ++ [last] = all at h hends
  cases h with
  | @switchOn word opening closing subject value clauses _ _ _ _ hclosing =>
      have hnot := hends (word :: (subject ++ opening :: yield clauses)) closing (by simp)
      exact absurd hclosing hnot
  | @switch word opening closing clauses _ _ _ hclosing =>
      have hnot := hends (word :: opening :: yield clauses) closing (by simp)
      exact absurd hclosing hnot
  | _ => rfl

/-- What is derived from the tokens of a text is complete. -/
theorem complete_of_derives {category : Category} {tokens : List Token} {node : Node}
    (h : Derives category tokens node) (htokens : ∀ token ∈ tokens, token.Readable) :
    Complete category node := by
  induction h with
  | program _ ihs => exact .program (forall_trees_of_yield ihs htokens)
  | binding _ htarget _ _ _ ih =>
      simp only [List.forall_mem_cons, List.forall_mem_append] at htokens
      obtain ⟨_, hname, _, hvalue, _⟩ := htokens
      exact .binding (hname.isName htarget) (ih hvalue)
  | returning _ _ _ ih =>
      simp only [List.forall_mem_cons, List.forall_mem_append] at htokens
      exact .returning (ih htokens.2.1)
  | signedIncrement _ htarget _ => exact .increment ((htokens _ (by simp)).isName htarget)
  | incrementOfName htarget _ _ => exact .increment ((htokens _ (by simp)).isName htarget)
  | switchOn _ _ _ _ _ ih ihs =>
      simp only [List.forall_mem_cons, List.forall_mem_append] at htokens
      obtain ⟨_, hsubject, _, hclauses, _⟩ := htokens
      exact .switchOn (ih hsubject) (forall_trees_of_yield ihs hclauses)
  | switch _ _ _ _ ihs =>
      simp only [List.forall_mem_cons, List.forall_mem_append] at htokens
      obtain ⟨_, _, hclauses, _⟩ := htokens
      exact .switch (forall_trees_of_yield ihs hclauses)
  | expression _ _ ih =>
      rw [← List.cons_append, List.forall_mem_append] at htokens
      exact .expression (ih htokens.1)
  | block _ _ _ ihs =>
      simp only [List.forall_mem_cons, List.forall_mem_append] at htokens
      exact .block (forall_trees_of_yield ihs htokens.2.1)
  | clause _ _ _ _ _ _ ih ihs =>
      simp only [List.forall_mem_cons, List.forall_mem_append] at htokens
      obtain ⟨_, hcondition, _, hparts, _⟩ := htokens
      exact .clause (ih hcondition) (forall_trees_of_yield ihs hparts)
  | identifier hkind => exact .identifier ((htokens _ (by simp)).isName hkind)
  | integer hkind hvalue => exact .integer hkind hvalue
  | text => exact .text
  | truth => exact .boolean
  | falsity => exact .boolean
  | unary hsign _ ih =>
      obtain ⟨htoken, hoperand⟩ := List.forall_mem_cons.mp htokens
      exact .unary (mem_unaryOperators htoken hsign) (ih hoperand)
  | binary _ hsign _ ihl ihr =>
      simp only [List.forall_mem_cons, List.forall_mem_append] at htokens
      obtain ⟨hleft, htoken, hright⟩ := htokens
      exact .binary (ihl hleft) (mem_binaryOperators htoken hsign) (ihr hright)
  | group _ _ _ ih =>
      simp only [List.forall_mem_cons, List.forall_mem_append] at htokens
      exact ih htokens.2.1
  | conditional _ _ _ _ _ ih ihb =>
      simp only [List.forall_mem_cons, List.forall_mem_append] at htokens
      obtain ⟨_, _, hcondition, _, hconsequence⟩ := htokens
      exact .conditional (ih hcondition) (ihb hconsequence)
  | conditionalElse _ _ _ _ _ _ _ ih ihb ihe =>
      simp only [List.forall_mem_cons, List.forall_mem_append] at htokens
      obtain ⟨_, _, hcondition, _, hconsequence, _, halternative⟩ := htokens
      exact .conditionalElse (ih hcondition) (ihb hconsequence) (ihe halternative)
  | loop _ _ hinit hfirst _ _ _ _ _ ihi ihc ihp ihb =>
      simp only [List.forall_mem_cons, List.forall_mem_append] at htokens ihi
      obtain ⟨_, _, hstart, htoken, hcondition, _, hpost, _, hbody⟩ := htokens
      exact .loop (ihi ⟨hstart, htoken, List.forall_mem_nil _⟩) (isSwitch_of_derives hinit hfirst)
        (ihc hcondition) (ihp hpost) (ihb hbody)
  | function _ _ hnames hinside _ _ ih =>
      simp only [List.forall_mem_cons, List.forall_mem_append] at htokens
      obtain ⟨_, _, hlisted, _, hbody⟩ := htokens
      refine .function (List.forall_mem_map.mpr fun token hmem => ?_) (ih hbody)
      have hsubset := subset_of_listed hinside (List.mem_map_of_mem hmem)
      exact (hlisted token (hsubset (List.mem_singleton_self _))).isName (hnames token hmem)
  | call _ _ _ hinside _ ih ihs =>
      simp only [List.forall_mem_cons, List.forall_mem_append] at htokens
      obtain ⟨hcallee, _, hitems, _⟩ := htokens
      exact .call (ih hcallee) (forall_trees_of_listed ihs hitems hinside)
  | array _ _ hinside _ ihs =>
      simp only [List.forall_mem_cons, List.forall_mem_append] at htokens
      exact .array (forall_trees_of_listed ihs htokens.2.1 hinside)
  | index _ _ _ _ ihl ihr =>
      simp only [List.forall_mem_cons, List.forall_mem_append] at htokens
      obtain ⟨hcollection, _, hkey, _⟩ := htokens
      exact .index (ihl hcollection) (ihr hkey)
  | @hash _ _ _ entries _ _ _ _ hinside _ ihk ihv =>
      simp only [List.forall_mem_cons, List.forall_mem_append] at htokens
      have hinner : ∀ entry ∈ entries, ∀ token ∈ entry.tokens, token.Readable := by
        intro entry hentry token hmem
        exact htokens.2.1 token (subset_of_listed hinside (List.mem_map_of_mem hentry) hmem)
      simp only [Entry.tokens, List.forall_mem_append, List.forall_mem_cons] at hinner
      refine .hash (List.forall_mem_map.mpr fun entry hentry => ?_)
        (List.forall_mem_map.mpr fun entry hentry => ?_)
      · exact ihk entry hentry (hinner entry hentry).1
      · exact ihv entry hentry (hinner entry hentry).2.2

theorem isNumeral_of_derives {category : Category} {tokens : List Token} {node : Node}
    (h : Derives category tokens node) (htokens : ∀ token ∈ tokens, token.Readable) :
    node.IsNumeral := by
  induction h with
  | integer hkind hvalue =>
      obtain ⟨_, hfits⟩ := htokens _ (List.mem_singleton_self _)
      obtain ⟨hlow, hhigh⟩ := bounds_of_fits hfits hkind hvalue
      exact ⟨hlow, Int.lt_of_le_of_lt hhigh (by decide)⟩
  | group _ _ _ ih => exact ih fun token hmem => htokens token (by simp [hmem])
  | _ => trivial

/-! ## Texts -/

/-- The program of a text without complaints is derived from tokens that can be read. -/
theorem exists_readable_of_isClean {text : String} (h : (source text).isClean) :
    ∃ tokens, (∀ token ∈ tokens, token.Readable) ∧
      Derives .program tokens (source text).program := by
  obtain ⟨tokens, hsubset, hderives⟩ := derives_program_of_isClean h
  refine ⟨tokens, fun token hmem => ?_, hderives⟩
  exact Token.readable_of_mem (hsubset hmem) (kind_ne_of_derives hderives hmem).1

theorem complete_of_isClean {text : String} (h : (source text).isClean) :
    Complete .program (source text).program := by
  obtain ⟨tokens, hreadable, hderives⟩ := exists_readable_of_isClean h
  exact complete_of_derives hderives hreadable

theorem numerals_of_isClean {text : String} (h : (source text).isClean) :
    (source text).program.Everywhere Node.IsNumeral := by
  obtain ⟨tokens, hreadable, hderives⟩ := exists_readable_of_isClean h
  exact everywhere_of_derives trivial isNumeral_of_derives hderives hreadable

end Parse

end Monkey
