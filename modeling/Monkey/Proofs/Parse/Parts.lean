import Monkey.Proofs.Parse.Literals
import Monkey.Proofs.Parts

/-!
# Phrases inside phrases

Each part of a tree that the grammar derives is absent or derived itself, from some of the tokens.
What the grammar grants to a single tree, given what its tokens are like, therefore holds everywhere
in the tree (`everywhere_of_derives`).
-/
namespace Monkey.Parse

/-- The tree is absent, or derived from some of these tokens. -/
def Within (tokens : List Token) (node : Node) : Prop :=
  node = .hole ∨ ∃ category inside, inside ⊆ tokens ∧ Derives category inside node

theorem Derives.within {category : Category} {inside tokens : List Token} {node : Node}
    (h : Derives category inside node) (hsubset : inside ⊆ tokens) : Within tokens node :=
  .inr ⟨category, inside, hsubset, h⟩

theorem within_of_mem_trees {category : Category} {parts : List Part} {tokens : List Token}
    (h : ∀ part ∈ parts, Derives category part.tokens part.tree)
    (hsubset : ∀ part ∈ parts, part.tokens ⊆ tokens) : ∀ node ∈ trees parts, Within tokens node := by
  rw [trees, List.forall_mem_map]
  exact fun part hpart => (h part hpart).within (hsubset part hpart)

/-- What is derived has parts that are absent or derived. -/
theorem Derives.parts {category : Category} {tokens : List Token} {node : Node}
    (h : Derives category tokens node) : ∀ part ∈ node.parts, Within tokens part := by
  induction h with
  | program hparts => exact within_of_mem_trees hparts fun _ => subset_yield
  | binding _ _ _ hvalue _ | returning _ hvalue _ =>
      rw [Node.parts, List.forall_mem_singleton]
      exact hvalue.within fun token hmem => by simp [hmem]
  | signedIncrement | incrementOfName | identifier | integer | text | truth | falsity =>
      exact List.forall_mem_nil _
  | switchOn _ hsubject _ hclauses _ =>
      refine List.forall_mem_cons.mpr ⟨hsubject.within fun token hmem => by simp [hmem], ?_⟩
      exact within_of_mem_trees hclauses fun part hpart token hmem => by
        simp [subset_yield hpart hmem]
  | switch _ _ hclauses _ =>
      refine List.forall_mem_cons.mpr ⟨.inl rfl, ?_⟩
      exact within_of_mem_trees hclauses fun part hpart token hmem => by
        simp [subset_yield hpart hmem]
  | expression hbody _ =>
      rw [Node.parts, List.forall_mem_singleton]
      exact hbody.within fun token hmem => by
        rw [← List.cons_append]
        exact List.mem_append_left _ hmem
  | block _ hparts _ =>
      exact within_of_mem_trees hparts fun part hpart token hmem => by
        simp [subset_yield hpart hmem]
  | clause _ hcondition _ hparts _ _ =>
      refine List.forall_mem_cons.mpr ⟨hcondition.within fun token hmem => by simp [hmem], ?_⟩
      exact within_of_mem_trees hparts fun part hpart token hmem => by
        simp [subset_yield hpart hmem]
  | unary _ hoperand =>
      rw [Node.parts, List.forall_mem_singleton]
      exact hoperand.within (List.subset_cons_self _ _)
  | binary hleft _ hright =>
      simp only [Node.parts, List.forall_mem_cons]
      exact ⟨hleft.within (by simp), hright.within fun token hmem => by simp [hmem], by simp⟩
  | group _ _ _ ih =>
      intro part hpart
      obtain rfl | ⟨category, inside, hsubset, hpart⟩ := ih part hpart
      · exact .inl rfl
      · exact hpart.within fun token hmem => by simp [hsubset hmem]
  | conditional _ _ hcondition _ hconsequence =>
      simp only [Node.parts, List.forall_mem_cons]
      refine ⟨hcondition.within fun token hmem => by simp [hmem],
        hconsequence.within fun token hmem => by simp [hmem], .inl rfl, by simp⟩
  | conditionalElse _ _ hcondition _ hconsequence _ halternative =>
      simp only [Node.parts, List.forall_mem_cons]
      refine ⟨hcondition.within fun token hmem => by simp [hmem],
        hconsequence.within fun token hmem => by simp [hmem],
        halternative.within fun token hmem => by simp [hmem], by simp⟩
  | loop _ _ hinit _ hcondition _ hpost _ hbody =>
      simp only [Node.parts, List.forall_mem_cons]
      refine ⟨hinit.within fun token hmem => ?_, hcondition.within fun token hmem => by simp [hmem],
        hpost.within fun token hmem => by simp [hmem],
        hbody.within fun token hmem => by simp [hmem], by simp⟩
      rcases List.mem_append.mp hmem with hmem | hmem
      · simp [hmem]
      · simp [List.mem_singleton.mp hmem]
  | function _ _ _ _ _ hbody =>
      rw [Node.parts, List.forall_mem_singleton]
      exact hbody.within fun token hmem => by simp [hmem]
  | call hcallee _ hitems hinside _ =>
      refine List.forall_mem_cons.mpr ⟨hcallee.within (by simp), ?_⟩
      exact within_of_mem_trees hitems fun part hpart token hmem => by
        simp [subset_of_listed hinside (List.mem_map_of_mem hpart) hmem]
  | array _ hitems hinside _ =>
      exact within_of_mem_trees hitems fun part hpart token hmem => by
        simp [subset_of_listed hinside (List.mem_map_of_mem hpart) hmem]
  | index hcollection _ hkey _ =>
      simp only [Node.parts, List.forall_mem_cons]
      exact ⟨hcollection.within (by simp), hkey.within fun token hmem => by simp [hmem], by simp⟩
  | hash _ hkeys _ hvalues hinside _ =>
      intro part hpart
      obtain ⟨_, hpair, hpart⟩ := List.mem_flatMap.mp hpart
      obtain ⟨entry, hentry, rfl⟩ := List.mem_map.mp hpair
      have hsubset := subset_of_listed hinside (List.mem_map_of_mem hentry)
      have hcases : part = entry.key.tree ∨ part = entry.value.tree := by
        simpa [Entry.trees] using hpart
      rcases hcases with rfl | rfl
      · exact (hkeys entry hentry).within fun token hmem => by
          simp [hsubset (show token ∈ entry.tokens by simp [Entry.tokens, hmem])]
      · exact (hvalues entry hentry).within fun token hmem => by
          simp [hsubset (show token ∈ entry.tokens by simp [Entry.tokens, hmem])]

/-- What every phrase of such tokens has, and an absent tree too, is found everywhere. -/
theorem everywhere_of_derives {property : Node → Prop} {fits : Token → Prop} (hhole : property .hole)
    (hphrase : ∀ {category tokens node}, Derives category tokens node →
      (∀ token ∈ tokens, fits token) → property node)
    {category : Category} {tokens : List Token} {node : Node} (h : Derives category tokens node)
    (htokens : ∀ token ∈ tokens, fits token) : node.Everywhere property := by
  induction node using Node.parts_induction generalizing category tokens with
  | h node ih =>
      refine .intro (hphrase h htokens) fun part hpart => ?_
      obtain rfl | ⟨category, inside, hsubset, hderives⟩ := h.parts part hpart
      · exact .intro hhole (List.forall_mem_nil _)
      · exact ih part hpart hderives fun token hmem => htokens token (hsubset hmem)

end Monkey.Parse
