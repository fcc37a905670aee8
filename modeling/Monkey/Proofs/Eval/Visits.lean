import Monkey.Proofs.Eval.History

/-!
# Evaluations inside evaluations

A visit is the evaluation of a node in a scope of a world. `Script.Arrives` says which visits the
run of a script comes to and which events lie before them, and `Visit.Leads` does so for the script
of a node. `visits` lists a visit and all visits inside it, to any depth.
-/
namespace Monkey.Eval

structure Visit where
  scope : Nat
  node : Node
  world : World

/-- What a visit comes to under an evaluator. -/
def Visit.under (inner : Evaluator) (visit : Visit) : Result (Except Stop Value) :=
  inner visit.scope visit.node visit.world

/-- The visit as it is recorded among the events of a script. -/
def Visit.event (inner : Evaluator) (visit : Visit) : Event :=
  .evaluated visit.scope visit.node (visit.under inner)

namespace Script

/-- Running the script comes to the visit behind these events. -/
inductive Arrives (inner : Evaluator) : Script α → World → List Event → Visit → Prop where
  | here {scope : Nat} {node : Node} {next : Except Stop Value → Script α} {world : World} :
      Arrives inner (.evaluate scope node next) world [] ⟨scope, node, world⟩
  | performed {operation : Operation} {next : operation.Reply → Script α} {world : World}
      {before : List Event} {visit : Visit}
      (h : Arrives inner (next (operation.perform world).1) (operation.perform world).2 before
        visit) :
      Arrives inner (.perform operation next) world (.performed operation :: before) visit
  | evaluated {scope : Nat} {node : Node} {next : Except Stop Value → Script α}
      {world after : World} {reply : Except Stop Value} {before : List Event} {visit : Visit}
      (hresult : inner scope node world = ⟨some reply, after⟩)
      (h : Arrives inner (next reply) after before visit) :
      Arrives inner (.evaluate scope node next) world
        (.evaluated scope node ⟨some reply, after⟩ :: before) visit

/-- The visits of a run in their order. -/
def visits (inner : Evaluator) : Script α → World → List Visit
  | done _, _ => []
  | exhausted, _ => []
  | perform operation next, world =>
      (next (operation.perform world).1).visits inner (operation.perform world).2
  | evaluate scope node next, world =>
      ⟨scope, node, world⟩ ::
        match inner scope node world with
        | ⟨some reply, after⟩ => (next reply).visits inner after
        | ⟨none, _⟩ => []

variable {inner : Evaluator} {before later : List Event} {visit : Visit}

theorem visits_evaluate_some {scope : Nat} {node : Node} {next : Except Stop Value → Script α}
    {world after : World} {reply : Except Stop Value}
    (h : inner scope node world = ⟨some reply, after⟩) :
    (evaluate scope node next).visits inner world =
      ⟨scope, node, world⟩ :: (next reply).visits inner after := by
  simp [visits, h]

/-- Every evaluation among the events is a visit. -/
theorem exists_arrives {script : Script α} {world : World} {scope : Nat} {node : Node}
    {result : Result (Except Stop Value)}
    (h : script.events inner world = before ++ .evaluated scope node result :: later) :
    ∃ start, script.Arrives inner world before ⟨scope, node, start⟩ ∧
      inner scope node start = result := by
  induction script generalizing world before with
  | done | exhausted => simp [events] at h
  | perform operation next ih =>
      cases before with
      | nil => simp [events] at h
      | cons first before =>
          obtain ⟨hfirst, hrest⟩ := List.cons.inj h
          obtain ⟨start, harrives, hstart⟩ := ih _ hrest
          exact ⟨start, hfirst ▸ .performed harrives, hstart⟩
  | evaluate inside part next ih =>
      cases before with
      | nil =>
          rw [events, List.nil_append] at h
          obtain ⟨rfl, rfl, rfl⟩ := Event.evaluated.inj (List.cons.inj h).1
          exact ⟨world, .here, rfl⟩
      | cons first before =>
          rcases hresult : inner inside part world with ⟨_ | reply, after⟩
          · rw [events_evaluate_none hresult] at h
            simp at h
          · rw [events_evaluate_some hresult] at h
            obtain ⟨hfirst, hrest⟩ := List.cons.inj h
            obtain ⟨start, harrives, hstart⟩ := ih reply hrest
            exact ⟨start, hfirst ▸ .evaluated hresult harrives, hstart⟩

/-- What follows a script does not change its visits. -/
theorem Arrives.bind {script : Script α} {world : World}
    (h : script.Arrives inner world before visit) (next : α → Script β) :
    (script.bind next).Arrives inner world before visit := by
  induction h with
  | here => exact .here
  | performed _ ih => exact .performed ih
  | evaluated hresult _ ih => exact .evaluated hresult ih

/-- A visit of two scripts, one after the other, is one of the first or, behind all its events, one
of the second. -/
theorem Arrives.of_bind {script : Script α} {next : α → Script β} {world : World}
    (h : (script.bind next).Arrives inner world before visit) :
    script.Arrives inner world before visit ∨
      ∃ value after more, script.run inner world = ⟨some value, after⟩ ∧
        before = script.events inner world ++ more ∧
        (next value).Arrives inner after more visit := by
  induction script generalizing world before with
  | done value => exact .inr ⟨value, world, before, rfl, rfl, h⟩
  | exhausted => cases h
  | perform operation more ih =>
      cases h with
      | performed h =>
          obtain hfirst | ⟨value, after, others, hrun, rfl, hsecond⟩ := ih _ h
          · exact .inl (.performed hfirst)
          · exact .inr ⟨value, after, others, hrun, rfl, hsecond⟩
  | evaluate scope node more ih =>
      cases h with
      | here => exact .inl .here
      | evaluated hresult h =>
          obtain hfirst | ⟨value, after, others, hrun, rfl, hsecond⟩ := ih _ h
          · exact .inl (.evaluated hresult hfirst)
          · refine .inr ⟨value, after, others, ?_, ?_, hsecond⟩
            · rwa [run_evaluate_some hresult]
            · rw [events_evaluate_some hresult]
              rfl

theorem Arrives.mem_visits {script : Script α} {world : World}
    (h : script.Arrives inner world before visit) : visit ∈ script.visits inner world := by
  induction h with
  | here =>
      rw [visits]
      exact List.mem_cons_self
  | performed _ ih => exact ih
  | evaluated hresult _ ih =>
      rw [visits_evaluate_some hresult]
      exact List.mem_cons_of_mem _ ih

/-- A script comes to its visits before those of what follows it. -/
theorem visits_subset_bind (script : Script α) (next : α → Script β) (world : World) :
    script.visits inner world ⊆ (script.bind next).visits inner world := by
  induction script generalizing world with
  | done | exhausted => exact List.nil_subset _
  | perform operation more ih => exact ih _ _
  | evaluate scope node more ih =>
      rcases hresult : inner scope node world with ⟨_ | reply, after⟩
      · simp [bind, visits, hresult]
      · rw [bind, visits_evaluate_some hresult, visits_evaluate_some hresult]
        exact List.cons_subset_cons _ (ih reply after)

end Script

/-- Evaluated one level above `depth`, the first visit comes to the second behind these events. -/
def Visit.Leads (maxTurns depth : Nat) (visit : Visit) (before : List Event) (part : Visit) :
    Prop :=
  (level maxTurns visit.scope visit.node).script.Arrives (eval maxTurns depth) visit.world before
    part

/-- A visit down to a depth and all visits inside it, each with its own depth, in the order in which
they begin. -/
def visits (maxTurns : Nat) : Nat → Visit → List (Nat × Visit)
  | 0, visit => [(0, visit)]
  | depth + 1, visit =>
      (depth + 1, visit) ::
        ((level maxTurns visit.scope visit.node).script.visits (eval maxTurns depth)
          visit.world).flatMap (visits maxTurns depth)

theorem mem_visits_self (maxTurns depth : Nat) (visit : Visit) :
    (depth, visit) ∈ visits maxTurns depth visit := by
  cases depth <;> simp [visits]

theorem visits_subset_of_mem {maxTurns depth : Nat} {visit part : Visit}
    (h : part ∈ (level maxTurns visit.scope visit.node).script.visits (eval maxTurns depth)
      visit.world) :
    visits maxTurns depth part ⊆ visits maxTurns (depth + 1) visit :=
  fun _ hentry => List.mem_cons_of_mem _ (List.mem_flatMap.mpr ⟨part, h, hentry⟩)

/-- The visits inside a visit that is inside another are inside that one too. -/
theorem visits_subset {maxTurns depth : Nat} {visit : Visit} {entry : Nat × Visit}
    (h : entry ∈ visits maxTurns depth visit) :
    visits maxTurns entry.1 entry.2 ⊆ visits maxTurns depth visit := by
  induction depth generalizing visit with
  | zero =>
      obtain rfl : entry = (0, visit) := by simpa [visits] using h
      exact List.Subset.refl _
  | succ depth ih =>
      rcases List.mem_cons.mp h with rfl | hinside
      · exact List.Subset.refl _
      · obtain ⟨part, hpart, hentry⟩ := List.mem_flatMap.mp hinside
        exact List.Subset.trans (ih hentry) (visits_subset_of_mem hpart)

end Monkey.Eval
