import Monkey.Proofs.Eval.Upkeep
import Monkey.Proofs.Eval.Visits

/-!
# Where inner evaluations begin

An evaluation inside another begins behind some of the operations of that one, and all its own
operations follow. The scope it takes place in is there by then. So what a lawful invariant says of
an evaluation, it says of every evaluation inside it.
-/
namespace Monkey.Eval

/-- Behind these operations the visit can begin: its scope is there. -/
structure Invariant.Begins (invariant : Invariant) (state : invariant.State)
    (before : List Operation) (visit : Visit) : Prop where
  world : invariant.world (invariant.replay before state) = visit.world
  scope : visit.scope < invariant.size (invariant.replay before state)

section
variable {α : Type} {invariant : Invariant} {post : invariant.State → α → Prop} {inner : Evaluator}
  {doings : Nat → Node → World → List Operation} {script : Script (Except Stop α)}
  {state : invariant.State}

theorem Upholds.exists_begins (h : Upholds invariant post script state) (hlawful : invariant.Lawful)
    (hstate : invariant.holds state)
    (hinner : ∀ scope node state, invariant.holds state → scope < invariant.size state →
      Passes invariant invariant.good state (doings scope node (invariant.world state))
        (inner scope node (invariant.world state)))
    {part : Visit} (hpart : part ∈ script.visits inner (invariant.world state)) :
    ∃ before, invariant.Begins state before part ∧
      before ++ doings part.scope part.node part.world <+:
        script.operations inner doings (invariant.world state) := by
  induction h with
  | done | failed | returning | exhausted => cases hpart
  | @perform state operation next hmay _ ih =>
      rw [invariant.world_step] at ih
      obtain ⟨before, hbegins, hrest⟩ := ih (hlawful.later hstate hmay).holds hpart
      exact ⟨operation :: before, ⟨hbegins.world, hbegins.scope⟩,
        List.cons_prefix_cons.mpr ⟨rfl, hrest⟩⟩
  | @evaluate state scope node next hscope _ ih =>
      have hhead := hinner scope node state hstate hscope
      rcases hresult : inner scope node (invariant.world state) with ⟨_ | reply, after⟩
      · obtain rfl : part = ⟨scope, node, invariant.world state⟩ := by
          simpa [Script.visits, hresult] using hpart
        refine ⟨[], ⟨rfl, hscope⟩, ?_⟩
        rw [Script.operations_evaluate_none hresult]
        exact List.prefix_rfl
      · rw [Script.visits_evaluate_some hresult] at hpart
        rw [Script.operations_evaluate_some hresult]
        rcases List.mem_cons.mp hpart with rfl | hlater
        · exact ⟨[], ⟨rfl, hscope⟩, List.prefix_append _ _⟩
        · rw [hresult] at hhead
          generalize doings scope node (invariant.world state) = operations at hhead
          have hfurther := hhead.permits.later hlawful hstate
          have hnext := ih reply _ hfurther hhead.brings hfurther.holds
          rw [hhead.world_replay] at hnext
          obtain ⟨before, hbegins, hrest⟩ := hnext hlater
          refine ⟨operations ++ before, ⟨?_, ?_⟩, ?_⟩
          · rw [Invariant.replay_append]
            exact hbegins.world
          · rw [Invariant.replay_append]
            exact hbegins.scope
          · rw [List.append_assoc]
            exact (List.prefix_append_right_inj operations).mpr hrest

end

/-- Every evaluation inside an evaluation begins behind some of its operations, and goes on with its
own. -/
theorem exists_begins_of_mem_visits {invariant : Invariant} (hlawful : invariant.Lawful)
    {maxTurns depth scope : Nat} {node : Node} {state : invariant.State}
    (hstate : invariant.holds state) (hscope : scope < invariant.size state)
    {entry : Nat × Visit}
    (hentry : entry ∈ visits maxTurns depth ⟨scope, node, invariant.world state⟩) :
    ∃ before, invariant.Begins state before entry.2 ∧
      before ++ history maxTurns entry.1 entry.2.scope entry.2.node entry.2.world <+:
        history maxTurns depth scope node (invariant.world state) := by
  induction depth generalizing scope node state with
  | zero =>
      obtain rfl : entry = (0, ⟨scope, node, invariant.world state⟩) := by
        simpa [visits] using hentry
      exact ⟨[], ⟨rfl, hscope⟩, List.prefix_rfl⟩
  | succ depth ih =>
      rcases List.mem_cons.mp hentry with rfl | hinside
      · exact ⟨[], ⟨rfl, hscope⟩, List.prefix_rfl⟩
      · obtain ⟨part, hpart, hentry⟩ := List.mem_flatMap.mp hinside
        have hupholds := level_upholds hlawful hstate hscope maxTurns node
        have hinner : ∀ scope node state, invariant.holds state → scope < invariant.size state →
            Passes invariant invariant.good state
              (history maxTurns depth scope node (invariant.world state))
              (eval maxTurns depth scope node (invariant.world state)) :=
          fun _ node _ hholds hinside => eval_passes hlawful maxTurns depth node hholds hinside
        obtain ⟨before, hbegins, hfirst⟩ := hupholds.exists_begins hlawful hstate hinner hpart
        have hpermits := (hupholds.passes hlawful hstate hinner).permits
        have hearly := hpermits.front ((List.prefix_append _ _).trans hfirst)
        have hmiddle := hearly.later hlawful hstate
        -- the visits of the part begin where it does, behind `before`, and go on from there
        obtain ⟨inside, body, _⟩ := part
        obtain ⟨rfl, hthere⟩ := hbegins
        obtain ⟨more, hlast, hmore⟩ := ih hmiddle.holds hthere hentry
        refine ⟨before ++ more, ⟨?_, ?_⟩, ?_⟩
        · rw [Invariant.replay_append]
          exact hlast.world
        · rw [Invariant.replay_append]
          exact hlast.scope
        · rw [List.append_assoc]
          exact ((List.prefix_append_right_inj before).mpr hmore).trans hfirst

end Monkey.Eval
