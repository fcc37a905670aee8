import Monkey.Proofs.Eval.Obedience

/-!
# Good values throughout an evaluation

If lawful rules hold at the start of an evaluation, good values are all there is on the way: in
every world it passes through, in all that it writes and puts together, as operands of its calls,
and as what it comes to. That is so for every evaluation inside it as well.
-/
namespace Monkey.Eval

open Monkey.Eval.Action

/-- The evaluation of a visit has to do with good values only. -/
structure Throughout (good : Value → Prop) (maxTurns depth : Nat) (visit : Visit) : Prop where
  /-- The world between any two of its operations, those of inner evaluations included. -/
  worlds : ∀ count, Holds good
    (replay ((history maxTurns depth visit.scope visit.node visit.world).take count) visit.world)
  operations : ∀ operation ∈ history maxTurns depth visit.scope visit.node visit.world,
    operation.Bears good
  done : ∀ value, (visit.under (eval maxTurns depth)).value = some (.ok value) → good value
  returned : ∀ value,
    (visit.under (eval maxTurns depth)).value = some (.error (.returning value)) → good value
  /-- A callee and the arguments it is called with. -/
  called : ∀ below token callee arguments function given after, depth = below + 1 →
    visit.node = .call token callee arguments →
    (operands visit.scope callee arguments).run (eval maxTurns below) visit.world =
      ⟨some (.ok (function, given)), after⟩ →
    good function ∧ ∀ value ∈ given, good value

theorem Holds.replay {good : Value → Prop} {world : World} (h : Holds good world)
    {operations : List Operation} (hbears : ∀ operation ∈ operations, operation.Bears good) :
    Holds good (replay operations world) := by
  induction operations generalizing world with
  | nil => exact h
  | cons operation rest ih =>
      obtain ⟨hfirst, hrest⟩ := List.forall_mem_cons.mp hbears
      exact ih (h.perform hfirst) hrest

/-- What the rules have to be told of a visit, as it does not follow from them. -/
structure Rules.Grants (rules : Rules) (maxTurns depth : Nat) (visit : Visit) : Prop where
  value : ∀ value, (visit.under (eval maxTurns depth)).value = some (.ok value) → rules.brief value
  count : ∀ token callee arguments, visit.node = .call token callee arguments →
    rules.good (.integer arguments.length)

/-- A visit and those inside it go from good values to good values. -/
structure Abides (rules : Rules) (maxTurns depth : Nat) (visit : Visit) : Prop where
  ends : rules.Ends rules.Brings (visit.under (eval maxTurns depth))
  visits : ∀ entry ∈ visits maxTurns depth visit,
    Holds rules.good entry.2.world ∧ rules.tree entry.2.node
  operations : ∀ operation ∈ history maxTurns depth visit.scope visit.node visit.world,
    operation.Bears rules.good

section
variable {rules : Rules} {maxTurns depth : Nat} {visit : Visit} (hlawful : rules.Lawful)
  (hreturns : rules.returns) (hcatches : rules.catches)
include hlawful hreturns hcatches

/-- An evaluation abides by lawful rules that everything inside it is granted to. -/
theorem abides_of_grants (hworld : Holds rules.good visit.world) (htree : rules.tree visit.node)
    (hgrants : ∀ entry ∈ visits maxTurns depth visit, rules.Grants maxTurns entry.1 entry.2) :
    Abides rules maxTurns depth visit := by
  induction depth generalizing visit with
  | zero =>
      refine ⟨⟨hworld, nofun, nofun⟩, ?_, nofun⟩
      simpa [visits] using ⟨hworld, htree⟩
  | succ depth ih =>
      have hself := hgrants _ (mem_visits_self maxTurns (depth + 1) visit)
      have hinside : ∀ part ∈ (level maxTurns visit.scope visit.node).script.visits
          (eval maxTurns depth) visit.world, Holds rules.good part.world → rules.tree part.node →
          Abides rules maxTurns depth part := by
        intro part hpart hholds hnode
        exact ih hholds hnode fun entry hentry => hgrants entry (visits_subset_of_mem hpart hentry)
      have hconforms : Conforms rules rules.Carries (eval maxTurns depth) (history maxTurns depth)
          (level maxTurns visit.scope visit.node).script visit.world := by
        have hobeys := level_obeys hlawful htree hself.count (fun _ _ _ => hreturns)
          (fun _ => hcatches) maxTurns visit.scope
        apply hobeys.conforms hlawful.builtin hworld
        intro part hpart hholds hnode
        have habides := hinside part hpart hholds hnode
        exact ⟨habides.ends, habides.operations⟩
      have hends := hconforms.ends
      constructor
      · exact ⟨hends.world, fun value hvalue => ⟨hends.done value hvalue, hself.value value hvalue⟩,
          hends.returned⟩
      · intro entry hentry
        rcases List.mem_cons.mp hentry with rfl | hlater
        · exact ⟨hworld, htree⟩
        · obtain ⟨part, hpart, hmem⟩ := List.mem_flatMap.mp hlater
          obtain ⟨hholds, hnode⟩ := hconforms.visits part hpart
          exact (hinside part hpart hholds hnode).visits entry hmem
      · exact hconforms.operations

/-- The callee and the arguments of a call are what the visits of its parts come to. -/
theorem good_operands {token : Token} {callee : Node} {arguments : List Node} {function : Value}
    {given : List Value} {after : World} (hworld : Holds rules.good visit.world)
    (htree : rules.tree visit.node)
    (hgrants : ∀ entry ∈ visits maxTurns (depth + 1) visit, rules.Grants maxTurns entry.1 entry.2)
    (hnode : visit.node = .call token callee arguments)
    (hrun : (operands visit.scope callee arguments).run (eval maxTurns depth) visit.world =
      ⟨some (.ok (function, given)), after⟩) :
    rules.good function ∧ ∀ value ∈ given, rules.good value := by
  have hsubset : (operands visit.scope callee arguments).script.visits (eval maxTurns depth)
      visit.world ⊆ (level maxTurns visit.scope visit.node).script.visits (eval maxTurns depth)
        visit.world := by
    rw [hnode, level, call_eq]
    exact Script.visits_subset_bind _ _ _
  have htrees : ∀ part ∈ callee :: arguments, rules.tree part := by
    have hparts := hlawful.evaluated visit.node htree
    rwa [hnode] at hparts
  have hinner : ∀ part ∈ (operands visit.scope callee arguments).script.visits
      (eval maxTurns depth) visit.world, Holds rules.good part.world → rules.tree part.node →
      rules.Ends rules.Brings (part.under (eval maxTurns depth)) ∧
        ∀ operation ∈ history maxTurns depth part.scope part.node part.world,
          operation.Bears rules.good := by
    intro part hpart hholds htreePart
    have habides := abides_of_grants hlawful hreturns hcatches hholds htreePart
      fun entry hentry => hgrants entry (visits_subset_of_mem (hsubset hpart) hentry)
    exact ⟨habides.ends, habides.operations⟩
  have hconforms :=
    (operands_obeys hlawful.sound visit.scope htrees).conforms hlawful.builtin hworld hinner
  have hfound := hconforms.ends.done (function, given) (by rw [← Action.run, hrun])
  exact ⟨hfound.1.1.1, fun value hmem => (hfound.2.2 value hmem).1.1⟩

/-- Where everything inside an evaluation is granted to lawful rules, good values are all that it
and the evaluations inside it have to do with. -/
theorem throughout_of_grants (hworld : Holds rules.good visit.world) (htree : rules.tree visit.node)
    (hgrants : ∀ entry ∈ visits maxTurns depth visit, rules.Grants maxTurns entry.1 entry.2) :
    ∀ entry ∈ visits maxTurns depth visit, Throughout rules.good maxTurns entry.1 entry.2 := by
  intro entry hentry
  obtain ⟨hholds, hnode⟩ :=
    (abides_of_grants hlawful hreturns hcatches hworld htree hgrants).visits entry hentry
  have hinside : ∀ other ∈ visits maxTurns entry.1 entry.2,
      rules.Grants maxTurns other.1 other.2 :=
    fun other hother => hgrants other (visits_subset hentry hother)
  have habides := abides_of_grants hlawful hreturns hcatches hholds hnode hinside
  refine ⟨fun count => ?_, habides.operations, ?_, ?_, ?_⟩
  · apply hholds.replay
    exact fun operation hmem => habides.operations operation (List.mem_of_mem_take hmem)
  · exact fun value hvalue => (habides.ends.done value hvalue).1.1
  · exact fun value hvalue => (habides.ends.returned value hvalue).1.1
  · intro below token callee arguments function given after hdepth hcall hrun
    rw [hdepth] at hinside
    exact good_operands hlawful hreturns hcatches hholds hnode hinside hcall hrun

end

end Monkey.Eval
