import Monkey.Eval.Run

/-!
# What an evaluation does, in order

The events of a script are its own steps: operations, and evaluations with their results. The
history of an evaluation lists all operations, those of the evaluations inside it included. It is
complete: performing it again on the world at the start gives the world at the end.
-/
namespace Monkey.Eval

inductive Event where
  | performed (operation : Operation)
  | evaluated (scope : Nat) (node : Node) (result : Result (Except Stop Value))

namespace Script

def events (inner : Evaluator) : Script α → World → List Event
  | done _, _ => []
  | exhausted, _ => []
  | perform operation next, world =>
      .performed operation ::
        (next (operation.perform world).1).events inner (operation.perform world).2
  | evaluate scope node next, world =>
      .evaluated scope node (inner scope node world) ::
        match inner scope node world with
        | ⟨some reply, after⟩ => (next reply).events inner after
        | ⟨none, _⟩ => []

/-- All operations of a run, where `doings` lists those of an inner evaluation. -/
def operations (inner : Evaluator) (doings : Nat → Node → World → List Operation) :
    Script α → World → List Operation
  | done _, _ => []
  | exhausted, _ => []
  | perform operation next, world =>
      operation ::
        (next (operation.perform world).1).operations inner doings (operation.perform world).2
  | evaluate scope node next, world =>
      doings scope node world ++
        match inner scope node world with
        | ⟨some reply, after⟩ => (next reply).operations inner doings after
        | ⟨none, _⟩ => []

section
variable {inner : Evaluator} {doings : Nat → Node → World → List Operation} {scope : Nat}
  {node : Node} {world after : World} {next : Except Stop Value → Script α}

theorem events_evaluate_some {reply : Except Stop Value}
    (h : inner scope node world = ⟨some reply, after⟩) :
    (evaluate scope node next).events inner world =
      .evaluated scope node ⟨some reply, after⟩ :: (next reply).events inner after := by
  simp [events, h]

theorem events_evaluate_none (h : inner scope node world = ⟨none, after⟩) :
    (evaluate scope node next).events inner world = [.evaluated scope node ⟨none, after⟩] := by
  simp [events, h]

/-- To make an error, if that is all that is done with it, is one event. -/
theorem events_raise {fault : Fault} {fate : Failure → Script α} {last : Failure → α}
    (h : ∀ failure, fate failure = done (last failure)) :
    (perform (.raise fault) fate).events inner world = [.performed (.raise fault)] := by
  show .performed (.raise fault) :: (fate (world.freshFailure fault).1).events inner _ = _
  rw [h]
  rfl

theorem operations_evaluate_some {reply : Except Stop Value}
    (h : inner scope node world = ⟨some reply, after⟩) :
    (evaluate scope node next).operations inner doings world =
      doings scope node world ++ (next reply).operations inner doings after := by
  simp [operations, h]

theorem operations_evaluate_none (h : inner scope node world = ⟨none, after⟩) :
    (evaluate scope node next).operations inner doings world = doings scope node world := by
  simp [operations, h]

end

end Script

/-- The operations of an evaluation. -/
def history (maxTurns : Nat) : Nat → Nat → Node → World → List Operation
  | 0 => fun _ _ _ => []
  | depth + 1 => fun scope node =>
      (level maxTurns scope node).script.operations (eval maxTurns depth) (history maxTurns depth)

/-- Performs operations one after another. -/
def replay (operations : List Operation) (world : World) : World :=
  operations.foldl (fun world operation => (operation.perform world).2) world

theorem replay_append (first second : List Operation) (world : World) :
    replay (first ++ second) world = replay second (replay first world) :=
  List.foldl_append

theorem run_world_eq_replay {inner : Evaluator} {doings : Nat → Node → World → List Operation}
    (hinner : ∀ scope node world,
      (inner scope node world).world = replay (doings scope node world) world)
    (script : Script α) (world : World) :
    (script.run inner world).world = replay (script.operations inner doings world) world := by
  induction script generalizing world with
  | done | exhausted => rfl
  | perform operation next ih => exact ih _ _
  | evaluate scope node next ih =>
      have hworld := hinner scope node world
      rcases hresult : inner scope node world with ⟨_ | reply, after⟩
      · rw [hresult] at hworld
        rw [Script.run_evaluate_none hresult, Script.operations_evaluate_none hresult]
        exact hworld
      · rw [hresult] at hworld
        rw [Script.run_evaluate_some hresult, Script.operations_evaluate_some hresult,
          replay_append, ← hworld]
        exact ih reply after

/-- The history of an evaluation is all it does to the world. -/
theorem eval_world_eq_replay (maxTurns depth scope : Nat) (node : Node) (world : World) :
    (eval maxTurns depth scope node world).world =
      replay (history maxTurns depth scope node world) world := by
  induction depth generalizing scope node world with
  | zero => rfl
  | succ depth ih => exact run_world_eq_replay ih _ world

/-! ## One script after another -/

/-- A run of two scripts one after the other. -/
theorem Script.run_bind (inner : Evaluator) (script : Script α) (next : α → Script β)
    (world : World) :
    (script.bind next).run inner world =
      match script.run inner world with
      | ⟨some value, after⟩ => (next value).run inner after
      | ⟨none, after⟩ => ⟨none, after⟩ := by
  induction script generalizing world with
  | done | exhausted => rfl
  | perform operation more ih => exact ih _ _
  | evaluate scope node more ih =>
      rcases hresult : inner scope node world with ⟨_ | reply, after⟩
      · rw [bind, run_evaluate_none hresult, run_evaluate_none hresult]
      · rw [bind, run_evaluate_some hresult, run_evaluate_some hresult]
        exact ih reply after

/-- The events of two scripts one after the other. -/
theorem Script.events_bind (inner : Evaluator) (script : Script α) (next : α → Script β)
    (world : World) :
    (script.bind next).events inner world =
      script.events inner world ++
        match script.run inner world with
        | ⟨some value, after⟩ => (next value).events inner after
        | ⟨none, _⟩ => [] := by
  induction script generalizing world with
  | done | exhausted => rfl
  | perform operation more ih => exact congrArg (_ :: ·) (ih _ _)
  | evaluate scope node more ih =>
      rcases hresult : inner scope node world with ⟨_ | reply, after⟩
      · rw [bind, events_evaluate_none hresult, events_evaluate_none hresult,
          run_evaluate_none hresult]
        rfl
      · rw [bind, events_evaluate_some hresult, events_evaluate_some hresult,
          run_evaluate_some hresult, ih]
        rfl

/-- All operations of two scripts one after the other. -/
theorem Script.operations_bind (inner : Evaluator) (doings : Nat → Node → World → List Operation)
    (script : Script α) (next : α → Script β) (world : World) :
    (script.bind next).operations inner doings world =
      script.operations inner doings world ++
        match script.run inner world with
        | ⟨some value, after⟩ => (next value).operations inner doings after
        | ⟨none, _⟩ => [] := by
  induction script generalizing world with
  | done | exhausted => rfl
  | perform operation more ih => exact congrArg (_ :: ·) (ih _ _)
  | evaluate scope node more ih =>
      rcases hresult : inner scope node world with ⟨_ | reply, after⟩
      · rw [bind, operations_evaluate_none hresult, operations_evaluate_none hresult,
          run_evaluate_none hresult, List.append_nil]
      · rw [bind, operations_evaluate_some hresult, operations_evaluate_some hresult,
          run_evaluate_some hresult, ih, List.append_assoc]

section
variable {inner : Evaluator} {world after : World}

theorem events_catchReturn (action : Action Value) :
    (Action.catchReturn action).script.events inner world = action.script.events inner world := by
  refine (Script.events_bind ..).trans ?_
  rcases action.script.run inner world with ⟨_ | ⟨_ | _⟩ | _, _⟩ <;>
    exact List.append_nil _

/-- A stop is the end of what comes behind it too. -/
theorem bind_of_stop {action : Action α} {stop : Stop}
    (h : action.run inner world = ⟨some (.error stop), after⟩) (next : α → Action β) :
    (action >>= next).run inner world = ⟨some (.error stop), after⟩ ∧
      (action >>= next).script.events inner world = action.script.events inner world := by
  rw [Action.run] at h
  constructor
  · refine (Script.run_bind ..).trans ?_
    rw [h]
    rfl
  · refine (Script.events_bind ..).trans ?_
    rw [h]
    exact List.append_nil _

theorem bind_of_none {action : Action α} (h : action.run inner world = ⟨none, after⟩)
    (next : α → Action β) : (action >>= next).run inner world = ⟨none, after⟩ := by
  rw [Action.run] at h
  refine (Script.run_bind ..).trans ?_
  rw [h]

theorem bind_of_ok {action : Action α} {value : α}
    (h : action.run inner world = ⟨some (.ok value), after⟩) (next : α → Action β) :
    (action >>= next).run inner world = (next value).run inner after := by
  rw [Action.run] at h
  refine (Script.run_bind ..).trans ?_
  rw [h]
  rfl

/-- What comes to a value came to one in its first part. -/
theorem exists_of_bind_ok {action : Action α} {next : α → Action β} {value : β}
    (h : (action >>= next).run inner world = ⟨some (.ok value), after⟩) :
    ∃ found middle, action.run inner world = ⟨some (.ok found), middle⟩ ∧
      (next found).run inner middle = ⟨some (.ok value), after⟩ := by
  rcases hfirst : action.run inner world with ⟨_ | stop | found, middle⟩
  · cases h.symm.trans (bind_of_none hfirst next)
  · cases h.symm.trans (bind_of_stop hfirst next).1
  · exact ⟨found, middle, rfl, (bind_of_ok hfirst next).symm.trans h⟩

theorem operations_bind_of_ok {doings : Nat → Node → World → List Operation} {action : Action α}
    {value : α} (h : action.run inner world = ⟨some (.ok value), after⟩)
    (next : α → Action β) :
    (action >>= next).script.operations inner doings world =
      action.script.operations inner doings world ++
        (next value).script.operations inner doings after := by
  rw [Action.run] at h
  refine (Script.operations_bind ..).trans ?_
  rw [h]

theorem events_bind_of_ok {action : Action α} {value : α}
    (h : action.run inner world = ⟨some (.ok value), after⟩) (next : α → Action β) :
    (action >>= next).script.events inner world =
      action.script.events inner world ++ (next value).script.events inner after := by
  rw [Action.run] at h
  refine (Script.events_bind ..).trans ?_
  rw [h]

end

end Monkey.Eval
