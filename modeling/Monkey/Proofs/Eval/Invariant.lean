import Monkey.Proofs.Eval.History
import Monkey.Proofs.Eval.Kept

/-!
# Invariants that depend on the world

A contract and rules have one notion of a good value for all worlds. Here it may depend on the
world, as for a function whose scope must be there: the value is good from the world on in which it
was made, and stays so as the world grows. It may also depend on how the world came about, which
the world does not tell. An evaluation upholds an invariant if each of its operations is allowed in
the state that it finds. Then the invariant holds between any two operations, those of inner
evaluations included.
-/
namespace Monkey.Eval

structure Invariant where
  /-- What is known between two operations: the world, and perhaps more. -/
  State : Type := World
  world : State → World := by exact id
  /-- What is known behind an operation. -/
  step : Operation → State → State := by exact fun operation world => (operation.perform world).2
  world_step : ∀ operation state,
    world (step operation state) = (operation.perform (world state)).2 := by exact fun _ _ => rfl
  /-- Holds between any two operations. -/
  holds : State → Prop
  /-- What values are like that are on their way. -/
  good : State → Value → Prop

namespace Invariant

/-- The number of scopes that are there. -/
def size (invariant : Invariant) (state : invariant.State) : Nat :=
  (invariant.world state).scopes.size

/-- What is known behind operations. -/
def replay (invariant : Invariant) (operations : List Operation) (state : invariant.State) :
    invariant.State :=
  operations.foldl (fun state operation => invariant.step operation state) state

/-- The operations that are allowed in a state: those in scopes that are there, and with good
values. -/
def May (invariant : Invariant) (state : invariant.State) : Operation → Prop
  | .enclose outer => outer < invariant.size state
  | .look scope _ => scope < invariant.size state
  | .set scope _ value => scope < invariant.size state ∧ invariant.good state value
  | .assign scope _ value => scope < invariant.size state ∧ invariant.good state value
  | .write _ => True
  | .newArray elements => ∀ value ∈ elements, invariant.good state value
  | .newHash entries => ∀ entry ∈ entries, invariant.good state entry.2
  | .newFunction _ _ scope => scope < invariant.size state
  | .raise _ => True

/-- Operations that are allowed one after another. -/
def Permits (invariant : Invariant) : List Operation → invariant.State → Prop
  | [], _ => True
  | operation :: rest, state =>
      invariant.May state operation ∧ invariant.Permits rest (invariant.step operation state)

/-- A state further on: it has all the scopes of the one before, and what was good still is. -/
structure Later (invariant : Invariant) (before after : invariant.State) : Prop where
  holds : invariant.holds after
  size : invariant.size before ≤ invariant.size after
  good : ∀ value, invariant.good before value → invariant.good after value

/-- What an evaluation may come back with. -/
def Brings (invariant : Invariant) (state : invariant.State) : Except Stop Value → Prop
  | .ok value => invariant.good state value
  | .error (.returning value) => invariant.good state value
  | .error (.failed _) => True

/-- What an invariant must be like to be upheld: allowed operations keep it and all that is good,
and what the language makes of good values is good. -/
structure Lawful (invariant : Invariant) : Prop where
  keeps : ∀ state operation, invariant.holds state → invariant.May state operation →
    invariant.holds (invariant.step operation state)
  stays : ∀ state operation value, invariant.holds state → invariant.May state operation →
    invariant.good state value → invariant.good (invariant.step operation state) value
  gives : ∀ state operation, invariant.holds state → invariant.May state operation →
    ∀ value ∈ operation.given (operation.perform (invariant.world state)).1,
      invariant.good (invariant.step operation state) value
  null : ∀ state, invariant.good state .null
  integer : ∀ state value, invariant.good state (.integer value)
  boolean : ∀ state value, invariant.good state (.boolean value)
  string : ∀ state value, invariant.good state (.string value)
  function : ∀ state stamp parameters body home,
    invariant.good state (.function stamp parameters body home) → home < invariant.size state
  elements : ∀ state stamp elements, invariant.good state (.array stamp elements) →
    ∀ value ∈ elements, invariant.good state value
  unary : ∀ state operator operand value, Value.unary operator operand = .ok value →
    invariant.good state value
  binary : ∀ state operator left right value, invariant.good state left →
    Value.binary operator left right = .ok value → invariant.good state value
  index : ∀ state collection key value, invariant.good state collection →
    Value.index collection key = .ok value → invariant.good state value

variable {invariant : Invariant} {state middle after : invariant.State}

theorem size_step (operation : Operation) (state : invariant.State) :
    invariant.size (invariant.step operation state) =
      (operation.perform (invariant.world state)).2.scopes.size := by
  rw [size, invariant.world_step]

/-- A scope that was opened is there. -/
theorem lt_size_of_opens (invariant : Invariant) {operation : Operation} {state : invariant.State}
    {scope : Nat} (h : operation.Opens (operation.perform (invariant.world state)).1 scope) :
    scope < invariant.size (invariant.step operation state) := by
  rw [size_step]
  cases operation with
  | enclose outer =>
      have hsize := World.size_enclose (invariant.world state) outer
      obtain rfl : scope = (invariant.world state).scopes.size := h
      simp only [Operation.perform]
      omega
  | _ => exact h.elim

theorem world_replay (operations : List Operation) (state : invariant.State) :
    invariant.world (invariant.replay operations state) =
      Eval.replay operations (invariant.world state) := by
  induction operations generalizing state with
  | nil => rfl
  | cons operation rest ih =>
      have hrest := ih (invariant.step operation state)
      rw [invariant.world_step] at hrest
      exact hrest

theorem replay_append (first second : List Operation) (state : invariant.State) :
    invariant.replay (first ++ second) state =
      invariant.replay second (invariant.replay first state) :=
  List.foldl_append

namespace Later

theorem refl (h : invariant.holds state) : invariant.Later state state :=
  ⟨h, Nat.le_refl _, fun _ hvalue => hvalue⟩

theorem trans (h : invariant.Later state middle) (h' : invariant.Later middle after) :
    invariant.Later state after :=
  ⟨h'.holds, Nat.le_trans h.size h'.size, fun value hvalue => h'.good value (h.good value hvalue)⟩

theorem scope (h : invariant.Later state after) {scope : Nat}
    (hscope : scope < invariant.size state) : scope < invariant.size after :=
  Nat.lt_of_lt_of_le hscope h.size

end Later

theorem Lawful.later (hlawful : invariant.Lawful) (hstate : invariant.holds state)
    {operation : Operation} (hmay : invariant.May state operation) :
    invariant.Later state (invariant.step operation state) where
  holds := hlawful.keeps state operation hstate hmay
  size := by
    rw [size_step]
    exact size_le_perform operation (invariant.world state)
  good value := hlawful.stays state operation value hstate hmay

section
variable {first second operations : List Operation}

theorem permits_append :
    invariant.Permits (first ++ second) state ↔
      invariant.Permits first state ∧
        invariant.Permits second (invariant.replay first state) := by
  induction first generalizing state with
  | nil => simp [Permits, replay]
  | cons operation rest ih => simp [Permits, replay, ih, and_assoc]

theorem Permits.front {before : List Operation} (h : invariant.Permits operations state)
    (hbefore : before <+: operations) : invariant.Permits before state := by
  obtain ⟨later, rfl⟩ := hbefore
  exact (permits_append.mp h).1

theorem Permits.take (h : invariant.Permits operations state) (count : Nat) :
    invariant.Permits (operations.take count) state :=
  h.front (List.take_prefix count operations)

/-- Allowed operations lead to a later state. -/
theorem Permits.later (h : invariant.Permits operations state) (hlawful : invariant.Lawful)
    (hstate : invariant.holds state) :
    invariant.Later state (invariant.replay operations state) := by
  induction operations generalizing state with
  | nil => exact .refl hstate
  | cons operation rest ih =>
      have hstep := hlawful.later hstate h.1
      exact hstep.trans (ih h.2 hstep.holds)

end

end Invariant

/-! ## Scripts -/

/-- The script upholds the invariant from this state on, and its values satisfy `post` in the state
behind it. Evaluations are taken to lead to a later state and to bring what is good there. -/
inductive Upholds (invariant : Invariant) (post : invariant.State → α → Prop) :
    Script (Except Stop α) → invariant.State → Prop where
  | done {state : invariant.State} {value : α} (hvalue : post state value) :
      Upholds invariant post (.done (.ok value)) state
  | failed {state : invariant.State} {failure : Failure} :
      Upholds invariant post (.done (.error (.failed failure))) state
  | returning {state : invariant.State} {value : Value} (hvalue : invariant.good state value) :
      Upholds invariant post (.done (.error (.returning value))) state
  | exhausted {state : invariant.State} : Upholds invariant post .exhausted state
  | perform {state : invariant.State} {operation : Operation}
      {next : operation.Reply → Script (Except Stop α)} (hmay : invariant.May state operation)
      (hnext : Upholds invariant post (next (operation.perform (invariant.world state)).1)
        (invariant.step operation state)) :
      Upholds invariant post (.perform operation next) state
  | evaluate {state : invariant.State} {scope : Nat} {node : Node}
      {next : Except Stop Value → Script (Except Stop α)} (hscope : scope < invariant.size state)
      (hnext : ∀ reply after, invariant.Later state after → invariant.Brings after reply →
        Upholds invariant post (next reply) after) :
      Upholds invariant post (.evaluate scope node next) state

/-! ## Runs -/

/-- A run does what is allowed only, and what it comes to is good in the state behind it. -/
structure Passes (invariant : Invariant) (post : invariant.State → α → Prop)
    (state : invariant.State) (operations : List Operation) (result : Result (Except Stop α)) :
    Prop where
  permits : invariant.Permits operations state
  world : result.world = replay operations (invariant.world state)
  done : ∀ value, result.value = some (.ok value) → post (invariant.replay operations state) value
  returned : ∀ value, result.value = some (.error (.returning value)) →
    invariant.good (invariant.replay operations state) value

section
variable {α : Type} {invariant : Invariant} {post : invariant.State → α → Prop} {inner : Evaluator}
  {doings : Nat → Node → World → List Operation} {script : Script (Except Stop α)}
  {state : invariant.State}

/-- What an evaluation comes to is good, whether it returned or not, if errors are. -/
theorem Passes.good_of_outcome {operations : List Operation} {result : Result (Except Stop Value)}
    (h : Passes invariant invariant.good state operations result)
    (herror : ∀ failure, invariant.good (invariant.replay operations state) (.error failure))
    {value : Value} (hvalue : result.outcome = some value) :
    invariant.good (invariant.replay operations state) value := by
  obtain ⟨reply, hreply, rfl⟩ := Option.map_eq_some_iff.mp hvalue
  rcases reply with ⟨failure | found⟩ | found
  · exact herror failure
  · exact h.returned found hreply
  · exact h.done found hreply

section
variable {operations : List Operation} {after : World}

theorem Passes.world_replay {value : Option (Except Stop α)}
    (h : Passes invariant post state operations ⟨value, after⟩) :
    invariant.world (invariant.replay operations state) = after := by
  rw [Invariant.world_replay]
  exact h.world.symm

theorem Passes.brings {reply : Except Stop Value}
    (h : Passes invariant invariant.good state operations ⟨some reply, after⟩) :
    invariant.Brings (invariant.replay operations state) reply := by
  rcases reply with ⟨failure | value⟩ | value
  · trivial
  · exact h.returned value rfl
  · exact h.done value rfl

end

/-- A script that upholds an invariant passes if the evaluations inside it do. -/
theorem Upholds.passes (h : Upholds invariant post script state) (hlawful : invariant.Lawful)
    (hstate : invariant.holds state)
    (hinner : ∀ scope node state, invariant.holds state → scope < invariant.size state →
      Passes invariant invariant.good state (doings scope node (invariant.world state))
        (inner scope node (invariant.world state))) :
    Passes invariant post state (script.operations inner doings (invariant.world state))
      (script.run inner (invariant.world state)) := by
  induction h with
  | done hvalue =>
      refine ⟨trivial, rfl, ?_, nofun⟩
      rintro value ⟨⟩
      exact hvalue
  | failed => exact ⟨trivial, rfl, nofun, nofun⟩
  | returning hvalue =>
      refine ⟨trivial, rfl, nofun, ?_⟩
      rintro value ⟨⟩
      exact hvalue
  | exhausted => exact ⟨trivial, rfl, nofun, nofun⟩
  | @perform state operation next hmay _ ih =>
      have hrest := ih (hlawful.later hstate hmay).holds
      rw [invariant.world_step] at hrest
      have hworld := hrest.world
      rw [invariant.world_step] at hworld
      exact ⟨⟨hmay, hrest.permits⟩, hworld, hrest.done, hrest.returned⟩
  | @evaluate state scope node next hscope _ ih =>
      have hhead := hinner scope node state hstate hscope
      have hlater := hhead.permits.later hlawful hstate
      rcases hresult : inner scope node (invariant.world state) with ⟨_ | reply, after⟩
      · rw [hresult] at hhead
        rw [Script.run_evaluate_none hresult, Script.operations_evaluate_none hresult]
        exact ⟨hhead.permits, hhead.world, nofun, nofun⟩
      · rw [hresult] at hhead
        rw [Script.run_evaluate_some hresult, Script.operations_evaluate_some hresult]
        generalize doings scope node (invariant.world state) = operations at hhead hlater
        have hrest := ih reply _ hlater hhead.brings hlater.holds
        rw [hhead.world_replay] at hrest
        constructor
        · exact Invariant.permits_append.mpr ⟨hhead.permits, hrest.permits⟩
        · rw [replay_append, ← Invariant.world_replay operations]
          exact hrest.world
        · rw [Invariant.replay_append]
          exact hrest.done
        · rw [Invariant.replay_append]
          exact hrest.returned

end

end Monkey.Eval
