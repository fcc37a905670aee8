import Monkey.Proofs.Eval.Obedience

/-!
# What a call does, step by step

A call evaluates its operands, opens a scope, binds the parameters in it and evaluates the body of
the function there; a builtin evaluates nothing. The visits of a call are told apart by the step
that opens the scope.
-/
namespace Monkey.Eval

open Monkey.Eval.Action

/-! ## Single steps -/

/-- The value that returns as a result. -/
def Result.caught (result : Result (Except Stop Value)) : Result (Except Stop Value) :=
  match result with
  | ⟨some (.error (.returning value)), after⟩ => ⟨some (.ok value), after⟩
  | result => result

theorem Result.caught_ne_returning (result : Result (Except Stop Value)) (value : Value)
    (after : World) : result.caught ≠ ⟨some (.error (.returning value)), after⟩ := by
  rcases result with ⟨_ | ⟨_ | _⟩ | _, _⟩ <;> simp [caught]

section
variable {inner : Evaluator} {world : World} {before : List Event} {visit : Visit}

theorem run_evaluate (scope : Nat) (node : Node) :
    (Action.evaluate scope node).run inner world = inner scope node world := by
  rcases hresult : inner scope node world with ⟨_ | reply, after⟩
  · exact Script.run_evaluate_none hresult
  · exact Script.run_evaluate_some hresult

theorem run_catchReturn (action : Action Value) :
    (Action.catchReturn action).run inner world = (action.run inner world).caught := by
  refine (Script.run_bind ..).trans ?_
  rw [Action.run]
  rcases action.script.run inner world with ⟨_ | ⟨_ | _⟩ | _, _⟩ <;> rfl

theorem arrives_catchReturn {action : Action Value}
    (h : (Action.catchReturn action).script.Arrives inner world before visit) :
    action.script.Arrives inner world before visit := by
  obtain hinside | ⟨reply, _, _, _, _, hlater⟩ := h.of_bind
  · exact hinside
  · rcases reply with ⟨_ | _⟩ | _ <;> cases hlater

theorem arrives_evaluate {scope : Nat} {node : Node}
    (h : (Action.evaluate scope node).script.Arrives inner world before visit) :
    visit = ⟨scope, node, world⟩ ∧ before = [] := by
  cases h with
  | here => exact ⟨rfl, rfl⟩
  | evaluated _ hlater => cases hlater

theorem events_evaluate (scope : Nat) (node : Node) :
    (Action.evaluate scope node).script.events inner world =
      [.evaluated scope node (inner scope node world)] := by
  rcases hresult : inner scope node world with ⟨_ | reply, after⟩
  · exact Script.events_evaluate_none hresult
  · exact Script.events_evaluate_some hresult

end

/-! ## Operands -/

/-- The step that opens a scope. -/
def Event.opens : Event → Bool
  | .performed (.enclose _) => true
  | _ => false

section
variable {α β : Type} {inner : Evaluator}

/-- No step of the action opens a scope. -/
def OpensNone (inner : Evaluator) (action : Action α) : Prop :=
  ∀ world, (action.script.events inner world).any Event.opens = false

theorem opensNone_evaluate (scope : Nat) (node : Node) :
    OpensNone inner (Action.evaluate scope node) := by
  intro world
  rw [events_evaluate]
  rfl

theorem OpensNone.bind {action : Action α} {next : α → Action β} (h : OpensNone inner action)
    (hnext : ∀ value, OpensNone inner (next value)) : OpensNone inner (action >>= next) := by
  intro world
  refine (congrArg (·.any Event.opens) (Script.events_bind ..)).trans ?_
  rw [List.any_append, h world, Bool.false_or]
  rcases action.script.run inner world with ⟨_ | stop | value, after⟩
  · rfl
  · rfl
  · exact hnext value after

theorem opensNone_values (scope : Nat) (nodes : List Node) :
    OpensNone inner (values scope nodes) := by
  induction nodes with
  | nil => exact fun _ => rfl
  | cons node rest ih =>
      apply (opensNone_evaluate scope node).bind
      exact fun value => ih.bind fun _ _ => rfl

/-- A call looks at its operands before it opens a scope. -/
theorem opensNone_operands (scope : Nat) (callee : Node) (arguments : List Node) :
    OpensNone inner (operands scope callee arguments) := by
  apply (opensNone_evaluate scope callee).bind
  exact fun function => (opensNone_values scope arguments).bind fun _ _ => rfl

end

/-! ## The function -/

/-- The world in which the body of a function begins: the scope of the call is new, and its
parameters are bound in it. -/
def entered (world : World) (home : Nat) (parameters : List Name) (arguments : List Value) :
    World :=
  (parameters.zip arguments).foldl
    (fun bound pair => bound.set world.scopes.size pair.1.text pair.2) (world.enclose home).2

/-- The rules that ask nothing of values but that they are no errors. -/
abbrev Rules.plain (tree : Node → Prop) (returns catches : Prop) : Rules :=
  .over (fun _ => True) tree returns catches

/-- The mandate to do everything but evaluate. -/
abbrev Mandate.idle : Mandate :=
  (Rules.plain (fun _ => False) False False).mandate

section
variable {α : Type} {inner : Evaluator} {world : World} {before : List Event} {visit : Visit}

/-- A script that has no tree to evaluate comes to no visit. -/
theorem Follows.not_arrives {post : Hand → α → Prop} {script : Script (Except Stop α)}
    {hand : Hand} (h : Follows .idle post script hand) :
    ¬ script.Arrives inner world before visit := by
  intro harrives
  induction h generalizing world before with
  | done | returning | failed | exhausted => cases harrives
  | @raise hand fault next _ hnext =>
      cases harrives with
      | @performed _ _ _ before _ hlater =>
          have hafter : (next (world.freshFailure fault).1).Arrives inner
              (world.freshFailure fault).2 before visit := hlater
          rw [hnext] at hafter
          cases hafter
  | perform _ _ ih =>
      cases harrives with
      | performed hlater => exact ih _ (Operation.gives_perform _ world) hlater
  | evaluate _ htree => exact htree
  | guard hcatches => exact hcatches

/-- What idles neither returns nor catches. -/
theorem Follows.obeys_plain {post : Hand → α → Prop} {script : Script (Except Stop α)}
    {hand : Hand} (h : Follows .idle post script hand) :
    Obeys (.plain (fun _ => False) False False) (fun _ => True) script :=
  h.obeys (hereditary_true.sound False.elim) ⟨fun _ _ => trivial, fun _ _ => ⟨trivial, trivial⟩⟩
    fun _ _ _ _ => trivial

theorem run_bindAll (scope : Nat) (pairs : List (Name × Value)) (world : World) :
    (bindAll scope pairs).run inner world =
      ⟨some (.ok ()),
        pairs.foldl (fun bound pair => bound.set scope pair.1.text pair.2) world⟩ := by
  induction pairs generalizing world with
  | nil => rfl
  | cons pair rest ih => exact ih _

section
variable (stamp : Nat) (parameters : List Name) (body : Node) (home : Nat) (arguments : List Value)

/-- A function is called by evaluating its body in the world that is entered. -/
theorem run_apply_function :
    (apply (.function stamp parameters body home) arguments).run inner world =
      (inner world.scopes.size body (entered world home parameters arguments)).caught := by
  have hbind : (apply (.function stamp parameters body home) arguments).run inner world =
      (bindAll world.scopes.size (parameters.zip arguments) >>= fun _ =>
        catchReturn (Action.evaluate world.scopes.size body)).run inner
          (world.enclose home).2 := rfl
  rw [hbind, bind_of_ok (run_bindAll ..), run_catchReturn, run_evaluate]
  rfl

/-- The one visit of a call to a function is its body, and nothing follows it. -/
theorem arrives_apply_function
    (h : (apply (.function stamp parameters body home) arguments).script.Arrives inner world before
      visit) :
    visit = ⟨world.scopes.size, body, entered world home parameters arguments⟩ ∧
      before.any Event.opens ∧
      (apply (.function stamp parameters body home) arguments).script.events inner world =
        before ++ [visit.event inner] := by
  have hopened : (Script.perform (.enclose home) fun own =>
      (bindAll own (parameters.zip arguments) >>= fun _ =>
        catchReturn (Action.evaluate own body)).script).Arrives inner world before visit := h
  cases hopened with
  | @performed _ _ _ before _ hbound =>
      have hrun : (bindAll world.scopes.size (parameters.zip arguments)).run inner
          (world.enclose home).2 = ⟨some (.ok ()), entered world home parameters arguments⟩ :=
        run_bindAll ..
      obtain hbinding | ⟨reply, after, more, hbinds, rfl, hbody⟩ := hbound.of_bind
      · have hfollows : Follows .idle (fun _ _ => True)
            (bindAll world.scopes.size (parameters.zip arguments)).script .full :=
          bindAll_follows trivial fun _ _ => .held trivial
        exact absurd hbinding hfollows.not_arrives
      · cases hrun.symm.trans hbinds
        obtain ⟨rfl, rfl⟩ := arrives_evaluate (arrives_catchReturn hbody)
        refine ⟨rfl, by simp [Event.opens], ?_⟩
        have hevents := events_bind_of_ok hrun fun _ =>
          catchReturn (Action.evaluate world.scopes.size body)
        rw [events_catchReturn, events_evaluate] at hevents
        rw [List.append_nil]
        exact congrArg (_ :: ·) hevents

end

/-- What is no function is called without evaluating anything. -/
theorem apply_idle {callee : Value} {arguments : List Value}
    (hcallee : ∀ stamp parameters body home, callee ≠ .function stamp parameters body home) :
    Follows .idle Mandate.idle.Carries (apply callee arguments).script .full := by
  cases callee with
  | function stamp parameters body home => exact absurd rfl (hcallee stamp parameters body home)
  | builtin builtin =>
      exact callBuiltin_follows (fun _ _ => trivial) (fun _ _ => trivial) trivial builtin
  | _ => exact .fail trivial

/-- A visit of a call is one of its operands, or the body of the function. -/
theorem arrives_call {scope : Nat} {callee : Node} {arguments : List Node}
    (h : (call scope callee arguments).script.Arrives inner world before visit) :
    (operands scope callee arguments).script.Arrives inner world before visit ∨
      ∃ found middle more, (operands scope callee arguments).run inner world =
          ⟨some (.ok found), middle⟩ ∧
        before = (operands scope callee arguments).script.events inner world ++ more ∧
        (apply found.1 found.2).script.Arrives inner middle more visit := by
  rw [call_eq] at h
  obtain hoperand | ⟨reply, middle, more, hrun, hbefore, hlater⟩ := h.of_bind
  · exact .inl hoperand
  · cases reply with
    | error stop => cases hlater
    | ok found => exact .inr ⟨found, middle, more, hrun, hbefore, hlater⟩

end

end Monkey.Eval
