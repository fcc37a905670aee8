import Monkey.Eval.Script

/-!
# Actions

An action is a script that is done with a result or stops: with an error, or with a value on its
way out of a function. A stopped action ends every action it is part of.
-/
namespace Monkey.Eval

structure Action (α : Type) where
  script : Script (Except Stop α)

namespace Action

def pure (value : α) : Action α := ⟨.done (.ok value)⟩

def bind (action : Action α) (next : α → Action β) : Action β :=
  ⟨action.script.bind fun
    | .ok value => (next value).script
    | .error stop => .done (.error stop)⟩

instance : Monad Action where
  pure := Action.pure
  bind := Action.bind

theorem map_id (action : Action α) : id <$> action = action := by
  have hdone : (fun
      | .ok value => (Action.pure (id value)).script
      | .error stop => .done (.error stop) : Except Stop α → Script (Except Stop α)) = .done := by
    funext reply
    cases reply <;> rfl
  exact congrArg Action.mk ((congrArg action.script.bind hdone).trans (Script.bind_done _))

theorem bind_assoc (action : Action α) (next : α → Action β) (last : β → Action γ) :
    action >>= next >>= last = action >>= fun a => next a >>= last := by
  show (⟨(action.script.bind _).bind _⟩ : Action γ) = ⟨action.script.bind _⟩
  rw [Script.bind_assoc]
  congr 2
  funext reply
  cases reply <;> rfl

instance : LawfulMonad Action :=
  LawfulMonad.mk' Action map_id (fun _ _ => rfl) bind_assoc

def run (inner : Evaluator) (action : Action α) (world : World) : Result (Except Stop α) :=
  action.script.run inner world

def stop (reason : Stop) : Action α := ⟨.done (.error reason)⟩

def exhausted : Action α := ⟨.exhausted⟩

def perform (operation : Operation) : Action operation.Reply :=
  ⟨.perform operation fun reply => .done (.ok reply)⟩

def evaluate (scope : Nat) (node : Node) : Action Value :=
  ⟨.evaluate scope node .done⟩

/-- Stops with a new error. -/
def fail (fault : Fault) : Action α := do
  let failure ← perform (.raise fault)
  stop (.failed failure)

/-- Is done with a value, or stops if the value is an error. -/
def yield : Value → Action Value
  | .error failure => stop (.failed failure)
  | value => return value

def ofExcept : Except Fault Value → Action Value
  | .ok value => yield value
  | .error fault => fail fault

/-- The boundary of a function or a program: a value on its way out is the result. -/
def catchReturn (action : Action Value) : Action Value :=
  ⟨action.script.bind fun
    | .error (.returning value) => .done (.ok value)
    | reply => .done reply⟩

end Action

end Monkey.Eval
