import Monkey.World

/-!
# Scripts

A script says step by step what an evaluation does: operations on the world, each with its reply,
and evaluations of nodes inside the node at hand, which come back with a value or with the reason
why they stopped. Running a script performs its steps; what the inner evaluations do is up to an
evaluator.
-/
namespace Monkey.Eval

/-- One step on the world. -/
inductive Operation where
  /-- Opens a scope inside another. -/
  | enclose (outer : Nat)
  | look (scope : Nat) (name : String)
  | set (scope : Nat) (name : String) (value : Value)
  | assign (scope : Nat) (name : String) (value : Value)
  | write (text : String)
  | newArray (elements : List Value)
  | newHash (entries : List (Key × Value))
  | newFunction (parameters : List Name) (body : Node) (scope : Nat)
  /-- Makes an error. -/
  | raise (fault : Fault)

namespace Operation

/-- What an operation comes back with. -/
def Reply : Operation → Type
  | enclose _ => Nat
  | look .. => Option Value
  | set .. => Unit
  | assign .. => Bool
  | write _ => Unit
  | newArray _ => Value
  | newHash _ => Value
  | newFunction .. => Value
  | raise _ => Failure

def perform : (operation : Operation) → World → operation.Reply × World
  | enclose outer, world => world.enclose outer
  | look scope name, world => (world.get? scope name, world)
  | set scope name value, world => ((), world.set scope name value)
  | assign scope name value, world => world.assign scope name value
  | write text, world => ((), world.write text)
  | newArray elements, world => world.freshArray elements
  | newHash entries, world => world.freshHash entries
  | newFunction parameters body scope, world => world.freshFunction parameters body scope
  | raise fault, world => world.freshFailure fault

end Operation

/-- Why an evaluation stopped without a value: an error, or a value that a `return` carries out of
its function. -/
inductive Stop where
  | failed (failure : Failure)
  | returning (value : Value)

inductive Script (α : Type) where
  | done (value : α)
  /-- Evaluation went on for too long. -/
  | exhausted
  | perform (operation : Operation) (next : operation.Reply → Script α)
  | evaluate (scope : Nat) (node : Node) (next : Except Stop Value → Script α)

namespace Script

def bind : Script α → (α → Script β) → Script β
  | done value, next => next value
  | exhausted, _ => exhausted
  | perform operation more, next => perform operation fun reply => (more reply).bind next
  | evaluate scope node more, next => evaluate scope node fun reply => (more reply).bind next

instance : Monad Script where
  pure := done
  bind := bind

theorem bind_done (script : Script α) : script.bind done = script := by
  induction script with
  | done | exhausted => rfl
  | perform operation more ih => simp [bind, ih]
  | evaluate scope node more ih => simp [bind, ih]

theorem bind_assoc (script : Script α) (next : α → Script β) (last : β → Script γ) :
    (script.bind next).bind last = script.bind fun value => (next value).bind last := by
  induction script with
  | done | exhausted => rfl
  | perform operation more ih => simp [bind, ih]
  | evaluate scope node more ih => simp [bind, ih]

instance : LawfulMonad Script :=
  LawfulMonad.mk' Script bind_done (fun _ _ => rfl) bind_assoc

end Script

/-- What running a script comes to: a value, unless it took too long, and the world behind it. -/
structure Result (α : Type) where
  value : Option α
  world : World

/-- Evaluates a node in a scope. -/
abbrev Evaluator := Nat → Node → World → Result (Except Stop Value)

namespace Script

def run (inner : Evaluator) : Script α → World → Result α
  | done value, world => ⟨some value, world⟩
  | exhausted, world => ⟨none, world⟩
  | perform operation next, world =>
      let performed := operation.perform world
      (next performed.1).run inner performed.2
  | evaluate scope node next, world =>
      match inner scope node world with
      | ⟨some reply, after⟩ => (next reply).run inner after
      | ⟨none, after⟩ => ⟨none, after⟩

variable {inner : Evaluator} {scope : Nat} {node : Node} {world after : World}
  {next : Except Stop Value → Script α}

theorem run_evaluate_some {reply : Except Stop Value}
    (h : inner scope node world = ⟨some reply, after⟩) :
    (evaluate scope node next).run inner world = (next reply).run inner after := by
  simp [run, h]

theorem run_evaluate_none (h : inner scope node world = ⟨none, after⟩) :
    (evaluate scope node next).run inner world = ⟨none, after⟩ := by
  simp [run, h]

end Script

end Monkey.Eval
