import Monkey.Eval.Level

/-!
# Evaluation

Evaluation is bounded: in the depth of nodes and calls inside each other, and in the turns of one
loop. What ends within its bounds ends in the same way within any larger ones.
-/
namespace Monkey.Eval

structure Limits where
  depth : Nat
  turns : Nat
  deriving DecidableEq, Repr

/-- Evaluation down to a depth. -/
def eval (maxTurns : Nat) : Nat → Evaluator
  | 0 => fun _ _ world => ⟨none, world⟩
  | depth + 1 => fun scope node => (level maxTurns scope node).run (eval maxTurns depth)

/-- What an evaluation comes to, if it ends within its limits: a `return` outside a function has
its value, and an error is a value. -/
def Result.outcome (result : Result (Except Stop Value)) : Option Value :=
  result.value.map fun
    | .ok value => value
    | .error (.failed failure) => .error failure
    | .error (.returning value) => value

/-- Evaluates a node in a scope of a world. -/
def evaluate (limits : Limits) (scope : Nat) (node : Node) (world : World) :
    Option Value × World :=
  let result := eval limits.turns limits.depth scope node world
  (result.outcome, result.world)

/-- Calls a value from outside. -/
def applyTo (limits : Limits) (callee : Value) (arguments : List Value) (world : World) :
    Option Value × World :=
  let result := (apply callee arguments).run (eval limits.turns limits.depth) world
  (result.outcome, result.world)

end Monkey.Eval
