import Monkey.Eval.Builtin
import Monkey.Value.Operator

/-!
# One level of evaluation

Each construct evaluates its parts in their order and ends where one of them stops. A block shares
the scope around it; loops and calls open a scope of their own.
-/
namespace Monkey.Eval

open Monkey.Eval.Action

/-- Statements in order; the last value counts. -/
def statements (scope : Nat) (last : Value) : List Node → Action Value
  | [] => return last
  | node :: rest => do
      let value ← evaluate scope node
      statements scope value rest

/-- Statements after statements go on with the last value. -/
theorem statements_append (scope : Nat) (last : Value) (first second : List Node) :
    statements scope last (first ++ second) =
      statements scope last first >>= fun value => statements scope value second := by
  induction first generalizing last with
  | nil => simp [statements]
  | cons node rest ih => simp [statements, ih]

/-- Expressions from left to right. -/
def values (scope : Nat) : List Node → Action (List Value)
  | [] => return []
  | node :: rest => do
      let value ← evaluate scope node
      let more ← values scope rest
      return value :: more

/-- The entries of a hash, added to those before them. A key is checked before its value is
evaluated. -/
def entries (scope : Nat) (before : List (Key × Value)) :
    List (Node × Node) → Action (List (Key × Value))
  | [] => return before
  | (keyNode, valueNode) :: rest => do
      let keyValue ← evaluate scope keyNode
      match keyValue.key? with
      | none => fail (.unusableKey keyValue.type)
      | some key =>
          let value ← evaluate scope valueNode
          entries scope (Value.putEntry key value before) rest

/-- Whether a clause is taken: its value is the subject, or holds where there is no subject. -/
def isTaken (subject : Option Value) (value : Value) : Bool :=
  match subject with
  | some subject => subject.same value
  | none => value.holds

/-- The first clause that is taken runs, and no other. -/
def clauses (scope : Nat) (subject : Option Value) : List Node → Action Value
  | [] => return .null
  | .clause _ condition body :: rest => do
      let value ← evaluate scope condition
      if isTaken subject value then statements scope .null body
      else clauses scope subject rest
  | _ :: rest => clauses scope subject rest

def switch (scope : Nat) (subject : Node) (cases : List Node) : Action Value := do
  if subject.isHole then clauses scope none cases
  else
    let value ← evaluate scope subject
    clauses scope (some value) cases

/-- Whether a loop goes on; without a condition it does. -/
def goesOn (scope : Nat) (condition : Node) : Action Bool := do
  if condition.isHole then return true
  else
    let value ← evaluate scope condition
    return value.holds

/-- At most `count` turns of a loop. -/
def turns (scope : Nat) (condition post body : Node) : Nat → Action Value
  | 0 => exhausted
  | count + 1 => do
      if ← goesOn scope condition then
        let _ ← evaluate scope body
        let _ ← evaluate scope post
        turns scope condition post body count
      else return .null

def loop (maxTurns scope : Nat) (init condition post body : Node) : Action Value := do
  let own ← perform (.enclose scope)
  let _ ← evaluate own init
  turns own condition post body maxTurns

def conditional (scope : Nat) (condition consequence alternative : Node) : Action Value := do
  let value ← evaluate scope condition
  if value.holds then evaluate scope consequence
  else if alternative.isHole then return .null
  else evaluate scope alternative

def binding (scope : Nat) (name : String) (node : Node) : Action Value := do
  let value ← evaluate scope node
  perform (.set scope name value)
  return .null

def returning (scope : Nat) (node : Node) : Action Value := do
  let value ← evaluate scope node
  stop (.returning value)

/-- The value of a name. -/
def read (scope : Nat) (name : String) : Action Value := do
  match ← perform (.look scope name) with
  | some value => yield value
  | none => fail (.unbound name)

def increment (scope : Nat) (name : String) : Action Value := do
  match ← perform (.look scope name) with
  | none => fail (.unbound name)
  | some old =>
      match old.increment with
      | .error fault => fail fault
      | .ok new =>
          let _ ← perform (.assign scope name new)
          return new

def unary (scope : Nat) (operator : String) (operand : Node) : Action Value := do
  let value ← evaluate scope operand
  ofExcept (value.unary operator)

def binary (scope : Nat) (left : Node) (operator : String) (right : Node) : Action Value := do
  let first ← evaluate scope left
  let second ← evaluate scope right
  ofExcept (Value.binary operator first second)

def index (scope : Nat) (collection key : Node) : Action Value := do
  let first ← evaluate scope collection
  let second ← evaluate scope key
  ofExcept (first.index second)

/-- Binds names in order. -/
def bindAll (scope : Nat) : List (Name × Value) → Action Unit
  | [] => return ()
  | (name, value) :: rest => do
      perform (.set scope name.text value)
      bindAll scope rest

/-- Calls a value. The body of a function runs in a new scope inside the one that the function was
made in. Arguments too many are dropped, and parameters too many stay unbound. -/
def apply (callee : Value) (arguments : List Value) : Action Value :=
  match callee with
  | .function _ parameters body home => do
      let own ← perform (.enclose home)
      bindAll own (parameters.zip arguments)
      catchReturn (evaluate own body)
  | .builtin builtin => callBuiltin builtin arguments
  | callee => fail (.notFunction callee.type)

def call (scope : Nat) (callee : Node) (arguments : List Node) : Action Value := do
  let function ← evaluate scope callee
  let given ← values scope arguments
  apply function given

def array (scope : Nat) (elements : List Node) : Action Value := do
  let contents ← values scope elements
  perform (.newArray contents)

def hash (scope : Nat) (pairs : List (Node × Node)) : Action Value := do
  let contents ← entries scope [] pairs
  perform (.newHash contents)

/-- What the evaluation of a node does. -/
def level (maxTurns scope : Nat) (node : Node) : Action Value :=
  match node with
  | .hole => return .null
  | .program _ nodes => catchReturn (statements scope .null nodes)
  | .block _ nodes => statements scope .null nodes
  | .binding _ name value => binding scope name.text value
  | .returning _ value => returning scope value
  | .expression _ body => evaluate scope body
  | .increment _ name => increment scope name.text
  | .clause .. => fail .strayClause
  | .switch _ subject cases => switch scope subject cases
  | .identifier name => read scope name.text
  | .integer _ value => return .integer value
  | .text _ value => return .string value
  | .boolean _ value => return .boolean value
  | .unary _ operator operand => unary scope operator operand
  | .binary _ left operator right => binary scope left operator right
  | .conditional _ condition consequence alternative =>
      conditional scope condition consequence alternative
  | .loop _ init condition post body => loop maxTurns scope init condition post body
  | .function _ parameters body => perform (.newFunction parameters body scope)
  | .call _ callee arguments => call scope callee arguments
  | .array _ elements => array scope elements
  | .index _ collection key => index scope collection key
  | .hash _ pairs => hash scope pairs

end Monkey.Eval
