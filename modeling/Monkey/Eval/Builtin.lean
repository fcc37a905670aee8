import Monkey.Eval.Action

/-!
# Builtins at work
-/
namespace Monkey.Eval

open Monkey.Eval.Action

/-- The number of bytes of a text in UTF-8. -/
def byteLength (text : String) : Nat := text.utf8ByteSize

def length : Value → Action Value
  | .string text => return .integer (byteLength text)
  | .array _ elements => return .integer elements.length
  | value => fail (.noLength value.type)

/-- Goes on with the elements of an array. -/
def withElements (builtin : Builtin) (value : Value) (next : List Value → Action Value) :
    Action Value :=
  match value with
  | .array _ elements => next elements
  | value => fail (.notArray builtin value.type)

/-- What a builtin does with the right number of arguments. -/
def builtinBody (builtin : Builtin) (arguments : List Value) : Action Value :=
  match builtin, arguments with
  | .len, [value] => length value
  | .first, [value] => withElements .first value fun elements =>
      yield (elements.head?.getD .null)
  | .last, [value] => withElements .last value fun elements =>
      yield (elements.getLast?.getD .null)
  | .rest, [value] => withElements .rest value fun
      | [] => return .null
      | _ :: tail => perform (.newArray tail)
  | .push, [value, added] => withElements .push value fun elements =>
      perform (.newArray (elements ++ [added]))
  | .puts, arguments => do
      perform (.write (" ".intercalate (arguments.map (·.display)) ++ "\n"))
      return .integer arguments.length
  | builtin, arguments => fail (.wrongCount arguments.length (builtin.arity.getD 0))

/-- A builtin counts its arguments before it looks at them. -/
def callBuiltin (builtin : Builtin) (arguments : List Value) : Action Value :=
  match builtin.arity with
  | some wanted =>
      if arguments.length = wanted then builtinBody builtin arguments
      else fail (.wrongCount arguments.length wanted)
  | none => builtinBody builtin arguments

end Monkey.Eval
