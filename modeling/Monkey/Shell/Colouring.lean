import Monkey.Token.Lexer
import Monkey.Value

/-!
# Colouring

A line is split into fragments of text, each with the style of its group. Tokens are coloured by
kind, and a name in front of a parenthesis by what it calls. A comment can only stand behind the
last token.
-/
namespace Monkey.Shell

inductive Group where
  | plain
  | keyword
  | literal
  | number
  | string
  | call
  | builtin
  | comment
  | illegal
  deriving DecidableEq, Repr

def Group.style : Group → String
  | plain => ""
  | keyword => "class:mk.keyword"
  | literal => "class:mk.literal"
  | number => "class:mk.number"
  | string => "class:mk.string"
  | call => "class:mk.call"
  | builtin => "class:mk.builtin"
  | comment => "class:mk.comment"
  | illegal => "class:mk.illegal"

structure Fragment where
  group : Group
  text : List Char
  deriving DecidableEq, Repr

/-- The group of a token that is followed by a token of another kind. -/
def groupOf (token : Token) (following : Kind) : Group :=
  match token.kind with
  | .fnWord | .letWord | .returnWord | .ifWord | .elseWord | .forWord | .switchWord | .caseWord
  | .breakWord => .keyword
  | .ident =>
      if following = .lparen then
        if (Builtin.ofName? token.literal).isSome then .builtin else .call
      else .plain
  | .trueWord | .falseWord => .literal
  | .int | .hex => .number
  | .string => .string
  | .illegal => .illegal
  | _ => .plain

/-- What follows the last token: blanks, then maybe a comment. -/
def tailFragments (tail : List Char) : List Fragment :=
  let blanks := tail.takeWhile (· != '#')
  let comment := tail.dropWhile (· != '#')
  (if blanks = [] then [] else [⟨.plain, blanks⟩]) ++
    (if comment = [] then [] else [⟨.comment, comment⟩])

/-- The fragments of a line from a column on, given the tokens that begin there. -/
def fragmentsFrom (line : List Char) (column : Nat) : List Token → List Fragment
  | token :: next :: rest =>
      let start := token.position.column - 1
      let gap := if column < start then
          [⟨.plain, (line.drop column).take (start - column)⟩] else []
      gap ++ ⟨groupOf token next.kind, token.span⟩ ::
        fragmentsFrom line (start + token.span.length) (next :: rest)
  | _ => tailFragments (line.drop column)

/-- The fragments of a line; an empty line has one empty fragment. -/
def colour (line : List Char) : List Fragment :=
  if line = [] then [⟨.plain, []⟩] else fragmentsFrom line 0 (Token.ofList line)

/-- The lines of a text, divided at line feeds. -/
def splitLines : List Char → List (List Char)
  | [] => [[]]
  | c :: rest =>
      if c = '\n' then [] :: splitLines rest
      else match splitLines rest with
        | [] => [[c]]
        | first :: more => (c :: first) :: more

/-- The fragments of a line of a text, by its number from zero. -/
def colourLine (text : List Char) (number : Nat) : List Fragment :=
  (((splitLines text)[number]?).map colour).getD [⟨.plain, []⟩]

end Monkey.Shell
