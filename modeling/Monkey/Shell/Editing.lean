import Monkey.Text.Blank
import Monkey.Token.Lexer

/-!
# Editing at the prompt

What happens to an entry while it is typed: pasted characters that nobody sees are dropped, and the
enter key goes on to a new line while a bracket is open.
-/
namespace Monkey.Shell

def isOpening (kind : Kind) : Bool :=
  kind == .lparen || kind == .lbracket || kind == .lbrace

def isClosing (kind : Kind) : Bool :=
  kind == .rparen || kind == .rbracket || kind == .rbrace

/-- The number of open brackets after one more token. A closing bracket without an opening one does
not count. -/
def stepDepth (depth : Nat) (token : Token) : Nat :=
  if isOpening token.kind then depth + 1
  else if isClosing token.kind then depth - 1
  else depth

/-- The number of brackets left open in a text. -/
def openBrackets (text : String) : Nat :=
  (Token.ofSource text).foldl stepDepth 0

/-- Zero-width characters and carriage returns, which come with pasted text. -/
def isUnseen (c : Char) : Bool :=
  c == '\u200b' || c == '\u200c' || c == '\u200d' || c == '\u2060' || c == '\ufeff' || c == '\r'

/-- Drops what is not seen and turns no-break spaces into spaces. -/
def tidy (text : String) : String :=
  .ofList ((text.toList.filter (!isUnseen ·)).map fun c => if c = '\u00a0' then ' ' else c)

/-- Whether a text is a command of the shell. -/
def isCommand (text : List Char) : Bool :=
  (text.dropWhile Text.isBlank).head? == some '/'

inductive EnterKey where
  | submit
  | insert (text : String)
  deriving DecidableEq, Repr

/-- What the enter key does with the text typed so far. Each open bracket indents the new line by
four spaces. -/
def enterKey (text : String) : EnterKey :=
  let depth := if isCommand text.toList then 0 else openBrackets text
  if depth = 0 then .submit else .insert (.ofList ('\n' :: List.replicate (4 * depth) ' '))

end Monkey.Shell
