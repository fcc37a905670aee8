import Monkey.Parse.Phrase
import Monkey.Token.Lexer

/-!
# Programs

Every sequence of tokens yields a program: what could be read of it, with the complaints about the
rest.
-/
namespace Monkey.Parse

/-- Statements in their order, the token they begin at and all complaints. -/
structure Parsed where
  first : Token
  statements : List Node
  complaints : List Complaint

namespace Parsed

def program (parsed : Parsed) : Node :=
  .program parsed.first parsed.statements

def isClean (parsed : Parsed) : Bool :=
  parsed.complaints.isEmpty

def messages (parsed : Parsed) : List String :=
  parsed.complaints.map (·.message)

end Parsed

/-- Statements up to the end. -/
def topLevel : Parser (List Node) := do
  let count ← Parser.remaining
  statements (phrase (count + 1)) fun _ => false

def tokens (tokens : List Token) : Parsed :=
  let cursor := Cursor.ofTokens tokens
  let reading := topLevel cursor
  ⟨cursor.current, reading.value.getD [], reading.complaints⟩

def source (text : String) : Parsed :=
  tokens (Token.ofSource text)

end Monkey.Parse
