import Monkey.Token

/-!
# Trees

One type holds statements and expressions: either may stand where the other is expected, as when a
tree is built by hand. A child that is absent, because it is optional or could not be read, is a
`hole`.
-/
namespace Monkey

/-- A name where it is bound, increased or used. -/
structure Name where
  token : Token
  text : String
  deriving DecidableEq, Repr, Inhabited

/-- Each node keeps the token it began at. -/
inductive Node where
  | hole
  | program (token : Token) (statements : List Node)
  | block (token : Token) (statements : List Node)
  /-- Binds a name in the current scope. -/
  | binding (token : Token) (name : Name) (value : Node)
  | returning (token : Token) (value : Node)
  /-- An expression in the place of a statement. -/
  | expression (token : Token) (body : Node)
  /-- A name increased by one. -/
  | increment (token : Token) (name : Name)
  /-- One case of a switch. -/
  | clause (token : Token) (condition : Node) (body : List Node)
  /-- A switch; without a subject its clauses are conditions. -/
  | switch (token : Token) (subject : Node) (clauses : List Node)
  | identifier (name : Name)
  | integer (token : Token) (value : Int)
  | text (token : Token) (value : String)
  | boolean (token : Token) (value : Bool)
  | unary (token : Token) (operator : String) (operand : Node)
  | binary (token : Token) (left : Node) (operator : String) (right : Node)
  | conditional (token : Token) (condition consequence alternative : Node)
  /-- A loop; without a condition it goes on until it is left. -/
  | loop (token : Token) (init condition post body : Node)
  | function (token : Token) (parameters : List Name) (body : Node)
  | call (token : Token) (callee : Node) (arguments : List Node)
  | array (token : Token) (elements : List Node)
  | index (token : Token) (collection key : Node)
  | hash (token : Token) (pairs : List (Node × Node))
  deriving Inhabited

namespace Node

def isHole : Node → Bool
  | hole => true
  | _ => false

def isBinding : Node → Bool
  | binding .. => true
  | _ => false

theorem isHole_iff (node : Node) : node.isHole = true ↔ node = hole := by
  cases node <;> simp [isHole]

/-- The literal of the token that a node begins at; a program has that of its first statement. -/
def leadingLiteral : Node → String
  | hole => ""
  | program _ [] => ""
  | program _ (first :: _) => first.leadingLiteral
  | identifier name => name.token.literal
  | block token _ | binding token _ _ | returning token _ | expression token _
  | increment token _ | clause token _ _ | switch token _ _ | integer token _ | text token _
  | boolean token _ | unary token _ _ | binary token _ _ _ | conditional token _ _ _
  | loop token _ _ _ _ | function token _ _ | call token _ _ | array token _ | index token _ _
  | hash token _ => token.literal

end Node

end Monkey
