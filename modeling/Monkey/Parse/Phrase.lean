import Monkey.Parse.Cursor
import Monkey.Parse.Precedence
import Monkey.Text.Numeral
import Monkey.Value.Word

/-!
# Statements and expressions

Each parser begins with the cursor on the first token of its phrase and leaves it on the last. The
phrases inside a phrase are read by `inner`, so every parser here is one level of the grammar;
`phrase` ties the levels together. A phrase inside another begins at a later token, so as many
levels as there are tokens are enough.
-/
namespace Monkey.Parse

open Monkey.Parse.Parser

inductive Phrase where
  | statement
  /-- An expression that ends before the first operator not stronger than `strength`. -/
  | expression (strength : Nat)
  deriving DecidableEq, Repr

/-- Reads the phrases inside a phrase. -/
abbrev Inner := Phrase → Parser Node

/-- The name at the cursor. -/
def name : Parser Name := do
  let token ← current
  return ⟨token, token.literal⟩

def expectName : Parser Name := do
  expect .ident
  name

/-- The end of a statement, with its semicolon if it has one. -/
def closing (node : Node) : Parser Node := do
  skip .semicolon
  return node

/-! ## Lists of statements -/

/-- Statements up to a closing token or the end, at most `count` of them. -/
def statementsUpTo (inner : Inner) (closes : Kind → Bool) : Nat → Parser (List Node)
  | 0 => return []
  | count + 1 => do
      let token ← current
      if token.kind = .eof ∨ closes token.kind then return []
      else
        let first ← attempt (inner .statement)
        advance
        let rest ← statementsUpTo inner closes count
        return first.toList ++ rest

/-- Statements up to a closing token or the end. Each takes at least one token. -/
def statements (inner : Inner) (closes : Kind → Bool) : Parser (List Node) := do
  let count ← remaining
  statementsUpTo inner closes (count + 1)

/-- A block, with the cursor on its opening brace. -/
def block (inner : Inner) : Parser Node := do
  let opening ← current
  advance
  let body ← statements inner (· = .rbrace)
  let last ← current
  if last.kind = .eof then complain (.expected .rbrace .eof)
  return .block opening body

/-! ## Operands -/

/-- The base of a numeral: sixteen after its mark, eight after a zero in front, else ten. -/
def numeralBase (token : Token) : Nat :=
  if token.kind = .hex then 16
  else match token.literal.toList with
    | '0' :: _ :: _ => 8
    | _ => 10

/-- The value of an integer token, if it is not too large. -/
def integerValue? (token : Token) : Option Int :=
  (Text.Numeral.read? (numeralBase token) token.literal.toList).filter (· ≤ maxWord)

def integer : Parser Node := do
  let token ← current
  match integerValue? token with
  | some value => return .integer token value
  | none =>
      complain (.badInteger token.literal)
      fail

def unary (inner : Inner) : Parser Node := do
  let token ← current
  advance
  let operand ← orHole (inner (.expression unaryStrength))
  return .unary token token.literal operand

/-- An expression in parentheses. -/
def group (inner : Inner) : Parser Node := do
  advance
  let body ← attempt (inner (.expression lowest))
  expect .rparen
  match body with
  | some node => return node
  | none => fail

def conditional (inner : Inner) : Parser Node := do
  let token ← current
  expect .lparen
  advance
  let condition ← orHole (inner (.expression lowest))
  expect .rparen
  expect .lbrace
  let consequence ← block inner
  let next ← peek
  if next.kind = .elseWord then
    advance
    expect .lbrace
    let alternative ← block inner
    return .conditional token condition consequence alternative
  else return .conditional token condition consequence .hole

def loop (inner : Inner) : Parser Node := do
  let token ← current
  expect .lparen
  advance
  let init ← orHole (inner .statement)
  let last ← current
  if last.kind ≠ .semicolon then
    complain (.expected .semicolon last.kind)
    fail
  advance
  let condition ← orHole (inner (.expression lowest))
  expect .semicolon
  advance
  let post ← orHole (inner .statement)
  expect .rparen
  expect .lbrace
  let body ← block inner
  return .loop token init condition post body

/-- What `item` reads behind the commas that follow, at most `count` times. -/
def moreOf (item : Parser α) : Nat → Parser (List α)
  | 0 => return []
  | count + 1 => do
      let next ← peek
      if next.kind = .comma then
        advance
        let first ← item
        let rest ← moreOf item count
        return first :: rest
      else return []

/-- What `item` reads between commas up to a closing bracket, with the cursor on the opening one. -/
def listOf (item : Parser α) (closer : Kind) : Parser (List α) := do
  let next ← peek
  if next.kind = closer then
    advance
    return []
  else
    let first ← item
    let count ← remaining
    let rest ← moreOf item count
    expect closer
    return first :: rest

/-- The parameters of a function, with the cursor on the opening parenthesis. -/
def parameters : Parser (List Name) :=
  listOf expectName .rparen

def function (inner : Inner) : Parser Node := do
  let token ← current
  expect .lparen
  let names ← parameters
  expect .lbrace
  let body ← block inner
  return .function token names body

/-- An expression of a list, with the cursor in front of it. -/
def item (inner : Inner) : Parser Node := do
  advance
  inner (.expression lowest)

/-- Expressions between commas up to a closing bracket, with the cursor on the opening one. -/
def items (inner : Inner) (closer : Kind) : Parser (List Node) :=
  listOf (item inner) closer

def array (inner : Inner) : Parser Node := do
  let token ← current
  let elements ← items inner .rbracket
  return .array token elements

/-- A key and its value, with the cursor in front of them. -/
def pair (inner : Inner) : Parser (Node × Node) := do
  let key ← item inner
  expect .colon
  let value ← item inner
  return (key, value)

def hash (inner : Inner) : Parser Node := do
  let token ← current
  let pairs ← listOf (pair inner) .rbrace
  return .hash token pairs

/-! ## Expressions -/

/-- No expression begins here. -/
def noExpression : Parser Node := do
  let token ← current
  complain (.noExpression token.kind)
  fail

/-- An expression up to its first operator. -/
def operand (inner : Inner) : Parser Node := do
  let token ← current
  match token.kind with
  | .ident => return .identifier ⟨token, token.literal⟩
  | .int | .hex => integer
  | .string => return .text token token.literal
  | .trueWord => return .boolean token true
  | .falseWord => return .boolean token false
  | .bang | .minus => unary inner
  | .lparen => group inner
  | .ifWord => conditional inner
  | .forWord => loop inner
  | .fnWord => function inner
  | .lbracket => array inner
  | .lbrace => hash inner
  | _ => noExpression

/-- What follows an operand: a call, an index or an operator with its right side. -/
def extension (inner : Inner) (left : Node) : Parser Node := do
  let token ← current
  match token.kind with
  | .lparen =>
      let arguments ← items inner .rparen
      return .call token left arguments
  | .lbracket =>
      advance
      let key ← orHole (inner (.expression lowest))
      expect .rbracket
      return .index token left key
  | kind =>
      advance
      let right ← orHole (inner (.expression (strength kind)))
      return .binary token left token.literal right

/-- Extends an operand while the next token binds more strongly than `bound`, at most `count`
times. -/
def extensions (inner : Inner) (bound : Nat) : Nat → Node → Parser Node
  | 0, left => return left
  | count + 1, left => do
      let next ← peek
      if bound < strength next.kind then
        advance
        let longer ← extension inner left
        extensions inner bound count longer
      else return left

def expression (inner : Inner) (bound : Nat) : Parser Node := do
  let left ← operand inner
  let count ← remaining
  extensions inner bound count left

/-! ## Statements -/

def bindingStatement (inner : Inner) : Parser Node := do
  let token ← current
  let target ← expectName
  expect .assign
  advance
  let value ← orHole (inner (.expression lowest))
  closing (.binding token target value)

def returnStatement (inner : Inner) : Parser Node := do
  let token ← current
  advance
  let value ← orHole (inner (.expression lowest))
  closing (.returning token value)

/-- An increment with its sign in front. -/
def signedIncrement : Parser Node := do
  let token ← current
  let target ← expectName
  closing (.increment token target)

/-- An increment with its sign behind the name. -/
def incrementOfName : Parser Node := do
  let target ← name
  advance
  let token ← current
  closing (.increment token target)

def expressionStatement (inner : Inner) : Parser Node := do
  let token ← current
  let body ← orHole (expression inner lowest)
  closing (.expression token body)

/-- The statements of a clause up to its closing word, at most `count` of them. -/
def clauseBody (inner : Inner) : Nat → Parser (List Node)
  | 0 => return []
  | count + 1 => do
      let next ← peek
      if next.kind = .breakWord then return []
      else if next.kind = .eof ∨ next.kind = .caseWord ∨ next.kind = .rbrace then
        complain (.expected .breakWord next.kind)
        fail
      else
        advance
        let first ← attempt (inner .statement)
        let rest ← clauseBody inner count
        return first.toList ++ rest

/-- A clause, with the cursor on its first word. -/
def clause (inner : Inner) : Parser Node := do
  let token ← current
  advance
  let condition ← orHole (inner (.expression lowest))
  expect .colon
  let count ← remaining
  let body ← clauseBody inner (count + 1)
  advance
  closing (.clause token condition body)

/-- The clauses of a switch, at most `count` of them. -/
def clauses (inner : Inner) : Nat → Parser (List Node)
  | 0 => return []
  | count + 1 => do
      let next ← peek
      if next.kind = .caseWord then
        advance
        let first ← clause inner
        let rest ← clauses inner count
        return first :: rest
      else return []

/-- The subject of a switch, if it has one. -/
def subject (inner : Inner) : Parser Node := do
  let next ← peek
  if next.kind = .lbrace then return .hole
  else
    advance
    orHole (inner (.expression lowest))

def switchStatement (inner : Inner) : Parser Node := do
  let token ← current
  let value ← subject inner
  expect .lbrace
  let count ← remaining
  let cases ← clauses inner count
  expect .rbrace
  return .switch token value cases

def statement (inner : Inner) : Parser Node := do
  let token ← current
  let next ← peek
  match token.kind with
  | .letWord => bindingStatement inner
  | .returnWord => returnStatement inner
  | .doublePlus => signedIncrement
  | .switchWord => switchStatement inner
  | .ident =>
      if next.kind = .doublePlus then incrementOfName else expressionStatement inner
  | _ => expressionStatement inner

/-! ## All levels -/

/-- One level of the grammar. -/
def level (inner : Inner) : Inner
  | .statement => statement inner
  | .expression bound => expression inner bound

/-- The grammar to a given depth. -/
def phrase : Nat → Inner
  | 0 => level fun _ => noExpression
  | depth + 1 => level (phrase depth)

end Monkey.Parse
