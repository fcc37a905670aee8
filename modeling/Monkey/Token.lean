/-!
# Tokens

A token has a kind, the literal text it stands for and the place where it begins. The literal of a
text token lacks its quotes; `Kind.span` puts them back.
-/
namespace Monkey

inductive Kind where
  | illegal
  | eof
  | ident
  | int
  | hex
  | string
  | assign
  | plus
  | minus
  | bang
  | asterisk
  | slash
  | percent
  | lt
  | gt
  | eq
  | notEq
  | and
  | doublePlus
  | comma
  | semicolon
  | colon
  | lparen
  | rparen
  | lbrace
  | rbrace
  | lbracket
  | rbracket
  | fnWord
  | letWord
  | returnWord
  | trueWord
  | falseWord
  | ifWord
  | elseWord
  | forWord
  | switchWord
  | caseWord
  | breakWord
  deriving DecidableEq, Repr, Inhabited

namespace Kind

/-- Every kind, in the order of declaration. -/
def all : List Kind :=
  [illegal, eof, ident, int, hex, string, assign, plus, minus, bang, asterisk, slash, percent, lt,
    gt, eq, notEq, and, doublePlus, comma, semicolon, colon, lparen, rparen, lbrace, rbrace,
    lbracket, rbracket, fnWord, letWord, returnWord, trueWord, falseWord, ifWord, elseWord,
    forWord, switchWord, caseWord, breakWord]

theorem mem_all (kind : Kind) : kind ∈ all := by
  cases kind <;> decide

/-- The name of a kind in listings of tokens. -/
def name : Kind → String
  | illegal => "ILLEGAL"
  | eof => "EOF"
  | ident => "IDENT"
  | int => "INT"
  | hex => "HEX"
  | string => "STRING"
  | assign => "ASSIGN"
  | plus => "PLUS"
  | minus => "MINUS"
  | bang => "BANG"
  | asterisk => "ASTERISK"
  | slash => "SLASH"
  | percent => "PERCENT"
  | lt => "LT"
  | gt => "GT"
  | eq => "EQ"
  | notEq => "NOT_EQ"
  | and => "AND"
  | doublePlus => "DOUBLE_PLUS"
  | comma => "COMMA"
  | semicolon => "SEMICOLON"
  | colon => "COLON"
  | lparen => "LPAREN"
  | rparen => "RPAREN"
  | lbrace => "LBRACE"
  | rbrace => "RBRACE"
  | lbracket => "LBRACKET"
  | rbracket => "RBRACKET"
  | fnWord => "FUNCTION"
  | letWord => "LET"
  | returnWord => "RETURN"
  | trueWord => "TRUE"
  | falseWord => "FALSE"
  | ifWord => "IF"
  | elseWord => "ELSE"
  | forWord => "FOR"
  | switchWord => "SWITCH"
  | caseWord => "CASE"
  | breakWord => "BREAK"

/-- Operators and delimiters, with the text each is written as. -/
def signs : List (Kind × String) :=
  [(assign, "="), (plus, "+"), (minus, "-"), (bang, "!"), (asterisk, "*"), (slash, "/"),
    (percent, "%"), (lt, "<"), (gt, ">"), (eq, "=="), (notEq, "!="), (and, "&&"),
    (doublePlus, "++"), (comma, ","), (semicolon, ";"), (colon, ":"), (lparen, "("),
    (rparen, ")"), (lbrace, "\x7b"), (rbrace, "\x7d"), (lbracket, "["), (rbracket, "]")]

/-- The words that are no names, in alphabetical order. -/
def keywords : List (String × Kind) :=
  [("break", breakWord), ("case", caseWord), ("else", elseWord), ("false", falseWord),
    ("fn", fnWord), ("for", forWord), ("if", ifWord), ("let", letWord), ("return", returnWord),
    ("switch", switchWord), ("true", trueWord)]

/-- How complaints call a kind: a sign by its text, any other kind by its name. -/
def display (kind : Kind) : String :=
  (signs.lookup kind).getD kind.name

/-- The kind of a word: its keyword, or that of a name. -/
def ofWord (word : String) : Kind :=
  (keywords.lookup word).getD ident

def ofName? (text : String) : Option Kind :=
  all.find? (·.name == text)

theorem ofName?_name (kind : Kind) : ofName? kind.name = some kind := by
  cases kind <;> decide

/-- The text that a literal of this kind has in the source. -/
def span (kind : Kind) (literal : List Char) : List Char :=
  if kind = string then '"' :: literal ++ ['"'] else literal

end Kind

/-- Lines and columns count from one; columns count characters. -/
structure Position where
  line : Nat
  column : Nat
  deriving DecidableEq, Repr, Inhabited

namespace Position

def start : Position := ⟨1, 1⟩

def step (position : Position) (c : Char) : Position :=
  if c = '\n' then ⟨position.line + 1, 1⟩ else ⟨position.line, position.column + 1⟩

/-- The place reached after a text. -/
def past (position : Position) (text : List Char) : Position :=
  text.foldl step position

@[simp] theorem past_nil (position : Position) : position.past [] = position := rfl

@[simp] theorem past_cons (position : Position) (c : Char) (text : List Char) :
    position.past (c :: text) = (position.step c).past text := rfl

@[simp] theorem past_append (position : Position) (first second : List Char) :
    position.past (first ++ second) = (position.past first).past second := by
  simp [past, List.foldl_append]

end Position

structure Token where
  kind : Kind
  literal : String
  position : Position
  deriving DecidableEq, Repr, Inhabited

namespace Token

/-- The token that ends every text. -/
def eofAt (position : Position) : Token := ⟨.eof, "", position⟩

@[simp] theorem kind_eofAt (position : Position) : (eofAt position).kind = .eof := rfl

/-- The text that the token covers in the source. -/
def span (token : Token) : List Char :=
  token.kind.span token.literal.toList

end Token

end Monkey
