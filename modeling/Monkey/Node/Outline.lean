import Monkey.Node
import Monkey.Text.Quoted

/-!
# Outlines

The shape of a tree as indented text, one node to a line. A branch whose only child is a leaf
shares its line with it.
-/
namespace Monkey

/-- A labelled tree; a leaf has a class and a text. -/
inductive Outline where
  | leaf (label text : String)
  | branch (label : String) (children : List Outline)

namespace Outline

def indent (depth : Nat) : String :=
  String.join (List.replicate depth "  ")

mutual

/-- The lines of an outline at some depth. -/
def lines (depth : Nat) : Outline → String
  | leaf _ text => indent depth ++ text ++ "\n"
  | branch label [leaf _ text] => indent depth ++ label ++ "\t" ++ text ++ "\n"
  | branch label children => indent depth ++ label ++ "\n" ++ linesOfAll (depth + 1) children

def linesOfAll (depth : Nat) : List Outline → String
  | [] => ""
  | child :: rest => lines depth child ++ linesOfAll depth rest

end

/-- The text of a whole outline. A leaf on its own shows its class, and its text in quotes. -/
def render : Outline → String
  | leaf label text => label ++ "\t" ++ Text.quote text ++ "\n"
  | branch label children => lines 0 (branch label children)

end Outline

namespace Node

def nameLeaf (name : Name) : Outline := .leaf "IDENT" name.text

mutual

def outline : Node → Outline
  | hole => .branch "missing" []
  | program _ statements => .branch "program" (outlines statements)
  | block _ statements => .branch "block" (outlines statements)
  | binding _ name value => .branch "let" [nameLeaf name, value.outline]
  | returning _ value => .branch "return" [value.outline]
  | expression _ body => .branch "expr_stmt" [body.outline]
  | increment _ name => .branch "incr" [nameLeaf name]
  | clause _ condition body =>
      .branch "case" [condition.outline, .branch "body" (outlines body)]
  | switch _ subject clauses =>
      if subject.isHole then .branch "switch" (outlines clauses)
      else .branch "switch" (.branch "subject" [subject.outline] :: outlines clauses)
  | identifier name => nameLeaf name
  | integer _ value => .leaf "INT" (toString value)
  | text _ value => .leaf "STRING" value
  | boolean token value => .leaf (if value then "TRUE" else "FALSE") token.literal
  | unary _ operator operand => .branch "prefix" [.leaf "OP" operator, operand.outline]
  | binary _ left operator right =>
      .branch "infix" [left.outline, .leaf "OP" operator, right.outline]
  | conditional _ condition consequence alternative =>
      if alternative.isHole then .branch "if" [condition.outline, consequence.outline]
      else .branch "if"
        [condition.outline, consequence.outline, .branch "else" [alternative.outline]]
  | loop _ init condition post body =>
      .branch "for" [.branch "init" [init.outline], .branch "cond" [condition.outline],
        .branch "post" [post.outline], body.outline]
  | function _ parameters body =>
      .branch "fn" [.branch "params" (parameters.map nameLeaf), body.outline]
  | call _ callee arguments =>
      .branch "call" [callee.outline, .branch "args" (outlines arguments)]
  | array _ elements => .branch "array" (outlines elements)
  | index _ collection key => .branch "index" [collection.outline, key.outline]
  | hash _ pairs => .branch "hash" (pairOutlines pairs)

def outlines : List Node → List Outline
  | [] => []
  | node :: rest => node.outline :: outlines rest

def pairOutlines : List (Node × Node) → List Outline
  | [] => []
  | (key, value) :: rest =>
      .branch "pair" [key.outline, value.outline] :: pairOutlines rest

end

/-- Nodes without a form of their own, which all others are kinds of. -/
inductive Bare where
  | node
  | statement
  | expression
  deriving DecidableEq, Repr

namespace Bare

def name : Bare → String
  | node => "Node"
  | statement => "Statement"
  | expression => "Expression"

def ofName? (text : String) : Option Bare :=
  [node, statement, expression].find? (·.name == text)

/-- A bare node has no outline, only a name. -/
def outline (bare : Bare) : Except String Outline :=
  .error bare.name

end Bare

/-- The outline of a tree as text. -/
def outlineText (node : Node) : String :=
  node.outline.render

end Node

end Monkey
