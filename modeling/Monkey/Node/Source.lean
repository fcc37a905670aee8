import Monkey.Node

/-!
# Canonical source text

A tree written back as text: operators and indexing are always parenthesised, statements of a block
follow each other without a separator, and a hole is written as nothing.
-/
namespace Monkey.Node

/-- A clause in the head of a loop loses the semicolons at its end. -/
def dropSemicolons (text : String) : String :=
  .ofList ((text.toList.reverse.dropWhile (· == ';')).reverse)

mutual

def source : Node → String
  | hole => ""
  | program _ statements => String.join (sources statements)
  | block _ statements => String.join (sources statements)
  | binding token name value =>
      token.literal ++ " " ++ name.text ++ " = " ++ value.source ++ ";"
  | returning token value => token.literal ++ " " ++ value.source ++ ";"
  | expression _ body => body.source
  | increment _ name => name.text ++ "++"
  | clause _ condition body =>
      "case " ++ condition.source ++ ": " ++ " ".intercalate (sources body) ++ " break;"
  | switch _ subject clauses =>
      (if subject.isHole then "switch" else "switch " ++ subject.source) ++ " \x7b " ++
        " ".intercalate (sources clauses) ++ " \x7d"
  | identifier name => name.text
  | integer token _ => token.literal
  | text _ value => value
  | boolean token _ => token.literal
  | unary _ operator operand => "(" ++ operator ++ operand.source ++ ")"
  | binary _ left operator right =>
      "(" ++ left.source ++ " " ++ operator ++ " " ++ right.source ++ ")"
  | conditional _ condition consequence alternative =>
      "if" ++ condition.source ++ " " ++ consequence.source ++
        (if alternative.isHole then "" else "else " ++ alternative.source)
  | loop _ init condition post body =>
      "for (" ++ dropSemicolons init.source ++ "; " ++ condition.source ++ "; " ++
        dropSemicolons post.source ++ ") " ++ body.source
  | function token parameters body =>
      token.literal ++ "(" ++ ", ".intercalate (parameters.map (·.text)) ++ ") " ++ body.source
  | call _ callee arguments =>
      callee.source ++ "(" ++ ", ".intercalate (sources arguments) ++ ")"
  | array _ elements => "[" ++ ", ".intercalate (sources elements) ++ "]"
  | index _ collection key => "(" ++ collection.source ++ "[" ++ key.source ++ "])"
  | hash _ pairs => "\x7b" ++ ", ".intercalate (pairSources pairs) ++ "\x7d"

def sources : List Node → List String
  | [] => []
  | node :: rest => node.source :: sources rest

def pairSources : List (Node × Node) → List String
  | [] => []
  | (key, value) :: rest => (key.source ++ ":" ++ value.source) :: pairSources rest

end

theorem sources_eq_map (nodes : List Node) : sources nodes = nodes.map source := by
  induction nodes with
  | nil => rfl
  | cons node rest ih => simp [sources, ih]

theorem pairSources_eq_map (pairs : List (Node × Node)) :
    pairSources pairs = pairs.map fun pair => pair.1.source ++ ":" ++ pair.2.source := by
  induction pairs with
  | nil => rfl
  | cons pair rest ih => simp [pairSources, ih]

end Monkey.Node
