import Monkey.Token

/-!
# Complaints of the parser
-/
namespace Monkey.Parse

inductive Complaint where
  /-- A token of one kind was needed and another stood there. -/
  | expected (wanted found : Kind)
  /-- No expression begins with a token of this kind. -/
  | noExpression (kind : Kind)
  /-- A numeral that is malformed or too large. -/
  | badInteger (literal : String)
  deriving DecidableEq, Repr

def Complaint.message : Complaint → String
  | expected wanted found =>
      "expected next token to be " ++ wanted.display ++ ", got " ++ found.display ++ " instead"
  | noExpression kind => "no prefix parse function for " ++ kind.display ++ " found"
  | badInteger literal => "could not parse \"" ++ literal ++ "\" as integer"

end Monkey.Parse
