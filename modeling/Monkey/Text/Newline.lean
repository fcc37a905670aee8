/-!
# Line ends

Text from outside may end its lines in a line feed, a carriage return or both.
-/
namespace Monkey.Text

/-- Every line end becomes a line feed. -/
def unifyLineEnds : List Char → List Char
  | [] => []
  | '\r' :: '\n' :: rest => '\n' :: unifyLineEnds rest
  | '\r' :: rest => '\n' :: unifyLineEnds rest
  | c :: rest => c :: unifyLineEnds rest

end Monkey.Text
