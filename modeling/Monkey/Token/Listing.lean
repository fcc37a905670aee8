import Monkey.Text.Quoted
import Monkey.Token

/-!
# Listings of tokens

A token on one line: its kind, its literal in quotes and its place.
-/
namespace Monkey

def Position.listing (position : Position) : String :=
  toString position.line ++ ":" ++ toString position.column

def Token.listing (token : Token) : String :=
  "Tok(" ++ token.kind.name ++ ", " ++ Text.quote token.literal ++ ", " ++
    token.position.listing ++ ")"

end Monkey
