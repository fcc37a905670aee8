import Monkey.Proofs.Parse.Grammar

/-!
# Complete trees and their canonical tokens

A tree is complete if nothing is missing from it that a source must have, and every node stands
where its category is wanted. `render` writes a complete tree down with more brackets and
semicolons than it needs: every operator and every index is in parentheses, every simple statement
ends in a semicolon. The places of tokens do not matter, so a rendering is a list of lexemes.
-/
namespace Monkey

/-- What a token says, without its place. -/
abbrev Lexeme := Kind × String

def Token.lexeme (token : Token) : Lexeme :=
  (token.kind, token.literal)

def Token.ofLexeme (lexeme : Lexeme) : Token :=
  ⟨lexeme.1, lexeme.2, .start⟩

theorem Token.map_lexeme_ofLexeme (lexemes : List Lexeme) :
    (lexemes.map ofLexeme).map lexeme = lexemes := by
  simp [Function.comp_def, ofLexeme, lexeme]

theorem Token.kind_eq {token : Token} {kind : Kind} {literal : String}
    (h : token.lexeme = (kind, literal)) : token.kind = kind :=
  congrArg Prod.fst h

theorem Token.literal_eq {token : Token} {kind : Kind} {literal : String}
    (h : token.lexeme = (kind, literal)) : token.literal = literal :=
  congrArg Prod.snd h

namespace Kind

/-- The text of a sign or keyword. -/
def spelling (kind : Kind) : String :=
  ((keywords.find? (·.2 = kind)).map (·.1)).getD kind.display

/-- The sign that is written as the text. -/
def ofSign (text : String) : Kind :=
  ((signs.find? (·.2 = text)).map (·.1)).getD illegal

end Kind

namespace Parse

/-- The operators in front of an operand. -/
def unaryOperators : List String := ["!", "-"]

/-- The operators between two operands. -/
def binaryOperators : List String := ["==", "!=", "<", ">", "+", "-", "*", "/", "%"]

theorem ofSign_mem_unaryKinds {operator : String} (h : operator ∈ unaryOperators) :
    Kind.ofSign operator ∈ unaryKinds := by
  revert operator
  decide

theorem ofSign_mem_binaryKinds {operator : String} (h : operator ∈ binaryOperators) :
    Kind.ofSign operator ∈ binaryKinds := by
  revert operator
  decide

/-- A name that is no keyword. -/
def IsName (name : Name) : Prop :=
  Kind.ofWord name.text = .ident

instance (name : Name) : Decidable (IsName name) :=
  inferInstanceAs (Decidable (_ = _))

def isSwitch : Node → Bool
  | .switch .. => true
  | _ => false

/-- The only children that may be absent are the alternative of a conditional and the subject of a
switch. An integer has a literal that denotes it. The first statement of a loop is no switch, for
that has no semicolon. -/
inductive Complete : Category → Node → Prop where
  | program {token : Token} {nodes : List Node}
      (hnodes : ∀ node ∈ nodes, Complete .statement node) :
      Complete .program (.program token nodes)
  | binding {token : Token} {name : Name} {value : Node} (hname : IsName name)
      (hvalue : Complete .expression value) : Complete .statement (.binding token name value)
  | returning {token : Token} {value : Node} (hvalue : Complete .expression value) :
      Complete .statement (.returning token value)
  | expression {token : Token} {body : Node} (hbody : Complete .expression body) :
      Complete .statement (.expression token body)
  | increment {token : Token} {name : Name} (hname : IsName name) :
      Complete .statement (.increment token name)
  | switchOn {token : Token} {subject : Node} {clauses : List Node}
      (hsubject : Complete .expression subject)
      (hclauses : ∀ node ∈ clauses, Complete .clause node) :
      Complete .statement (.switch token subject clauses)
  | switch {token : Token} {clauses : List Node}
      (hclauses : ∀ node ∈ clauses, Complete .clause node) :
      Complete .statement (.switch token .hole clauses)
  | block {token : Token} {nodes : List Node} (hnodes : ∀ node ∈ nodes, Complete .statement node) :
      Complete .block (.block token nodes)
  | clause {token : Token} {condition : Node} {body : List Node}
      (hcondition : Complete .expression condition)
      (hbody : ∀ node ∈ body, Complete .statement node) :
      Complete .clause (.clause token condition body)
  | identifier {name : Name} (hname : IsName name) : Complete .expression (.identifier name)
  | integer {token : Token} {value : Int} (hkind : token.kind = .int ∨ token.kind = .hex)
      (hvalue : integerValue? token = some value) : Complete .expression (.integer token value)
  | text {token : Token} {value : String} : Complete .expression (.text token value)
  | boolean {token : Token} {value : Bool} : Complete .expression (.boolean token value)
  | unary {token : Token} {operator : String} {operand : Node}
      (hoperator : operator ∈ unaryOperators) (hoperand : Complete .expression operand) :
      Complete .expression (.unary token operator operand)
  | binary {token : Token} {left right : Node} {operator : String}
      (hleft : Complete .expression left) (hoperator : operator ∈ binaryOperators)
      (hright : Complete .expression right) :
      Complete .expression (.binary token left operator right)
  | conditional {token : Token} {condition consequence : Node}
      (hcondition : Complete .expression condition) (hconsequence : Complete .block consequence) :
      Complete .expression (.conditional token condition consequence .hole)
  | conditionalElse {token : Token} {condition consequence alternative : Node}
      (hcondition : Complete .expression condition) (hconsequence : Complete .block consequence)
      (halternative : Complete .block alternative) :
      Complete .expression (.conditional token condition consequence alternative)
  | loop {token : Token} {init condition post body : Node} (hinit : Complete .statement init)
      (hswitch : isSwitch init = false) (hcondition : Complete .expression condition)
      (hpost : Complete .statement post) (hbody : Complete .block body) :
      Complete .expression (.loop token init condition post body)
  | function {token : Token} {names : List Name} {body : Node}
      (hnames : ∀ name ∈ names, IsName name) (hbody : Complete .block body) :
      Complete .expression (.function token names body)
  | call {token : Token} {callee : Node} {arguments : List Node}
      (hcallee : Complete .expression callee)
      (harguments : ∀ node ∈ arguments, Complete .expression node) :
      Complete .expression (.call token callee arguments)
  | array {token : Token} {elements : List Node}
      (helements : ∀ node ∈ elements, Complete .expression node) :
      Complete .expression (.array token elements)
  | index {token : Token} {collection key : Node} (hcollection : Complete .expression collection)
      (hkey : Complete .expression key) : Complete .expression (.index token collection key)
  | hash {token : Token} {pairs : List (Node × Node)}
      (hkeys : ∀ pair ∈ pairs, Complete .expression pair.1)
      (hvalues : ∀ pair ∈ pairs, Complete .expression pair.2) :
      Complete .expression (.hash token pairs)

/-! ## Rendering -/

/-- A sign or keyword. -/
def mark (kind : Kind) : Lexeme := (kind, kind.spelling)

def word (name : Name) : Lexeme := (Kind.ofWord name.text, name.text)

def operatorMark (operator : String) : Lexeme := (Kind.ofSign operator, operator)

def inParens (lexemes : List Lexeme) : List Lexeme :=
  mark .lparen :: (lexemes ++ [mark .rparen])

def inBrackets (lexemes : List Lexeme) : List Lexeme :=
  mark .lbracket :: (lexemes ++ [mark .rbracket])

def inBraces (lexemes : List Lexeme) : List Lexeme :=
  mark .lbrace :: (lexemes ++ [mark .rbrace])

/-- Stretches with a comma between each two. -/
def commas : List (List Lexeme) → List Lexeme
  | [] => []
  | first :: rest => first ++ rest.flatMap (mark .comma :: ·)

mutual

def render : Node → List Lexeme
  | .hole => []
  | .program _ nodes => (renderEach nodes).flatten
  | .block _ nodes => inBraces (renderEach nodes).flatten
  | .binding _ name value =>
      mark .letWord :: word name :: mark .assign :: (render value ++ [mark .semicolon])
  | .returning _ value => mark .returnWord :: (render value ++ [mark .semicolon])
  | .expression _ body => render body ++ [mark .semicolon]
  | .increment _ name => [word name, mark .doublePlus, mark .semicolon]
  | .clause _ condition body =>
      mark .caseWord :: (render condition ++ mark .colon ::
        ((renderEach body).flatten ++ [mark .breakWord, mark .semicolon]))
  | .switch _ subject clauses =>
      mark .switchWord :: ((if subject.isHole then [] else inParens (render subject)) ++
        inBraces (renderEach clauses).flatten)
  | .identifier name => [word name]
  | .integer token _ => [token.lexeme]
  | .text _ value => [(.string, value)]
  | .boolean _ value => [mark (if value then .trueWord else .falseWord)]
  | .unary _ operator operand => inParens (operatorMark operator :: render operand)
  | .binary _ left operator right =>
      inParens (render left ++ operatorMark operator :: render right)
  | .conditional _ condition consequence alternative =>
      mark .ifWord :: (inParens (render condition) ++ (render consequence ++
        if alternative.isHole then [] else mark .elseWord :: render alternative))
  | .loop _ init condition post body =>
      mark .forWord :: mark .lparen :: (render init ++ (render condition ++ mark .semicolon ::
        (render post ++ mark .rparen :: render body)))
  | .function _ names body =>
      mark .fnWord :: (inParens (commas (names.map ([word ·]))) ++ render body)
  | .call _ callee arguments => render callee ++ inParens (commas (renderEach arguments))
  | .array _ elements => inBrackets (commas (renderEach elements))
  | .index _ collection key => inParens (render collection ++ inBrackets (render key))
  | .hash _ pairs => inBraces (commas (renderPairs pairs))

def renderEach : List Node → List (List Lexeme)
  | [] => []
  | node :: rest => render node :: renderEach rest

def renderPairs : List (Node × Node) → List (List Lexeme)
  | [] => []
  | (key, value) :: rest => (render key ++ mark .colon :: render value) :: renderPairs rest

end

theorem renderEach_eq_map (nodes : List Node) : renderEach nodes = nodes.map render := by
  induction nodes with
  | nil => rfl
  | cons node rest ih => simp [renderEach, ih]

theorem renderPairs_eq_map (pairs : List (Node × Node)) :
    renderPairs pairs = pairs.map fun pair => render pair.1 ++ mark .colon :: render pair.2 := by
  induction pairs with
  | nil => rfl
  | cons pair rest ih => simp [renderPairs, ih]

end Parse

/-! ## Trees without their tokens -/

/-- A name without its token. -/
def Name.bare (name : Name) : Name := ⟨default, name.text⟩

namespace Node

mutual

/-- The tree with every token it keeps replaced by one and the same. -/
@[simp] def bare : Node → Node
  | hole => hole
  | program _ nodes => program default (bareAll nodes)
  | block _ nodes => block default (bareAll nodes)
  | binding _ name value => binding default name.bare value.bare
  | returning _ value => returning default value.bare
  | expression _ body => expression default body.bare
  | increment _ name => increment default name.bare
  | clause _ condition body => clause default condition.bare (bareAll body)
  | switch _ subject clauses => switch default subject.bare (bareAll clauses)
  | identifier name => identifier name.bare
  | integer _ value => integer default value
  | text _ value => text default value
  | boolean _ value => boolean default value
  | unary _ operator operand => unary default operator operand.bare
  | binary _ left operator right => binary default left.bare operator right.bare
  | conditional _ condition consequence alternative =>
      conditional default condition.bare consequence.bare alternative.bare
  | loop _ init condition post body =>
      loop default init.bare condition.bare post.bare body.bare
  | function _ names body => function default (names.map (·.bare)) body.bare
  | call _ callee arguments => call default callee.bare (bareAll arguments)
  | array _ elements => array default (bareAll elements)
  | index _ collection key => index default collection.bare key.bare
  | hash _ pairs => hash default (barePairs pairs)

@[simp] def bareAll : List Node → List Node
  | [] => []
  | node :: rest => node.bare :: bareAll rest

@[simp] def barePairs : List (Node × Node) → List (Node × Node)
  | [] => []
  | (key, value) :: rest => (key.bare, value.bare) :: barePairs rest

end

theorem bareAll_eq_map (nodes : List Node) : bareAll nodes = nodes.map bare := by
  induction nodes with
  | nil => rfl
  | cons node rest ih => simp [bareAll, ih]

theorem barePairs_eq_map (pairs : List (Node × Node)) :
    barePairs pairs = pairs.map fun pair => (pair.1.bare, pair.2.bare) := by
  induction pairs with
  | nil => rfl
  | cons pair rest ih => simp [barePairs, ih]

end Node

end Monkey
