import Monkey.Parse.Phrase
import Mathlib

/-!
# The grammar

`Derives` says which tokens stand for which tree, without regard to how they are read: neither the
strength of operators nor the order of reading plays a part. Every token of a phrase occurs exactly
once in its derivation, in the order of the source, so a token that is left out has no derivation.
Main statements: the tokens of a phrase are all of kinds that the grammar uses, and the words and
signs that only close something are as many as the tree has use for.
-/
namespace Monkey.Parse

inductive Category where
  | program
  | statement
  | block
  | clause
  | expression
  deriving DecidableEq, Repr

@[simp] def Phrase.category : Phrase → Category
  | .statement => .statement
  | .expression _ => .expression

/-- A stretch of tokens and the tree it stands for. -/
structure Part where
  tokens : List Token
  tree : Node

/-- The tokens of phrases that follow each other. -/
def yield (parts : List Part) : List Token :=
  parts.flatMap (·.tokens)

def trees (parts : List Part) : List Node :=
  parts.map (·.tree)

@[simp] theorem yield_nil : yield [] = [] := rfl

@[simp] theorem yield_cons (part : Part) (parts : List Part) :
    yield (part :: parts) = part.tokens ++ yield parts := rfl

@[simp] theorem trees_nil : trees [] = [] := rfl

@[simp] theorem trees_cons (part : Part) (parts : List Part) :
    trees (part :: parts) = part.tree :: trees parts := rfl

/-- The name that a token spells. -/
def nameOf (token : Token) : Name := ⟨token, token.literal⟩

/-- A key of a hash, the colon behind it and the value. -/
structure Entry where
  key : Part
  colon : Token
  value : Part

namespace Entry

def tokens (entry : Entry) : List Token :=
  entry.key.tokens ++ entry.colon :: entry.value.tokens

def trees (entry : Entry) : Node × Node :=
  (entry.key.tree, entry.value.tree)

end Entry

/-- The end of a statement: a semicolon or nothing. -/
inductive Ending : List Token → Prop where
  | absent : Ending []
  | present {token : Token} (h : token.kind = .semicolon) : Ending [token]

/-- Stretches of tokens, at least one, with a comma between each two. -/
inductive Commas : List (List Token) → List Token → Prop where
  | one (tokens : List Token) : Commas [tokens] tokens
  | more {tokens others : List Token} {rest : List (List Token)} {comma : Token}
      (hcomma : comma.kind = .comma) (hrest : Commas rest others) :
      Commas (tokens :: rest) (tokens ++ comma :: others)

/-- Stretches of tokens, perhaps none, with a comma between each two. -/
inductive Listed : List (List Token) → List Token → Prop where
  | empty : Listed [] []
  | some {pieces : List (List Token)} {tokens : List Token} (h : Commas pieces tokens) :
      Listed pieces tokens

/-- The signs that stand between two operands. -/
def binaryKinds : List Kind :=
  [.eq, .notEq, .lt, .gt, .plus, .minus, .asterisk, .slash, .percent]

/-- The signs that stand in front of an operand. -/
def unaryKinds : List Kind :=
  [.bang, .minus]

inductive Derives : Category → List Token → Node → Prop where
  | program {first : Token} {parts : List Part}
      (hparts : ∀ part ∈ parts, Derives .statement part.tokens part.tree) :
      Derives .program (yield parts) (.program first (trees parts))
  -- statements
  | binding {word target sign : Token} {value ending : List Token} {node : Node}
      (hword : word.kind = .letWord) (htarget : target.kind = .ident)
      (hsign : sign.kind = .assign) (hvalue : Derives .expression value node)
      (hending : Ending ending) :
      Derives .statement (word :: target :: sign :: (value ++ ending))
        (.binding word (nameOf target) node)
  | returning {word : Token} {value ending : List Token} {node : Node}
      (hword : word.kind = .returnWord) (hvalue : Derives .expression value node)
      (hending : Ending ending) :
      Derives .statement (word :: (value ++ ending)) (.returning word node)
  | signedIncrement {sign target : Token} {ending : List Token}
      (hsign : sign.kind = .doublePlus) (htarget : target.kind = .ident)
      (hending : Ending ending) :
      Derives .statement (sign :: target :: ending) (.increment sign (nameOf target))
  | incrementOfName {target sign : Token} {ending : List Token}
      (htarget : target.kind = .ident) (hsign : sign.kind = .doublePlus)
      (hending : Ending ending) :
      Derives .statement (target :: sign :: ending) (.increment sign (nameOf target))
  | switchOn {word opening closing : Token} {subject : List Token} {node : Node}
      {clauses : List Part}
      (hword : word.kind = .switchWord) (hsubject : Derives .expression subject node)
      (hopening : opening.kind = .lbrace)
      (hclauses : ∀ part ∈ clauses, Derives .clause part.tokens part.tree)
      (hclosing : closing.kind = .rbrace) :
      Derives .statement (word :: (subject ++ opening :: (yield clauses ++ [closing])))
        (.switch word node (trees clauses))
  | switch {word opening closing : Token} {clauses : List Part}
      (hword : word.kind = .switchWord) (hopening : opening.kind = .lbrace)
      (hclauses : ∀ part ∈ clauses, Derives .clause part.tokens part.tree)
      (hclosing : closing.kind = .rbrace) :
      Derives .statement (word :: opening :: (yield clauses ++ [closing]))
        (.switch word .hole (trees clauses))
  | expression {first : Token} {more ending : List Token} {node : Node}
      (hbody : Derives .expression (first :: more) node) (hending : Ending ending) :
      Derives .statement (first :: (more ++ ending)) (.expression first node)
  -- blocks and clauses
  | block {opening closing : Token} {parts : List Part}
      (hopening : opening.kind = .lbrace)
      (hparts : ∀ part ∈ parts, Derives .statement part.tokens part.tree)
      (hclosing : closing.kind = .rbrace) :
      Derives .block (opening :: (yield parts ++ [closing])) (.block opening (trees parts))
  | clause {word colon last : Token} {condition ending : List Token} {node : Node}
      {parts : List Part}
      (hword : word.kind = .caseWord) (hcondition : Derives .expression condition node)
      (hcolon : colon.kind = .colon)
      (hparts : ∀ part ∈ parts, Derives .statement part.tokens part.tree)
      (hlast : last.kind = .breakWord) (hending : Ending ending) :
      Derives .clause (word :: (condition ++ colon :: (yield parts ++ last :: ending)))
        (.clause word node (trees parts))
  -- expressions
  | identifier {token : Token} (h : token.kind = .ident) :
      Derives .expression [token] (.identifier (nameOf token))
  | integer {token : Token} {value : Int} (hkind : token.kind = .int ∨ token.kind = .hex)
      (hvalue : integerValue? token = some value) :
      Derives .expression [token] (.integer token value)
  | text {token : Token} (h : token.kind = .string) :
      Derives .expression [token] (.text token token.literal)
  | truth {token : Token} (h : token.kind = .trueWord) :
      Derives .expression [token] (.boolean token true)
  | falsity {token : Token} (h : token.kind = .falseWord) :
      Derives .expression [token] (.boolean token false)
  | unary {sign : Token} {operand : List Token} {node : Node}
      (hsign : sign.kind ∈ unaryKinds) (hoperand : Derives .expression operand node) :
      Derives .expression (sign :: operand) (.unary sign sign.literal node)
  | binary {sign : Token} {left right : List Token} {first second : Node}
      (hleft : Derives .expression left first) (hsign : sign.kind ∈ binaryKinds)
      (hright : Derives .expression right second) :
      Derives .expression (left ++ sign :: right) (.binary sign first sign.literal second)
  | group {opening closing : Token} {body : List Token} {node : Node}
      (hopening : opening.kind = .lparen) (hbody : Derives .expression body node)
      (hclosing : closing.kind = .rparen) :
      Derives .expression (opening :: (body ++ [closing])) node
  | conditional {word opening closing : Token} {condition consequence : List Token}
      {test whenTrue : Node}
      (hword : word.kind = .ifWord) (hopening : opening.kind = .lparen)
      (hcondition : Derives .expression condition test) (hclosing : closing.kind = .rparen)
      (hconsequence : Derives .block consequence whenTrue) :
      Derives .expression (word :: opening :: (condition ++ closing :: consequence))
        (.conditional word test whenTrue .hole)
  | conditionalElse {word opening closing other : Token}
      {condition consequence alternative : List Token} {test whenTrue whenFalse : Node}
      (hword : word.kind = .ifWord) (hopening : opening.kind = .lparen)
      (hcondition : Derives .expression condition test) (hclosing : closing.kind = .rparen)
      (hconsequence : Derives .block consequence whenTrue) (hother : other.kind = .elseWord)
      (halternative : Derives .block alternative whenFalse) :
      Derives .expression
        (word :: opening :: (condition ++ closing :: (consequence ++ other :: alternative)))
        (.conditional word test whenTrue whenFalse)
  /-- The first statement of a loop must end in a semicolon of its own. -/
  | loop {word opening first second closing : Token} {init condition post body : List Token}
      {start test step inside : Node}
      (hword : word.kind = .forWord) (hopening : opening.kind = .lparen)
      (hinit : Derives .statement (init ++ [first]) start) (hfirst : first.kind = .semicolon)
      (hcondition : Derives .expression condition test) (hsecond : second.kind = .semicolon)
      (hpost : Derives .statement post step) (hclosing : closing.kind = .rparen)
      (hbody : Derives .block body inside) :
      Derives .expression
        (word :: opening :: (init ++ first :: (condition ++ second :: (post ++ closing :: body))))
        (.loop word start test step inside)
  | function {word opening closing : Token} {names : List Token} {inside body : List Token}
      {node : Node}
      (hword : word.kind = .fnWord) (hopening : opening.kind = .lparen)
      (hnames : ∀ token ∈ names, token.kind = .ident) (hinside : Listed (names.map ([·])) inside)
      (hclosing : closing.kind = .rparen) (hbody : Derives .block body node) :
      Derives .expression (word :: opening :: (inside ++ closing :: body))
        (.function word (names.map nameOf) node)
  | call {opening closing : Token} {callee inside : List Token} {node : Node} {items : List Part}
      (hcallee : Derives .expression callee node) (hopening : opening.kind = .lparen)
      (hitems : ∀ part ∈ items, Derives .expression part.tokens part.tree)
      (hinside : Listed (items.map (·.tokens)) inside) (hclosing : closing.kind = .rparen) :
      Derives .expression (callee ++ opening :: (inside ++ [closing]))
        (.call opening node (trees items))
  | array {opening closing : Token} {inside : List Token} {items : List Part}
      (hopening : opening.kind = .lbracket)
      (hitems : ∀ part ∈ items, Derives .expression part.tokens part.tree)
      (hinside : Listed (items.map (·.tokens)) inside) (hclosing : closing.kind = .rbracket) :
      Derives .expression (opening :: (inside ++ [closing])) (.array opening (trees items))
  | index {opening closing : Token} {collection key : List Token} {first second : Node}
      (hcollection : Derives .expression collection first) (hopening : opening.kind = .lbracket)
      (hkey : Derives .expression key second) (hclosing : closing.kind = .rbracket) :
      Derives .expression (collection ++ opening :: (key ++ [closing]))
        (.index opening first second)
  | hash {opening closing : Token} {inside : List Token} {entries : List Entry}
      (hopening : opening.kind = .lbrace)
      (hkeys : ∀ entry ∈ entries, Derives .expression entry.key.tokens entry.key.tree)
      (hcolons : ∀ entry ∈ entries, entry.colon.kind = .colon)
      (hvalues : ∀ entry ∈ entries, Derives .expression entry.value.tokens entry.value.tree)
      (hinside : Listed (entries.map (·.tokens)) inside) (hclosing : closing.kind = .rbrace) :
      Derives .expression (opening :: (inside ++ [closing]))
        (.hash opening (entries.map (·.trees)))

/-- Only a program can be without tokens. -/
theorem Derives.ne_nil {category : Category} {tokens : List Token} {node : Node}
    (h : Derives category tokens node) (hcategory : category ≠ .program) : tokens ≠ [] := by
  cases h <;> simp at hcategory ⊢

/-! ## Tokens that only close or divide

A token of some kinds is never the first of a phrase and never an operand, so a reader could drop it
unnoticed. The grammar leaves none of them over: their number follows from the tree.
-/

/-- The kinds whose number in a phrase can be told from its tree. -/
def accountedKinds : List Kind :=
  [.eof, .illegal, .and, .breakWord, .colon]

/-- How many tokens of a kind each clause of a switch has besides its phrases. -/
def perClause (kind : Kind) : Nat :=
  (if Kind.breakWord = kind then 1 else 0) + if Kind.colon = kind then 1 else 0

/-- How many tokens of a kind each entry of a hash has besides its phrases. -/
def perEntry (kind : Kind) : Nat :=
  if Kind.colon = kind then 1 else 0

mutual

/-- The number of tokens of an accounted kind that a tree was read from. -/
def tally (kind : Kind) : Node → Nat
  | .hole | .increment .. | .identifier _ | .integer .. | .text .. | .boolean .. => 0
  | .program _ nodes | .block _ nodes | .array _ nodes => tallyAll kind nodes
  | .binding _ _ node | .returning _ node | .expression _ node | .unary _ _ node
  | .function _ _ node => tally kind node
  | .clause _ condition body => perClause kind + tally kind condition + tallyAll kind body
  | .switch _ node nodes | .call _ node nodes => tally kind node + tallyAll kind nodes
  | .binary _ left _ right | .index _ left right => tally kind left + tally kind right
  | .conditional _ condition consequence alternative =>
      tally kind condition + tally kind consequence + tally kind alternative
  | .loop _ init condition post body =>
      tally kind init + tally kind condition + tally kind post + tally kind body
  | .hash _ pairs => tallyPairs kind pairs

def tallyAll (kind : Kind) : List Node → Nat
  | [] => 0
  | node :: rest => tally kind node + tallyAll kind rest

def tallyPairs (kind : Kind) : List (Node × Node) → Nat
  | [] => 0
  | (key, value) :: rest =>
      perEntry kind + tally kind key + tally kind value + tallyPairs kind rest

end

mutual

/-- A kind that neither clauses nor entries have does not occur at all. -/
theorem tally_eq_zero {kind : Kind} (hclause : perClause kind = 0) (hentry : perEntry kind = 0)
    (node : Node) : tally kind node = 0 := by
  cases node <;> simp [tally, hclause, tally_eq_zero hclause hentry,
    tallyAll_eq_zero hclause hentry, tallyPairs_eq_zero hclause hentry]

theorem tallyAll_eq_zero {kind : Kind} (hclause : perClause kind = 0)
    (hentry : perEntry kind = 0) (nodes : List Node) : tallyAll kind nodes = 0 := by
  match nodes with
  | [] => rfl
  | node :: rest =>
      simp [tallyAll, tally_eq_zero hclause hentry node, tallyAll_eq_zero hclause hentry rest]

theorem tallyPairs_eq_zero {kind : Kind} (hclause : perClause kind = 0)
    (hentry : perEntry kind = 0) (pairs : List (Node × Node)) : tallyPairs kind pairs = 0 := by
  match pairs with
  | [] => rfl
  | (key, value) :: rest =>
      simp [tallyPairs, hentry, tally_eq_zero hclause hentry key,
        tally_eq_zero hclause hentry value, tallyPairs_eq_zero hclause hentry rest]

end

/-- The number of tokens of a kind. -/
def occurrences (kind : Kind) (tokens : List Token) : Nat :=
  tokens.countP (·.kind = kind)

section Occurrences
variable (kind : Kind)

@[simp] theorem occurrences_nil : occurrences kind [] = 0 := rfl

@[simp] theorem occurrences_cons (token : Token) (tokens : List Token) :
    occurrences kind (token :: tokens) =
      (if token.kind = kind then 1 else 0) + occurrences kind tokens := by
  simp [occurrences, List.countP_cons, Nat.add_comm]

@[simp] theorem occurrences_append (first second : List Token) :
    occurrences kind (first ++ second) = occurrences kind first + occurrences kind second := by
  simp [occurrences]

theorem occurrences_eq_zero_iff (tokens : List Token) :
    occurrences kind tokens = 0 ↔ ∀ token ∈ tokens, token.kind ≠ kind := by
  simp [occurrences, List.countP_eq_zero]

theorem occurrences_yield {parts : List Part}
    (h : ∀ part ∈ parts, occurrences kind part.tokens = tally kind part.tree) :
    occurrences kind (yield parts) = tallyAll kind (trees parts) := by
  induction parts with
  | nil => rfl
  | cons part rest ih =>
      have hpart := h part (by simp)
      have hrest := ih fun other ho => h other (by simp [ho])
      simp [tallyAll, hpart, hrest]

end Occurrences

/-- Kinds that are not accounted for are none of those that are. -/
theorem ne_of_accounted {kind other : Kind} (hkind : kind ∈ accountedKinds)
    (hother : other ∉ accountedKinds) : ¬ other = kind := by
  rintro rfl
  exact hother hkind

theorem occurrences_of_ending {kind : Kind} (hkind : kind ∈ accountedKinds) {tokens : List Token}
    (h : Ending tokens) : occurrences kind tokens = 0 := by
  cases h with
  | absent => rfl
  | present h => simp [h, ne_of_accounted hkind, accountedKinds]

/-- Commas are not accounted for, so a list has the tokens of its pieces. -/
theorem occurrences_of_commas {kind : Kind} (hkind : kind ∈ accountedKinds)
    {pieces : List (List Token)} {tokens : List Token} (h : Commas pieces tokens) :
    occurrences kind tokens = (pieces.map (occurrences kind)).sum := by
  induction h with
  | one tokens => simp
  | more hcomma _ ih => simp [hcomma, ih, ne_of_accounted hkind, accountedKinds]

theorem occurrences_of_listed {kind : Kind} (hkind : kind ∈ accountedKinds)
    {pieces : List (List Token)} {tokens : List Token} (h : Listed pieces tokens) :
    occurrences kind tokens = (pieces.map (occurrences kind)).sum := by
  cases h with
  | empty => rfl
  | some h => exact occurrences_of_commas hkind h

theorem occurrences_of_items {kind : Kind} (hkind : kind ∈ accountedKinds) {items : List Part}
    {tokens : List Token} (hlisted : Listed (items.map (·.tokens)) tokens)
    (h : ∀ part ∈ items, occurrences kind part.tokens = tally kind part.tree) :
    occurrences kind tokens = tallyAll kind (trees items) := by
  rw [occurrences_of_listed hkind hlisted, List.map_map]
  clear hlisted
  induction items with
  | nil => rfl
  | cons part rest ih =>
      have hpart := h part (by simp)
      have hrest := ih fun other ho => h other (by simp [ho])
      simp [tallyAll, hpart, hrest]

theorem occurrences_of_entries {kind : Kind} (hkind : kind ∈ accountedKinds)
    {entries : List Entry} {tokens : List Token}
    (hlisted : Listed (entries.map (·.tokens)) tokens)
    (hkeys : ∀ entry ∈ entries, occurrences kind entry.key.tokens = tally kind entry.key.tree)
    (hcolons : ∀ entry ∈ entries, entry.colon.kind = .colon)
    (hvalues : ∀ entry ∈ entries,
      occurrences kind entry.value.tokens = tally kind entry.value.tree) :
    occurrences kind tokens = tallyPairs kind (entries.map (·.trees)) := by
  rw [occurrences_of_listed hkind hlisted, List.map_map]
  clear hlisted
  induction entries with
  | nil => rfl
  | cons entry rest ih =>
      have hkey := hkeys entry (by simp)
      have hcolon := hcolons entry (by simp)
      have hvalue := hvalues entry (by simp)
      have hrest := ih (fun other ho => hkeys other (by simp [ho]))
        (fun other ho => hcolons other (by simp [ho]))
        (fun other ho => hvalues other (by simp [ho]))
      rw [List.map_cons, List.sum_cons, hrest, List.map_cons]
      simp only [Function.comp_apply, Entry.tokens, Entry.trees, occurrences_append,
        occurrences_cons, hcolon, hkey, hvalue, tallyPairs, perEntry]
      omega

theorem occurrences_of_names {kind : Kind} (hkind : kind ∈ accountedKinds)
    {names tokens : List Token} (hlisted : Listed (names.map ([·])) tokens)
    (h : ∀ token ∈ names, token.kind = .ident) : occurrences kind tokens = 0 := by
  rw [occurrences_of_listed hkind hlisted, List.map_map]
  clear hlisted
  induction names with
  | nil => rfl
  | cons token rest ih =>
      have hrest := ih fun other ho => h other (by simp [ho])
      simp [h token, hrest, ne_of_accounted hkind, accountedKinds]

theorem not_accounted_of_unary {kind : Kind} (h : kind ∈ unaryKinds) : kind ∉ accountedKinds := by
  revert kind
  decide

theorem not_accounted_of_binary {kind : Kind} (h : kind ∈ binaryKinds) :
    kind ∉ accountedKinds := by
  revert kind
  decide

/-- In every phrase the tree tells the number of tokens of an accounted kind. -/
theorem occurrences_of_derives {kind : Kind} (hkind : kind ∈ accountedKinds)
    {category : Category} {tokens : List Token} {node : Node} (h : Derives category tokens node) :
    occurrences kind tokens = tally kind node := by
  have hne {other : Kind} (ho : other ∉ accountedKinds) : ¬ other = kind :=
    ne_of_accounted hkind ho
  have hend {ending : List Token} (he : Ending ending) : occurrences kind ending = 0 :=
    occurrences_of_ending hkind he
  induction h with
  | program hparts ih => exact occurrences_yield kind ih
  | binding hword htarget hsign _ hending ih =>
      simp [hword, htarget, hsign, hend hending, ih, hne, accountedKinds, tally]
  | returning hword _ hending ih => simp [hword, hend hending, ih, hne, accountedKinds, tally]
  | signedIncrement hsign htarget hending =>
      simp [hsign, htarget, hend hending, hne, accountedKinds, tally]
  | incrementOfName htarget hsign hending =>
      simp [hsign, htarget, hend hending, hne, accountedKinds, tally]
  | switchOn hword _ hopening _ hclosing ih ihs =>
      simp [hword, hopening, hclosing, ih, occurrences_yield kind ihs, hne, accountedKinds, tally]
  | switch hword hopening _ hclosing ihs =>
      simp [hword, hopening, hclosing, occurrences_yield kind ihs, hne, accountedKinds, tally]
  | expression _ hending ih =>
      simp only [occurrences_cons, occurrences_append, hend hending, tally] at *
      omega
  | block hopening _ hclosing ihs =>
      simp [hopening, hclosing, occurrences_yield kind ihs, hne, accountedKinds, tally]
  | clause hword _ hcolon _ hlast hending ih ihs =>
      have hcase : ¬ Kind.caseWord = kind := hne (by decide)
      simp only [occurrences_cons, occurrences_append, hword, hcolon, hlast, hend hending, ih,
        occurrences_yield kind ihs, if_neg hcase, tally, perClause]
      omega
  | identifier h => simp [h, hne, accountedKinds, tally]
  | integer h _ => rcases h with h | h <;> simp [h, hne, accountedKinds, tally]
  | text h => simp [h, hne, accountedKinds, tally]
  | truth h => simp [h, hne, accountedKinds, tally]
  | falsity h => simp [h, hne, accountedKinds, tally]
  | unary hsign _ ih => simp [hne (not_accounted_of_unary hsign), ih, tally]
  | binary _ hsign _ ihl ihr => simp [hne (not_accounted_of_binary hsign), ihl, ihr, tally]
  | group hopening _ hclosing ih => simp [hopening, hclosing, ih, hne, accountedKinds]
  | conditional hword hopening _ hclosing _ ih ihb =>
      simp [hword, hopening, hclosing, ih, ihb, hne, accountedKinds, tally]
  | conditionalElse hword hopening _ hclosing _ hother _ ih ihb ihe =>
      simp [hword, hopening, hclosing, hother, ih, ihb, ihe, hne, accountedKinds, tally,
        Nat.add_assoc]
  | loop hword hopening _ hfirst _ hsecond _ hclosing _ ihi ihc ihp ihb =>
      simp [hword, hopening, hfirst, hsecond, hclosing, hne, accountedKinds, tally] at *
      omega
  | function hword hopening hnames hinside hclosing _ ih =>
      simp [hword, hopening, hclosing, ih, occurrences_of_names hkind hinside hnames, hne,
        accountedKinds, tally]
  | call _ hopening _ hinside hclosing ih ihs =>
      simp [hopening, hclosing, ih, occurrences_of_items hkind hinside ihs, hne, accountedKinds,
        tally]
  | array hopening _ hinside hclosing ihs =>
      simp [hopening, hclosing, occurrences_of_items hkind hinside ihs, hne, accountedKinds,
        tally]
  | index _ hopening _ hclosing ihl ihr =>
      simp [hopening, hclosing, ihl, ihr, hne, accountedKinds, tally]
  | hash hopening _ hcolons _ hinside hclosing ihk ihv =>
      simp [hopening, hclosing, occurrences_of_entries hkind hinside ihk hcolons ihv, hne,
        accountedKinds, tally]

end Monkey.Parse
