import Monkey.Proofs.Parse.Reading
import Monkey.Proofs.Parse.Rendering

/-!
# Renderings are read back

What it means that a parser reads the rendering of its construct back, whatever follows. Lists of
statements, lists between brackets and operands are read back if the phrases inside them are.
-/
namespace Monkey.Parse

open Monkey.Parse.Parser Monkey.Parse.Cursor

/-! ## First tokens -/

/-- The kinds that a rendered expression begins with. -/
def expressionStarts : List Kind :=
  [.ident, .int, .hex, .string, .trueWord, .falseWord, .lparen, .ifWord, .forWord, .fnWord,
    .lbracket, .lbrace]

/-- The kinds that a rendered statement begins with. -/
def statementStarts : List Kind :=
  .letWord :: .returnWord :: .switchWord :: expressionStarts

/-- A rendered expression that begins with a name does not look like an increment. -/
theorem render_expression_eq_cons {category : Category} {node : Node}
    (h : Complete category node) (hcategory : category = .expression) :
    ∃ first more, render node = first :: more ∧ first.1 ∈ expressionStarts ∧
      ∀ lexeme ∈ more.head?, first.1 = .ident → lexeme.1 ≠ .doublePlus := by
  induction h with
  | identifier hname =>
      have hkind : Kind.ofWord _ = .ident := hname
      exact ⟨_, [], rfl, by simp [word, expressionStarts, hkind], by simp⟩
  | integer hkind _ =>
      refine ⟨_, [], rfl, ?_, by simp⟩
      rcases hkind with hkind | hkind <;> simp [Token.lexeme, hkind, expressionStarts]
  | text => exact ⟨_, [], rfl, by simp [expressionStarts], by simp⟩
  | @boolean _ value =>
      refine ⟨_, [], rfl, ?_, by simp⟩
      cases value <;> simp [mark, expressionStarts]
  | call _ _ ih _ =>
      obtain ⟨first, more, hrender, hstart, hmore⟩ := ih rfl
      refine ⟨first, _, by rw [render, hrender, List.cons_append], hstart, ?_⟩
      cases more with
      | nil => simp [inParens, mark]
      | cons second more => simpa using hmore
  | unary | binary | index =>
      exact ⟨_, _, rfl, by simp [mark, expressionStarts], by simp [mark]⟩
  | conditional | conditionalElse | loop | function | array | hash =>
      exact ⟨_, _, rfl, by simp [mark, expressionStarts], by simp [mark]⟩
  | _ => simp at hcategory

theorem render_statement_eq_cons {node : Node} (h : Complete .statement node) :
    ∃ first more, render node = first :: more ∧ first.1 ∈ statementStarts := by
  cases h with
  | binding => exact ⟨_, _, rfl, by simp [mark, statementStarts]⟩
  | returning => exact ⟨_, _, rfl, by simp [mark, statementStarts]⟩
  | increment hname =>
      have hkind : Kind.ofWord _ = .ident := hname
      exact ⟨_, _, rfl, by simp [word, statementStarts, expressionStarts, hkind]⟩
  | switchOn => exact ⟨_, _, rfl, by simp [mark, statementStarts]⟩
  | switch => exact ⟨_, _, rfl, by simp [mark, statementStarts]⟩
  | expression hbody =>
      obtain ⟨first, more, hrender, hstart, _⟩ := render_expression_eq_cons hbody rfl
      exact ⟨first, _, by rw [render, hrender, List.cons_append], by simp [statementStarts, hstart]⟩

/-! ## Contracts -/

/-- The tokens spell the lexemes. -/
def Spells (tokens : List Token) (lexemes : List Lexeme) : Prop :=
  tokens.map (·.lexeme) = lexemes

theorem Spells.cons {tokens : List Token} {lexeme : Lexeme} {lexemes : List Lexeme}
    (h : Spells tokens (lexeme :: lexemes)) :
    ∃ first rest, tokens = first :: rest ∧ first.lexeme = lexeme ∧ Spells rest lexemes :=
  List.map_eq_cons_iff.mp h

theorem Spells.of_cons {token : Token} {tokens : List Token} {lexeme : Lexeme}
    {lexemes : List Lexeme} (h : Spells (token :: tokens) (lexeme :: lexemes)) :
    token.lexeme = lexeme ∧ Spells tokens lexemes :=
  List.cons.inj h

theorem Spells.append {tokens : List Token} {first second : List Lexeme}
    (h : Spells tokens (first ++ second)) :
    ∃ left right, tokens = left ++ right ∧ Spells left first ∧ Spells right second :=
  List.map_eq_append_iff.mp h

theorem Spells.nil {tokens : List Token} (h : Spells tokens []) : tokens = [] :=
  List.map_eq_nil_iff.mp h

theorem Spells.mark {tokens : List Token} {kind : Kind} {lexemes : List Lexeme}
    (h : Spells tokens (mark kind :: lexemes)) :
    ∃ first rest, tokens = first :: rest ∧ first.kind = kind ∧ Spells rest lexemes := by
  obtain ⟨first, rest, rfl, hfirst, hrest⟩ := h.cons
  exact ⟨first, rest, rfl, Token.kind_eq hfirst, hrest⟩

theorem Spells.concat_mark {tokens : List Token} {kind : Kind} {lexemes : List Lexeme}
    (h : Spells tokens (lexemes ++ [Parse.mark kind])) :
    ∃ inside last, tokens = inside ++ [last] ∧ Spells inside lexemes ∧ last.kind = kind := by
  obtain ⟨inside, _, rfl, hinside, hlast⟩ := h.append
  obtain ⟨last, _, rfl, hkind, hnil⟩ := hlast.mark
  obtain rfl := hnil.nil
  exact ⟨inside, last, rfl, hinside, hkind⟩

theorem Spells.singleton {tokens : List Token} {lexeme : Lexeme} (h : Spells tokens [lexeme]) :
    ∃ token, tokens = [token] ∧ token.lexeme = lexeme := by
  obtain ⟨token, _, rfl, htoken, hnil⟩ := h.cons
  obtain rfl := hnil.nil
  exact ⟨token, rfl, htoken⟩

theorem Spells.enclosed {opening closing : Kind} {tokens : List Token} {lexemes : List Lexeme}
    (h : Spells tokens (Parse.mark opening :: (lexemes ++ [Parse.mark closing]))) :
    ∃ first inside last, tokens = first :: (inside ++ [last]) ∧ first.lexeme = Parse.mark opening ∧
      Spells inside lexemes ∧ last.kind = closing := by
  obtain ⟨first, _, rfl, hfirst, hrest⟩ := h.cons
  obtain ⟨inside, last, rfl, hinside, hlast⟩ := hrest.concat_mark
  exact ⟨first, inside, last, rfl, hfirst, hinside, hlast⟩

/-- What reads the phrases inside a phrase of some level. -/
def below : Nat → Inner
  | 0 => fun _ => noExpression
  | depth + 1 => phrase depth

theorem phrase_eq_level (depth : Nat) : phrase depth = level (below depth) := by
  cases depth <;> rfl

/-- A token of this kind goes on neither with an expression read to `bound` nor with a conditional
at its end. -/
def Stops (bound : Nat) (kind : Kind) : Prop :=
  strength kind ≤ bound ∧ kind ≠ .elseWord

instance (bound : Nat) (kind : Kind) : Decidable (Stops bound kind) :=
  inferInstanceAs (Decidable (_ ∧ _))

theorem Stops.of_kind_eq {bound : Nat} {token : Token} {kind : Kind} (hkind : token.kind = kind)
    (h : Stops bound kind) : Stops bound token.kind := by
  rwa [hkind]

/-- The lexemes are read as this expression behind any token and in front of any that stops it, if
not more than `limit` tokens follow. -/
def ReadsExpression (inner : Inner) (bound limit : Nat) (lexemes : List Lexeme) (node : Node) :
    Prop :=
  ∀ token next tokens rest, Spells tokens lexemes → (tokens ++ next :: rest).length ≤ limit →
    Stops bound next.kind → ∃ found last, found.bare = node.bare ∧
      Yields (inner (.expression bound)) (advance ⟨token, tokens ++ next :: rest⟩) found
        ⟨last, next :: rest⟩

/-- The statement is read back behind any token, if not more than `limit` tokens follow. -/
def ReadsStatement (inner : Inner) (limit : Nat) (node : Node) : Prop :=
  ∀ token tokens rest, Spells tokens (render node) → (tokens ++ rest).length ≤ limit →
    ∃ found last, found.bare = node.bare ∧ (isSwitch node = false → last.kind = .semicolon) ∧
      Yields (inner .statement) (advance ⟨token, tokens ++ rest⟩) found ⟨last, rest⟩

/-! ## Constructs -/

theorem integerValue?_of_lexeme {first second : Token} (h : first.lexeme = second.lexeme) :
    integerValue? first = integerValue? second := by
  simp only [integerValue?, numeralBase, Token.kind_eq h, Token.literal_eq h]

section Constructs
variable {inner : Inner} {others : List Token} {node : Node}

theorem integer_yields {token : Token} {value : Int} (hkind : token.kind = .int ∨ token.kind = .hex)
    (hvalue : integerValue? token = some value) (rest : List Token) :
    Yields (operand inner) ⟨token, rest⟩ (.integer token value) ⟨token, rest⟩ := by
  have hinteger : Yields integer ⟨token, rest⟩ (.integer token value) ⟨token, rest⟩ := by
    refine .bind_current ?_
    simp only [hvalue]
    exact .pure _ _
  refine .bind_current ?_
  rcases hkind with hint | hhex
  · simpa only [hint] using hinteger
  · simpa only [hhex] using hinteger

theorem group_yields {opening closing last : Token} {rest : List Token}
    (hopening : opening.kind = .lparen)
    (h : Yields (inner (.expression lowest)) (advance ⟨opening, others⟩) node
      ⟨last, closing :: rest⟩) (hclosing : closing.kind = .rparen) :
    Yields (operand inner) ⟨opening, others⟩ node ⟨closing, rest⟩ := by
  refine .bind_current ?_
  simp only [hopening]
  exact .bind_advance (.bind h.attempt (.bind_expect hclosing (.pure _ _)))

theorem unary_yields {sign : Token} {after : Cursor} (hsign : sign.kind ∈ unaryKinds)
    (h : Yields (inner (.expression unaryStrength)) (advance ⟨sign, others⟩) node after) :
    Yields (operand inner) ⟨sign, others⟩ (.unary sign sign.literal node) after := by
  have hunary : Yields (unary inner) ⟨sign, others⟩ (.unary sign sign.literal node) after :=
    .bind_current (.bind_advance (.bind h.orHole (.pure _ _)))
  refine .bind_current ?_
  simp only [unaryKinds, List.mem_cons, List.not_mem_nil, or_false] at hsign
  rcases hsign with hbang | hminus
  · simpa only [hbang] using hunary
  · simpa only [hminus] using hunary

theorem binary_yields {sign : Token} {after : Cursor} (left : Node)
    (hsign : sign.kind ∈ binaryKinds)
    (h : Yields (inner (.expression (strength sign.kind))) (advance ⟨sign, others⟩) node after) :
    Yields (extension inner left) ⟨sign, others⟩ (.binary sign left sign.literal node) after := by
  refine .bind_current ?_
  dsimp only
  split
  next hparen => simp [hparen, binaryKinds] at hsign
  next hbracket => simp [hbracket, binaryKinds] at hsign
  next => exact .bind_advance (.bind h.orHole (.pure _ _))

theorem index_yields {opening closing last : Token} {rest : List Token} (left : Node)
    (hopening : opening.kind = .lbracket)
    (h : Yields (inner (.expression lowest)) (advance ⟨opening, others⟩) node
      ⟨last, closing :: rest⟩) (hclosing : closing.kind = .rbracket) :
    Yields (extension inner left) ⟨opening, others⟩ (.index opening left node) ⟨closing, rest⟩ := by
  refine .bind_current ?_
  simp only [hopening]
  exact .bind_advance (.bind h.orHole (.bind_expect hclosing (.pure _ _)))

end Constructs

section Lists
variable {inner : Inner} {limit : Nat}

/-! ## Lists of statements -/

theorem statementsUpTo_reads {closes : Kind → Bool}
    (hstarts : ∀ kind ∈ statementStarts, ¬ (kind = .eof ∨ closes kind)) {nodes : List Node}
    (hcomplete : ∀ node ∈ nodes, Complete .statement node)
    (hnodes : ∀ node ∈ nodes, ReadsStatement inner limit node) (count : Nat) (token closing : Token)
    (tokens rest : List Token) (htokens : Spells tokens (renderEach nodes).flatten)
    (hlimit : (tokens ++ closing :: rest).length ≤ limit)
    (hcount : (tokens ++ closing :: rest).length ≤ count)
    (hclosing : closing.kind = .eof ∨ closes closing.kind) :
    ∃ found, Node.bareAll found = Node.bareAll nodes ∧
      Yields (statementsUpTo inner closes count) (advance ⟨token, tokens ++ closing :: rest⟩) found
        ⟨closing, rest⟩ := by
  induction nodes generalizing count token tokens with
  | nil =>
      obtain rfl := htokens.nil
      obtain ⟨count, rfl⟩ : ∃ n, count = n + 1 := ⟨count - 1, by simp at hcount; omega⟩
      exact ⟨[], rfl, .bind_current (.ite_pos hclosing (.pure _ _))⟩
  | cons node nodes ih =>
      obtain ⟨mine, others, rfl, hmine, hothers⟩ := htokens.append
      obtain ⟨first, more, hrender, hfirst⟩ := render_statement_eq_cons (hcomplete node (by simp))
      obtain ⟨head, tail, rfl, hhead, _⟩ := (hrender ▸ hmine).cons
      have hkind : ¬ (head.kind = .eof ∨ closes head.kind) :=
        hstarts head.kind (by rwa [Token.kind_eq hhead])
      rw [List.append_assoc] at hlimit hcount ⊢
      simp only [List.length_append, List.length_cons] at hlimit hcount
      obtain ⟨count, rfl⟩ : ∃ n, count = n + 1 := ⟨count - 1, by omega⟩
      have hall : (head :: tail ++ (others ++ closing :: rest)).length ≤ limit := by
        simp only [List.length_append, List.length_cons]
        omega
      obtain ⟨found, last, hfound, _, hread⟩ :=
        hnodes node (by simp) token (head :: tail) (others ++ closing :: rest) hmine hall
      have hlater : (others ++ closing :: rest).length ≤ limit ∧
          (others ++ closing :: rest).length ≤ count := by
        simp only [List.length_append, List.length_cons]
        omega
      obtain ⟨more, hmore, hrest⟩ := ih (fun other ho => hcomplete other (by simp [ho]))
        (fun other ho => hnodes other (by simp [ho])) count last others hothers hlater.1 hlater.2
      refine ⟨found :: more, by simp [Node.bareAll, hfound, hmore], ?_⟩
      refine .bind_current (.ite_neg hkind (.bind hread.attempt ?_))
      exact .bind_advance (.bind hrest (.pure _ _))

theorem statements_reads {closes : Kind → Bool}
    (hstarts : ∀ kind ∈ statementStarts, ¬ (kind = .eof ∨ closes kind)) {nodes : List Node}
    (hcomplete : ∀ node ∈ nodes, Complete .statement node)
    (hnodes : ∀ node ∈ nodes, ReadsStatement inner limit node) (token closing : Token)
    (tokens rest : List Token) (htokens : Spells tokens (renderEach nodes).flatten)
    (hlimit : (tokens ++ closing :: rest).length ≤ limit)
    (hclosing : closing.kind = .eof ∨ closes closing.kind) :
    ∃ found, Node.bareAll found = Node.bareAll nodes ∧
      Yields (statements inner closes) (advance ⟨token, tokens ++ closing :: rest⟩) found
        ⟨closing, rest⟩ := by
  have hcount : (tokens ++ closing :: rest).length ≤
      (Cursor.mk token (tokens ++ closing :: rest)).advance.rest.length + 1 := by
    rw [length_rest_advance]
    dsimp only
    omega
  obtain ⟨found, hfound, hread⟩ := statementsUpTo_reads hstarts hcomplete hnodes _ token closing
    tokens rest htokens hlimit hcount hclosing
  exact ⟨found, hfound, .bind_remaining hread⟩

/-- The block is read back from its opening brace, if not more than `limit` tokens follow. -/
def ReadsBlock (inner : Inner) (limit : Nat) (node : Node) : Prop :=
  ∀ tokens rest, Spells tokens (render node) → (tokens ++ rest).length ≤ limit →
    ∃ opening inside, tokens = opening :: inside ∧ opening.kind = .lbrace ∧
      ∃ found last, found.bare = node.bare ∧
        Yields (block inner) ⟨opening, inside ++ rest⟩ found ⟨last, rest⟩

theorem block_reads {token : Token} {nodes : List Node}
    (hcomplete : ∀ node ∈ nodes, Complete .statement node)
    (hnodes : ∀ node ∈ nodes, ReadsStatement inner limit node) :
    ReadsBlock inner limit (.block token nodes) := by
  intro tokens rest htokens hlimit
  obtain ⟨opening, _, rfl, hopening, htokens⟩ := htokens.mark
  obtain ⟨inside, closing, rfl, hinside, hkind⟩ := htokens.concat_mark
  rw [List.cons_append, List.append_assoc, List.singleton_append, List.length_cons] at hlimit
  have hstarts : ∀ kind ∈ statementStarts, ¬ (kind = .eof ∨ decide (kind = .rbrace) = true) := by
    decide
  obtain ⟨found, hfound, hread⟩ := statements_reads hstarts hcomplete hnodes opening closing
    inside rest hinside (by omega) (by simp [hkind])
  refine ⟨opening, _, rfl, hopening, .block opening found, closing, ?_, ?_⟩
  · rw [Node.bare, Node.bare, hfound]
  · rw [List.append_assoc, List.singleton_append]
    exact .bind_current (.bind_advance (.bind hread
      (.bind_current (.ite_neg (by simp [hkind]) (.pure _ _)))))

/-! ## Lists between brackets -/

section ListOf
variable {α γ : Type} {parser : Parser α} {renderOf : α → List Lexeme} {bareOf : α → γ}
  {closer : Kind}

/-- An item of a list is read back in front of a comma or the closing bracket. -/
def ReadsItem (parser : Parser α) (renderOf : α → List Lexeme) (bareOf : α → γ) (closer : Kind)
    (limit : Nat) (item : α) : Prop :=
  ∀ token next tokens rest, Spells tokens (renderOf item) →
    (tokens ++ next :: rest).length ≤ limit → next.kind = .comma ∨ next.kind = closer →
    ∃ found last, bareOf found = bareOf item ∧
      Yields parser ⟨token, tokens ++ next :: rest⟩ found ⟨last, next :: rest⟩

theorem next_of_commas {closing : Token} {tokens : List Token} {pieces : List (List Lexeme)}
    (htokens : Spells tokens (pieces.flatMap (mark .comma :: ·))) (hclosing : closing.kind = closer)
    (rest : List Token) :
    ∃ next after, tokens ++ closing :: rest = next :: after ∧
      (next.kind = .comma ∨ next.kind = closer) := by
  cases pieces with
  | nil => exact ⟨closing, rest, by rw [htokens.nil, List.nil_append], .inr hclosing⟩
  | cons =>
      obtain ⟨next, _, rfl, hnext, _⟩ := htokens.mark
      exact ⟨next, _, rfl, .inl hnext⟩

theorem moreOf_reads (hcloser : closer ≠ .comma) {items : List α}
    (hitems : ∀ item ∈ items, ReadsItem parser renderOf bareOf closer limit item) (count : Nat)
    (token closing : Token) (tokens rest : List Token)
    (htokens : Spells tokens ((items.map renderOf).flatMap (mark .comma :: ·)))
    (hlimit : (tokens ++ closing :: rest).length ≤ limit)
    (hcount : tokens.length < count) (hclosing : closing.kind = closer) :
    ∃ found last, found.map bareOf = items.map bareOf ∧
      Yields (moreOf parser count) ⟨token, tokens ++ closing :: rest⟩ found
        ⟨last, closing :: rest⟩ := by
  induction items generalizing count token tokens with
  | nil =>
      obtain rfl := htokens.nil
      obtain ⟨count, rfl⟩ : ∃ n, count = n + 1 := ⟨count - 1, by omega⟩
      exact ⟨[], token, rfl, .bind_peek (.ite_neg (by simpa [hclosing]) (.pure _ _))⟩
  | cons item items ih =>
      simp only [List.map_cons, List.flatMap_cons, List.cons_append] at htokens
      obtain ⟨comma, _, rfl, hkind, htokens⟩ := htokens.mark
      obtain ⟨mine, others, rfl, hmine, hothers⟩ := htokens.append
      rw [List.cons_append, List.append_assoc] at hlimit ⊢
      simp only [List.length_append, List.length_cons] at hlimit hcount
      obtain ⟨count, rfl⟩ : ∃ n, count = n + 1 := ⟨count - 1, by omega⟩
      obtain ⟨next, after, hnext, hlast⟩ := next_of_commas hothers hclosing rest
      have hall : (mine ++ next :: after).length ≤ limit := by
        rw [← hnext]
        simp only [List.length_append, List.length_cons]
        omega
      obtain ⟨found, last, hfound, hread⟩ :=
        hitems item (by simp) comma next mine after hmine hall hlast
      have hlater : (others ++ closing :: rest).length ≤ limit := by
        simp only [List.length_append, List.length_cons]
        omega
      obtain ⟨more, final, hmore, hrest⟩ := ih (fun other ho => hitems other (by simp [ho])) count
        last others hothers hlater (by omega)
      rw [hnext] at hrest ⊢
      exact ⟨found :: more, final, by simp [hfound, hmore],
        .bind_peek (.ite_pos hkind (.bind_advance (.bind hread (.bind hrest (.pure _ _)))))⟩

theorem listOf_reads (hcloser : closer ≠ .comma) {items : List α}
    (hfirst : ∀ item ∈ items, ∃ first more, renderOf item = first :: more ∧ first.1 ≠ closer)
    (hitems : ∀ item ∈ items, ReadsItem parser renderOf bareOf closer limit item)
    (token : Token) (tokens rest : List Token)
    (htokens : Spells tokens (commas (items.map renderOf) ++ [mark closer]))
    (hlimit : (tokens ++ rest).length ≤ limit) :
    ∃ found last, found.map bareOf = items.map bareOf ∧
      Yields (listOf parser closer) ⟨token, tokens ++ rest⟩ found ⟨last, rest⟩ := by
  obtain ⟨inside, closing, rfl, hinside, hkind⟩ := htokens.concat_mark
  rw [List.append_assoc, List.singleton_append] at hlimit ⊢
  cases items with
  | nil =>
      obtain rfl := hinside.nil
      exact ⟨[], closing, rfl, .bind_peek (.ite_pos hkind (.bind_advance (.pure _ _)))⟩
  | cons item items =>
      obtain ⟨mine, others, rfl, hmine, hothers⟩ := hinside.append
      obtain ⟨first, more, hrender, hne⟩ := hfirst item (by simp)
      obtain ⟨head, tail, rfl, hhead, _⟩ := (hrender ▸ hmine).cons
      have hpeek : ¬ head.kind = closer := by rwa [Token.kind_eq hhead]
      rw [List.append_assoc] at hlimit ⊢
      obtain ⟨next, after, hnext, hlast⟩ := next_of_commas hothers hkind rest
      obtain ⟨found, last, hfound, hread⟩ := hitems item (by simp) token next (head :: tail) after
        hmine (by rw [← hnext]; exact hlimit) hlast
      have hlater : (others ++ closing :: rest).length ≤ limit := by
        simp only [List.length_append, List.length_cons] at hlimit ⊢
        omega
      have hmore : ∀ other ∈ items, ReadsItem parser renderOf bareOf closer limit other :=
        fun other ho => hitems other (by simp [ho])
      obtain ⟨others', final, hothers', hrest⟩ := moreOf_reads hcloser hmore
        (others ++ closing :: rest).length last closing others rest hothers hlater (by simp) hkind
      rw [hnext] at hrest ⊢
      exact ⟨found :: others', closing, by simp [hfound, hothers'],
        .bind_peek (.ite_neg hpeek (.bind hread (.bind_remaining (.bind hrest
          (.bind_expect hkind (.pure _ _))))))⟩

end ListOf

theorem expectName_reads {name : Name} (hname : IsName name) :
    ReadsItem expectName ([word ·]) Name.bare .rparen limit name := by
  intro token next tokens rest htokens _ _
  obtain ⟨first, _, rfl, hfirst, hnil⟩ := htokens.cons
  obtain rfl := hnil.nil
  have hkind : first.kind = .ident := (Token.kind_eq hfirst).trans hname
  refine ⟨⟨first, first.literal⟩, first, ?_, .bind_expect hkind (.bind_current (.pure _ _))⟩
  rw [Name.bare, Name.bare, Token.literal_eq hfirst]

theorem item_reads {node : Node} {closer : Kind}
    (hnode : ReadsExpression inner lowest limit (render node) node)
    (hcloser : Stops lowest closer) :
    ReadsItem (item inner) render Node.bare closer limit node := by
  intro token next tokens rest htokens hlimit hnext
  have hstops : Stops lowest next.kind := by
    obtain hcomma | hclosing := hnext
    · rw [hcomma]
      decide
    · rwa [hclosing]
  obtain ⟨found, last, hfound, hread⟩ := hnode token next tokens rest htokens hlimit hstops
  exact ⟨found, last, hfound, .bind_advance hread⟩

theorem pair_reads {pair : Node × Node}
    (hkey : ReadsExpression inner lowest limit (render pair.1) pair.1)
    (hvalue : ReadsExpression inner lowest limit (render pair.2) pair.2) :
    ReadsItem (Parse.pair inner) (fun pair => render pair.1 ++ mark .colon :: render pair.2)
      (fun pair => (pair.1.bare, pair.2.bare)) .rbrace limit pair := by
  intro token next tokens rest htokens hlimit hnext
  obtain ⟨keyTokens, _, rfl, hkeyTokens, htokens⟩ := htokens.append
  obtain ⟨colon, valueTokens, rfl, hcolon, hvalueTokens⟩ := htokens.mark
  rw [List.append_assoc, List.cons_append] at hlimit ⊢
  have hlater : (valueTokens ++ next :: rest).length ≤ limit := by
    simp only [List.length_append, List.length_cons] at hlimit ⊢
    omega
  obtain ⟨key, _, hkeyFound, hkeyRead⟩ := item_reads hkey (by decide) token colon keyTokens _
    hkeyTokens hlimit (.inr hcolon)
  obtain ⟨value, last, hvalueFound, hvalueRead⟩ := item_reads hvalue (by decide) colon next
    valueTokens rest hvalueTokens hlater hnext
  exact ⟨(key, value), last, Prod.ext hkeyFound hvalueFound, .bind hkeyRead
    (.bind_expect hcolon (.bind hvalueRead (.pure _ _)))⟩

/-! ## Operands -/

/-- The lexemes are read as this operand in front of a token that is allowed there, if not more
than `limit` tokens follow the first. -/
def ReadsOperand (allowed : Kind → Prop) (inner : Inner) (limit : Nat) (lexemes : List Lexeme)
    (node : Node) : Prop :=
  ∀ first next tokens rest, Spells (first :: tokens) lexemes →
    (tokens ++ next :: rest).length ≤ limit → allowed next.kind →
    ∃ found last, found.bare = node.bare ∧
      Yields (operand inner) ⟨first, tokens ++ next :: rest⟩ found ⟨last, next :: rest⟩

variable {allowed : Kind → Prop}

/-- An operand of one token is read without a look at the others. -/
theorem leaf_reads {lexeme : Lexeme} {node : Node}
    (h : ∀ first : Token, first.lexeme = lexeme → ∃ found : Node, found.bare = node.bare ∧
      ∀ rest, Yields (operand inner) ⟨first, rest⟩ found ⟨first, rest⟩) :
    ReadsOperand allowed inner limit [lexeme] node := by
  intro first next tokens rest htokens _ _
  obtain ⟨hfirst, hnil⟩ := htokens.of_cons
  obtain rfl := hnil.nil
  obtain ⟨found, hfound, hread⟩ := h first hfirst
  exact ⟨found, first, hfound, hread _⟩

theorem identifier_reads {name : Name} (hname : IsName name) :
    ReadsOperand allowed inner limit (render (.identifier name)) (.identifier name) := by
  refine leaf_reads fun first hfirst => ⟨.identifier ⟨first, first.literal⟩, ?_, fun rest => ?_⟩
  · rw [Node.bare, Node.bare, Name.bare, Name.bare, Token.literal_eq hfirst]
  · have hkind : first.kind = .ident := (Token.kind_eq hfirst).trans hname
    refine .bind_current ?_
    simp only [hkind]
    exact .pure _ _

theorem integer_reads {token : Token} {value : Int} (hkind : token.kind = .int ∨ token.kind = .hex)
    (hvalue : integerValue? token = some value) :
    ReadsOperand allowed inner limit (render (.integer token value)) (.integer token value) := by
  refine leaf_reads fun first hfirst => ⟨.integer first value, by rw [Node.bare, Node.bare], ?_⟩
  rw [← Token.kind_eq hfirst] at hkind
  exact integer_yields hkind ((integerValue?_of_lexeme hfirst).trans hvalue)

theorem text_reads {token : Token} {value : String} :
    ReadsOperand allowed inner limit (render (.text token value)) (.text token value) := by
  refine leaf_reads fun first hfirst => ⟨.text first first.literal, ?_, fun rest => ?_⟩
  · rw [Node.bare, Node.bare, Token.literal_eq hfirst]
  · refine .bind_current ?_
    simp only [Token.kind_eq hfirst]
    exact .pure _ _

theorem boolean_reads {token : Token} {value : Bool} :
    ReadsOperand allowed inner limit (render (.boolean token value)) (.boolean token value) := by
  refine leaf_reads fun first hfirst => ⟨.boolean first value, by rw [Node.bare, Node.bare], ?_⟩
  intro rest
  refine .bind_current ?_
  cases value with
  | true =>
      have hkind : first.kind = .trueWord := Token.kind_eq hfirst
      simp only [hkind]
      exact .pure _ _
  | false =>
      have hkind : first.kind = .falseWord := Token.kind_eq hfirst
      simp only [hkind]
      exact .pure _ _

theorem group_reads {lexemes : List Lexeme} {node : Node}
    (hbody : ReadsExpression inner lowest limit lexemes node) :
    ReadsOperand allowed inner limit (inParens lexemes) node := by
  intro first next tokens rest htokens hlimit _
  obtain ⟨hfirst, htokens⟩ := htokens.of_cons
  obtain ⟨inside, closing, rfl, hinside, hclosing⟩ := htokens.concat_mark
  rw [List.append_assoc, List.singleton_append] at hlimit ⊢
  have hstops : Stops lowest closing.kind := .of_kind_eq hclosing (by decide)
  obtain ⟨found, last, hfound, hread⟩ :=
    hbody first closing inside (next :: rest) hinside hlimit hstops
  exact ⟨found, closing, hfound, group_yields (Token.kind_eq hfirst) hread hclosing⟩

theorem unary_reads {token : Token} {operator : String} {operand : Node}
    (hoperator : operator ∈ unaryOperators)
    (hoperand : ReadsExpression inner unaryStrength limit (render operand) operand) :
    ReadsOperand (Stops unaryStrength) inner limit (operatorMark operator :: render operand)
      (.unary token operator operand) := by
  intro first next tokens rest htokens hlimit hnext
  obtain ⟨hfirst, htokens⟩ := htokens.of_cons
  obtain ⟨found, last, hfound, hread⟩ := hoperand first next tokens rest htokens hlimit hnext
  refine ⟨.unary first first.literal found, last, ?_, ?_⟩
  · rw [Node.bare, Node.bare, hfound, Token.literal_eq hfirst]
  · have hkind := ofSign_mem_unaryKinds hoperator
    rw [← Token.kind_eq hfirst] at hkind
    exact unary_yields hkind hread

theorem conditional_reads {token : Token} {condition consequence alternative : Node}
    (hcondition : ReadsExpression inner lowest limit (render condition) condition)
    (hconsequence : ReadsBlock inner limit consequence)
    (halternative : alternative = .hole ∨
      alternative.isHole = false ∧ ReadsBlock inner limit alternative) :
    ReadsOperand (· ≠ .elseWord) inner limit
      (render (.conditional token condition consequence alternative))
      (.conditional token condition consequence alternative) := by
  intro first next tokens rest htokens hlimit hnext
  obtain ⟨hfirst, htokens⟩ := htokens.of_cons
  obtain ⟨opening, _, rfl, hopening, htokens⟩ := htokens.mark
  obtain ⟨_, _, rfl, htokens, htail⟩ := htokens.append
  obtain ⟨inside, closing, rfl, hinside, hclosing⟩ := htokens.concat_mark
  obtain ⟨body, others, rfl, hbody, hothers⟩ := htail.append
  simp only [List.cons_append, List.append_assoc, List.nil_append] at hlimit ⊢
  simp only [List.length_cons, List.length_append] at hlimit
  have hlater : (inside ++ closing :: (body ++ (others ++ next :: rest))).length ≤ limit := by
    simp only [List.length_append, List.length_cons]
    omega
  have hstops : Stops lowest closing.kind := .of_kind_eq hclosing (by decide)
  obtain ⟨found, _, hfound, hread⟩ :=
    hcondition opening closing inside (body ++ (others ++ next :: rest)) hinside hlater hstops
  have hlater' : (body ++ (others ++ next :: rest)).length ≤ limit := by
    simp only [List.length_append, List.length_cons]
    omega
  obtain ⟨brace, body, rfl, hbrace, block, last, hblock, hblockRead⟩ :=
    hconsequence body (others ++ next :: rest) hbody hlater'
  have hkind : first.kind = .ifWord := Token.kind_eq hfirst
  obtain rfl | ⟨hhole, halternative⟩ := halternative
  · obtain rfl := hothers.nil
    refine ⟨.conditional first found block .hole, last, ?_, .bind_current ?_⟩
    · simp only [Node.bare, hfound, hblock]
    · simp only [hkind]
      exact .bind_current (.bind_expect hopening (.bind_advance (.bind hread.orHole
        (.bind_expect hclosing (.bind_expect hbrace (.bind hblockRead
          (.bind_peek (.ite_neg hnext (.pure _ _)))))))))
  · rw [hhole, if_neg (by simp)] at hothers
    obtain ⟨word, others, rfl, hword, hothers⟩ := hothers.mark
    have hlater'' : (others ++ next :: rest).length ≤ limit := by
      simp only [List.length_append, List.length_cons] at hlimit ⊢
      omega
    obtain ⟨brace', others, rfl, hbrace', block', last', hblock', hblockRead'⟩ :=
      halternative others (next :: rest) hothers hlater''
    refine ⟨.conditional first found block block', last', ?_, .bind_current ?_⟩
    · simp only [Node.bare, hfound, hblock, hblock']
    · simp only [hkind]
      exact .bind_current (.bind_expect hopening (.bind_advance (.bind hread.orHole
        (.bind_expect hclosing (.bind_expect hbrace (.bind hblockRead
          (.bind_peek (.ite_pos hword (.bind_advance (.bind_expect hbrace'
            (.bind hblockRead' (.pure _ _))))))))))))

theorem loop_reads {token : Token} {init condition post body : Node}
    (hinit : ReadsStatement inner limit init) (hswitch : isSwitch init = false)
    (hcondition : ReadsExpression inner lowest limit (render condition) condition)
    (hpost : ReadsStatement inner limit post) (hbody : ReadsBlock inner limit body) :
    ReadsOperand allowed inner limit (render (.loop token init condition post body))
      (.loop token init condition post body) := by
  intro first next tokens rest htokens hlimit _
  obtain ⟨hfirst, htokens⟩ := htokens.of_cons
  obtain ⟨opening, _, rfl, hopening, htokens⟩ := htokens.mark
  obtain ⟨initTokens, _, rfl, hinitTokens, htokens⟩ := htokens.append
  obtain ⟨conditionTokens, _, rfl, hconditionTokens, htokens⟩ := htokens.append
  obtain ⟨semicolon, _, rfl, hsemicolon, htokens⟩ := htokens.mark
  obtain ⟨postTokens, _, rfl, hpostTokens, htokens⟩ := htokens.append
  obtain ⟨closing, bodyTokens, rfl, hclosing, hbodyTokens⟩ := htokens.mark
  simp only [List.cons_append, List.append_assoc] at hlimit ⊢
  simp only [List.length_cons, List.length_append] at hlimit
  have hlater : (initTokens ++ (conditionTokens ++ semicolon ::
      (postTokens ++ closing :: (bodyTokens ++ next :: rest)))).length ≤ limit := by
    simp only [List.length_append, List.length_cons]
    omega
  obtain ⟨init', last, hfound, hlast, hinitRead⟩ := hinit opening initTokens _ hinitTokens hlater
  have hlater' : (conditionTokens ++ semicolon ::
      (postTokens ++ closing :: (bodyTokens ++ next :: rest))).length ≤ limit := by
    simp only [List.length_append, List.length_cons]
    omega
  have hstops : Stops lowest semicolon.kind := .of_kind_eq hsemicolon (by decide)
  obtain ⟨condition', _, hfound', hconditionRead⟩ :=
    hcondition last semicolon conditionTokens _ hconditionTokens hlater' hstops
  have hlater'' : (postTokens ++ closing :: (bodyTokens ++ next :: rest)).length ≤ limit := by
    simp only [List.length_append, List.length_cons]
    omega
  obtain ⟨post', _, hfound'', _, hpostRead⟩ := hpost semicolon postTokens _ hpostTokens hlater''
  have hlast' : (bodyTokens ++ next :: rest).length ≤ limit := by
    simp only [List.length_append, List.length_cons]
    omega
  obtain ⟨brace, bodyTokens, rfl, hbrace, block, final, hblock, hblockRead⟩ :=
    hbody bodyTokens (next :: rest) hbodyTokens hlast'
  have hkind : first.kind = .forWord := Token.kind_eq hfirst
  refine ⟨.loop first init' condition' post' block, final, ?_, .bind_current ?_⟩
  · simp only [Node.bare, hfound, hfound', hfound'', hblock]
  · simp only [hkind]
    exact .bind_current (.bind_expect hopening (.bind_advance (.bind hinitRead.orHole
      (.bind_current (.ite_neg (not_not.mpr (hlast hswitch)) (.bind_advance
        (.bind hconditionRead.orHole (.bind_expect hsemicolon (.bind_advance
          (.bind hpostRead.orHole (.bind_expect hclosing (.bind_expect hbrace
            (.bind hblockRead (.pure _ _))))))))))))))

theorem function_reads {token : Token} {names : List Name} {body : Node}
    (hnames : ∀ name ∈ names, IsName name) (hbody : ReadsBlock inner limit body) :
    ReadsOperand allowed inner limit (render (.function token names body))
      (.function token names body) := by
  intro first next tokens rest htokens hlimit _
  obtain ⟨hfirst, htokens⟩ := htokens.of_cons
  obtain ⟨opening, _, rfl, hopening, htokens⟩ := htokens.mark
  obtain ⟨inside, bodyTokens, rfl, hinside, hbodyTokens⟩ := htokens.append
  simp only [List.cons_append, List.append_assoc] at hlimit ⊢
  simp only [List.length_cons, List.length_append] at hlimit
  have hfirst' : ∀ name ∈ names, ∃ head more, [word name] = head :: more ∧ head.1 ≠ .rparen := by
    intro name hname
    have hkind : Kind.ofWord name.text = .ident := hnames name hname
    exact ⟨_, [], rfl, by simp [word, hkind]⟩
  have hitems : ∀ name ∈ names, ReadsItem expectName ([word ·]) Name.bare .rparen limit name :=
    fun name hname => expectName_reads (hnames name hname)
  have hlater : (inside ++ (bodyTokens ++ next :: rest)).length ≤ limit := by
    simp only [List.length_append, List.length_cons]
    omega
  obtain ⟨found, closing, hfound, hread⟩ :=
    listOf_reads (by decide) hfirst' hitems opening inside _ hinside hlater
  have hlater' : (bodyTokens ++ next :: rest).length ≤ limit := by
    simp only [List.length_append, List.length_cons]
    omega
  obtain ⟨brace, bodyTokens, rfl, hbrace, block, last, hblock, hblockRead⟩ :=
    hbody bodyTokens (next :: rest) hbodyTokens hlater'
  have hkind : first.kind = .fnWord := Token.kind_eq hfirst
  refine ⟨.function first found block, last, ?_, .bind_current ?_⟩
  · simp only [Node.bare, hfound, hblock]
  · simp only [hkind]
    exact .bind_current (.bind_expect hopening (.bind hread (.bind_expect hbrace
      (.bind hblockRead (.pure _ _)))))

theorem items_reads {closer : Kind} (hcloser : Stops lowest closer) (hcomma : closer ≠ .comma)
    (hstarts : closer ∉ expressionStarts) {nodes : List Node}
    (hcomplete : ∀ node ∈ nodes, Complete .expression node)
    (hnodes : ∀ node ∈ nodes, ReadsExpression inner lowest limit (render node) node) (token : Token)
    (tokens rest : List Token)
    (htokens : Spells tokens (commas (renderEach nodes) ++ [mark closer]))
    (hlimit : (tokens ++ rest).length ≤ limit) :
    ∃ found last, Node.bareAll found = Node.bareAll nodes ∧
      Yields (items inner closer) ⟨token, tokens ++ rest⟩ found ⟨last, rest⟩ := by
  have hfirst : ∀ node ∈ nodes, ∃ first more, render node = first :: more ∧ first.1 ≠ closer := by
    intro node hnode
    obtain ⟨first, more, hrender, hstart, _⟩ := render_expression_eq_cons (hcomplete node hnode) rfl
    exact ⟨first, more, hrender, fun heq => hstarts (heq ▸ hstart)⟩
  rw [renderEach_eq_map] at htokens
  simp only [Node.bareAll_eq_map]
  exact listOf_reads hcomma hfirst (fun node hnode => item_reads (hnodes node hnode) hcloser) token
    tokens rest htokens hlimit

theorem array_reads {token : Token} {elements : List Node}
    (hcomplete : ∀ node ∈ elements, Complete .expression node)
    (hnodes : ∀ node ∈ elements, ReadsExpression inner lowest limit (render node) node) :
    ReadsOperand allowed inner limit (render (.array token elements)) (.array token elements) := by
  intro first next tokens rest htokens hlimit _
  obtain ⟨hfirst, htokens⟩ := htokens.of_cons
  obtain ⟨found, last, hfound, hread⟩ := items_reads (by decide) (by decide) (by decide) hcomplete
    hnodes first tokens (next :: rest) htokens hlimit
  refine ⟨.array first found, last, ?_, .bind_current ?_⟩
  · simp only [Node.bare, hfound]
  · have hkind : first.kind = .lbracket := Token.kind_eq hfirst
    simp only [hkind]
    exact .bind_current (.bind hread (.pure _ _))

theorem hash_reads {token : Token} {pairs : List (Node × Node)}
    (hcomplete : ∀ pair ∈ pairs, Complete .expression pair.1)
    (hkeys : ∀ pair ∈ pairs, ReadsExpression inner lowest limit (render pair.1) pair.1)
    (hvalues : ∀ pair ∈ pairs, ReadsExpression inner lowest limit (render pair.2) pair.2) :
    ReadsOperand allowed inner limit (render (.hash token pairs)) (.hash token pairs) := by
  intro first next tokens rest htokens hlimit _
  obtain ⟨hfirst, htokens⟩ := htokens.of_cons
  rw [renderPairs_eq_map] at htokens
  have hfirst' : ∀ pair ∈ pairs, ∃ head more,
      render pair.1 ++ mark .colon :: render pair.2 = head :: more ∧ head.1 ≠ .rbrace := by
    intro pair hpair
    obtain ⟨head, more, hrender, hstart, _⟩ := render_expression_eq_cons (hcomplete pair hpair) rfl
    refine ⟨head, _, by rw [hrender, List.cons_append], fun heq => ?_⟩
    simp [heq, expressionStarts] at hstart
  obtain ⟨found, last, hfound, hread⟩ := listOf_reads (by decide) hfirst'
    (fun pair hpair => pair_reads (hkeys pair hpair) (hvalues pair hpair)) first tokens
    (next :: rest) htokens hlimit
  refine ⟨.hash first found, last, ?_, .bind_current ?_⟩
  · simp only [Node.bare, Node.barePairs_eq_map, hfound]
  · have hkind : first.kind = .lbrace := Token.kind_eq hfirst
    simp only [hkind]
    exact .bind_current (.bind hread (.pure _ _))

end Lists

end Monkey.Parse
