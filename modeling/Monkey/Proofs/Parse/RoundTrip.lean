import Monkey.Parse.Program
import Monkey.Proofs.Parse.ReadBack

/-!
# What is rendered is parsed

An expression is special, because what follows may extend it: its rendering is read up to the point
where extensions are looked for. A phrase inside another begins at a later token, so the levels of
the grammar suffice as long as they are as many as the tokens. Main statement: the rendering of a
complete program is parsed without complaint into the program.
-/
namespace Monkey.Parse

open Monkey.Parse.Parser Monkey.Parse.Cursor

/-! ## Expressions -/

section Expressions
variable {allowed : Kind → Prop} {bound depth : Nat} {lexemes : List Lexeme} {node : Node}

/-- The lexemes are read as the beginning of an expression: what is read from there on, after a
token that is allowed there, is what extends this expression. -/
def ReadsUpTo (allowed : Kind → Prop) (bound depth : Nat) (lexemes : List Lexeme) (node : Node) :
    Prop :=
  ∀ token next tokens rest, Spells tokens lexemes →
    (tokens ++ next :: rest).length ≤ depth + 1 → allowed next.kind →
    ∃ count found last, rest.length < count ∧ found.bare = node.bare ∧
      ∀ whole after,
        Yields (extensions (below depth) bound count found) ⟨last, next :: rest⟩ whole after →
        Yields (expression (below depth) bound) (advance ⟨token, tokens ++ next :: rest⟩) whole
          after

theorem ReadsOperand.readsUpTo (h : ReadsOperand allowed (below depth) depth lexemes node)
    (hne : lexemes ≠ []) : ReadsUpTo allowed bound depth lexemes node := by
  intro token next tokens rest htokens hlimit hnext
  obtain ⟨first, more, rfl⟩ := List.exists_cons_of_ne_nil hne
  obtain ⟨head, tokens, rfl, _, _⟩ := htokens.cons
  rw [List.cons_append, List.length_cons] at hlimit
  obtain ⟨found, last, hfound, hread⟩ := h head next tokens rest htokens (by omega) hnext
  exact ⟨_, found, last, Nat.lt_succ_self _, hfound, fun whole after hwhole =>
    .bind hread (.bind_remaining hwhole)⟩

/-- A token stronger than the bound takes what is read before it into a longer expression. -/
theorem ReadsUpTo.extend {opener : Lexeme} {more : List Lexeme} {left : Node}
    {later : Kind → Prop} (h : ReadsUpTo allowed bound depth lexemes left)
    (hopener : allowed opener.1) (hbound : bound < strength opener.1)
    (hextension : ∀ first next tokens rest, ∀ left' : Node, left'.bare = left.bare →
      first.lexeme = opener → Spells tokens more → (tokens ++ next :: rest).length ≤ depth →
      later next.kind → ∃ found last, found.bare = node.bare ∧
        Yields (extension (below depth) left') ⟨first, tokens ++ next :: rest⟩ found
          ⟨last, next :: rest⟩) :
    ReadsUpTo later bound depth (lexemes ++ opener :: more) node := by
  intro token next tokens rest htokens hlimit hnext
  obtain ⟨before, _, rfl, hbefore, htokens⟩ := htokens.append
  obtain ⟨first, tokens, rfl, hfirst, htokens⟩ := htokens.cons
  rw [List.append_assoc, List.cons_append] at hlimit ⊢
  have hkind : first.kind = opener.1 := congrArg Prod.fst hfirst
  obtain ⟨count, left', middle, hcount, hleft, hread⟩ := h token first before
    (tokens ++ next :: rest) hbefore hlimit (by rwa [hkind])
  simp only [List.length_append, List.length_cons] at hlimit hcount
  have hlater : (tokens ++ next :: rest).length ≤ depth := by
    simp only [List.length_append, List.length_cons]
    omega
  obtain ⟨found, last, hfound, hextend⟩ :=
    hextension first next tokens rest left' hleft hfirst htokens hlater hnext
  obtain ⟨count, rfl⟩ : ∃ n, count = n + 1 := ⟨count - 1, by omega⟩
  refine ⟨count, found, last, by omega, hfound, fun whole after hwhole => hread whole after ?_⟩
  exact .bind_peek (.ite_pos (by rwa [peek_cons, hkind]) (.bind_advance (.bind hextend hwhole)))

/-- Where nothing extends it, the expression is all that is read. -/
theorem ReadsUpTo.reads (h : ReadsUpTo allowed bound depth lexemes node)
    (hallowed : ∀ kind, Stops bound kind → allowed kind) :
    ReadsExpression (below (depth + 1)) bound (depth + 1) lexemes node := by
  intro token next tokens rest htokens hlimit hnext
  obtain ⟨count, found, last, hcount, hfound, hread⟩ := h token next tokens rest htokens hlimit
    (hallowed _ hnext)
  obtain ⟨count, rfl⟩ : ∃ n, count = n + 1 := ⟨count - 1, by omega⟩
  have hwhole := hread found ⟨last, next :: rest⟩
    (.bind_peek (.ite_neg (Nat.not_lt.mpr hnext.1) (.pure _ _)))
  refine ⟨found, last, hfound, ?_⟩
  rwa [below, phrase_eq_level]

theorem reads_of_readsUpTo (h : ∀ depth, ReadsUpTo allowed bound depth lexemes node)
    (hallowed : ∀ kind, Stops bound kind → allowed kind) (depth : Nat) :
    ReadsExpression (below depth) bound depth lexemes node := by
  cases depth with
  | zero =>
      intro token next tokens rest _ hlimit
      simp at hlimit
  | succ depth => exact (h depth).reads hallowed

/-- In parentheses, an expression is an operand. -/
theorem readsUpTo_inParens {later : Kind → Prop}
    (h : ∀ depth, ReadsUpTo allowed lowest depth lexemes node)
    (hallowed : ∀ kind, Stops lowest kind → allowed kind) :
    ReadsUpTo later bound depth (inParens lexemes) node :=
  (group_reads (reads_of_readsUpTo h hallowed depth)).readsUpTo (by simp [inParens])

theorem unary_readsUpTo {token : Token} {operator : String} {operand : Node}
    (hoperator : operator ∈ unaryOperators)
    (hoperand : ∀ depth,
      ReadsExpression (below depth) unaryStrength depth (render operand) operand) :
    ReadsUpTo allowed bound depth (render (.unary token operator operand))
      (.unary token operator operand) := by
  refine readsUpTo_inParens
    (fun depth => (unary_reads hoperator (hoperand depth)).readsUpTo (by simp)) ?_
  exact fun kind hkind => ⟨Nat.le_trans hkind.1 (by decide), hkind.2⟩

theorem binary_readsUpTo {token : Token} {left right : Node} {operator : String}
    (hleft : ∀ depth, ReadsUpTo (· ≠ .elseWord) lowest depth (render left) left)
    (hoperator : operator ∈ binaryOperators)
    (hright : ∀ depth, ReadsExpression (below depth) (strength (Kind.ofSign operator)) depth
      (render right) right) :
    ReadsUpTo allowed bound depth (render (.binary token left operator right))
      (.binary token left operator right) := by
  have hsign := ofSign_mem_binaryKinds hoperator
  have hstrong : ∀ kind ∈ binaryKinds, kind ≠ .elseWord ∧ lowest < strength kind := by decide
  refine readsUpTo_inParens (fun depth => (hleft depth).extend (hstrong _ hsign).1
    (hstrong _ hsign).2 ?_) fun _ hkind => hkind
  intro first next tokens rest left' hleft' hfirst htokens hlimit hnext
  have hkind : first.kind = Kind.ofSign operator := Token.kind_eq hfirst
  obtain ⟨right', last, hright', hread⟩ := hright depth first next tokens rest htokens hlimit
    ⟨Nat.le_trans hnext.1 (lowest_le_strength _), hnext.2⟩
  rw [← hkind] at hsign hread
  refine ⟨.binary first left' first.literal right', last, ?_, binary_yields left' hsign hread⟩
  simp only [Node.bare, hleft', hright', Token.literal_eq hfirst]

theorem index_readsUpTo {token : Token} {collection key : Node}
    (hcollection : ∀ depth, ReadsUpTo (· ≠ .elseWord) lowest depth (render collection) collection)
    (hkey : ∀ depth, ReadsExpression (below depth) lowest depth (render key) key) :
    ReadsUpTo allowed bound depth (render (.index token collection key))
      (.index token collection key) := by
  refine readsUpTo_inParens (fun depth => (hcollection depth).extend (by decide) (by decide) ?_)
    fun _ hkind => hkind
  intro first next tokens rest collection' hcollection' hfirst htokens hlimit _
  obtain ⟨inside, closing, rfl, hinside, hclosing⟩ := htokens.concat_mark
  rw [List.append_assoc, List.singleton_append] at hlimit ⊢
  have hstops : Stops lowest closing.kind := .of_kind_eq hclosing (by decide)
  obtain ⟨key', last, hkey', hread⟩ :=
    hkey depth first closing inside (next :: rest) hinside hlimit hstops
  refine ⟨.index first collection' key', closing, ?_,
    index_yields collection' (Token.kind_eq hfirst) hread hclosing⟩
  simp only [Node.bare, hcollection', hkey']

theorem call_readsUpTo {token : Token} {callee : Node} {arguments : List Node}
    (hbound : bound < strength .lparen)
    (hcallee : ReadsUpTo (· ≠ .elseWord) bound depth (render callee) callee)
    (hcomplete : ∀ node ∈ arguments, Complete .expression node)
    (harguments : ∀ node ∈ arguments,
      ReadsExpression (below depth) lowest depth (render node) node) :
    ReadsUpTo allowed bound depth (render (.call token callee arguments))
      (.call token callee arguments) := by
  refine hcallee.extend (by decide) hbound ?_
  intro first next tokens rest callee' hcallee' hfirst htokens hlimit _
  obtain ⟨arguments', last, harguments', hread⟩ := items_reads (by decide) (by decide) (by decide)
    hcomplete harguments first tokens (next :: rest) htokens hlimit
  refine ⟨.call first callee' arguments', last, ?_, .bind_current ?_⟩
  · simp only [Node.bare, hcallee', harguments']
  · have hkind : first.kind = .lparen := Token.kind_eq hfirst
    simp only [hkind]
    exact .bind hread (.pure _ _)

end Expressions

/-! ## Statements -/

section Statements
variable {depth : Nat}

/-- The statement is read back from its first token by the level above `inner`. -/
def ReadsAsStatement (inner : Inner) (limit : Nat) (node : Node) : Prop :=
  ∀ first tokens rest, Spells (first :: tokens) (render node) → (tokens ++ rest).length ≤ limit →
    ∃ found last, found.bare = node.bare ∧ (isSwitch node = false → last.kind = .semicolon) ∧
      Yields (statement inner) ⟨first, tokens ++ rest⟩ found ⟨last, rest⟩

theorem readsStatement_below {node : Node} (hnode : Complete .statement node)
    (h : ∀ depth, ReadsAsStatement (below depth) depth node) (depth : Nat) :
    ReadsStatement (below depth) depth node := by
  intro token tokens rest htokens hlimit
  obtain ⟨_, _, hrender, _⟩ := render_statement_eq_cons hnode
  obtain ⟨first, tokens, rfl, _, _⟩ := (hrender ▸ htokens).cons
  rw [List.cons_append, List.length_cons] at hlimit
  obtain ⟨depth, rfl⟩ : ∃ n, depth = n + 1 := ⟨depth - 1, by omega⟩
  obtain ⟨found, last, hfound, hlast, hread⟩ := h depth first tokens rest htokens (by omega)
  refine ⟨found, last, hfound, hlast, ?_⟩
  rwa [below, phrase_eq_level]

theorem closing_reads {token semicolon : Token} {rest : List Token} (node : Node)
    (h : semicolon.kind = .semicolon) :
    Yields (closing node) ⟨token, semicolon :: rest⟩ node ⟨semicolon, rest⟩ :=
  .bind (.skip h) (.pure _ _)

variable {inner : Inner} {limit : Nat}

theorem binding_yields {first target sign : Token} {others : List Token} {value : Node}
    {middle after : Cursor} (hfirst : first.kind = .letWord) (htarget : target.kind = .ident)
    (hsign : sign.kind = .assign)
    (hvalue : Yields (inner (.expression lowest)) (advance ⟨sign, others⟩) value middle)
    (hclosing : Yields (closing (.binding first (nameOf target) value)) middle
      (.binding first (nameOf target) value) after) :
    Yields (statement inner) ⟨first, target :: sign :: others⟩
      (.binding first (nameOf target) value) after := by
  refine .bind_current (.bind_peek ?_)
  simp only [hfirst]
  exact .bind_current (.bind (.bind_expect htarget (.bind_current (.pure _ _)))
    (.bind_expect hsign (.bind_advance (.bind hvalue.orHole hclosing))))

theorem returning_yields {first : Token} {others : List Token} {value : Node}
    {middle after : Cursor} (hfirst : first.kind = .returnWord)
    (hvalue : Yields (inner (.expression lowest)) (advance ⟨first, others⟩) value middle)
    (hclosing : Yields (closing (.returning first value)) middle (.returning first value) after) :
    Yields (statement inner) ⟨first, others⟩ (.returning first value) after := by
  refine .bind_current (.bind_peek ?_)
  simp only [hfirst]
  exact .bind_current (.bind_advance (.bind hvalue.orHole hclosing))

theorem increment_yields {target sign : Token} {others : List Token} {after : Cursor}
    (htarget : target.kind = .ident) (hsign : sign.kind = .doublePlus)
    (hclosing : Yields (closing (.increment sign (nameOf target))) ⟨sign, others⟩
      (.increment sign (nameOf target)) after) :
    Yields (statement inner) ⟨target, sign :: others⟩ (.increment sign (nameOf target)) after := by
  refine .bind_current (.bind_peek ?_)
  simp only [htarget]
  exact .ite_pos hsign (.bind (.bind_current (.pure _ _)) (.bind_advance (.bind_current hclosing)))

theorem binding_reads {token : Token} {name : Name} {value : Node} (hname : IsName name)
    (hvalue : ReadsExpression inner lowest limit (render value) value) :
    ReadsAsStatement inner limit (.binding token name value) := by
  intro first tokens rest htokens hlimit
  obtain ⟨hfirst, htokens⟩ := htokens.of_cons
  obtain ⟨target, _, rfl, htarget, htokens⟩ := htokens.cons
  obtain ⟨sign, _, rfl, hsign, htokens⟩ := htokens.mark
  obtain ⟨inside, semicolon, rfl, hinside, hsemicolon⟩ := htokens.concat_mark
  simp only [List.cons_append, List.append_assoc, List.nil_append] at hlimit ⊢
  simp only [List.length_cons, List.length_append] at hlimit
  have hlater : (inside ++ semicolon :: rest).length ≤ limit := by
    simp only [List.length_append, List.length_cons]
    omega
  have hstops : Stops lowest semicolon.kind := .of_kind_eq hsemicolon (by decide)
  obtain ⟨value', last, hvalue', hread⟩ :=
    hvalue sign semicolon inside rest hinside hlater hstops
  have htargetKind : target.kind = .ident := (Token.kind_eq htarget).trans hname
  refine ⟨.binding first (nameOf target) value', semicolon, ?_, fun _ => hsemicolon,
    binding_yields (Token.kind_eq hfirst) htargetKind hsign hread (closing_reads _ hsemicolon)⟩
  simp only [Node.bare, hvalue', nameOf, Name.bare, Token.literal_eq htarget]

theorem returning_reads {token : Token} {value : Node}
    (hvalue : ReadsExpression inner lowest limit (render value) value) :
    ReadsAsStatement inner limit (.returning token value) := by
  intro first tokens rest htokens hlimit
  obtain ⟨hfirst, htokens⟩ := htokens.of_cons
  obtain ⟨inside, semicolon, rfl, hinside, hsemicolon⟩ := htokens.concat_mark
  rw [List.append_assoc, List.singleton_append] at hlimit ⊢
  have hstops : Stops lowest semicolon.kind := .of_kind_eq hsemicolon (by decide)
  obtain ⟨value', last, hvalue', hread⟩ :=
    hvalue first semicolon inside rest hinside hlimit hstops
  refine ⟨.returning first value', semicolon, ?_, fun _ => hsemicolon,
    returning_yields (Token.kind_eq hfirst) hread (closing_reads _ hsemicolon)⟩
  simp only [Node.bare, hvalue']

theorem increment_reads {token : Token} {name : Name} (hname : IsName name) :
    ReadsAsStatement inner limit (.increment token name) := by
  intro first tokens rest htokens _
  obtain ⟨hfirst, htokens⟩ := htokens.of_cons
  obtain ⟨sign, _, rfl, hsign, htokens⟩ := htokens.mark
  obtain ⟨semicolon, _, rfl, hsemicolon, hnil⟩ := htokens.mark
  obtain rfl := hnil.nil
  refine ⟨.increment sign (nameOf first), semicolon, ?_, fun _ => hsemicolon,
    increment_yields ((Token.kind_eq hfirst).trans hname) hsign (closing_reads _ hsemicolon)⟩
  simp only [Node.bare, nameOf, Name.bare, Token.literal_eq hfirst]

/-- The kinds that say at once which statement they begin. -/
def decidingKinds : List Kind :=
  [.letWord, .returnWord, .doublePlus, .switchWord]

/-- A statement that begins like an expression is one, unless it looks like an increment. -/
theorem statement_of_start {cursor after : Cursor} {node : Node}
    (hstart : cursor.current.kind ∉ decidingKinds)
    (hpeek : cursor.current.kind = .ident → cursor.peek.kind ≠ .doublePlus)
    (h : Yields (expressionStatement inner) cursor node after) :
    Yields (statement inner) cursor node after := by
  refine .bind_current (.bind_peek ?_)
  split
  next hkind => simp [hkind, decidingKinds] at hstart
  next hkind => simp [hkind, decidingKinds] at hstart
  next hkind => simp [hkind, decidingKinds] at hstart
  next hkind => simp [hkind, decidingKinds] at hstart
  next hkind => exact .ite_neg (hpeek hkind) h
  next => exact h

theorem expressionStatement_reads {token : Token} {body : Node}
    (hcomplete : Complete .expression body)
    (hbody : ReadsUpTo (· ≠ .elseWord) lowest depth (render body) body) :
    ReadsAsStatement (below depth) depth (.expression token body) := by
  intro first tokens rest htokens hlimit
  obtain ⟨head, more, hrender, hstart, hmore⟩ := render_expression_eq_cons hcomplete rfl
  rw [render, hrender] at htokens
  obtain ⟨hfirst, htokens⟩ := htokens.of_cons
  obtain ⟨inside, semicolon, rfl, hinside, hsemicolon⟩ := htokens.concat_mark
  rw [List.append_assoc, List.singleton_append] at hlimit ⊢
  have hspells : Spells (first :: inside) (render body) := by
    rw [hrender, Spells, List.map_cons, hfirst, hinside]
  have hall : (first :: inside ++ semicolon :: rest).length ≤ depth + 1 := by
    simpa using hlimit
  have hstops : Stops lowest semicolon.kind := .of_kind_eq hsemicolon (by decide)
  obtain ⟨body', last, hbody', hread⟩ := hbody.reads (fun _ hkind => hkind.2) first semicolon
    (first :: inside) rest hspells hall hstops
  rw [below, phrase_eq_level] at hread
  have hkind : first.kind = head.1 := congrArg Prod.fst hfirst
  have hstarts : ∀ kind ∈ expressionStarts, kind ∉ decidingKinds := by decide
  refine ⟨.expression first body', semicolon, ?_, fun _ => hsemicolon,
    statement_of_start (hstarts _ (by rwa [hkind])) ?_
      (.bind_current (.bind (Yields.orHole hread) (closing_reads _ hsemicolon)))⟩
  · simp only [Node.bare, hbody']
  · intro hident
    cases inside with
    | nil => simp [hsemicolon]
    | cons second inside =>
        have hhead : second.lexeme ∈ more.head? := by rw [← hinside]; rfl
        exact hmore second.lexeme hhead (hkind ▸ hident)

/-! ## Clauses -/

theorem clauseBody_reads {nodes : List Node} (hcomplete : ∀ node ∈ nodes, Complete .statement node)
    (hnodes : ∀ node ∈ nodes, ReadsStatement inner limit node) (count : Nat) (token closing : Token)
    (tokens rest : List Token) (htokens : Spells tokens (renderEach nodes).flatten)
    (hlimit : (tokens ++ closing :: rest).length ≤ limit)
    (hcount : (tokens ++ closing :: rest).length ≤ count) (hclosing : closing.kind = .breakWord) :
    ∃ found last, Node.bareAll found = Node.bareAll nodes ∧
      Yields (clauseBody inner count) ⟨token, tokens ++ closing :: rest⟩ found
        ⟨last, closing :: rest⟩ := by
  induction nodes generalizing count token tokens with
  | nil =>
      obtain rfl := htokens.nil
      obtain ⟨count, rfl⟩ : ∃ n, count = n + 1 := ⟨count - 1, by simp at hcount; omega⟩
      exact ⟨[], token, rfl, .bind_peek (.ite_pos hclosing (.pure _ _))⟩
  | cons node nodes ih =>
      obtain ⟨mine, others, rfl, hmine, hothers⟩ := htokens.append
      obtain ⟨first, more, hrender, hfirst⟩ := render_statement_eq_cons (hcomplete node (by simp))
      obtain ⟨head, tail, rfl, hhead, _⟩ := (hrender ▸ hmine).cons
      have hstarts : ∀ kind ∈ statementStarts, kind ≠ .breakWord ∧
          ¬ (kind = .eof ∨ kind = .caseWord ∨ kind = .rbrace) := by decide
      have hkind := hstarts head.kind (by rwa [Token.kind_eq hhead])
      rw [List.append_assoc] at hlimit hcount ⊢
      simp only [List.length_append, List.length_cons] at hlimit hcount
      obtain ⟨count, rfl⟩ : ∃ n, count = n + 1 := ⟨count - 1, by omega⟩
      have hall : (head :: tail ++ (others ++ closing :: rest)).length ≤ limit := by
        simp only [List.length_append, List.length_cons]
        omega
      obtain ⟨found, middle, hfound, _, hread⟩ :=
        hnodes node (by simp) token (head :: tail) (others ++ closing :: rest) hmine hall
      have hlater : (others ++ closing :: rest).length ≤ limit ∧
          (others ++ closing :: rest).length ≤ count := by
        simp only [List.length_append, List.length_cons]
        omega
      obtain ⟨more, last, hmore, hrest⟩ := ih (fun other ho => hcomplete other (by simp [ho]))
        (fun other ho => hnodes other (by simp [ho])) count middle others hothers hlater.1 hlater.2
      exact ⟨found :: more, last, by simp [hfound, hmore], .bind_peek (.ite_neg hkind.1
        (.ite_neg hkind.2 (.bind_advance (.bind hread.attempt (.bind hrest (.pure _ _))))))⟩

/-- The clause is read back from its first word, if not more than `limit` tokens follow. -/
def ReadsClause (inner : Inner) (limit : Nat) (node : Node) : Prop :=
  ∀ tokens rest, Spells tokens (render node) → (tokens ++ rest).length ≤ limit →
    ∃ first inside, tokens = first :: inside ∧ first.kind = .caseWord ∧
      ∃ found last, found.bare = node.bare ∧
        Yields (clause inner) ⟨first, inside ++ rest⟩ found ⟨last, rest⟩

theorem clause_reads {token : Token} {condition : Node} {body : List Node}
    (hcondition : ReadsExpression inner lowest limit (render condition) condition)
    (hcomplete : ∀ node ∈ body, Complete .statement node)
    (hbody : ∀ node ∈ body, ReadsStatement inner limit node) :
    ReadsClause inner limit (.clause token condition body) := by
  intro tokens rest htokens hlimit
  obtain ⟨first, _, rfl, hfirst, htokens⟩ := htokens.mark
  obtain ⟨conditionTokens, _, rfl, hconditionTokens, htokens⟩ := htokens.append
  obtain ⟨colon, _, rfl, hcolon, htokens⟩ := htokens.mark
  obtain ⟨inside, _, rfl, hinside, htokens⟩ := htokens.append
  obtain ⟨closing, _, rfl, hclosing, htokens⟩ := htokens.mark
  obtain ⟨semicolon, _, rfl, hsemicolon, hnil⟩ := htokens.mark
  obtain rfl := hnil.nil
  simp only [List.cons_append, List.append_assoc, List.nil_append, List.length_cons,
    List.length_append] at hlimit
  have hall : (conditionTokens ++ colon :: (inside ++ closing :: semicolon :: rest)).length ≤
      limit := by
    simp only [List.length_append, List.length_cons]
    omega
  have hstops : Stops lowest colon.kind := .of_kind_eq hcolon (by decide)
  obtain ⟨condition', last, hcondition', hread⟩ :=
    hcondition first colon conditionTokens _ hconditionTokens hall hstops
  have hlater : (inside ++ closing :: semicolon :: rest).length ≤ limit := by
    simp only [List.length_append, List.length_cons]
    omega
  obtain ⟨body', last', hbody', hbodyRead⟩ := clauseBody_reads hcomplete hbody
    ((inside ++ closing :: semicolon :: rest).length + 1) colon closing inside (semicolon :: rest)
    hinside hlater (Nat.le_succ _) hclosing
  refine ⟨first, _, rfl, hfirst, .clause first condition' body', semicolon, ?_, ?_⟩
  · simp only [Node.bare, hcondition', hbody']
  · simp only [List.cons_append, List.append_assoc, List.nil_append]
    exact .bind_current (.bind_advance (.bind hread.orHole (.bind_expect hcolon (.bind_remaining
      (.bind hbodyRead (.bind_advance (closing_reads _ hsemicolon)))))))

theorem clauses_reads {nodes : List Node} (hnodes : ∀ node ∈ nodes, ReadsClause inner limit node)
    (count : Nat) (token closing : Token) (tokens rest : List Token)
    (htokens : Spells tokens (renderEach nodes).flatten)
    (hlimit : (tokens ++ closing :: rest).length ≤ limit)
    (hcount : (tokens ++ closing :: rest).length ≤ count) (hclosing : closing.kind = .rbrace) :
    ∃ found last, Node.bareAll found = Node.bareAll nodes ∧
      Yields (clauses inner count) ⟨token, tokens ++ closing :: rest⟩ found
        ⟨last, closing :: rest⟩ := by
  induction nodes generalizing count token tokens with
  | nil =>
      obtain rfl := htokens.nil
      obtain ⟨count, rfl⟩ : ∃ n, count = n + 1 := ⟨count - 1, by simp at hcount; omega⟩
      exact ⟨[], token, rfl, .bind_peek (.ite_neg (by simp [hclosing]) (.pure _ _))⟩
  | cons node nodes ih =>
      obtain ⟨mine, others, rfl, hmine, hothers⟩ := htokens.append
      rw [List.append_assoc] at hlimit hcount ⊢
      obtain ⟨first, inside, rfl, hfirst, found, middle, hfound, hread⟩ :=
        hnodes node (by simp) mine (others ++ closing :: rest) hmine hlimit
      simp only [List.length_append, List.length_cons] at hlimit hcount
      obtain ⟨count, rfl⟩ : ∃ n, count = n + 1 := ⟨count - 1, by omega⟩
      have hlater : (others ++ closing :: rest).length ≤ limit ∧
          (others ++ closing :: rest).length ≤ count := by
        simp only [List.length_append, List.length_cons]
        omega
      obtain ⟨more, last, hmore, hrest⟩ := ih (fun other ho => hnodes other (by simp [ho])) count
        middle others hothers hlater.1 hlater.2
      exact ⟨found :: more, last, by simp [hfound, hmore],
        .bind_peek (.ite_pos hfirst (.bind_advance (.bind hread (.bind hrest (.pure _ _)))))⟩

theorem subject_reads {value : Node}
    (hvalue : value = .hole ∨ value.isHole = false ∧
      ReadsExpression inner lowest limit (inParens (render value)) value)
    (token : Token) {brace : Token} {tokens rest : List Token}
    (htokens : Spells tokens (if value.isHole then [] else inParens (render value)))
    (hlimit : (tokens ++ brace :: rest).length ≤ limit) (hbrace : brace.kind = .lbrace) :
    ∃ found last, found.bare = value.bare ∧
      Yields (subject inner) ⟨token, tokens ++ brace :: rest⟩ found ⟨last, brace :: rest⟩ := by
  obtain rfl | ⟨hhole, hvalue⟩ := hvalue
  · obtain rfl := htokens.nil
    exact ⟨.hole, token, rfl, .bind_peek (.ite_pos hbrace (.pure _ _))⟩
  · rw [hhole, if_neg (by simp)] at htokens
    have hstops : Stops lowest brace.kind := .of_kind_eq hbrace (by decide)
    obtain ⟨found, last, hfound, hread⟩ := hvalue token brace tokens rest htokens hlimit hstops
    obtain ⟨opening, _, rfl, hopening, _⟩ := htokens.mark
    exact ⟨found, last, hfound, .bind_peek (.ite_neg (by simp [hopening])
      (.bind_advance hread.orHole))⟩

theorem switch_reads {token : Token} {value : Node} {nodes : List Node}
    (hvalue : value = .hole ∨ value.isHole = false ∧
      ReadsExpression inner lowest limit (inParens (render value)) value)
    (hnodes : ∀ node ∈ nodes, ReadsClause inner limit node) :
    ReadsAsStatement inner limit (.switch token value nodes) := by
  intro first tokens rest htokens hlimit
  obtain ⟨hfirst, htokens⟩ := htokens.of_cons
  obtain ⟨valueTokens, _, rfl, hvalueTokens, htokens⟩ := htokens.append
  obtain ⟨brace, _, rfl, hbrace, htokens⟩ := htokens.mark
  obtain ⟨inside, closing, rfl, hinside, hclosing⟩ := htokens.concat_mark
  simp only [List.cons_append, List.append_assoc, List.nil_append] at hlimit ⊢
  have hlater : (inside ++ closing :: rest).length ≤ limit := by
    simp only [List.length_append, List.length_cons] at hlimit ⊢
    omega
  obtain ⟨value', _, hvalue', hvalueRead⟩ := subject_reads hvalue first hvalueTokens hlimit
    hbrace
  obtain ⟨found, last, hfound, hread⟩ := clauses_reads hnodes _ brace closing inside rest hinside
    hlater (Nat.le_refl _) hclosing
  refine ⟨.switch first value' found, closing, ?_, by simp [isSwitch],
    .bind_current (.bind_peek ?_)⟩
  · simp only [Node.bare, hvalue', hfound]
  · have hkind : first.kind = .switchWord := Token.kind_eq hfirst
    simp only [hkind]
    exact .bind_current (.bind hvalueRead (.bind_expect hbrace (.bind_remaining (.bind hread
      (.bind_expect hclosing (.pure _ _))))))

end Statements

/-! ## All trees -/

/-- The tree is read back, however many levels of the grammar there are for as many tokens. -/
def Legible : Category → Node → Prop
  | .program, _ => True
  | .statement, node => ∀ depth, ReadsStatement (below depth) depth node
  | .block, node => ∀ depth, ReadsBlock (below depth) depth node
  | .clause, node => ∀ depth, ReadsClause (below depth) depth node
  | .expression, node => ∀ bound, bound < strength .lparen → ∀ depth,
      ReadsUpTo (· ≠ .elseWord) bound depth (render node) node

theorem Legible.reads {node : Node} (h : Legible .expression node) {bound : Nat}
    (hbound : bound < strength .lparen) (depth : Nat) :
    ReadsExpression (below depth) bound depth (render node) node :=
  reads_of_readsUpTo (h bound hbound) (fun _ hkind => hkind.2) depth

theorem isHole_of_complete {category : Category} {node : Node} (h : Complete category node) :
    node.isHole = false := by
  cases h <;> rfl

theorem legible_of_complete {category : Category} {node : Node} (h : Complete category node) :
    Legible category node := by
  induction h with
  | program => trivial
  | binding hname hvalue ih =>
      exact readsStatement_below (.binding hname hvalue) fun depth =>
        binding_reads hname (ih.reads (by decide) depth)
  | returning hvalue ih =>
      exact readsStatement_below (.returning hvalue) fun depth =>
        returning_reads (ih.reads (by decide) depth)
  | expression hbody ih =>
      exact readsStatement_below (.expression hbody) fun depth =>
        expressionStatement_reads hbody (ih lowest (by decide) depth)
  | increment hname => exact readsStatement_below (.increment hname) fun _ => increment_reads hname
  | switchOn hsubject hclauses ih ihs =>
      refine readsStatement_below (.switchOn hsubject hclauses) fun depth => ?_
      refine switch_reads (.inr ⟨isHole_of_complete hsubject, ?_⟩) fun node hn => ihs node hn depth
      exact reads_of_readsUpTo (fun depth => readsUpTo_inParens (ih lowest (by decide))
        fun _ hkind => hkind.2) (fun _ hkind => hkind) depth
  | switch hclauses ihs =>
      exact readsStatement_below (.switch hclauses) fun depth =>
        switch_reads (.inl rfl) fun node hn => ihs node hn depth
  | block hnodes ihs => exact fun depth => block_reads hnodes fun node hn => ihs node hn depth
  | clause _ hbody ih ihs =>
      exact fun depth => clause_reads (ih.reads (by decide) depth) hbody
        fun node hn => ihs node hn depth
  | identifier hname => exact fun _ _ _ => (identifier_reads hname).readsUpTo (by simp [render])
  | integer hkind hvalue =>
      exact fun _ _ _ => (integer_reads hkind hvalue).readsUpTo (by simp [render])
  | text => exact fun _ _ _ => text_reads.readsUpTo (by simp [render])
  | boolean => exact fun _ _ _ => boolean_reads.readsUpTo (by simp [render])
  | unary hoperator _ ih =>
      exact fun _ _ _ => unary_readsUpTo hoperator (ih.reads (by decide))
  | binary _ hoperator _ ihl ihr =>
      have hweak : ∀ kind ∈ binaryKinds, strength kind < strength .lparen := by decide
      exact fun _ _ _ => binary_readsUpTo (ihl lowest (by decide)) hoperator
        (ihr.reads (hweak _ (ofSign_mem_binaryKinds hoperator)))
  | conditional _ _ ihc ihb =>
      exact fun _ _ depth => (conditional_reads (ihc.reads (by decide) depth) (ihb depth)
        (.inl rfl)).readsUpTo (by simp [render])
  | conditionalElse _ _ halternative ihc ihb iha =>
      exact fun _ _ depth => (conditional_reads (ihc.reads (by decide) depth) (ihb depth)
        (.inr ⟨isHole_of_complete halternative, iha depth⟩)).readsUpTo (by simp [render])
  | loop _ hswitch _ _ _ ihi ihc ihp ihb =>
      exact fun _ _ depth => (loop_reads (ihi depth) hswitch (ihc.reads (by decide) depth)
        (ihp depth) (ihb depth)).readsUpTo (by simp [render])
  | function hnames _ ih =>
      exact fun _ _ depth => (function_reads hnames (ih depth)).readsUpTo (by simp [render])
  | call _ harguments ih ihs =>
      exact fun bound hbound depth => call_readsUpTo hbound (ih bound hbound depth) harguments
        fun node hn => Legible.reads (ihs node hn) (by decide) depth
  | array helements ihs =>
      exact fun _ _ depth => (array_reads helements fun node hn =>
        Legible.reads (ihs node hn) (by decide) depth).readsUpTo (by simp [render, inBrackets])
  | index _ _ ihl ihr =>
      exact fun _ _ _ => index_readsUpTo (ihl lowest (by decide)) (ihr.reads (by decide))
  | hash hkeys _ ihk ihv =>
      exact fun _ _ depth => (hash_reads hkeys
        (fun pair hp => Legible.reads (ihk pair hp) (by decide) depth)
        fun pair hp => Legible.reads (ihv pair hp) (by decide) depth).readsUpTo
          (by simp [render, inBraces])

/-- The rendering of a complete program, in front of an end marker, is parsed without complaint into
the program, up to the tokens that the tree keeps. -/
theorem tokens_render {program : Node} (hprogram : Complete .program program) {ts : List Token}
    (hts : ts.map (·.lexeme) = render program) {eof : Token} (heof : eof.kind = .eof) :
    (tokens (ts ++ [eof])).isClean ∧ (tokens (ts ++ [eof])).program.bare = program.bare := by
  cases hprogram with
  | @program token nodes hnodes =>
      have hstarts : ∀ kind ∈ statementStarts, ¬ (kind = .eof ∨ (fun _ => false) kind = true) := by
        decide
      have hreads : ∀ node ∈ nodes, ReadsStatement (below (ts.length + 2)) (ts.length + 2) node :=
        fun node hn => legible_of_complete (hnodes node hn) (ts.length + 2)
      obtain ⟨found, hfound, hread⟩ := statements_reads hstarts hnodes hreads (.eofAt ⟨0, 0⟩) eof ts
        [] hts (by simp) (.inl heof)
      have htop : topLevel (ofTokens (ts ++ [eof])) = ⟨some found, [], ⟨eof, []⟩⟩ := by
        refine Yields.bind_remaining ?_
        have hlength : (ofTokens (ts ++ [eof])).rest.length = ts.length := by simp [ofTokens]
        rw [hlength]
        exact hread
      simp only [tokens, Parsed.isClean, Parsed.program, htop]
      exact ⟨rfl, by simp [hfound]⟩

/-- A program that counts, branches and returns a hash from within a function. -/
def tallyProgram : Node :=
  let count : Name := ⟨default, "count"⟩
  let one : Node := .integer ⟨.int, "1", .start⟩ 1
  let result : Node := .hash default [(.text default "k", .unary default "-" one)]
  let branch : Node := .conditional default (.binary default (.identifier count) "<" one)
    (.block default [.returning default result]) (.block default [])
  let pick : Node := .switch default (.identifier count)
    [.clause default one [.expression default (.index default (.array default [one]) one)]]
  .program default
    [.binding default count
        (.function default [count] (.block default [.expression default branch])),
      .expression default (.loop default (.increment default count) (.boolean default true)
        (.expression default (.call default (.identifier count) [one])) (.block default [pick]))]

theorem tokens_render_tallyProgram :
    Complete .program tallyProgram ∧
      (tokens ((render tallyProgram).map .ofLexeme ++ [.eofAt .start])).isClean ∧
      (tokens ((render tallyProgram).map .ofLexeme ++ [.eofAt .start])).program.bare =
        tallyProgram.bare := by
  have hone : Complete .expression (.integer ⟨.int, "1", .start⟩ 1) :=
    .integer (.inl rfl) (by decide)
  have hname : IsName ⟨default, "count"⟩ := by decide
  have hresult : Complete .expression
      (.hash default [(.text default "k", .unary default "-" (.integer ⟨.int, "1", .start⟩ 1))]) :=
    .hash (by simpa using .text) (by simpa using .unary (by decide) hone)
  have hcomplete : Complete .program tallyProgram := by
    refine .program (List.forall_mem_cons.mpr ⟨?_, List.forall_mem_singleton.mpr ?_⟩)
    · refine .binding hname (.function (by simpa using hname) (.block ?_))
      refine List.forall_mem_singleton.mpr (.expression (.conditionalElse ?_ ?_ (.block (by simp))))
      · exact .binary (.identifier hname) (by decide) hone
      · exact .block (List.forall_mem_singleton.mpr (.returning hresult))
    · refine .expression (.loop (.increment hname) rfl .boolean (.expression ?_) (.block ?_))
      · exact .call (.identifier hname) (by simpa using hone)
      · refine List.forall_mem_singleton.mpr (.switchOn (.identifier hname) ?_)
        refine List.forall_mem_singleton.mpr (.clause hone (List.forall_mem_singleton.mpr ?_))
        exact .expression (.index (.array (by simpa using hone)) hone)
  exact ⟨hcomplete, tokens_render hcomplete (Token.map_lexeme_ofLexeme _) rfl⟩

end Monkey.Parse
