import Monkey.Proofs.Parse.Abreast
import Monkey.Proofs.Parse.RoundTrip

/-!
# Tokens that cohere

The grammar leaves open how operators group. `Coheres` decides it by their strength: tokens cohere
with some strength if the tree they stand for holds together between operators that are not
stronger. A sign in front holds what follows it more strongly than any operator between operands,
and nothing divides a name, a numeral, a call, an index or what is in brackets. Main statement:
tokens that cohere are read as their tree, whatever follows, as long as it is not stronger.
-/
namespace Monkey.Parse

open Monkey.Parse.Parser Monkey.Parse.Cursor

/-- The strength of what no operator divides. -/
def undivided : Nat := strength .lbracket

/-- Tokens that stand for the tree, with operators grouped by their strength. Neither an operator on
the left that is weaker nor one on the right that is not stronger takes a part of the tree away. -/
inductive Coheres : Nat → List Token → Node → Prop where
  | weaken {hold weaker : Nat} {tokens : List Token} {node : Node} (h : Coheres hold tokens node)
      (hle : weaker ≤ hold) : Coheres weaker tokens node
  | identifier {token : Token} (h : token.kind = .ident) :
      Coheres undivided [token] (.identifier (nameOf token))
  | integer {token : Token} {value : Int} (hkind : token.kind = .int ∨ token.kind = .hex)
      (hvalue : integerValue? token = some value) :
      Coheres undivided [token] (.integer token value)
  | truth {token : Token} (h : token.kind = .trueWord) :
      Coheres undivided [token] (.boolean token true)
  | falsity {token : Token} (h : token.kind = .falseWord) :
      Coheres undivided [token] (.boolean token false)
  | unary {sign : Token} {operand : List Token} {node : Node} (hsign : sign.kind ∈ unaryKinds)
      (hoperand : Coheres unaryStrength operand node) :
      Coheres unaryStrength (sign :: operand) (.unary sign sign.literal node)
  /-- Operators of equal strength group to the left. -/
  | binary {sign : Token} {left right : List Token} {first second : Node}
      (hleft : Coheres (strength sign.kind) left first) (hsign : sign.kind ∈ binaryKinds)
      (hright : Coheres (strength sign.kind + 1) right second) :
      Coheres (strength sign.kind) (left ++ sign :: right)
        (.binary sign first sign.literal second)
  | group {opening closing : Token} {body : List Token} {node : Node}
      (hopening : opening.kind = .lparen) (hbody : Coheres (lowest + 1) body node)
      (hclosing : closing.kind = .rparen) :
      Coheres undivided (opening :: (body ++ [closing])) node
  | call {opening closing : Token} {callee inside : List Token} {node : Node} {items : List Part}
      (hcallee : Coheres undivided callee node) (hopening : opening.kind = .lparen)
      (hitems : ∀ part ∈ items, Coheres (lowest + 1) part.tokens part.tree)
      (hinside : Listed (items.map (·.tokens)) inside) (hclosing : closing.kind = .rparen) :
      Coheres undivided (callee ++ opening :: (inside ++ [closing])) (.call opening node (trees items))
  | index {opening closing : Token} {collection key : List Token} {first second : Node}
      (hcollection : Coheres undivided collection first) (hopening : opening.kind = .lbracket)
      (hkey : Coheres (lowest + 1) key second) (hclosing : closing.kind = .rbracket) :
      Coheres undivided (collection ++ opening :: (key ++ [closing])) (.index opening first second)
  | array {opening closing : Token} {inside : List Token} {items : List Part}
      (hopening : opening.kind = .lbracket)
      (hitems : ∀ part ∈ items, Coheres (lowest + 1) part.tokens part.tree)
      (hinside : Listed (items.map (·.tokens)) inside) (hclosing : closing.kind = .rbracket) :
      Coheres undivided (opening :: (inside ++ [closing])) (.array opening (trees items))
  | hash {opening closing : Token} {inside : List Token} {entries : List Entry}
      (hopening : opening.kind = .lbrace)
      (hkeys : ∀ entry ∈ entries, Coheres (lowest + 1) entry.key.tokens entry.key.tree)
      (hcolons : ∀ entry ∈ entries, entry.colon.kind = .colon)
      (hvalues : ∀ entry ∈ entries, Coheres (lowest + 1) entry.value.tokens entry.value.tree)
      (hinside : Listed (entries.map (·.tokens)) inside) (hclosing : closing.kind = .rbrace) :
      Coheres undivided (opening :: (inside ++ [closing])) (.hash opening (entries.map (·.trees)))

/-! ## First tokens -/

/-- The kinds that tokens which cohere begin with. -/
def coherentStarts : List Kind :=
  [.ident, .int, .hex, .trueWord, .falseWord, .bang, .minus, .lparen, .lbracket, .lbrace]

/-- The tokens begin like an expression, and not like an increment. -/
def BeginsExpression (tokens : List Token) : Prop :=
  ∃ first more, tokens = first :: more ∧ first.kind ∈ coherentStarts ∧
    ∀ second ∈ more.head?, first.kind = .ident → second.kind ≠ .doublePlus

theorem BeginsExpression.extend {tokens : List Token} (h : BeginsExpression tokens) {opener : Token}
    (hopener : opener.kind ≠ .doublePlus) (others : List Token) :
    BeginsExpression (tokens ++ opener :: others) := by
  obtain ⟨first, more, rfl, hfirst, hmore⟩ := h
  refine ⟨first, more ++ opener :: others, rfl, hfirst, ?_⟩
  cases more with
  | nil => simpa using fun _ => hopener
  | cons second more => simpa using hmore

theorem Coheres.begins {hold : Nat} {tokens : List Token} {node : Node}
    (h : Coheres hold tokens node) : BeginsExpression tokens := by
  have hbinary : ∀ kind ∈ binaryKinds, kind ≠ .doublePlus := by decide
  have hunary : ∀ kind ∈ unaryKinds, kind ∈ coherentStarts ∧ kind ≠ .ident := by decide
  induction h with
  | weaken _ _ ih => exact ih
  | identifier h | truth h | falsity h =>
      exact ⟨_, [], rfl, by simp [h, coherentStarts], by simp⟩
  | integer hkind _ =>
      refine ⟨_, [], rfl, ?_, by simp⟩
      rcases hkind with hkind | hkind <;> simp [hkind, coherentStarts]
  | unary hsign _ _ =>
      obtain ⟨hstart, hne⟩ := hunary _ hsign
      exact ⟨_, _, rfl, hstart, fun _ _ hident => absurd hident hne⟩
  | binary _ hsign _ ih _ => exact ih.extend (hbinary _ hsign) _
  | group hopening | array hopening | hash hopening =>
      exact ⟨_, _, rfl, by simp [hopening, coherentStarts], by simp [hopening]⟩
  | call _ hopening _ _ _ ih | index _ hopening _ _ ih => exact ih.extend (by simp [hopening]) _

theorem Coheres.ne_nil {hold : Nat} {tokens : List Token} {node : Node}
    (h : Coheres hold tokens node) : tokens ≠ [] := by
  obtain ⟨_, _, rfl, _⟩ := h.begins
  exact List.cons_ne_nil _ _

/-! ## Lists between brackets -/

theorem exists_append_of_commas {pieces : List (List Token)} {tokens : List Token}
    (h : Commas pieces tokens) : ∃ piece ∈ pieces, ∃ others, tokens = piece ++ others := by
  cases h with
  | one => exact ⟨tokens, List.mem_singleton_self _, [], by simp⟩
  | more => exact ⟨_, List.mem_cons_self, _, rfl⟩

section ListOf
variable {α β : Type} {parser : Parser α} {closer : Kind} {limit : Nat}

/-- An item of a list is read in front of a comma or the closing bracket. -/
def ItemReads (parser : Parser α) (closer : Kind) (limit : Nat) (tokens : List Token) (value : α) :
    Prop :=
  ∀ token next rest, (tokens ++ next :: rest).length ≤ limit →
    next.kind = .comma ∨ next.kind = closer →
    ∃ last, Yields parser ⟨token, tokens ++ next :: rest⟩ value ⟨last, next :: rest⟩

variable {items : List β} {tokensOf : β → List Token} {valueOf : β → α}
  (hcloser : closer ≠ .comma)
  (hitems : ∀ item ∈ items, ItemReads parser closer limit (tokensOf item) (valueOf item))
  {inside : List Token} {closing : Token} (hclosing : closing.kind = closer)
include hcloser hitems hclosing

/-- The first item is read, and then the others behind their commas. -/
theorem commas_yield (hinside : Commas (items.map tokensOf) inside) (token : Token)
    (rest : List Token) (hlimit : (inside ++ closing :: rest).length ≤ limit) :
    ∃ first others middle later last, items.map valueOf = first :: others ∧
      later.length ≤ inside.length ∧
      Yields parser ⟨token, inside ++ closing :: rest⟩ first ⟨middle, later ++ closing :: rest⟩ ∧
      ∀ count, later.length ≤ count →
        Yields (moreOf parser count) ⟨middle, later ++ closing :: rest⟩ others
          ⟨last, closing :: rest⟩ := by
  induction items generalizing inside token with
  | nil => cases hinside
  | cons item items ih =>
      obtain ⟨hitem, hothers⟩ := List.forall_mem_cons.mp hitems
      cases items with
      | nil =>
          cases hinside with
          | one =>
              obtain ⟨middle, hread⟩ := hitem token closing rest hlimit (.inr hclosing)
              refine ⟨valueOf item, [], middle, [], middle, rfl, Nat.zero_le _, hread, ?_⟩
              intro count _
              exact moreOf_of_ne_comma parser count (by simpa [hclosing] using hcloser)
          | more _ hrest => cases hrest
      | cons next items =>
          cases hinside with
          | @more _ others _ comma hcomma hrest =>
              simp only [List.append_assoc, List.cons_append, List.length_append,
                List.length_cons] at hlimit ⊢
              obtain ⟨middle, hread⟩ := hitem token comma (others ++ closing :: rest)
                (by simp only [List.length_append, List.length_cons]; omega) (.inl hcomma)
              obtain ⟨first, more, after, later, last, hvalues, hlength, hfirst, hmore⟩ :=
                ih hothers hrest comma (by simp only [List.length_append, List.length_cons]; omega)
              refine ⟨valueOf item, first :: more, middle, comma :: others, last, ?_, ?_, hread, ?_⟩
              · rw [List.map_cons, hvalues]
              · simp only [List.length_cons]
                omega
              · intro count hcount
                rw [List.length_cons] at hcount
                obtain ⟨count, rfl⟩ : ∃ n, count = n + 1 := ⟨count - 1, by omega⟩
                exact .bind_peek (.ite_pos hcomma (.bind_advance (.bind hfirst
                  (.bind (hmore count (by omega)) (.pure _ _)))))

omit hcloser hitems hclosing in
theorem exists_start_of_commas (hinside : Commas (items.map tokensOf) inside)
    (hstarts : ∀ item ∈ items, BeginsExpression (tokensOf item)) :
    ∃ first more, inside = first :: more ∧ first.kind ∈ coherentStarts := by
  obtain ⟨_, hpiece, others, rfl⟩ := exists_append_of_commas hinside
  obtain ⟨item, hitem, rfl⟩ := List.mem_map.mp hpiece
  obtain ⟨first, more, heq, hfirst, _⟩ := hstarts item hitem
  exact ⟨first, more ++ others, by rw [heq, List.cons_append], hfirst⟩

theorem listOf_yields (hstarts : ∀ item ∈ items, BeginsExpression (tokensOf item))
    (hstart : closer ∉ coherentStarts) (hinside : Listed (items.map tokensOf) inside)
    (token : Token) (rest : List Token) (hlimit : (inside ++ closing :: rest).length ≤ limit) :
    Yields (listOf parser closer) ⟨token, inside ++ closing :: rest⟩ (items.map valueOf)
      ⟨closing, rest⟩ := by
  generalize hpieces : items.map tokensOf = pieces at hinside
  cases hinside with
  | empty =>
      obtain rfl := List.map_eq_nil_iff.mp hpieces
      exact .bind_peek (.ite_pos hclosing (.bind_advance (.pure _ _)))
  | some hcommas =>
      subst hpieces
      obtain ⟨first, others, middle, later, last, hvalues, _, hfirst, hmore⟩ :=
        commas_yield hcloser hitems hclosing hcommas token rest hlimit
      obtain ⟨head, more, rfl, hhead⟩ := exists_start_of_commas hcommas hstarts
      have hopen : ¬ head.kind = closer := fun heq => hstart (heq ▸ hhead)
      rw [hvalues]
      refine .bind_peek (.ite_neg hopen (.bind hfirst (.bind_remaining (.bind (hmore _ ?_)
        (.bind_expect hclosing (.pure _ _))))))
      simp

end ListOf

/-! ## Expressions -/

/-- The kind of the token in front; behind the last one there are end markers. -/
def ahead (rest : List Token) : Kind :=
  (rest.head?.map (·.kind)).getD .eof

theorem kind_peek (last : Token) (rest : List Token) :
    (Cursor.peek ⟨last, rest⟩).kind = ahead rest := by
  cases rest <;> rfl

/-- Read to the bound, tokens that cohere with such a strength are not cut off. A sign in front is
read to the end of its operand, whatever the bound. -/
def Admits (bound hold : Nat) : Prop :=
  bound ≤ unaryStrength ∧ (bound < hold ∨ unaryStrength ≤ hold)

instance (bound hold : Nat) : Decidable (Admits bound hold) :=
  inferInstanceAs (Decidable (_ ∧ _))

theorem Admits.le {bound hold : Nat} (h : Admits bound hold) : bound ≤ hold := by
  obtain ⟨hbound, hhold⟩ := h
  omega

/-- The tokens are read as the beginning of an expression: what is read from there on, if it is not
stronger, is what extends the tree. -/
def ReadsAs (hold : Nat) (tokens : List Token) (node : Node) : Prop :=
  ∀ depth bound token rest, Admits bound hold → (tokens ++ rest).length ≤ depth + 1 →
    strength (ahead rest) ≤ hold →
    ∃ count last, rest.length ≤ count ∧ ∀ whole after,
      Yields (extensions (below depth) bound count node) ⟨last, rest⟩ whole after →
      Yields (expression (below depth) bound) (advance ⟨token, tokens ++ rest⟩) whole after

/-- The tokens are all that is read as this expression. -/
def ReadsWhole (bound : Nat) (tokens : List Token) (node : Node) : Prop :=
  ∀ depth token rest, (tokens ++ rest).length ≤ depth → strength (ahead rest) ≤ bound →
    ∃ last, Yields (below depth (.expression bound)) (advance ⟨token, tokens ++ rest⟩) node
      ⟨last, rest⟩

section
variable {hold bound : Nat} {tokens : List Token} {node : Node}

theorem ReadsAs.weaken (h : ReadsAs hold tokens node) {weaker : Nat} (hle : weaker ≤ hold) :
    ReadsAs weaker tokens node := by
  intro depth bound token rest hadmits hlimit hnext
  obtain ⟨hbound, hweaker⟩ := hadmits
  exact h depth bound token rest ⟨hbound, by omega⟩ hlimit (Nat.le_trans hnext hle)

/-- Where nothing stronger than the bound follows, the expression ends. -/
theorem ReadsAs.expression (h : ReadsAs hold tokens node) (hadmits : Admits bound hold)
    {depth : Nat} (token : Token) {rest : List Token} (hlimit : (tokens ++ rest).length ≤ depth + 1)
    (hnext : strength (ahead rest) ≤ bound) :
    ∃ last, Yields (expression (below depth) bound) (advance ⟨token, tokens ++ rest⟩) node
      ⟨last, rest⟩ := by
  obtain ⟨count, last, _, hread⟩ :=
    h depth bound token rest hadmits hlimit (Nat.le_trans hnext hadmits.le)
  refine ⟨last, hread node ⟨last, rest⟩ (extensions_of_not_lt _ count node ?_)⟩
  rw [kind_peek]
  omega

theorem ReadsAs.whole (h : ReadsAs hold tokens node) (hne : tokens ≠ [])
    (hadmits : Admits bound hold) : ReadsWhole bound tokens node := by
  intro depth token rest hlimit hnext
  have hpos : 0 < tokens.length := List.length_pos_iff.mpr hne
  rw [List.length_append] at hlimit
  obtain ⟨depth, rfl⟩ : ∃ n, depth = n + 1 := ⟨depth - 1, by omega⟩
  rw [below, phrase_eq_level]
  exact h.expression hadmits token (by rw [List.length_append]; omega) hnext

/-- An operand is the beginning of an expression. -/
theorem readsAs_of_operand (hold : Nat) {first : Token} {more : List Token}
    (h : ∀ depth rest, (more ++ rest).length ≤ depth → strength (ahead rest) ≤ hold →
      ∃ last, Yields (operand (below depth)) ⟨first, more ++ rest⟩ node ⟨last, rest⟩) :
    ReadsAs hold (first :: more) node := by
  intro depth bound token rest _ hlimit hnext
  rw [List.cons_append, List.length_cons] at hlimit
  obtain ⟨last, hread⟩ := h depth rest (by omega) hnext
  exact ⟨rest.length, last, Nat.le_refl _, fun whole after hwhole =>
    .bind hread (.bind_remaining hwhole)⟩

/-- What is read up to a token that is stronger than the bound is extended by it. -/
theorem ReadsAs.extend {opener : Token} {more : List Token} {longer : Node} {later : Nat}
    (h : ReadsAs hold tokens node) (hopener : strength opener.kind ≤ hold)
    (hadmits : ∀ bound, Admits bound later → Admits bound hold ∧ bound < strength opener.kind)
    (hextension : ∀ depth rest, (more ++ rest).length ≤ depth → strength (ahead rest) ≤ later →
      ∃ last, Yields (extension (below depth) node) ⟨opener, more ++ rest⟩ longer ⟨last, rest⟩) :
    ReadsAs later (tokens ++ opener :: more) longer := by
  intro depth bound token rest hlater hlimit hnext
  obtain ⟨hbefore, hbound⟩ := hadmits bound hlater
  rw [List.append_assoc, List.cons_append] at hlimit ⊢
  obtain ⟨count, middle, hcount, hread⟩ :=
    h depth bound token (opener :: (more ++ rest)) hbefore hlimit hopener
  simp only [List.length_append, List.length_cons] at hlimit hcount
  obtain ⟨count, rfl⟩ : ∃ n, count = n + 1 := ⟨count - 1, by omega⟩
  obtain ⟨last, hextend⟩ := hextension depth rest (by rw [List.length_append]; omega) hnext
  refine ⟨count, last, by omega, fun whole after hwhole => hread whole after ?_⟩
  exact .bind_peek (.ite_pos hbound (.bind_advance (.bind hextend hwhole)))

theorem ReadsWhole.item (h : ReadsWhole lowest tokens node) {closer : Kind}
    (hcloser : strength closer ≤ lowest) (depth : Nat) :
    ItemReads (item (below depth)) closer depth tokens node := by
  intro token next rest hlimit hnext
  have hstops : strength (ahead (next :: rest)) ≤ lowest := by
    rcases hnext with hkind | hkind
    · simp [ahead, hkind, strength]
    · simpa [ahead, hkind] using hcloser
  obtain ⟨last, hread⟩ := h depth token (next :: rest) hlimit hstops
  exact ⟨last, .bind_advance hread⟩

theorem items_yield {parts : List Part} {closer : Kind} {inside : List Token} {closing : Token}
    (hcloser : closer = .rparen ∨ closer = .rbracket)
    (hparts : ∀ part ∈ parts, BeginsExpression part.tokens ∧ ReadsWhole lowest part.tokens part.tree)
    (hinside : Listed (parts.map (·.tokens)) inside) (hclosing : closing.kind = closer) (depth : Nat)
    (token : Token) (rest : List Token) (hlimit : (inside ++ closing :: rest).length ≤ depth) :
    Yields (items (below depth) closer) ⟨token, inside ++ closing :: rest⟩ (trees parts)
      ⟨closing, rest⟩ := by
  have hcommon : closer ≠ .comma ∧ closer ∉ coherentStarts ∧ strength closer ≤ lowest := by
    rcases hcloser with rfl | rfl <;> decide
  obtain ⟨hcomma, hstart, hweak⟩ := hcommon
  exact listOf_yields hcomma (fun part hpart => (hparts part hpart).2.item hweak depth) hclosing
    (fun part hpart => (hparts part hpart).1) hstart hinside token rest hlimit

theorem pair_yields {entry : Entry}
    (hkey : ReadsWhole lowest entry.key.tokens entry.key.tree)
    (hcolon : entry.colon.kind = .colon)
    (hvalue : ReadsWhole lowest entry.value.tokens entry.value.tree) (depth : Nat) :
    ItemReads (pair (below depth)) .rbrace depth entry.tokens entry.trees := by
  intro token next rest hlimit hnext
  rw [Entry.tokens, List.append_assoc, List.cons_append] at hlimit ⊢
  have hlater : (entry.value.tokens ++ next :: rest).length ≤ depth := by
    simp only [List.length_append, List.length_cons] at hlimit ⊢
    omega
  obtain ⟨middle, hfirst⟩ := hkey depth token (entry.colon :: (entry.value.tokens ++ next :: rest))
    hlimit (by simp [ahead, hcolon, strength])
  obtain ⟨last, hsecond⟩ :=
    hvalue.item (show strength .rbrace ≤ lowest by decide) depth entry.colon next rest hlater hnext
  exact ⟨last, .bind (.bind_advance hfirst) (.bind_expect hcolon (.bind hsecond (.pure _ _)))⟩

end

theorem unary_readsAs {sign : Token} {tokens : List Token} {node : Node}
    (hsign : sign.kind ∈ unaryKinds) (hoperand : ReadsWhole unaryStrength tokens node) :
    ReadsAs unaryStrength (sign :: tokens) (.unary sign sign.literal node) := by
  refine readsAs_of_operand unaryStrength fun depth rest hlimit hnext => ?_
  obtain ⟨last, hread⟩ := hoperand depth sign rest hlimit hnext
  exact ⟨last, unary_yields hsign hread⟩

/-- The right side is read to the strength of the operator, so that it takes only what is
stronger. -/
theorem binary_readsAs {sign : Token} {left right : List Token} {first second : Node}
    (hleft : ReadsAs (strength sign.kind) left first) (hsign : sign.kind ∈ binaryKinds)
    (hright : ReadsWhole (strength sign.kind) right second) :
    ReadsAs (strength sign.kind) (left ++ sign :: right)
      (.binary sign first sign.literal second) := by
  have hweak : ∀ kind ∈ binaryKinds, strength kind < unaryStrength := by decide
  have hsigned := hweak _ hsign
  refine hleft.extend (Nat.le_refl _) ?_ fun depth rest hlimit hnext => ?_
  · intro bound hadmits
    obtain ⟨hbound, hhold⟩ := id hadmits
    exact ⟨hadmits, by omega⟩
  · obtain ⟨last, hread⟩ := hright depth sign rest hlimit hnext
    exact ⟨last, binary_yields first hsign hread⟩

theorem group_readsAs {opening closing : Token} {body : List Token} {node : Node}
    (hopening : opening.kind = .lparen) (hbody : ReadsWhole lowest body node)
    (hclosing : closing.kind = .rparen) : ReadsAs undivided (opening :: (body ++ [closing])) node := by
  refine readsAs_of_operand undivided fun depth rest hlimit _ => ?_
  rw [List.append_assoc, List.singleton_append] at hlimit ⊢
  obtain ⟨last, hread⟩ := hbody depth opening (closing :: rest) hlimit
    (by simp [ahead, hclosing, strength])
  exact ⟨closing, group_yields hopening hread hclosing⟩

/-- Every bound lies below the strength of an opening bracket. -/
theorem admits_opener {opener : Token} (h : opener.kind = .lparen ∨ opener.kind = .lbracket)
    (bound : Nat) (hadmits : Admits bound undivided) :
    Admits bound undivided ∧ bound < strength opener.kind := by
  have hstrong : unaryStrength < strength opener.kind := by
    rcases h with h | h <;> rw [h] <;> decide
  exact ⟨hadmits, Nat.lt_of_le_of_lt hadmits.1 hstrong⟩

theorem call_readsAs {opening closing : Token} {callee inside : List Token} {node : Node}
    {parts : List Part} (hcallee : ReadsAs undivided callee node)
    (hopening : opening.kind = .lparen)
    (hparts : ∀ part ∈ parts, BeginsExpression part.tokens ∧ ReadsWhole lowest part.tokens part.tree)
    (hinside : Listed (parts.map (·.tokens)) inside) (hclosing : closing.kind = .rparen) :
    ReadsAs undivided (callee ++ opening :: (inside ++ [closing]))
      (.call opening node (trees parts)) := by
  have hweak : strength opening.kind ≤ undivided := by
    rw [hopening]
    decide
  refine hcallee.extend hweak (admits_opener (.inl hopening)) fun depth rest hlimit _ => ?_
  rw [List.append_assoc, List.singleton_append] at hlimit ⊢
  refine ⟨closing, .bind_current ?_⟩
  simp only [hopening]
  exact .bind (items_yield (.inl rfl) hparts hinside hclosing depth opening rest hlimit) (.pure _ _)

theorem index_readsAs {opening closing : Token} {collection key : List Token} {first second : Node}
    (hcollection : ReadsAs undivided collection first) (hopening : opening.kind = .lbracket)
    (hkey : ReadsWhole lowest key second) (hclosing : closing.kind = .rbracket) :
    ReadsAs undivided (collection ++ opening :: (key ++ [closing])) (.index opening first second) := by
  have hweak : strength opening.kind ≤ undivided := by
    rw [hopening]
    decide
  refine hcollection.extend hweak (admits_opener (.inr hopening)) fun depth rest hlimit _ => ?_
  rw [List.append_assoc, List.singleton_append] at hlimit ⊢
  obtain ⟨last, hread⟩ := hkey depth opening (closing :: rest) hlimit
    (by simp [ahead, hclosing, strength])
  exact ⟨closing, index_yields first hopening hread hclosing⟩

theorem array_readsAs {opening closing : Token} {inside : List Token} {parts : List Part}
    (hopening : opening.kind = .lbracket)
    (hparts : ∀ part ∈ parts, BeginsExpression part.tokens ∧ ReadsWhole lowest part.tokens part.tree)
    (hinside : Listed (parts.map (·.tokens)) inside) (hclosing : closing.kind = .rbracket) :
    ReadsAs undivided (opening :: (inside ++ [closing])) (.array opening (trees parts)) := by
  refine readsAs_of_operand undivided fun depth rest hlimit _ => ⟨closing, .bind_current ?_⟩
  rw [List.append_assoc, List.singleton_append] at hlimit ⊢
  simp only [hopening]
  exact .bind_current
    (.bind (items_yield (.inr rfl) hparts hinside hclosing depth opening rest hlimit) (.pure _ _))

theorem hash_readsAs {opening closing : Token} {inside : List Token} {entries : List Entry}
    (hopening : opening.kind = .lbrace)
    (hkeys : ∀ entry ∈ entries,
      BeginsExpression entry.key.tokens ∧ ReadsWhole lowest entry.key.tokens entry.key.tree)
    (hcolons : ∀ entry ∈ entries, entry.colon.kind = .colon)
    (hvalues : ∀ entry ∈ entries, ReadsWhole lowest entry.value.tokens entry.value.tree)
    (hinside : Listed (entries.map (·.tokens)) inside) (hclosing : closing.kind = .rbrace) :
    ReadsAs undivided (opening :: (inside ++ [closing])) (.hash opening (entries.map (·.trees))) := by
  have hstarts : ∀ entry ∈ entries, BeginsExpression entry.tokens := by
    intro entry hentry
    exact (hkeys entry hentry).1.extend (by simp [hcolons entry hentry]) _
  refine readsAs_of_operand undivided fun depth rest hlimit _ => ⟨closing, .bind_current ?_⟩
  rw [List.append_assoc, List.singleton_append] at hlimit ⊢
  simp only [hopening]
  refine .bind_current (.bind (listOf_yields (by decide) (fun entry hentry => ?_) hclosing hstarts
    (by decide) hinside opening rest hlimit) (.pure _ _))
  exact pair_yields (hkeys entry hentry).2 (hcolons entry hentry) (hvalues entry hentry) depth

/-- A single token that is an operand by itself. -/
theorem leaf_readsAs {token : Token} {node : Node}
    (h : ∀ inner rest, Yields (operand inner) ⟨token, rest⟩ node ⟨token, rest⟩) :
    ReadsAs undivided [token] node :=
  readsAs_of_operand undivided fun depth rest _ _ => ⟨token, h (below depth) rest⟩

/-- Tokens that cohere are read as their tree. -/
theorem Coheres.readsAs {hold : Nat} {tokens : List Token} {node : Node}
    (h : Coheres hold tokens node) : ReadsAs hold tokens node := by
  have hlowest : Admits lowest (lowest + 1) := by decide
  have hweak : ∀ kind ∈ binaryKinds, strength kind ≤ unaryStrength := by decide
  induction h with
  | weaken _ hle ih => exact ih.weaken hle
  | identifier h | truth h | falsity h =>
      refine leaf_readsAs fun inner rest => .bind_current ?_
      simp only [h]
      exact .pure _ _
  | integer hkind hvalue => exact leaf_readsAs fun _ => integer_yields hkind hvalue
  | unary hsign hoperand ih => exact unary_readsAs hsign (ih.whole hoperand.ne_nil (by decide))
  | binary _ hsign hright ihl ihr =>
      have hadmits : Admits (strength _) (strength _ + 1) :=
        ⟨hweak _ hsign, .inl (Nat.lt_succ_self _)⟩
      exact binary_readsAs ihl hsign (ihr.whole hright.ne_nil hadmits)
  | group hopening hbody hclosing ih =>
      exact group_readsAs hopening (ih.whole hbody.ne_nil hlowest) hclosing
  | call _ hopening hitems hinside hclosing ih ihs =>
      refine call_readsAs ih hopening (fun part hpart => ?_) hinside hclosing
      have hitem := hitems part hpart
      exact ⟨hitem.begins, (ihs part hpart).whole hitem.ne_nil hlowest⟩
  | index _ hopening hkey hclosing ihc ihk =>
      exact index_readsAs ihc hopening (ihk.whole hkey.ne_nil hlowest) hclosing
  | array hopening hitems hinside hclosing ihs =>
      refine array_readsAs hopening (fun part hpart => ?_) hinside hclosing
      have hitem := hitems part hpart
      exact ⟨hitem.begins, (ihs part hpart).whole hitem.ne_nil hlowest⟩
  | hash hopening hkeys hcolons hvalues hinside hclosing ihk ihv =>
      refine hash_readsAs hopening (fun entry hentry => ?_) hcolons (fun entry hentry => ?_) hinside
        hclosing
      · have hkey := hkeys entry hentry
        exact ⟨hkey.begins, (ihk entry hentry).whole hkey.ne_nil hlowest⟩
      · exact (ihv entry hentry).whole (hvalues entry hentry).ne_nil hlowest

/-! ## Statements -/

/-- Without a semicolon a statement ends with its last token. -/
theorem closing_of_ne {cursor : Cursor} (node : Node) (h : cursor.peek.kind ≠ .semicolon) :
    Yields (closing node) cursor node cursor := by
  have hskip : Yields (skip .semicolon) cursor () cursor := by
    rw [Yields, skip_apply, if_neg h]
  exact .bind hskip (.pure _ _)

theorem expressionStatement_of_coheres {first : Token} {more : List Token} {node : Node}
    (h : Coheres (lowest + 1) (first :: more) node) {rest : List Token} (hrest : ahead rest = .eof)
    {depth : Nat} (hlimit : (more ++ rest).length ≤ depth) :
    ∃ last, Yields (statement (below depth)) ⟨first, more ++ rest⟩ (.expression first node)
      ⟨last, rest⟩ := by
  have hadmits : Admits lowest (lowest + 1) := by decide
  have hstarts : ∀ kind ∈ coherentStarts, kind ∉ decidingKinds := by decide
  have hlater : (first :: more ++ rest).length ≤ depth + 1 := by simpa using hlimit
  obtain ⟨last, hread⟩ := h.readsAs.expression hadmits first hlater (by rw [hrest]; decide)
  obtain ⟨_, _, heq, hstart, hmore⟩ := h.begins
  obtain ⟨rfl, rfl⟩ := List.cons.inj heq
  have hpeek : first.kind = .ident → (Cursor.peek ⟨first, more ++ rest⟩).kind ≠ .doublePlus := by
    intro hident
    rw [kind_peek]
    cases more with
    | nil => simp [hrest]
    | cons second more => exact hmore second rfl hident
  have hclosing : (Cursor.peek ⟨last, rest⟩).kind ≠ .semicolon := by simp [kind_peek, hrest]
  exact ⟨last, statement_of_start (hstarts _ hstart) hpeek (.bind_current
    (.bind (Yields.orHole hread) (closing_of_ne _ hclosing)))⟩

/-- Where a single statement is all there is, it is what is parsed. -/
theorem tokens_of_statement {first : Token} {more ends : List Token} {node : Node}
    (hfirst : first.kind ≠ .eof) (hends : ahead ends = .eof)
    (h : ∀ depth, (more ++ ends).length ≤ depth →
      ∃ last, Yields (statement (below depth)) ⟨first, more ++ ends⟩ node ⟨last, ends⟩) :
    tokens (first :: more ++ ends) = ⟨first, [node], []⟩ := by
  obtain ⟨last, hread⟩ := h ((more ++ ends).length + 1) (Nat.le_succ _)
  have hover : (advance ⟨last, ends⟩ : Cursor).current.kind = .eof := by
    rw [← hends]
    exact kind_peek last ends
  have htop : Yields topLevel ⟨first, more ++ ends⟩ [node] (Cursor.advance ⟨last, ends⟩) := by
    refine .bind_remaining (.bind_remaining (.bind_current (.ite_neg (by simpa using hfirst) ?_)))
    rw [phrase_eq_level]
    exact .bind hread.attempt (.bind_advance
      (.bind (statementsUpTo_of_closed _ _ (.inl hover)) (.pure _ _)))
  have hreading : topLevel (ofTokens (first :: more ++ ends)) = ⟨some [node], [], _⟩ := htop
  rw [tokens, hreading]
  rfl

/-- Tokens that cohere, with nothing behind them, are parsed as the one statement that they make. -/
theorem tokens_of_coheres {first : Token} {more ends : List Token} {node : Node}
    (h : Coheres (lowest + 1) (first :: more) node) (hends : ahead ends = .eof) :
    tokens (first :: more ++ ends) = ⟨first, [.expression first node], []⟩ := by
  obtain ⟨_, _, heq, hstart, _⟩ := h.begins
  obtain ⟨rfl, rfl⟩ := List.cons.inj heq
  have hfirst : first.kind ≠ .eof := by
    intro hkind
    simp [hkind, coherentStarts] at hstart
  exact tokens_of_statement hfirst hends fun depth hlimit =>
    expressionStatement_of_coheres h hends hlimit

end Monkey.Parse
