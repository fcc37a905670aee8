import Monkey.Proofs.Parse.Cohesion
import Monkey.Proofs.Parse.Literals
import Monkey.Proofs.Token.Fragments

/-!
# Printed programs are read again

A program of one plain statement is printed in such a way that it is read as the same program again.
The argument has two halves. The text of an expression has the tokens of its rendering, since
brackets, commas and spaces keep its tokens apart (`Plain.spelled`). And these tokens cohere as the
same tree, since the printer puts every operator and every index in parentheses (`Plain.coheres`).
-/
namespace Monkey

namespace Node

mutual

/-- An expression without conditionals, loops, functions and texts. -/
def isPlain : Node → Bool
  | identifier _ | integer .. | boolean .. => true
  | unary _ _ operand => operand.isPlain
  | binary _ left _ right | index _ left right => left.isPlain && right.isPlain
  | call _ callee arguments => callee.isPlain && allPlain arguments
  | array _ elements => allPlain elements
  | hash _ pairs => pairsPlain pairs
  | _ => false

def allPlain : List Node → Bool
  | [] => true
  | node :: rest => node.isPlain && allPlain rest

def pairsPlain : List (Node × Node) → Bool
  | [] => true
  | (key, value) :: rest => key.isPlain && value.isPlain && pairsPlain rest

end

theorem allPlain_iff (nodes : List Node) : allPlain nodes ↔ ∀ node ∈ nodes, node.isPlain := by
  induction nodes with
  | nil => simp [allPlain]
  | cons node rest ih => simp [allPlain, ih]

theorem pairsPlain_iff (pairs : List (Node × Node)) :
    pairsPlain pairs ↔ ∀ pair ∈ pairs, pair.1.isPlain ∧ pair.2.isPlain := by
  induction pairs with
  | nil => simp [pairsPlain]
  | cons pair rest ih => simp [pairsPlain, ih]

/-- A binding, a return, an increment or an expression, made of plain expressions. -/
def isPlainStatement : Node → Bool
  | binding _ _ value | returning _ value => value.isPlain
  | expression _ body => body.isPlain
  | increment .. => true
  | _ => false

/-- The program without the tokens that only say where it begins, if it is a single expression or
increment: the printed one may begin with another token. -/
def unanchored : Node → Node
  | program _ [expression _ body] => program default [expression default body]
  | program _ [increment token name] => program default [increment token name]
  | node => node

theorem source_unanchored (node : Node) : node.unanchored.source = node.source := by
  unfold unanchored
  split <;> simp [source, sources]

end Node

namespace Parse

open Monkey.Parse.Parser Monkey.Parse.Cursor

/-- A plain expression with tokens that a text may have. -/
inductive Plain : Node → Prop where
  | identifier {token : Token} (hkind : token.kind = .ident) (htoken : token.Readable) :
      Plain (.identifier (nameOf token))
  | integer {token : Token} {value : Int} (hkind : token.kind = .int ∨ token.kind = .hex)
      (hvalue : integerValue? token = some value) (htoken : token.Readable) :
      Plain (.integer token value)
  | truth {token : Token} (hkind : token.kind = .trueWord) (htoken : token.Readable) :
      Plain (.boolean token true)
  | falsity {token : Token} (hkind : token.kind = .falseWord) (htoken : token.Readable) :
      Plain (.boolean token false)
  | unary {sign : Token} {operand : Node} (hsign : sign.kind ∈ unaryKinds)
      (htoken : sign.Readable) (hoperand : Plain operand) :
      Plain (.unary sign sign.literal operand)
  | binary {sign : Token} {left right : Node} (hleft : Plain left) (hsign : sign.kind ∈ binaryKinds)
      (htoken : sign.Readable) (hright : Plain right) :
      Plain (.binary sign left sign.literal right)
  | call {opening : Token} {callee : Node} {arguments : List Node} (hcallee : Plain callee)
      (hopening : opening.kind = .lparen) (htoken : opening.Readable)
      (harguments : ∀ node ∈ arguments, Plain node) : Plain (.call opening callee arguments)
  | array {opening : Token} {elements : List Node} (hopening : opening.kind = .lbracket)
      (htoken : opening.Readable) (helements : ∀ node ∈ elements, Plain node) :
      Plain (.array opening elements)
  | index {opening : Token} {collection key : Node} (hcollection : Plain collection)
      (hopening : opening.kind = .lbracket) (htoken : opening.Readable) (hkey : Plain key) :
      Plain (.index opening collection key)
  | hash {opening : Token} {pairs : List (Node × Node)} (hopening : opening.kind = .lbrace)
      (htoken : opening.Readable) (hkeys : ∀ pair ∈ pairs, Plain pair.1)
      (hvalues : ∀ pair ∈ pairs, Plain pair.2) : Plain (.hash opening pairs)

theorem plain_of_listed {parts : List Part} {inside : List Token}
    (h : ∀ part ∈ parts, (∀ token ∈ part.tokens, token.Readable) → part.tree.isPlain →
      Plain part.tree)
    (hinside : Listed (parts.map (·.tokens)) inside) (htokens : ∀ token ∈ inside, token.Readable)
    (hplain : Node.allPlain (trees parts)) : ∀ node ∈ trees parts, Plain node := by
  rw [Node.allPlain_iff] at hplain
  intro node hnode
  obtain ⟨part, hpart, rfl⟩ := List.mem_map.mp hnode
  have hsubset := subset_of_listed hinside (List.mem_map_of_mem hpart)
  exact h part hpart (fun token hmem => htokens token (hsubset hmem)) (hplain _ hnode)

/-- What is derived from tokens of a text keeps such tokens. -/
theorem plain_of_derives {category : Category} {tokens : List Token} {node : Node}
    (h : Derives category tokens node) (htokens : ∀ token ∈ tokens, token.Readable)
    (hplain : node.isPlain) : Plain node := by
  induction h with
  | identifier hkind => exact .identifier hkind (htokens _ (List.mem_singleton_self _))
  | integer hkind hvalue => exact .integer hkind hvalue (htokens _ (List.mem_singleton_self _))
  | truth hkind => exact .truth hkind (htokens _ (List.mem_singleton_self _))
  | falsity hkind => exact .falsity hkind (htokens _ (List.mem_singleton_self _))
  | unary hsign _ ih =>
      obtain ⟨htoken, hoperand⟩ := List.forall_mem_cons.mp htokens
      exact .unary hsign htoken (ih hoperand hplain)
  | binary _ hsign _ ihl ihr =>
      simp only [List.forall_mem_append, List.forall_mem_cons] at htokens
      obtain ⟨hleft, htoken, hright⟩ := htokens
      simp only [Node.isPlain, Bool.and_eq_true] at hplain
      exact .binary (ihl hleft hplain.1) hsign htoken (ihr hright hplain.2)
  | group _ _ _ ih =>
      simp only [List.forall_mem_append, List.forall_mem_cons] at htokens
      exact ih htokens.2.1 hplain
  | call _ hopening _ hinside _ ih ihs =>
      simp only [List.forall_mem_append, List.forall_mem_cons] at htokens
      obtain ⟨hcallee, htoken, hitems, _⟩ := htokens
      simp only [Node.isPlain, Bool.and_eq_true] at hplain
      exact .call (ih hcallee hplain.1) hopening htoken
        (plain_of_listed ihs hinside hitems hplain.2)
  | array hopening _ hinside _ ihs =>
      simp only [List.forall_mem_append, List.forall_mem_cons] at htokens
      obtain ⟨htoken, hitems, _⟩ := htokens
      exact .array hopening htoken (plain_of_listed ihs hinside hitems hplain)
  | index _ hopening _ _ ihc ihk =>
      simp only [List.forall_mem_append, List.forall_mem_cons] at htokens
      obtain ⟨hcollection, htoken, hkey, _⟩ := htokens
      simp only [Node.isPlain, Bool.and_eq_true] at hplain
      exact .index (ihc hcollection hplain.1) hopening htoken (ihk hkey hplain.2)
  | @hash _ _ _ entries hopening _ _ _ hinside _ ihk ihv =>
      simp only [List.forall_mem_append, List.forall_mem_cons] at htokens
      obtain ⟨htoken, hentries, _⟩ := htokens
      simp only [Node.isPlain, Node.pairsPlain_iff, List.forall_mem_map] at hplain
      have hinner : ∀ entry ∈ entries, ∀ token ∈ entry.tokens, token.Readable := by
        intro entry hentry token hmem
        exact hentries token (subset_of_listed hinside (List.mem_map_of_mem hentry) hmem)
      simp only [Entry.tokens, List.forall_mem_append, List.forall_mem_cons] at hinner
      refine .hash hopening htoken (List.forall_mem_map.mpr fun entry hentry => ?_)
        (List.forall_mem_map.mpr fun entry hentry => ?_)
      · exact ihk entry hentry (hinner entry hentry).1 (hplain entry hentry).1
      · exact ihv entry hentry (hinner entry hentry).2.2 (hplain entry hentry).2
  | _ => simp [Node.isPlain] at hplain

/-! ## Printed expressions -/

theorem operatorMark_literal {sign : Token} (htoken : sign.Readable)
    (hkind : sign.kind ∈ unaryKinds ++ binaryKinds) : operatorMark sign.literal = sign.lexeme := by
  have hkinds : ∀ kind ∈ unaryKinds ++ binaryKinds, kind ∉ variousKinds ∧
      Kind.ofSign kind.spelling = kind := by decide
  obtain ⟨halike, hsign⟩ := hkinds _ hkind
  have hmark := htoken.lexeme_eq_mark rfl halike
  rw [hmark, operatorMark, Token.literal_eq hmark, hsign, mark]

/-- No printed expression begins like the second half of a sign. -/
theorem Plain.head?_ne {node : Node} (h : Plain node) : node.source.toList.head? ≠ some '=' := by
  induction h with
  | identifier hkind htoken | truth hkind htoken | falsity hkind htoken =>
      exact htoken.head?_ne (by simp [hkind, operandKinds])
  | integer hkind _ htoken =>
      refine htoken.head?_ne ?_
      rcases hkind with hkind | hkind <;> simp [hkind, operandKinds]
  | @call _ callee _ _ _ _ _ ih =>
      cases hsource : callee.source.toList with
      | nil => simp [Node.source, hsource]
      | cons c more => simpa [Node.source, hsource] using ih
  | unary | binary | array | index | hash => simp [Node.source]

/-- A printed expression is read as the tokens of its rendering. -/
theorem Plain.spelled {node : Node} (h : Plain node) {after : List Char} (hafter : Divided after) :
    Spelled node.source after (render node) := by
  have hbinary : ∀ kind ∈ binaryKinds, kind ≠ .illegal ∧ kind ≠ .string := by decide
  have hunary : ∀ kind ∈ unaryKinds, kind ∉ variousKinds := by decide
  induction h generalizing after with
  | identifier hkind htoken =>
      have hword := htoken.spelled (by simp [hkind]) hafter
      simpa [Node.source, render, word, nameOf, htoken.isName hkind, Token.lexeme, hkind]
        using hword
  | integer hkind _ htoken =>
      refine htoken.spelled ?_ hafter
      rcases hkind with hkind | hkind <;> simp [hkind]
  | truth hkind htoken | falsity hkind htoken =>
      have hmark := htoken.lexeme_eq_mark hkind (by decide)
      have hword := htoken.spelled (by simp [hkind]) hafter
      simpa [Node.source, render, hmark] using hword
  | @unary sign operand hsign htoken hoperand ih =>
      have hmark := htoken.lexeme_eq_mark rfl (hunary _ hsign)
      have hlast : Spelled operand.source (')' :: after) (render operand) :=
        ih (.cons (by decide) _)
      have hfirst : Spelled sign.literal (operand.source.toList ++ ')' :: after) [sign.lexeme] := by
        -- an operand that began with an equality sign would be read as part of the sign
        rw [hmark, Token.literal_eq hmark]
        refine .unarySign hsign ?_
        have hhead := hoperand.head?_ne
        cases hsource : operand.source.toList with
        | nil => simp
        | cons c more => simpa [hsource] using hhead
      simpa [Node.source, render, operatorMark_literal htoken (List.mem_append_left _ hsign),
        String.append_assoc] using (hfirst.append hlast).inParens
  | @binary sign left right _ hsign htoken _ ihl ihr =>
      have hright : Spelled right.source (')' :: after) (render right) := ihr (.cons (by decide) _)
      have hsigned := (htoken.spelled (hbinary _ hsign) (by simp [Divided, dividers])).append
        ((Spelled.space _).append hright)
      have hall := (ihl (by simp [Divided, dividers])).append ((Spelled.space _).append hsigned)
      simpa [Node.source, render, operatorMark_literal htoken (List.mem_append_right _ hsign),
        String.append_assoc] using hall.inParens
  | @call _ callee arguments _ _ _ _ ih ihs =>
      have hinside : Spelled (", ".intercalate (arguments.map Node.source)) (')' :: after)
          (commas (arguments.map render)) :=
        .commas (fun node hnode _ => ihs node hnode) (.cons (by decide) _)
      have hall := (ih (by simp [Divided, dividers])).append hinside.inParens
      simpa [Node.source, render, Node.sources_eq_map, renderEach_eq_map,
        String.append_assoc] using hall
  | @array _ elements _ _ _ ihs =>
      have hinside : Spelled (", ".intercalate (elements.map Node.source)) (']' :: after)
          (commas (elements.map render)) :=
        .commas (fun node hnode _ => ihs node hnode) (.cons (by decide) _)
      simpa [Node.source, render, Node.sources_eq_map, renderEach_eq_map] using hinside.inBrackets
  | @index _ collection key _ _ _ _ ihc ihk =>
      have hkey : Spelled key.source (']' :: ')' :: after) (render key) := ihk (.cons (by decide) _)
      have hall := (ihc (by simp [Divided, dividers])).append hkey.inBrackets
      have hclosing : "])" = "]" ++ ")" := rfl
      simpa [Node.source, render, hclosing, String.append_assoc] using hall.inParens
  | @hash _ pairs _ _ _ _ ihk ihv =>
      have hpair (pair : Node × Node) (hpair : pair ∈ pairs) (later : List Char)
          (hlater : Divided later) : Spelled (pair.1.source ++ ":" ++ pair.2.source) later
            (render pair.1 ++ mark .colon :: render pair.2) := by
        have hcolon : Spelled ":" (pair.2.source.toList ++ later) [mark .colon] :=
          .solitary (show .colon ∈ solitaryKinds by decide) _
        have hall := (ihk pair hpair (by simp [Divided, dividers])).append
          (hcolon.append (ihv pair hpair hlater))
        simpa [String.append_assoc] using hall
      have hinside := Spelled.commas hpair (show Divided ('\x7d' :: after) from .cons (by decide) _)
      simpa [Node.source, render, Node.pairSources_eq_map, renderPairs_eq_map]
        using hinside.inBraces

/-! ## Printed expressions cohere -/

theorem nameOf_relocate_erase {found token : Token} (h : found.lexeme = token.lexeme) :
    (nameOf found).relocate .erase = (nameOf token).relocate .erase := by
  rw [nameOf, nameOf, Name.relocate, Name.relocate, Token.relocate_erase_of_lexeme h,
    Token.literal_eq h]

/-- The tokens cohere as a tree that differs from this one in places only. -/
def CohereAs (tokens : List Token) (node : Node) : Prop :=
  ∃ other, Coheres undivided tokens other ∧ other.relocate .erase = node.relocate .erase

/-- If something is found for each item of a list, then a list of such things for the whole. -/
theorem exists_listed_of_commas {α β γ : Type} {items : List α} {lexemesOf : α → List Lexeme}
    {tokensOf : β → List Token} {good : β → Prop} {wanted : α → γ} {seen : β → γ}
    (h : ∀ item ∈ items, ∀ tokens, Spells tokens (lexemesOf item) →
      ∃ found, tokensOf found = tokens ∧ good found ∧ seen found = wanted item)
    {tokens : List Token} (htokens : Spells tokens (commas (items.map lexemesOf))) :
    ∃ founds : List β, Listed (founds.map tokensOf) tokens ∧ (∀ found ∈ founds, good found) ∧
      founds.map seen = items.map wanted := by
  induction items generalizing tokens with
  | nil =>
      obtain rfl := htokens.nil
      exact ⟨[], .empty, List.forall_mem_nil _, rfl⟩
  | cons item rest ih =>
      obtain ⟨hitem, hrest⟩ := List.forall_mem_cons.mp h
      cases rest with
      | nil =>
          obtain ⟨found, rfl, hgood, hseen⟩ := hitem tokens (by simpa [commas] using htokens)
          exact ⟨[found], .some (.one _), by simpa using hgood, by simpa using hseen⟩
      | cons next rest =>
          obtain ⟨mine, others, rfl, hmine, hothers⟩ := htokens.append
          obtain ⟨comma, others, rfl, hcomma, hothers⟩ := hothers.mark
          obtain ⟨found, rfl, hgood, hseen⟩ := hitem mine hmine
          obtain ⟨founds, hlisted, hgoods, hall⟩ := ih hrest hothers
          refine ⟨found :: founds, .some ?_, List.forall_mem_cons.mpr ⟨hgood, hgoods⟩, ?_⟩
          · cases founds with
            | nil => simp at hall
            | cons second founds =>
                cases hlisted with
                | some hcommas => exact .more hcomma hcommas
          · rw [List.map_cons, List.map_cons, hseen, hall]

theorem exists_parts_of_commas {nodes : List Node}
    (h : ∀ node ∈ nodes, ∀ tokens, Spells tokens (render node) → CohereAs tokens node)
    {tokens : List Token} (htokens : Spells tokens (commas (renderEach nodes))) :
    ∃ parts : List Part, Listed (parts.map (·.tokens)) tokens ∧
      (∀ part ∈ parts, Coheres (lowest + 1) part.tokens part.tree) ∧
      (trees parts).map (·.relocate .erase) = nodes.map (·.relocate .erase) := by
  rw [renderEach_eq_map] at htokens
  have hone : ∀ node ∈ nodes, ∀ tokens, Spells tokens (render node) →
      ∃ part : Part, part.tokens = tokens ∧ Coheres (lowest + 1) part.tokens part.tree ∧
        part.tree.relocate .erase = node.relocate .erase := by
    intro node hnode tokens htokens
    obtain ⟨other, hcoheres, hsame⟩ := h node hnode tokens htokens
    exact ⟨⟨tokens, other⟩, rfl, hcoheres.weaken (by decide), hsame⟩
  obtain ⟨parts, hlisted, hparts, hsame⟩ := exists_listed_of_commas hone htokens
  exact ⟨parts, hlisted, hparts, by simpa [trees, Function.comp_def] using hsame⟩

theorem exists_entries_of_commas {pairs : List (Node × Node)}
    (hkeys : ∀ pair ∈ pairs, ∀ tokens, Spells tokens (render pair.1) → CohereAs tokens pair.1)
    (hvalues : ∀ pair ∈ pairs, ∀ tokens, Spells tokens (render pair.2) → CohereAs tokens pair.2)
    {tokens : List Token} (htokens : Spells tokens (commas (renderPairs pairs))) :
    ∃ entries : List Entry, Listed (entries.map (·.tokens)) tokens ∧
      (∀ entry ∈ entries, Coheres (lowest + 1) entry.key.tokens entry.key.tree ∧
        entry.colon.kind = .colon ∧
        Coheres (lowest + 1) entry.value.tokens entry.value.tree) ∧
      Node.relocatePairs .erase (entries.map (·.trees)) = Node.relocatePairs .erase pairs := by
  rw [renderPairs_eq_map] at htokens
  have hone : ∀ pair ∈ pairs, ∀ tokens,
      Spells tokens (render pair.1 ++ mark .colon :: render pair.2) →
      ∃ entry : Entry, entry.tokens = tokens ∧
        (Coheres (lowest + 1) entry.key.tokens entry.key.tree ∧ entry.colon.kind = .colon ∧
          Coheres (lowest + 1) entry.value.tokens entry.value.tree) ∧
        entry.trees.map (·.relocate .erase) (·.relocate .erase) =
          pair.map (·.relocate .erase) (·.relocate .erase) := by
    intro pair hpair tokens htokens
    obtain ⟨before, _, rfl, hbefore, hrest⟩ := htokens.append
    obtain ⟨colon, after, rfl, hcolon, hafter⟩ := hrest.mark
    obtain ⟨key, hkey, hfirst⟩ := hkeys pair hpair before hbefore
    obtain ⟨value, hvalue, hsecond⟩ := hvalues pair hpair after hafter
    exact ⟨⟨⟨before, key⟩, colon, ⟨after, value⟩⟩, rfl,
      ⟨hkey.weaken (by decide), hcolon, hvalue.weaken (by decide)⟩,
      Prod.ext hfirst hsecond⟩
  obtain ⟨entries, hlisted, hentries, hsame⟩ := exists_listed_of_commas hone htokens
  exact ⟨entries, hlisted, hentries, by simpa [Function.comp_def] using hsame⟩

/-- The tokens of a printed expression cohere as the same tree. -/
theorem Plain.coheres {node : Node} (h : Plain node) {tokens : List Token}
    (htokens : Spells tokens (render node)) : CohereAs tokens node := by
  have hstrong : ∀ kind ∈ binaryKinds,
      lowest + 1 ≤ strength kind ∧ strength kind + 1 ≤ undivided := by decide
  induction h generalizing tokens with
  | @identifier token hkind htoken =>
      obtain ⟨found, rfl, hfound⟩ := htokens.singleton
      have hname : found.lexeme = token.lexeme := by
        rw [hfound, word, nameOf, htoken.isName hkind, Token.lexeme, hkind]
      refine ⟨_, .identifier ((Token.kind_eq hname).trans hkind), ?_⟩
      rw [Node.relocate, Node.relocate, nameOf_relocate_erase hname]
  | integer hkind hvalue htoken =>
      obtain ⟨found, rfl, hfound⟩ := htokens.singleton
      refine ⟨_, .integer ?_ ((integerValue?_of_lexeme hfound).trans hvalue), ?_⟩
      · rwa [Token.kind_eq hfound]
      · rw [Node.relocate, Node.relocate, Token.relocate_erase_of_lexeme hfound]
  | truth hkind htoken =>
      obtain ⟨found, rfl, hfound⟩ := htokens.singleton
      refine ⟨_, .truth (Token.kind_eq hfound), ?_⟩
      rw [Node.relocate, Node.relocate, htoken.relocate_eq_of_mark hkind (by decide) hfound]
  | falsity hkind htoken =>
      obtain ⟨found, rfl, hfound⟩ := htokens.singleton
      refine ⟨_, .falsity (Token.kind_eq hfound), ?_⟩
      rw [Node.relocate, Node.relocate, htoken.relocate_eq_of_mark hkind (by decide) hfound]
  | @unary sign operand hsign htoken _ ih =>
      rw [render, operatorMark_literal htoken (List.mem_append_left _ hsign)] at htokens
      obtain ⟨opening, _, closing, rfl, hopening, hinside, hclosing⟩ := htokens.enclosed
      obtain ⟨found, rest, rfl, hfound, hrest⟩ := hinside.cons
      obtain ⟨other, hoperand, hsame⟩ := ih hrest
      have hsign' : found.kind ∈ unaryKinds := by rwa [Token.kind_eq hfound]
      have hunary := Coheres.unary hsign' (hoperand.weaken (by decide))
      refine ⟨_, .group (Token.kind_eq hopening) (hunary.weaken (by decide)) hclosing, ?_⟩
      simp [hsame, Token.relocate_erase_of_lexeme hfound, Token.literal_eq hfound]
  | @binary sign left right _ hsign htoken _ ihl ihr =>
      rw [render, operatorMark_literal htoken (List.mem_append_right _ hsign)] at htokens
      obtain ⟨opening, _, closing, rfl, hopening, hinside, hclosing⟩ := htokens.enclosed
      obtain ⟨before, _, rfl, hbefore, hinside⟩ := hinside.append
      obtain ⟨found, after, rfl, hfound, hafter⟩ := hinside.cons
      obtain ⟨first, hleft, hfirst⟩ := ihl hbefore
      obtain ⟨second, hright, hsecond⟩ := ihr hafter
      have hsign' : found.kind ∈ binaryKinds := by rwa [Token.kind_eq hfound]
      obtain ⟨hlow, hhigh⟩ := hstrong _ hsign'
      have hbinary := Coheres.binary (hleft.weaken (by omega)) hsign' (hright.weaken hhigh)
      refine ⟨_, .group (Token.kind_eq hopening) (hbinary.weaken hlow) hclosing, ?_⟩
      simp [hfirst, hsecond, Token.relocate_erase_of_lexeme hfound, Token.literal_eq hfound]
  | call _ hopening htoken _ ih ihs =>
      obtain ⟨before, _, rfl, hbefore, hinside⟩ := htokens.append
      obtain ⟨found, inside, closing, rfl, hfound, hinside, hclosing⟩ := hinside.enclosed
      obtain ⟨callee, hcallee, hfirst⟩ := ih hbefore
      obtain ⟨parts, hlisted, hparts, hothers⟩ :=
        exists_parts_of_commas (fun node hnode _ => ihs node hnode) hinside
      have hsame := htoken.relocate_eq_of_mark hopening (by decide) hfound
      refine ⟨_, .call hcallee (Token.kind_eq hfound) hparts hlisted hclosing, ?_⟩
      simp [hfirst, hothers, hsame]
  | array hopening htoken _ ihs =>
      obtain ⟨found, inside, closing, rfl, hfound, hinside, hclosing⟩ := htokens.enclosed
      obtain ⟨parts, hlisted, hparts, hothers⟩ :=
        exists_parts_of_commas (fun node hnode _ => ihs node hnode) hinside
      have hsame := htoken.relocate_eq_of_mark hopening (by decide) hfound
      refine ⟨_, .array (Token.kind_eq hfound) hparts hlisted hclosing, ?_⟩
      simp [hothers, hsame]
  | index _ hopening htoken _ ihc ihk =>
      obtain ⟨outer, _, closing, rfl, houter, hinside, hclosing⟩ := htokens.enclosed
      obtain ⟨before, _, rfl, hbefore, hinside⟩ := hinside.append
      obtain ⟨found, inside, last, rfl, hfound, hinside, hlast⟩ := hinside.enclosed
      obtain ⟨collection, hcollection, hfirst⟩ := ihc hbefore
      obtain ⟨key, hkey, hsecond⟩ := ihk hinside
      have hsame := htoken.relocate_eq_of_mark hopening (by decide) hfound
      have hindex :=
        Coheres.index hcollection (Token.kind_eq hfound) (hkey.weaken (by decide)) hlast
      refine ⟨_, .group (Token.kind_eq houter) (hindex.weaken (by decide)) hclosing, ?_⟩
      simp [hfirst, hsecond, hsame]
  | hash hopening htoken _ _ ihk ihv =>
      obtain ⟨found, inside, closing, rfl, hfound, hinside, hclosing⟩ := htokens.enclosed
      obtain ⟨entries, hlisted, hentries, hothers⟩ :=
        exists_entries_of_commas (fun pair hpair _ => ihk pair hpair)
          (fun pair hpair _ => ihv pair hpair) hinside
      have hsame := htoken.relocate_eq_of_mark hopening (by decide) hfound
      refine ⟨_, .hash (Token.kind_eq hfound) (fun entry hentry => (hentries entry hentry).1)
        (fun entry hentry => (hentries entry hentry).2.1)
        (fun entry hentry => (hentries entry hentry).2.2) hlisted hclosing, ?_⟩
      rw [Node.relocate, Node.relocate, hothers, hsame]

/-! ## Printed programs -/

/-- A program of one plain statement, with tokens that a text may have. -/
inductive PlainProgram : Node → Prop where
  | binding {first target : Token} {value : Node} (hfirst : first.kind = .letWord)
      (hword : first.Readable) (htarget : target.kind = .ident) (hname : target.Readable)
      (hvalue : Plain value) : PlainProgram (.program first [.binding first (nameOf target) value])
  | returning {first : Token} {value : Node} (hfirst : first.kind = .returnWord)
      (hword : first.Readable) (hvalue : Plain value) :
      PlainProgram (.program first [.returning first value])
  | increment {first target sign : Token} (htarget : target.kind = .ident)
      (hname : target.Readable) (hsign : sign.kind = .doublePlus) (htoken : sign.Readable) :
      PlainProgram (.program first [.increment sign (nameOf target)])
  | expression {first : Token} {body : Node} (hbody : Plain body) :
      PlainProgram (.program first [.expression first body])

theorem plainProgram_of_derives {first : Token} {more : List Token} {node : Node}
    (h : Derives .statement (first :: more) node)
    (htokens : ∀ token ∈ first :: more, token.Readable) (hplain : node.isPlainStatement) :
    PlainProgram (.program first [node]) := by
  cases h with
  | binding hfirst htarget _ hvalue _ =>
      simp only [List.forall_mem_cons, List.forall_mem_append] at htokens
      obtain ⟨hword, hname, _, hinside, _⟩ := htokens
      exact .binding hfirst hword htarget hname (plain_of_derives hvalue hinside hplain)
  | returning hfirst hvalue _ =>
      simp only [List.forall_mem_cons, List.forall_mem_append] at htokens
      obtain ⟨hword, hinside, _⟩ := htokens
      exact .returning hfirst hword (plain_of_derives hvalue hinside hplain)
  | signedIncrement hsign htarget _ =>
      simp only [List.forall_mem_cons] at htokens
      exact .increment htarget htokens.2.1 hsign htokens.1
  | incrementOfName htarget hsign _ =>
      simp only [List.forall_mem_cons] at htokens
      exact .increment htarget htokens.1 hsign htokens.2.1
  | expression hbody _ =>
      rw [← List.cons_append, List.forall_mem_append] at htokens
      exact .expression (plain_of_derives hbody htokens.1 hplain)
  | switchOn | switch => simp [Node.isPlainStatement] at hplain

theorem plainProgram_of_isClean {text : String} (hclean : (source text).isClean)
    (hone : (source text).statements.length = 1)
    (hplain : ∀ node ∈ (source text).statements, node.isPlainStatement) :
    PlainProgram (source text).program := by
  obtain ⟨ts, eof, htokens, heof, hts⟩ := Token.ofSource_eq_concat text
  have hreadable : ∀ token ∈ ts, token.Readable := by
    intro token hmem
    have hsource : token ∈ Token.ofSource text := by simp [htokens, hmem]
    exact Token.readable_of_mem hsource (hts token hmem)
  rw [source, htokens] at hclean hone hplain ⊢
  obtain ⟨parts, rfl, hstatements, hparts⟩ := exists_parts_of_isClean hts heof hclean
  rw [Parsed.program, hstatements]
  rw [hstatements] at hone hplain
  have hlength : parts.length = 1 := by simpa [trees] using hone
  obtain ⟨⟨all, node⟩, rfl⟩ := List.length_eq_one_iff.mp hlength
  have hderives := hparts _ (List.mem_singleton_self _)
  obtain ⟨first, more, rfl⟩ := List.exists_cons_of_ne_nil (hderives.ne_nil (by decide))
  have hprogram := plainProgram_of_derives hderives (by simpa using hreadable)
    (hplain node (by simp))
  exact hprogram

/-- Printed and read again without complaint, the program is the same but for places and the token
it begins at. -/
def Reprints (program : Node) : Prop :=
  (source program.source).isClean ∧
    (source program.source).program.unanchored.relocate .erase = program.unanchored.relocate .erase

theorem reprints_of_reads {program : Node} {lexemes : List Lexeme}
    (hspelled : Spelled program.source [] lexemes)
    (hreads : ∀ ts ends, Spells ts lexemes → ahead ends = .eof → ∃ first found,
      tokens (ts ++ ends) = ⟨first, [found], []⟩ ∧
        (Node.program first [found]).unanchored.relocate .erase =
          program.unanchored.relocate .erase) : Reprints program := by
  obtain ⟨ts, eof, htokens, heof, hlexemes⟩ := Token.ofSource_of_spelled hspelled
  obtain ⟨first, found, hparsed, hsame⟩ := hreads ts [eof] hlexemes heof
  rw [Reprints, source, htokens, hparsed]
  exact ⟨rfl, hsame⟩

theorem Plain.readsWhole {node : Node} (h : Plain node) {tokens : List Token}
    (htokens : Spells tokens (render node)) :
    ∃ other, other.relocate .erase = node.relocate .erase ∧ ReadsWhole lowest tokens other := by
  obtain ⟨other, hcoheres, hsame⟩ := h.coheres htokens
  exact ⟨other, hsame, hcoheres.readsAs.whole hcoheres.ne_nil (by decide)⟩

/-- The value of a binding or a return is printed in front of a semicolon. -/
theorem Plain.spelled_semicolon {node : Node} (h : Plain node) :
    Spelled (node.source ++ ";") [] (render node ++ [mark .semicolon]) := by
  have hend : Spelled ";" [] [mark .semicolon] :=
    .solitary (show .semicolon ∈ solitaryKinds by decide) _
  exact (h.spelled (by simp [Divided, dividers])).append hend

theorem binding_reprints {first target : Token} {value : Node} (hfirst : first.kind = .letWord)
    (hword : first.Readable) (htarget : target.kind = .ident) (hname : target.Readable)
    (hvalue : Plain value) : Reprints (.program first [.binding first (nameOf target) value]) := by
  have hspelled : Spelled (Node.program first [.binding first (nameOf target) value]).source []
      (first.lexeme :: target.lexeme :: mark .assign :: (render value ++ [mark .semicolon])) := by
    have hnamed := (hname.spelled (by simp [htarget]) (by simp [Divided, dividers])).append
      ((Spelled.assign _).append hvalue.spelled_semicolon)
    have hall := (hword.spelled (by simp [hfirst]) (by simp [Divided, dividers])).append
      ((Spelled.space _).append hnamed)
    simpa [Node.source, Node.sources, nameOf, String.append_assoc] using hall
  refine reprints_of_reads hspelled fun ts ends hts hends => ?_
  obtain ⟨start, _, rfl, hstart, hts⟩ := hts.cons
  obtain ⟨name, _, rfl, hnamed, hts⟩ := hts.cons
  obtain ⟨sign, _, rfl, hsign, hts⟩ := hts.mark
  obtain ⟨inside, semicolon, rfl, hinside, hsemicolon⟩ := hts.concat_mark
  obtain ⟨other, hsame, hreads⟩ := hvalue.readsWhole hinside
  have hkind : start.kind = .letWord := (Token.kind_eq hstart).trans hfirst
  have hstops : strength (ahead (semicolon :: ends)) ≤ lowest := by
    simp [ahead, hsemicolon, strength]
  refine ⟨start, .binding start (nameOf name) other,
    tokens_of_statement (by simp [hkind]) hends fun depth hlimit => ?_, ?_⟩
  · simp only [List.cons_append, List.append_assoc, List.nil_append] at hlimit ⊢
    have hlater : (inside ++ semicolon :: ends).length ≤ depth := by
      simp only [List.length_cons] at hlimit
      omega
    obtain ⟨last, hread⟩ := hreads depth sign (semicolon :: ends) hlater hstops
    exact ⟨semicolon, binding_yields hkind ((Token.kind_eq hnamed).trans htarget) hsign hread
      (closing_reads _ hsemicolon)⟩
  · simp [Node.unanchored, hsame, nameOf_relocate_erase hnamed,
      Token.relocate_erase_of_lexeme hstart]

theorem returning_reprints {first : Token} {value : Node} (hfirst : first.kind = .returnWord)
    (hword : first.Readable) (hvalue : Plain value) :
    Reprints (.program first [.returning first value]) := by
  have hspelled : Spelled (Node.program first [.returning first value]).source []
      (first.lexeme :: (render value ++ [mark .semicolon])) := by
    have hall := (hword.spelled (by simp [hfirst]) (by simp [Divided, dividers])).append
      ((Spelled.space _).append hvalue.spelled_semicolon)
    simpa [Node.source, Node.sources, String.append_assoc] using hall
  refine reprints_of_reads hspelled fun ts ends hts hends => ?_
  obtain ⟨start, _, rfl, hstart, hts⟩ := hts.cons
  obtain ⟨inside, semicolon, rfl, hinside, hsemicolon⟩ := hts.concat_mark
  obtain ⟨other, hsame, hreads⟩ := hvalue.readsWhole hinside
  have hkind : start.kind = .returnWord := (Token.kind_eq hstart).trans hfirst
  have hstops : strength (ahead (semicolon :: ends)) ≤ lowest := by
    simp [ahead, hsemicolon, strength]
  refine ⟨start, .returning start other,
    tokens_of_statement (by simp [hkind]) hends fun depth hlimit => ?_, ?_⟩
  · rw [List.append_assoc, List.singleton_append] at hlimit ⊢
    obtain ⟨last, hread⟩ := hreads depth start (semicolon :: ends) hlimit hstops
    exact ⟨semicolon, returning_yields hkind hread (closing_reads _ hsemicolon)⟩
  · simp [Node.unanchored, hsame, Token.relocate_erase_of_lexeme hstart]

theorem increment_reprints {first target sign : Token} (htarget : target.kind = .ident)
    (hname : target.Readable) (hsign : sign.kind = .doublePlus) (htoken : sign.Readable) :
    Reprints (.program first [.increment sign (nameOf target)]) := by
  have hspelled : Spelled (Node.program first [.increment sign (nameOf target)]).source []
      [target.lexeme, mark .doublePlus] := by
    -- a plus is no divider, but it ends a word
    have hends : RunEnds isWordPart ("++".toList ++ []) := by
      have hplus : isWordPart '+' = false := by decide
      simpa [RunEnds] using hplus
    have hplus : Spelled "++" [] [mark .doublePlus] :=
      .sign (by decide) (Divided.nil.longestSign (by decide))
    simpa [Node.source, Node.sources, nameOf] using (hname.spelled_name htarget hends).append hplus
  refine reprints_of_reads hspelled fun ts ends hts hends => ?_
  obtain ⟨start, _, rfl, hstart, hts⟩ := hts.cons
  obtain ⟨found, rfl, hfound⟩ := hts.singleton
  have hkind : start.kind = .ident := (Token.kind_eq hstart).trans htarget
  refine ⟨start, .increment found (nameOf start),
    tokens_of_statement (by simp [hkind]) hends fun depth _ => ⟨found, ?_⟩, ?_⟩
  · have hclosing : (Cursor.peek ⟨found, ends⟩).kind ≠ .semicolon := by simp [kind_peek, hends]
    exact increment_yields hkind (Token.kind_eq hfound) (closing_of_ne _ hclosing)
  · simp [Node.unanchored, nameOf_relocate_erase hstart,
      htoken.relocate_eq_of_mark hsign (by decide) hfound]

theorem expression_reprints {first : Token} {body : Node} (hbody : Plain body) :
    Reprints (.program first [.expression first body]) := by
  have hspelled :
      Spelled (Node.program first [.expression first body]).source [] (render body) := by
    simpa [Node.source, Node.sources] using hbody.spelled .nil
  refine reprints_of_reads hspelled fun ts ends hts hends => ?_
  obtain ⟨other, hcoheres, hsame⟩ := hbody.coheres hts
  obtain ⟨start, more, rfl, _⟩ := hcoheres.begins
  refine ⟨start, .expression start other,
    tokens_of_coheres (hcoheres.weaken (by decide)) hends, ?_⟩
  simp [Node.unanchored, hsame]

theorem PlainProgram.reprints {program : Node} (h : PlainProgram program) : Reprints program := by
  cases h with
  | binding hfirst hword htarget hname hvalue =>
      exact binding_reprints hfirst hword htarget hname hvalue
  | returning hfirst hword hvalue => exact returning_reprints hfirst hword hvalue
  | increment htarget hname hsign htoken => exact increment_reprints htarget hname hsign htoken
  | expression hbody => exact expression_reprints hbody

/-- A text of one plain statement is printed so that it can be read again: without complaint, and as
the same program up to places and, where it is an expression or an increment, up to the token that
it begins at. So to print it once more changes nothing. -/
theorem printed_program_is_read_again {text : String} (hclean : (source text).isClean)
    (hone : (source text).statements.length = 1)
    (hplain : ∀ node ∈ (source text).statements, node.isPlainStatement) :
    let printed := (source text).program.source
    (source printed).isClean ∧
      (source printed).program.unanchored.relocate .erase =
        (source text).program.unanchored.relocate .erase ∧
      (source printed).program.source = printed := by
  intro printed
  obtain ⟨hagain, hsame⟩ := (plainProgram_of_isClean hclean hone hplain).reprints
  refine ⟨hagain, hsame, ?_⟩
  calc (source printed).program.source
      = ((source printed).program.unanchored.relocate .erase).source := by
        rw [Node.source_relocate, Node.source_unanchored]
    _ = ((source text).program.unanchored.relocate .erase).source := congrArg Node.source hsame
    _ = printed := by rw [Node.source_relocate, Node.source_unanchored]

/-- A call of a negated index of a hash inside a product. -/
theorem printed_program_is_read_again_product :
    let text := "let r = 2 * (-\x7b1: a, true: 0x1F\x7d[k])(b, [c])"
    let printed := "let r = (2 * (-(\x7b1:a, true:0x1F\x7d[k]))(b, [c]));"
    (source text).isClean ∧ (source text).statements.length = 1 ∧
      (∀ node ∈ (source text).statements, node.isPlainStatement) ∧
      (source text).program.source = printed ∧ (source printed).isClean ∧
      (source printed).program.unanchored.relocate .erase =
        (source text).program.unanchored.relocate .erase ∧
      (source printed).program.source = printed := by
  intro text printed
  have hclean : (source text).isClean := by decide +kernel
  have hone : (source text).statements.length = 1 := by decide +kernel
  have hplain : ∀ node ∈ (source text).statements, node.isPlainStatement := by decide +kernel
  have hprinted : (source text).program.source = printed := by decide +kernel
  have hagain := printed_program_is_read_again hclean hone hplain
  rw [hprinted] at hagain
  exact ⟨hclean, hone, hplain, hprinted, hagain⟩

/-- A sum is printed in parentheses, so its program then begins at another token. -/
theorem printed_sum_begins_elsewhere :
    (source "a + b").isClean ∧ (source "a + b").statements.length = 1 ∧
      (∀ node ∈ (source "a + b").statements, node.isPlainStatement) ∧
      (source "a + b").program.source = "(a + b)" ∧
      (source "(a + b)").program.relocate .erase ≠ (source "a + b").program.relocate .erase := by
  refine ⟨by decide +kernel, by decide +kernel, by decide +kernel, by decide +kernel, ?_⟩
  intro hsame
  have hliteral := congrArg Node.leadingLiteral hsame
  revert hliteral
  decide +kernel

end Parse

end Monkey
