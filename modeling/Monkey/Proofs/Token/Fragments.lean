import Monkey.Proofs.Token.Respacing

/-!
# Fragments of a text

A fragment is read as the same tokens wherever it stands, as long as what follows does not go on
with its last token. So the tokens of a text that is put together from fragments are those of its
fragments. A bracket, a comma, a colon or a semicolon is read alone whatever follows it; names,
numerals and operators need a divider behind them.
-/
namespace Monkey

open Parse

/-- In front of `after`, the fragment is read as tokens that say this. -/
def Spelled (fragment : String) (after : List Char) (lexemes : List Lexeme) : Prop :=
  ∀ before rest, Lexes (before ++ fragment.toList) after rest →
    ∃ tokens, Lexes before (fragment.toList ++ after) (tokens ++ rest) ∧
      tokens.map (·.lexeme) = lexemes

namespace Spelled

variable {first second : String} {after : List Char} {lexemes others : List Lexeme}

theorem empty (after : List Char) : Spelled "" after [] :=
  fun before rest hrest => ⟨[], by simpa using hrest, rfl⟩

theorem space (after : List Char) : Spelled " " after [] :=
  fun _ _ hrest => ⟨[], hrest.behind_space, rfl⟩

theorem append (hfirst : Spelled first (second.toList ++ after) lexemes)
    (hsecond : Spelled second after others) : Spelled (first ++ second) after (lexemes ++ others) := by
  intro before rest hrest
  rw [String.toList_append, ← List.append_assoc] at hrest
  obtain ⟨later, hlater, hothers⟩ := hsecond _ rest hrest
  obtain ⟨earlier, hearlier, hlexemes⟩ := hfirst before _ hlater
  refine ⟨earlier ++ later, by simpa using hearlier, ?_⟩
  rw [List.map_append, hlexemes, hothers]

theorem of_fits {kind : Kind} {text : String} (h : Fits kind text.toList after)
    (hkind : kind ≠ .string) : Spelled text after [(kind, text)] := by
  intro before rest hrest
  let token : Token := ⟨kind, text, .behind before⟩
  have hspan : token.span = text.toList := by simp [token, Token.span, Kind.span, hkind]
  have hnone : Gap [] (token.span ++ after) := .nil
  have htoken : Lexes before ([] ++ (token.span ++ after)) (token :: rest) :=
    .token hnone (by simp [token]) h (by simpa [hspan] using hrest)
  exact ⟨[token], by simpa [hspan] using htoken, rfl⟩

end Spelled

/-- A text that is one fragment has its tokens and the end marker. -/
theorem Token.ofSource_of_spelled {text : String} {lexemes : List Lexeme}
    (h : Spelled text [] lexemes) :
    ∃ tokens eof, ofSource text = tokens ++ [eof] ∧ eof.kind = .eof ∧
      tokens.map (·.lexeme) = lexemes := by
  have hended : Lexes ([] ++ text.toList) [] _ := .ended .nil
  obtain ⟨tokens, htokens, hlexemes⟩ := h [] _ hended
  rw [List.append_nil] at htokens
  exact ⟨tokens, _, (lexes_iff _ _).mp htokens, rfl, hlexemes⟩

/-! ## Single tokens -/

theorem Spelled.sign {kind : Kind} {text : String} (h : (kind, text) ∈ Kind.signs)
    {after : List Char} (hlongest : LongestSign text.toList after) :
    Spelled text after [(kind, text)] :=
  .of_fits (.sign (by simpa using h) hlongest) (ne_string_of_mem_signs h).1

theorem Spelled.assign (after : List Char) : Spelled " = " after [mark .assign] := by
  have hdivided : Divided (" ".toList ++ after) := .cons (by decide) _
  have hsign : Spelled "=" (" ".toList ++ after) [mark .assign] :=
    .sign (by decide) (hdivided.longestSign (by decide))
  have hspaced : Spelled (" " ++ ("=" ++ " ")) after ([] ++ ([mark .assign] ++ [])) :=
    (Spelled.space _).append (hsign.append (.space after))
  exact hspaced

/-- Only an equality sign goes on with a sign in front of an operand. -/
theorem Spelled.unarySign {kind : Kind} (h : kind ∈ unaryKinds) {after : List Char}
    (hafter : after.head? ≠ some '=') : Spelled kind.spelling after [mark kind] := by
  have hsigns : ∀ kind ∈ unaryKinds, (kind, kind.spelling) ∈ Kind.signs ∧
      ∀ sign ∈ Kind.signs, sign.2.toList.dropLast = kind.spelling.toList →
        sign.2.toList.getLast? = some '=' := by decide
  obtain ⟨hsign, hlonger⟩ := hsigns kind h
  refine .sign hsign fun c hc other hmem => ?_
  have hlast := hlonger _ hmem (by simp)
  rw [hc] at hafter
  exact hafter (by simpa using hlast)

/-- The kinds of signs that no other sign begins with. -/
def solitaryKinds : List Kind :=
  [.comma, .semicolon, .colon, .lparen, .rparen, .lbrace, .rbrace, .lbracket, .rbracket]

theorem Spelled.solitary {kind : Kind} (h : kind ∈ solitaryKinds) (after : List Char) :
    Spelled kind.spelling after [mark kind] := by
  have hsigns : ∀ kind ∈ solitaryKinds, (kind, kind.spelling) ∈ Kind.signs ∧
      ∀ sign ∈ Kind.signs, sign.2.toList.dropLast ≠ kind.spelling.toList := by decide
  obtain ⟨hsign, hlonger⟩ := hsigns kind h
  exact .sign hsign fun c _ other hmem => hlonger _ hmem (by simp)

theorem Spelled.enclosed {opening closing : Kind} (hopening : opening ∈ solitaryKinds)
    (hclosing : closing ∈ solitaryKinds) {inside : String} {after : List Char}
    {lexemes : List Lexeme} (h : Spelled inside (closing.spelling.toList ++ after) lexemes) :
    Spelled (opening.spelling ++ inside ++ closing.spelling) after
      (mark opening :: (lexemes ++ [mark closing])) := by
  rw [String.append_assoc]
  exact (Spelled.solitary hopening _).append (h.append (.solitary hclosing after))

section Brackets
variable {inside : String} {after : List Char} {lexemes : List Lexeme}

theorem Spelled.inParens (h : Spelled inside (')' :: after) lexemes) :
    Spelled ("(" ++ inside ++ ")") after (inParens lexemes) :=
  .enclosed (show .lparen ∈ solitaryKinds by decide) (show .rparen ∈ solitaryKinds by decide) h

theorem Spelled.inBrackets (h : Spelled inside (']' :: after) lexemes) :
    Spelled ("[" ++ inside ++ "]") after (inBrackets lexemes) :=
  .enclosed (show .lbracket ∈ solitaryKinds by decide) (show .rbracket ∈ solitaryKinds by decide) h

theorem Spelled.inBraces (h : Spelled inside ('\x7d' :: after) lexemes) :
    Spelled ("\x7b" ++ inside ++ "\x7d") after (inBraces lexemes) :=
  .enclosed (show .lbrace ∈ solitaryKinds by decide) (show .rbrace ∈ solitaryKinds by decide) h

end Brackets

/-- The kinds whose tokens are not all written alike. -/
def variousKinds : List Kind :=
  [.illegal, .eof, .ident, .int, .hex, .string]

theorem Fits.eq_spelling {kind : Kind} {literal after : List Char} (h : Fits kind literal after)
    (hkind : kind ∉ variousKinds) : String.ofList literal = kind.spelling := by
  have hkeywords : ∀ pair ∈ Kind.keywords, pair.1 = pair.2.spelling := by decide
  have hsigns : ∀ sign ∈ Kind.signs, sign.2 = sign.1.spelling := by decide
  cases h with
  | word _ _ _ hword =>
      rcases hword with hkeyword | ⟨rfl, _⟩
      · exact hkeywords _ hkeyword
      · simp [variousKinds] at hkind
  | sign hsign => exact hsigns _ hsign
  | _ => simp [variousKinds] at hkind

/-- A name is a word that is no keyword, and stays one in front of anything that ends it. -/
theorem Fits.of_ident {literal after : List Char} (h : Fits .ident literal after) :
    Kind.ofWord (.ofList literal) = .ident ∧
      ∀ other, RunEnds isWordPart other → Fits .ident literal other := by
  have hsigns : ∀ sign ∈ Kind.signs, sign.1 ≠ .ident := by decide
  generalize hkind : Kind.ident = kind at h
  cases h with
  | word hfirst hmore _ hword =>
      exact ⟨(ofWord_eq_iff _ _).mp hword, fun _ hend => .word hfirst hmore hend hword⟩
  | sign hsign => exact absurd hkind.symm (hsigns _ hsign)
  | _ => cases hkind

/-- The kinds of the tokens that are operands by themselves, but for texts. -/
def operandKinds : List Kind :=
  [.ident, .int, .hex, .trueWord, .falseWord]

namespace Token.Readable

variable {token : Token}

theorem lexeme_eq_mark {kind : Kind} (h : token.Readable) (hkind : token.kind = kind)
    (halike : kind ∉ variousKinds) : token.lexeme = mark kind := by
  obtain ⟨_, hfits⟩ := h
  rw [hkind] at hfits
  have hliteral := hfits.eq_spelling halike
  rw [String.ofList_toList] at hliteral
  rw [lexeme, hkind, hliteral, mark]

/-- Tokens of a kind that is always written alike differ in places only. -/
theorem relocate_eq_of_mark {kind : Kind} {found : Token} (h : token.Readable)
    (hkind : token.kind = kind) (halike : kind ∉ variousKinds) (hfound : found.lexeme = mark kind) :
    found.relocate .erase = token.relocate .erase :=
  relocate_erase_of_lexeme (hfound.trans (h.lexeme_eq_mark hkind halike).symm)

theorem isName (h : token.Readable) (hkind : token.kind = .ident) :
    Kind.ofWord token.literal = .ident := by
  obtain ⟨_, hfits⟩ := h
  rw [hkind] at hfits
  simpa using hfits.of_ident.1

theorem spelled_name (h : token.Readable) (hkind : token.kind = .ident) {after : List Char}
    (hafter : RunEnds isWordPart after) : Spelled token.literal after [token.lexeme] := by
  obtain ⟨_, hfits⟩ := h
  rw [hkind] at hfits
  rw [lexeme, hkind]
  exact .of_fits (hfits.of_ident.2 after hafter) (by decide)

theorem spelled (h : token.Readable) (hkind : token.kind ≠ .illegal ∧ token.kind ≠ .string)
    {after : List Char} (hafter : Divided after) : Spelled token.literal after [token.lexeme] := by
  obtain ⟨_, hfits⟩ := h
  exact .of_fits (hfits.divided hafter fun hillegal => absurd hillegal hkind.1) hkind.2

/-- An operand does not begin like the second half of a sign. -/
theorem head?_ne (h : token.Readable) (hkind : token.kind ∈ operandKinds) :
    token.literal.toList.head? ≠ some '=' := by
  have hkinds : ∀ kind ∈ operandKinds, ∀ sign ∈ Kind.signs, sign.1 ≠ kind := by decide
  obtain ⟨after, hfits⟩ := h
  generalize token.kind = kind at hkind hfits
  generalize token.literal.toList = literal at hfits ⊢
  intro hhead
  cases hfits with
  | text | stray | unclosed => simp [operandKinds] at hkind
  | decimal _ hdigits =>
      have hdigit := hdigits _ (List.mem_of_head? hhead)
      cases hdigit
  | hexadecimal => simp at hhead
  | word hfirst =>
      obtain rfl := Option.some.inj hhead
      cases hfirst
  | sign hsign => exact hkinds kind hkind _ hsign rfl

end Token.Readable

/-! ## Lists -/

theorem Spelled.comma (after : List Char) : Spelled ", " after [mark .comma] := by
  have hcomma : Spelled (Kind.spelling .comma ++ " ") after ([mark .comma] ++ []) :=
    (Spelled.solitary (by decide) _).append (.space after)
  exact hcomma

/-- Fragments with commas between them. -/
theorem Spelled.commas {α : Type} {items : List α} {textOf : α → String}
    {lexemesOf : α → List Lexeme}
    (h : ∀ item ∈ items, ∀ after, Divided after → Spelled (textOf item) after (lexemesOf item))
    {after : List Char} (hafter : Divided after) :
    Spelled (", ".intercalate (items.map textOf)) after (commas (items.map lexemesOf)) := by
  induction items with
  | nil => exact .empty after
  | cons item rest ih =>
      obtain ⟨hitem, hrest⟩ := List.forall_mem_cons.mp h
      cases rest with
      | nil => simpa [Parse.commas] using hitem after hafter
      | cons next rest =>
          have hdivided : Divided ((", " ++ ", ".intercalate ((next :: rest).map textOf)).toList ++
              after) := by
            rw [String.toList_append]
            exact .cons (by decide) _
          have hall := (hitem _ hdivided).append ((Spelled.comma _).append (ih hrest))
          simpa [Parse.commas, String.intercalate_cons_cons, String.append_assoc] using hall

end Monkey
