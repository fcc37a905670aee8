import Monkey.Proofs.Parse.Soundness
import Monkey.Proofs.Shell.Lines
import Monkey.Shell.Editing

/-!
# Brackets of a complete program

The enter key counts brackets without regard to their kind, and takes a closing bracket too many
for none. The grammar knows better: every phrase is nested, with each opening bracket closed by one
of its own kind. In nested tokens the closing brackets never get ahead of the opening ones, so the
count is the plain difference wherever a program is cut, and nothing is left open at its end.
-/
namespace Monkey.Shell

open Parse

/-- The kinds of bracket that belong together. -/
def bracketPairs : List (Kind × Kind) :=
  [(.lparen, .rparen), (.lbracket, .rbracket), (.lbrace, .rbrace)]

def isBracket (kind : Kind) : Bool :=
  isOpening kind || isClosing kind

/-- Each opening bracket is followed by a closing one of its kind, with nested tokens between. -/
inductive Nested : List Token → Prop where
  | nil : Nested []
  | plain {token : Token} {rest : List Token} (h : isBracket token.kind = false)
      (hrest : Nested rest) : Nested (token :: rest)
  | pair {opening closing : Token} {inside rest : List Token}
      (h : (opening.kind, closing.kind) ∈ bracketPairs) (hinside : Nested inside)
      (hrest : Nested rest) : Nested (opening :: (inside ++ closing :: rest))

namespace Nested

theorem append {first second : List Token} (hfirst : Nested first) (hsecond : Nested second) :
    Nested (first ++ second) := by
  induction hfirst with
  | nil => exact hsecond
  | plain h _ ih => exact .plain h ih
  | pair h hinside _ _ ih =>
      rw [List.cons_append, List.append_assoc]
      exact .pair h hinside ih

/-- A token of a kind that is no bracket. -/
theorem step {token : Token} {kind : Kind} {rest : List Token} (h : token.kind = kind)
    (hkind : isBracket kind = false) (hrest : Nested rest) : Nested (token :: rest) := by
  apply plain _ hrest
  rwa [h]

section
variable {opening closing : Token} {inside rest : List Token}

theorem parens (hopening : opening.kind = .lparen) (hinside : Nested inside)
    (hclosing : closing.kind = .rparen) (hrest : Nested rest) :
    Nested (opening :: (inside ++ closing :: rest)) :=
  pair (by simp [hopening, hclosing, bracketPairs]) hinside hrest

theorem squares (hopening : opening.kind = .lbracket) (hinside : Nested inside)
    (hclosing : closing.kind = .rbracket) (hrest : Nested rest) :
    Nested (opening :: (inside ++ closing :: rest)) :=
  pair (by simp [hopening, hclosing, bracketPairs]) hinside hrest

theorem braces (hopening : opening.kind = .lbrace) (hinside : Nested inside)
    (hclosing : closing.kind = .rbrace) (hrest : Nested rest) :
    Nested (opening :: (inside ++ closing :: rest)) :=
  pair (by simp [hopening, hclosing, bracketPairs]) hinside hrest

end

/-! ## Phrases -/

theorem of_ending {tokens : List Token} (h : Ending tokens) : Nested tokens := by
  cases h with
  | absent => exact .nil
  | present hkind => exact .step hkind rfl .nil

theorem of_yield {parts : List Part} (h : ∀ part ∈ parts, Nested part.tokens) :
    Nested (yield parts) := by
  induction parts with
  | nil => exact .nil
  | cons part rest ih =>
      obtain ⟨hpart, hrest⟩ := List.forall_mem_cons.mp h
      rw [yield_cons]
      exact hpart.append (ih hrest)

theorem of_commas {pieces : List (List Token)} {tokens : List Token} (h : Commas pieces tokens)
    (hpieces : ∀ piece ∈ pieces, Nested piece) : Nested tokens := by
  induction h with
  | one tokens => exact hpieces tokens (List.mem_singleton_self _)
  | more hcomma _ ih =>
      obtain ⟨hpiece, hrest⟩ := List.forall_mem_cons.mp hpieces
      exact hpiece.append (.step hcomma rfl (ih hrest))

theorem of_listed {pieces : List (List Token)} {tokens : List Token} (h : Listed pieces tokens)
    (hpieces : ∀ piece ∈ pieces, Nested piece) : Nested tokens := by
  cases h with
  | empty => exact .nil
  | some hcommas => exact of_commas hcommas hpieces

theorem of_items {items : List Part} {tokens : List Token}
    (h : Listed (items.map (·.tokens)) tokens) (hitems : ∀ part ∈ items, Nested part.tokens) :
    Nested tokens := by
  apply of_listed h
  intro piece hpiece
  obtain ⟨part, hpart, rfl⟩ := List.mem_map.mp hpiece
  exact hitems part hpart

theorem of_names {names tokens : List Token} (h : Listed (names.map ([·])) tokens)
    (hnames : ∀ token ∈ names, token.kind = .ident) : Nested tokens := by
  apply of_listed h
  intro piece hpiece
  obtain ⟨token, htoken, rfl⟩ := List.mem_map.mp hpiece
  exact .step (hnames token htoken) rfl .nil

theorem of_entries {entries : List Entry} {tokens : List Token}
    (h : Listed (entries.map (·.tokens)) tokens)
    (hkeys : ∀ entry ∈ entries, Nested entry.key.tokens)
    (hcolons : ∀ entry ∈ entries, entry.colon.kind = .colon)
    (hvalues : ∀ entry ∈ entries, Nested entry.value.tokens) : Nested tokens := by
  apply of_listed h
  intro piece hpiece
  obtain ⟨entry, hentry, rfl⟩ := List.mem_map.mp hpiece
  exact (hkeys entry hentry).append (.step (hcolons entry hentry) rfl (hvalues entry hentry))

/-- The signs between and in front of operands are no brackets. -/
theorem isBracket_of_sign {kind : Kind} (h : kind ∈ unaryKinds ++ binaryKinds) :
    isBracket kind = false := by
  revert kind
  decide

theorem of_derives {category : Category} {tokens : List Token} {node : Node}
    (h : Derives category tokens node) : Nested tokens := by
  induction h with
  | program _ ih => exact of_yield ih
  | binding hword htarget hsign _ hending ih =>
      have hvalue := ih.append (of_ending hending)
      exact .step hword rfl (.step htarget rfl (.step hsign rfl hvalue))
  | returning hword _ hending ih => exact .step hword rfl (ih.append (of_ending hending))
  | signedIncrement hsign htarget hending =>
      exact .step hsign rfl (.step htarget rfl (of_ending hending))
  | incrementOfName htarget hsign hending =>
      exact .step htarget rfl (.step hsign rfl (of_ending hending))
  | switchOn hword _ hopening _ hclosing ih ihs =>
      exact .step hword rfl (ih.append (.braces hopening (of_yield ihs) hclosing .nil))
  | switch hword hopening _ hclosing ihs =>
      exact .step hword rfl (.braces hopening (of_yield ihs) hclosing .nil)
  | expression _ hending ih => exact ih.append (of_ending hending)
  | block hopening _ hclosing ihs => exact .braces hopening (of_yield ihs) hclosing .nil
  | clause hword _ hcolon _ hlast hending ih ihs =>
      have hbody := (of_yield ihs).append (.step hlast rfl (of_ending hending))
      exact .step hword rfl (ih.append (.step hcolon rfl hbody))
  | identifier h => exact .step h rfl .nil
  | integer h _ =>
      rcases h with h | h
      · exact .step h rfl .nil
      · exact .step h rfl .nil
  | text h => exact .step h rfl .nil
  | truth h => exact .step h rfl .nil
  | falsity h => exact .step h rfl .nil
  | unary hsign _ ih => exact .plain (isBracket_of_sign (List.mem_append_left _ hsign)) ih
  | binary _ hsign _ ihl ihr =>
      exact ihl.append (.plain (isBracket_of_sign (List.mem_append_right _ hsign)) ihr)
  | group hopening _ hclosing ih => exact .parens hopening ih hclosing .nil
  | conditional hword hopening _ hclosing _ ih ihb =>
      exact .step hword rfl (.parens hopening ih hclosing ihb)
  | conditionalElse hword hopening _ hclosing _ hother _ ih ihb ihe =>
      have hblocks := ihb.append (.step hother rfl ihe)
      exact .step hword rfl (.parens hopening ih hclosing hblocks)
  | loop hword hopening _ _ _ hsecond _ hclosing _ ihi ihc ihp ihb =>
      -- the semicolon behind the first statement belongs to it
      have hhead := ihi.append (ihc.append (.step hsecond rfl ihp))
      have hloop := Nested.step hword rfl (.parens hopening hhead hclosing ihb)
      simpa using hloop
  | function hword hopening hnames hinside hclosing _ ih =>
      exact .step hword rfl (.parens hopening (of_names hinside hnames) hclosing ih)
  | call _ hopening _ hinside hclosing ih ihs =>
      exact ih.append (.parens hopening (of_items hinside ihs) hclosing .nil)
  | array hopening _ hinside hclosing ihs =>
      exact .squares hopening (of_items hinside ihs) hclosing .nil
  | index _ hopening _ hclosing ihl ihr =>
      exact ihl.append (.squares hopening ihr hclosing .nil)
  | hash hopening _ hcolons _ hinside hclosing ihk ihv =>
      exact .braces hopening (of_entries hinside ihk hcolons ihv) hclosing .nil

end Nested

/-! ## Counts -/

def openings (tokens : List Token) : Nat :=
  tokens.countP (isOpening ·.kind)

def closings (tokens : List Token) : Nat :=
  tokens.countP (isClosing ·.kind)

@[simp] theorem openings_append (first second : List Token) :
    openings (first ++ second) = openings first + openings second :=
  List.countP_append

@[simp] theorem closings_append (first second : List Token) :
    closings (first ++ second) = closings first + closings second :=
  List.countP_append

@[simp] theorem openings_cons (token : Token) (rest : List Token) :
    openings (token :: rest) = openings rest + if isOpening token.kind then 1 else 0 :=
  List.countP_cons

@[simp] theorem closings_cons (token : Token) (rest : List Token) :
    closings (token :: rest) = closings rest + if isClosing token.kind then 1 else 0 :=
  List.countP_cons

theorem kinds_of_pair {first second : Kind} (h : (first, second) ∈ bracketPairs) :
    isOpening first ∧ isClosing first = false ∧ isOpening second = false ∧ isClosing second := by
  have hall : ∀ pair ∈ bracketPairs, isOpening pair.1 ∧ isClosing pair.1 = false ∧
      isOpening pair.2 = false ∧ isClosing pair.2 := by decide
  exact hall (first, second) h

theorem Nested.openings_eq {tokens : List Token} (h : Nested tokens) :
    openings tokens = closings tokens := by
  induction h with
  | nil => rfl
  | plain h _ ih =>
      obtain ⟨hopening, hclosing⟩ := Bool.or_eq_false_iff.mp h
      simp [hopening, hclosing, ih]
  | pair h _ _ ihinside ihrest =>
      obtain ⟨hopens, hopens', hcloses', hcloses⟩ := kinds_of_pair h
      simp [hopens, hopens', hcloses, hcloses']
      omega

/-- Wherever the tokens end early, no more brackets were closed than opened. -/
def Covered (tokens : List Token) : Prop :=
  ∀ front, front <+: tokens → closings front ≤ openings front

theorem Covered.of_prefix {front tokens : List Token} (h : Covered tokens)
    (hfront : front <+: tokens) : Covered front :=
  fun first hfirst => h first (hfirst.trans hfront)

theorem Nested.covered {tokens : List Token} (h : Nested tokens) : Covered tokens := by
  induction h with
  | nil =>
      intro front hfront
      rw [List.prefix_nil.mp hfront]
      exact Nat.le_refl _
  | plain h _ ih =>
      obtain ⟨hopening, hclosing⟩ := Bool.or_eq_false_iff.mp h
      intro front hfront
      rcases List.prefix_cons_iff.mp hfront with rfl | ⟨more, rfl, hmore⟩
      · exact Nat.le_refl _
      · simpa [hopening, hclosing] using ih more hmore
  | @pair opening closing inside rest h hinside _ ihinside ihrest =>
      obtain ⟨hopens, hopens', hcloses', hcloses⟩ := kinds_of_pair h
      intro front hfront
      rcases List.prefix_cons_iff.mp hfront with rfl | ⟨more, rfl, hmore⟩
      · exact Nat.le_refl _
      · rcases List.prefix_or_prefix_of_prefix hmore (List.prefix_append _ _) with
          hearly | ⟨late, rfl⟩
        · have hle := ihinside more hearly
          simp [hopens, hopens']
          omega
        · -- the pair may be closed by now, but it was opened first
          have heq := hinside.openings_eq
          have hlate := (List.prefix_append_right_inj inside).mp hmore
          rcases List.prefix_cons_iff.mp hlate with rfl | ⟨last, rfl, hlast⟩
          · simp [hopens, hopens']
            omega
          · have hle := ihrest last hlast
            simp [hopens, hopens', hcloses, hcloses']
            omega

/-- One more token changes the depth by its count, unless it closes what is not open. -/
theorem stepDepth_add {depth : Nat} {token : Token}
    (h : closings [token] ≤ depth + openings [token]) :
    stepDepth depth token + closings [token] = depth + openings [token] := by
  have hkinds : isOpening token.kind → isClosing token.kind = false := by
    cases token.kind <;> decide
  by_cases hopening : isOpening token.kind
  · simp [stepDepth, hopening, hkinds hopening, openings, closings]
  · by_cases hclosing : isClosing token.kind
    · simp [hopening, hclosing, openings, closings] at h
      simp [stepDepth, hopening, hclosing, openings, closings]
      omega
    · simp [stepDepth, hopening, hclosing, openings, closings]

/-- The depth is the difference of the counts as long as it never falls below zero. -/
theorem foldl_stepDepth (depth : Nat) {tokens : List Token}
    (h : ∀ front, front <+: tokens → closings front ≤ depth + openings front) :
    tokens.foldl stepDepth depth + closings tokens = depth + openings tokens := by
  induction tokens generalizing depth with
  | nil => rfl
  | cons token rest ih =>
      have hstep := stepDepth_add (h [token] (by simp))
      have hrest := ih (stepDepth depth token) fun front hfront => by
        have hlonger := h ([token] ++ front) (List.prefix_append_right_inj [token] |>.mpr hfront)
        rw [openings_append, closings_append] at hlonger
        omega
      have hall : token :: rest = [token] ++ rest := rfl
      rw [hall, openings_append, closings_append, List.foldl_append, List.foldl_cons,
        List.foldl_nil]
      omega

theorem openBrackets_add_closings {text : String} (h : Covered (Token.ofSource text)) :
    openBrackets text + closings (Token.ofSource text) = openings (Token.ofSource text) := by
  have hcount := foldl_stepDepth 0 (by simpa [Covered] using h)
  simpa [openBrackets] using hcount

/-! ## Programs -/

theorem nested_ofSource {source : String} (hclean : (Parse.source source).isClean) :
    Nested (Token.ofSource source) := by
  obtain ⟨ts, eof, htokens, heof, hts⟩ := Token.ofSource_eq_concat source
  rw [Parse.source, htokens] at hclean
  obtain ⟨parts, rfl, _, hparts⟩ := exists_parts_of_isClean hts heof hclean
  rw [htokens]
  have hyield : Nested (yield parts) := .of_yield fun part hpart => .of_derives (hparts part hpart)
  exact hyield.append (.step heof rfl .nil)

theorem openBrackets_eq_zero {source : String} (hclean : (Parse.source source).isClean) :
    openBrackets source = 0 := by
  have hnested := nested_ofSource hclean
  have hcount := openBrackets_add_closings hnested.covered
  have heq := hnested.openings_eq
  omega

/-- The enter key hands in whatever has no complaints. -/
theorem enterKey_of_isClean {source : String} (hclean : (Parse.source source).isClean) :
    enterKey source = .submit := by
  simp [enterKey, openBrackets_eq_zero hclean]

/-- The part of a covered text in front of a cut between two tokens is covered. -/
theorem covered_of_divides {front back : String} (h : Covered (Token.ofSource (front ++ back)))
    (hdivides : Divides [] (front ++ back).toList front.length (Token.ofSource (front ++ back))) :
    Covered (Token.ofSource front) := by
  have hlexes : Lexes [] (front.toList ++ back.toList) (Token.ofSource (front ++ back)) := by
    rw [← String.toList_append]
    exact (lexes_iff _ _).mpr rfl
  rw [String.toList_append] at hdivides
  obtain ⟨firsts, others, htokens, hfirsts, _⟩ := hlexes.cut hdivides
  have hfront : Token.ofSource front = firsts ++ [.eofAt (.behind front.toList)] :=
    (lexes_iff _ _).mp hfirsts
  rw [htokens] at h
  have hcovered : Covered firsts := h.of_prefix (List.prefix_append _ _)
  rw [hfront]
  intro first hfirst
  rcases List.prefix_concat_iff.mp hfirst with rfl | hshorter
  · have hle := hcovered firsts (List.prefix_refl _)
    simpa [isOpening, isClosing, openings, closings] using hle
  · exact hcovered first hshorter

/-- No bracket is open at the end of a text without complaints, and wherever the text is cut between
two tokens, as many are open as the brackets opened so far are more than those closed. So a text
with an open bracket has complaints. -/
theorem openBrackets_of_isClean (source : String) :
    ((Parse.source source).isClean →
      openBrackets source = 0 ∧
      ∀ front back, source = front ++ back →
        Divides [] source.toList front.length (Token.ofSource source) →
        (openBrackets front : Int) =
          openings (Token.ofSource front) - closings (Token.ofSource front)) ∧
    (0 < openBrackets source → (Parse.source source).isClean = false) := by
  constructor
  · intro hclean
    constructor
    · exact openBrackets_eq_zero hclean
    · rintro front back rfl hdivides
      have hcovered := covered_of_divides (nested_ofSource hclean).covered hdivides
      have hcount := openBrackets_add_closings hcovered
      omega
  · intro hopen
    by_contra hclean
    have hzero := openBrackets_eq_zero (by simpa using hclean)
    omega

/-- A cut inside three brackets of different kinds, behind a closing bracket in a comment. -/
theorem openBrackets_of_call :
    let front := "f([1, \x7b # ]\n"
    let back := "\"k)\": 2\x7d]);"
    (Parse.source (front ++ back)).isClean ∧ openBrackets (front ++ back) = 0 ∧
      (openBrackets front : Int) =
        openings (Token.ofSource front) - closings (Token.ofSource front) ∧
      openBrackets front = 3 := by
  intro front back
  have hclean : (Parse.source (front ++ back)).isClean := by decide +kernel
  obtain ⟨hwhole, hcut⟩ := (openBrackets_of_isClean (front ++ back)).1 hclean
  exact ⟨hclean, hwhole, hcut front back rfl (by decide +kernel), by decide +kernel⟩

end Monkey.Shell
