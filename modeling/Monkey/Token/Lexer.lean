import Monkey.Text.Number
import Monkey.Token

/-!
# Lexing

A lexer holds the text not yet read and the place it has reached. Each step skips blanks and
comments, then takes the longest token that begins there; what starts no token is taken as an
illegal one, so a step never fails. Main statements: the token's span and what is left make up the
text (`span_append_rest_scan`), and every token but the last makes the text shorter.
-/
namespace Monkey

/-- White space between tokens. -/
def isSpace (c : Char) : Bool :=
  c == ' ' || c == '\t' || c == '\r' || c == '\n'

def isHexDigit (c : Char) : Bool :=
  c.isDigit || ('a' ≤ c && c ≤ 'f') || ('A' ≤ c && c ≤ 'F')

def isWordStart (c : Char) : Bool :=
  c == '_' || Text.isLetter c

def isWordPart (c : Char) : Bool :=
  c == '_' || Text.isAlphanumeric c

/-- Splits off the blanks and comments in front. A comment runs from `#` up to the end of its
line; `comment` says that one is open. -/
def splitGap (comment : Bool) : List Char → List Char × List Char
  | [] => ([], [])
  | c :: rest =>
      if comment || isSpace c || c == '#' then
        let split := splitGap (c != '\n' && (comment || c == '#')) rest
        (c :: split.1, split.2)
      else ([], c :: rest)

@[simp] theorem splitGap_append (comment : Bool) (text : List Char) :
    (splitGap comment text).1 ++ (splitGap comment text).2 = text := by
  induction text generalizing comment with
  | nil => rfl
  | cons c rest ih =>
      simp only [splitGap]
      split
      · simp [ih]
      · rfl

theorem length_splitGap_snd_le (comment : Bool) (text : List Char) :
    (splitGap comment text).2.length ≤ text.length := by
  have := congrArg List.length (splitGap_append comment text)
  rw [List.length_append] at this
  omega

/-- Kind and literal of one token, with the text after it. -/
structure Scan where
  kind : Kind
  literal : List Char
  rest : List Char
  deriving DecidableEq, Repr

/-- Scans a text literal behind its opening quote. Without a closing quote all that follows is
illegal. -/
def scanText (text : List Char) : Scan :=
  match text.dropWhile (· != '"') with
  | [] => ⟨.illegal, '"' :: text, []⟩
  | _ :: rest => ⟨.string, text.takeWhile (· != '"'), rest⟩

/-- The longest run of a class at the front. -/
def scanRun (kind : Kind) (part : Char → Bool) (text : List Char) : Scan :=
  ⟨kind, text.takeWhile part, text.dropWhile part⟩

/-- A zero, `x` and at least one hexadecimal digit begin a hexadecimal number. -/
def scanNumeral (text : List Char) : Scan :=
  match text with
  | '0' :: x :: digit :: rest =>
      if (x == 'x' || x == 'X') && isHexDigit digit then
        let run := scanRun .hex isHexDigit (digit :: rest)
        ⟨.hex, '0' :: x :: run.literal, run.rest⟩
      else scanRun .int Char.isDigit text
  | _ => scanRun .int Char.isDigit text

def scanWord (text : List Char) : Scan :=
  let run := scanRun .ident isWordPart text
  { run with kind := .ofWord (.ofList run.literal) }

def pairKind? : Char → Char → Option Kind
  | '=', '=' => some .eq
  | '!', '=' => some .notEq
  | '+', '+' => some .doublePlus
  | '&', '&' => some .and
  | _, _ => none

def signKind : Char → Kind
  | '=' => .assign
  | '+' => .plus
  | '-' => .minus
  | '!' => .bang
  | '*' => .asterisk
  | '/' => .slash
  | '%' => .percent
  | '<' => .lt
  | '>' => .gt
  | ',' => .comma
  | ';' => .semicolon
  | ':' => .colon
  | '(' => .lparen
  | ')' => .rparen
  | '\x7b' => .lbrace
  | '\x7d' => .rbrace
  | '[' => .lbracket
  | ']' => .rbracket
  | _ => .illegal

/-- Two characters that form a sign are taken before one. -/
def scanSign (c : Char) (rest : List Char) : Scan :=
  match rest with
  | [] => ⟨signKind c, [c], []⟩
  | d :: after =>
      match pairKind? c d with
      | some kind => ⟨kind, [c, d], after⟩
      | none => ⟨signKind c, [c], rest⟩

/-- The token that begins with `c`. -/
def scan (c : Char) (rest : List Char) : Scan :=
  if c = '"' then scanText rest
  else if c.isDigit then scanNumeral (c :: rest)
  else if isWordStart c then scanWord (c :: rest)
  else scanSign c rest

theorem Kind.ofWord_ne_string (word : String) : Kind.ofWord word ≠ .string := by
  unfold ofWord keywords
  repeat rw [List.lookup_cons]; split; · simp
  simp

theorem signKind_ne_string (c : Char) : signKind c ≠ .string := by
  unfold signKind
  split <;> decide

theorem pairKind?_ne_string {c d : Char} {kind : Kind} (h : pairKind? c d = some kind) :
    kind ≠ .string := by
  unfold pairKind? at h
  split at h <;> simp_all <;> subst h <;> decide

theorem span_append_scanText (text : List Char) :
    (scanText text).kind.span (scanText text).literal ++ (scanText text).rest = '"' :: text := by
  have split := List.takeWhile_append_dropWhile (p := (· != '"')) (l := text)
  unfold scanText
  split
  · simp [Kind.span]
  · next c rest h =>
      have hc : c = '"' := by
        have := List.head_dropWhile_not (· != '"') (l := text) (by simp [h])
        simpa [h] using this
      rw [h, hc] at split
      simp [Kind.span, split]

theorem span_append_scanNumeral (text : List Char) :
    (scanNumeral text).kind.span (scanNumeral text).literal ++ (scanNumeral text).rest = text := by
  unfold scanNumeral
  split
  · split <;> simp [scanRun, Kind.span]
  · simp [scanRun, Kind.span]

theorem span_append_scanWord (text : List Char) :
    (scanWord text).kind.span (scanWord text).literal ++ (scanWord text).rest = text := by
  simp [scanWord, scanRun, Kind.span, Kind.ofWord_ne_string]

theorem span_append_scanSign (c : Char) (rest : List Char) :
    (scanSign c rest).kind.span (scanSign c rest).literal ++ (scanSign c rest).rest =
      c :: rest := by
  unfold scanSign
  split
  · simp [Kind.span, signKind_ne_string]
  · split
    · next h => simp [Kind.span, pairKind?_ne_string h]
    · simp [Kind.span, signKind_ne_string]

/-- Nothing is lost: the token's span and the rest are the text. -/
theorem span_append_rest_scan (c : Char) (rest : List Char) :
    (scan c rest).kind.span (scan c rest).literal ++ (scan c rest).rest = c :: rest := by
  unfold scan
  split
  · next h => rw [h]; exact span_append_scanText rest
  · split
    · exact span_append_scanNumeral _
    · split
      · exact span_append_scanWord _
      · exact span_append_scanSign c rest

theorem scanNumeral_literal_ne_nil {c : Char} {rest : List Char} (h : c.isDigit = true) :
    (scanNumeral (c :: rest)).literal ≠ [] := by
  unfold scanNumeral
  split
  · split
    · simp
    · simp_all [scanRun]
  · simp [scanRun, h]

theorem isWordPart_of_isWordStart {c : Char} (h : isWordStart c = true) :
    isWordPart c = true := by
  simp only [isWordStart, isWordPart, Bool.or_eq_true] at *
  exact h.imp_right Text.isAlphanumeric_of_isLetter

theorem Kind.span_eq_nil {kind : Kind} {literal : List Char} (h : kind.span literal = []) :
    literal = [] := by
  unfold span at h
  split at h <;> simp_all

theorem span_scan_ne_nil (c : Char) (rest : List Char) :
    (scan c rest).kind.span (scan c rest).literal ≠ [] := by
  unfold scan
  split
  · unfold scanText
    split <;> simp [Kind.span]
  · split
    · next h => exact fun h' => scanNumeral_literal_ne_nil h (Kind.span_eq_nil h')
    · split
      · next h =>
          intro h'
          simpa [scanWord, scanRun, isWordPart_of_isWordStart h] using Kind.span_eq_nil h'
      · intro h'
        have := Kind.span_eq_nil h'
        unfold scanSign at this
        split at this
        · simp at this
        · split at this <;> simp at this

theorem length_rest_scan_lt (c : Char) (rest : List Char) :
    (scan c rest).rest.length < (c :: rest).length := by
  have h := congrArg List.length (span_append_rest_scan c rest)
  have := List.length_pos_iff.mpr (span_scan_ne_nil c rest)
  rw [List.length_append] at h
  omega

/-- A text being read, from the place reached. -/
structure Lexer where
  position : Position
  text : List Char
  deriving DecidableEq, Repr

namespace Lexer

def ofList (text : List Char) : Lexer := ⟨.start, text⟩

/-- The token that begins a text without a gap in front. At the end the lexer stays there. -/
def read (start : Position) : List Char → Token × Lexer
  | [] => (.eofAt start, ⟨start, []⟩)
  | c :: rest =>
      let found := scan c rest
      (⟨found.kind, .ofList found.literal, start⟩,
        ⟨start.past (found.kind.span found.literal), found.rest⟩)

/-- The next token and the lexer after it. -/
def next (lexer : Lexer) : Token × Lexer :=
  let gap := splitGap false lexer.text
  read (lexer.position.past gap.1) gap.2

theorem ofWord_ne_eof (word : String) : Kind.ofWord word ≠ .eof := by
  unfold Kind.ofWord Kind.keywords
  repeat rw [List.lookup_cons]; split; · simp
  simp

theorem length_next_lt {lexer after : Lexer} {token : Token} (h : lexer.next = (token, after))
    (hk : token.kind ≠ .eof) : after.text.length < lexer.text.length := by
  have gap := length_splitGap_snd_le false lexer.text
  simp only [next] at h
  generalize (splitGap false lexer.text).2 = text at h gap
  cases text with
  | nil => simp only [read, Prod.mk.injEq] at h; simp [← h.1] at hk
  | cons c rest =>
      simp only [read, Prod.mk.injEq] at h
      rw [← h.2]
      exact Nat.lt_of_lt_of_le (length_rest_scan_lt c rest) gap

/-- All tokens up to the end marker, and the lexer after it. -/
def drain (lexer : Lexer) : List Token × Lexer :=
  match _h : lexer.next with
  | (token, after) =>
      if token.kind = .eof then ([token], after)
      else
        let more := after.drain
        (token :: more.1, more.2)
termination_by lexer.text.length
decreasing_by exact length_next_lt _h ‹_›

/-- The next `count` tokens, whatever they are. -/
def take (lexer : Lexer) : Nat → List Token
  | 0 => []
  | count + 1 => lexer.next.1 :: lexer.next.2.take count

end Lexer

namespace Token

/-- The tokens of a text, the last of them the end marker. -/
def ofList (text : List Char) : List Token :=
  (Lexer.ofList text).drain.1

def ofSource (source : String) : List Token :=
  ofList source.toList

end Token

end Monkey
