import Monkey.Proofs.Shell.Lines

/-!
# What colouring shows of a line

The fragments of a line are its tokens in their places, the blanks between them, and at the end
perhaps a comment. A gap on a single line can hold a comment only where nothing follows it, so every
gap in front of a token is made of blanks. Main statement: `Shell.colours_show_the_line`.
-/
namespace Monkey

/-- White space that does not end a line. -/
def isBlank (c : Char) : Bool :=
  c == ' ' || c == '\t' || c == '\r'

theorem isBlank_of_isSpace {c : Char} (h : isSpace c) (hnewline : c ≠ '\n') : isBlank c := by
  simp only [isSpace, Bool.or_eq_true, beq_iff_eq] at h
  simp only [isBlank, Bool.or_eq_true, beq_iff_eq]
  rcases h with hblank | hend
  · exact hblank
  · exact absurd hend hnewline

theorem ne_hash_of_isBlank {c : Char} (h : isBlank c) : c ≠ '#' := by
  rintro rfl
  cases h

/-- In front of a token on the same line there is no comment. -/
theorem Gap.isBlank_of_ne_nil {gap after : List Char} (h : Gap gap after) (hafter : after ≠ [])
    (hline : '\n' ∉ gap ++ after) : ∀ c ∈ gap, isBlank c := by
  induction h with
  | nil => exact List.forall_mem_nil _
  | @blank c gap after hspace _ ih =>
      obtain ⟨hc, hrest⟩ := not_or.mp (mt List.mem_cons.mpr hline)
      have hfirst : isBlank c := isBlank_of_isSpace hspace (Ne.symm hc)
      exact List.forall_mem_cons.mpr ⟨hfirst, ih hafter hrest⟩
  | @comment body gap after _ hend _ _ =>
      -- a comment in front of more text ends at a newline, and there is none
      obtain ⟨c, rest, hmore⟩ : ∃ c rest, gap ++ after = c :: rest :=
        List.exists_cons_of_ne_nil (by simp [hafter])
      have hc : c = '\n' := by simpa using hend c (by rw [hmore]; rfl)
      have hmem : '\n' ∈ gap ++ after := by
        rw [hmore, hc]
        exact List.mem_cons_self
      simp [hmem] at hline

/-- The gap at the end of a line is made of blanks up to its comment. -/
theorem Gap.isBlank_takeWhile {gap after : List Char} (h : Gap gap after) (hline : '\n' ∉ gap) :
    ∀ c ∈ gap.takeWhile (· != '#'), isBlank c := by
  induction h with
  | nil => exact List.forall_mem_nil _
  | @blank c gap after hspace _ ih =>
      obtain ⟨hc, hrest⟩ := not_or.mp (mt List.mem_cons.mpr hline)
      have hfirst : isBlank c := isBlank_of_isSpace hspace (Ne.symm hc)
      have hopen : (c != '#') = true := by simpa using ne_hash_of_isBlank hfirst
      simp only [List.takeWhile_cons, hopen, if_true]
      exact List.forall_mem_cons.mpr ⟨hfirst, ih hrest⟩
  | comment => simp

theorem Position.behind_of_not_mem {text : List Char} (h : '\n' ∉ text) :
    behind text = ⟨1, 1 + text.length⟩ := by
  have hall : text.rtakeWhile (· != '\n') = text := by
    rw [List.rtakeWhile_eq_self_iff]
    intro c hc
    simpa using ne_of_mem_of_not_mem hc h
  rw [behind, List.count_eq_zero.mpr h, hall]

namespace Shell

/-- What a fragment of a line shows. -/
inductive Stretch where
  | blanks (text : List Char)
  /-- A token, and the kind of the token behind it. -/
  | token (own : Token) (following : Kind)
  | comment (text : List Char)

namespace Stretch

def fragment : Stretch → Fragment
  | .blanks text => ⟨.plain, text⟩
  | .token own following => ⟨groupOf own following, own.span⟩
  | .comment text => ⟨.comment, text⟩

def text (part : Stretch) : List Char := part.fragment.text

def token? : Stretch → Option (Token × Kind)
  | .token own following => some (own, following)
  | _ => none

/-- The blanks, if there are any. -/
def ofBlanks (text : List Char) : List Stretch :=
  if text = [] then [] else [.blanks text]

end Stretch

/-- What the group of a token says of it. The words of the language are keywords, but for the truth
values, and a name has a group only if it is called: one of its own if it is that of a builtin. Signs
and all other names are plain, and no token is a comment. -/
structure Coloured (own : Token) (following : Kind) (group : Group) : Prop where
  keyword : group = .keyword ↔ own.kind ∈ Kind.keywords.map (·.2) ∧
    own.kind ≠ .trueWord ∧ own.kind ≠ .falseWord
  literal : group = .literal ↔ own.kind = .trueWord ∨ own.kind = .falseWord
  number : group = .number ↔ own.kind = .int ∨ own.kind = .hex
  string : group = .string ↔ own.kind = .string
  illegal : group = .illegal ↔ own.kind = .illegal
  builtin : group = .builtin ↔ own.kind = .ident ∧ following = .lparen ∧
    ∃ builtin : Builtin, builtin.name = own.literal
  call : group = .call ↔ own.kind = .ident ∧ following = .lparen ∧
    ∀ builtin : Builtin, builtin.name ≠ own.literal
  comment : group ≠ .comment

theorem coloured_groupOf (own : Token) (following : Kind) :
    Coloured own following (groupOf own following) := by
  have hbuiltin : (Builtin.ofName? own.literal).isSome ↔
      ∃ builtin : Builtin, builtin.name = own.literal := by
    simp [Builtin.ofName?, Builtin.mem_all]
  obtain ⟨kind, literal, position⟩ := own
  cases kind with
  | ident =>
      by_cases hcalled : following = .lparen
      · by_cases hname : ∃ builtin : Builtin, builtin.name = literal
        · have hgroup : groupOf ⟨.ident, literal, position⟩ following = .builtin := by
            simp [groupOf, hcalled, hbuiltin.mpr hname]
          rw [hgroup]
          constructor <;> simp [hcalled, hname, Kind.keywords]
        · have hgroup : groupOf ⟨.ident, literal, position⟩ following = .call := by
            simp [groupOf, hcalled, mt hbuiltin.mp hname]
          rw [hgroup]
          constructor <;> simp_all [Kind.keywords]
      · have hgroup : groupOf ⟨.ident, literal, position⟩ following = .plain := by
          simp [groupOf, hcalled]
        rw [hgroup]
        constructor <;> simp [hcalled, Kind.keywords]
  | _ => constructor <;> simp [groupOf, Kind.keywords]

/-- The parts of a line from a column on: tokens stand in their places, a comment is the last
part, and anything else is blank. -/
inductive InPlace : Nat → List Stretch → Prop where
  | nil {column : Nat} : InPlace column []
  | blanks {column : Nat} {text : List Char} {rest : List Stretch} (hblank : ∀ c ∈ text, isBlank c)
      (hrest : InPlace (column + text.length) rest) : InPlace column (.blanks text :: rest)
  | token {column : Nat} {own : Token} {following : Kind} {rest : List Stretch}
      (hposition : own.position = ⟨1, 1 + column⟩)
      (hrest : InPlace (column + own.span.length) rest) :
      InPlace column (.token own following :: rest)
  | comment {column : Nat} {body : List Char} : InPlace column [.comment ('#' :: body)]

/-- The tokens in front of the last, each with the kind of the next. -/
def followed (tokens : List Token) : List (Token × Kind) :=
  tokens.zip (tokens.tail.map (·.kind))

/-- From a column on, these parts show a text that is read as these tokens. -/
structure Displays (column : Nat) (text : List Char) (tokens : List Token) (parts : List Stretch) :
    Prop where
  text_eq : parts.flatMap Stretch.text = text
  tokens_eq : parts.filterMap Stretch.token? = followed tokens
  inPlace : InPlace column parts
  text_ne_nil : ∀ part ∈ parts, part.text ≠ []

theorem Displays.nil (column : Nat) (last : Token) : Displays column [] [last] [] where
  text_eq := rfl
  tokens_eq := rfl
  inPlace := .nil
  text_ne_nil := List.forall_mem_nil _

theorem Displays.comment (column : Nat) (body : List Char) (last : Token) :
    Displays column ('#' :: body) [last] [.comment ('#' :: body)] where
  text_eq := List.append_nil _
  tokens_eq := rfl
  inPlace := .comment
  text_ne_nil := by simp [Stretch.text, Stretch.fragment]

theorem Displays.ofBlanks {column : Nat} {gap text : List Char} {tokens : List Token}
    {parts : List Stretch} (hgap : ∀ c ∈ gap, isBlank c)
    (h : Displays (column + gap.length) text tokens parts) :
    Displays column (gap ++ text) tokens (Stretch.ofBlanks gap ++ parts) := by
  by_cases hnil : gap = []
  · subst hnil
    simpa [Stretch.ofBlanks] using h
  · have hparts : Stretch.ofBlanks gap ++ parts = .blanks gap :: parts := by
      simp [Stretch.ofBlanks, hnil]
    rw [hparts]
    constructor
    · simp [← h.text_eq, Stretch.text, Stretch.fragment]
    · simpa [List.filterMap_cons, Stretch.token?] using h.tokens_eq
    · exact .blanks hgap h.inPlace
    · exact List.forall_mem_cons.mpr ⟨hnil, h.text_ne_nil⟩

theorem Displays.token {column : Nat} {after : List Char} {own next : Token} {rest : List Token}
    {parts : List Stretch} (hposition : own.position = ⟨1, 1 + column⟩) (hspan : own.span ≠ [])
    (h : Displays (column + own.span.length) after (next :: rest) parts) :
    Displays column (own.span ++ after) (own :: next :: rest) (.token own next.kind :: parts) := by
  constructor
  · simp [← h.text_eq, Stretch.text, Stretch.fragment]
  · simpa [Stretch.token?, followed] using h.tokens_eq
  · exact .token hposition h.inPlace
  · exact List.forall_mem_cons.mpr ⟨hspan, h.text_ne_nil⟩

theorem fragments_ofBlanks (gap : List Char) :
    (Stretch.ofBlanks gap).map Stretch.fragment = if gap = [] then [] else [⟨.plain, gap⟩] := by
  by_cases hnil : gap = []
  · simp [Stretch.ofBlanks, hnil]
  · simp [Stretch.ofBlanks, hnil, Stretch.fragment]

/-- The end of a line is blank up to its comment. -/
theorem tailFragments_displays {gap : List Char} (h : Gap gap []) (hline : '\n' ∉ gap)
    (column : Nat) (last : Token) :
    ∃ parts, tailFragments gap = parts.map Stretch.fragment ∧ Displays column gap [last] parts := by
  have hblank := h.isBlank_takeWhile hline
  have hsplit : gap.takeWhile (· != '#') ++ gap.dropWhile (· != '#') = gap :=
    List.takeWhile_append_dropWhile
  have hends := runEnds_dropWhile (· != '#') gap
  simp only [tailFragments, ← fragments_ofBlanks]
  generalize gap.takeWhile (· != '#') = blanks at hblank hsplit
  generalize gap.dropWhile (· != '#') = comment at hsplit hends
  subst hsplit
  cases comment with
  | nil =>
      exact ⟨Stretch.ofBlanks blanks ++ [], by simp, .ofBlanks hblank (.nil _ last)⟩
  | cons c body =>
      obtain rfl : c = '#' := by simpa using hends c rfl
      exact ⟨Stretch.ofBlanks blanks ++ [.comment ('#' :: body)], by simp [Stretch.fragment],
        .ofBlanks hblank (.comment _ body last)⟩

/-- The fragments from a token on, when the gap in front of it is not shown yet. -/
theorem fragmentsFrom_token {before gap after : List Char} {own next : Token} {rest : List Token}
    (hline : '\n' ∉ before ++ gap) (hposition : own.position = .behind (before ++ gap)) :
    fragmentsFrom (before ++ (gap ++ (own.span ++ after))) before.length (own :: next :: rest) =
      (Stretch.ofBlanks gap ++ [Stretch.token own next.kind]).map Stretch.fragment ++
        fragmentsFrom (before ++ (gap ++ (own.span ++ after)))
          (before ++ gap ++ own.span).length (next :: rest) := by
  have hstart : own.position.column - 1 = before.length + gap.length := by
    rw [hposition, Position.behind_of_not_mem hline]
    simp
  have hgap : (if before.length < before.length + gap.length then
      [(⟨.plain, gap⟩ : Fragment)] else []) = (Stretch.ofBlanks gap).map Stretch.fragment := by
    rw [fragments_ofBlanks]
    by_cases hnil : gap = []
    · simp [hnil]
    · simp [hnil, List.length_pos_iff]
  have htext : ((before ++ (gap ++ (own.span ++ after))).drop before.length).take
      (before.length + gap.length - before.length) = gap := by simp
  rw [fragmentsFrom, hstart, htext, hgap]
  simp [Stretch.fragment, Nat.add_assoc]

/-- What is laid out on one line is displayed from its column on. -/
theorem fragmentsFrom_displays {before text : List Char} {tokens : List Token}
    (h : Lexes before text tokens) (hline : '\n' ∉ before ++ text) :
    ∃ parts, fragmentsFrom (before ++ text) before.length tokens = parts.map Stretch.fragment ∧
      Displays before.length text tokens parts := by
  induction h with
  | @ended before gap hgap =>
      have hafter : '\n' ∉ gap := fun hmem => hline (List.mem_append_right _ hmem)
      have htail : fragmentsFrom (before ++ gap) before.length
          [.eofAt (.behind (before ++ gap))] = tailFragments gap := by
        simp [fragmentsFrom]
      rw [htail]
      exact tailFragments_displays hgap hafter _ _
  | @token before gap after own tokens hgap hposition hfits hrest ih =>
      have hfront : '\n' ∉ before ++ gap := by
        simp only [List.mem_append] at hline ⊢
        grind
      have hspan : own.span ≠ [] := by
        obtain ⟨c, more, heq, _⟩ := hfits.exists_span_eq_cons
        rw [Token.span, heq]
        exact List.cons_ne_nil c more
      have hblank : ∀ c ∈ gap, isBlank c := by
        apply hgap.isBlank_of_ne_nil (by simp [hspan])
        simp only [List.mem_append] at hline ⊢
        grind
      have hplace : own.position = ⟨1, 1 + (before.length + gap.length)⟩ := by
        rw [hposition, Position.behind_of_not_mem hfront, List.length_append]
      obtain ⟨parts, hparts, hshown⟩ := ih (by simpa using hline)
      obtain ⟨next, rest, rfl⟩ : ∃ next rest, tokens = next :: rest := by
        cases hrest with
        | ended _ => exact ⟨_, _, rfl⟩
        | token _ _ _ _ => exact ⟨_, _, rfl⟩
      have hline' :
          before ++ gap ++ own.span ++ after = before ++ (gap ++ (own.span ++ after)) := by
        simp
      rw [hline'] at hparts
      have hcolumn : (before ++ gap ++ own.span).length =
          before.length + gap.length + own.span.length := by simp [Nat.add_assoc]
      refine ⟨Stretch.ofBlanks gap ++ Stretch.token own next.kind :: parts, ?_, ?_⟩
      · rw [fragmentsFrom_token hfront hposition, hparts]
        simp
      · exact .ofBlanks hblank (.token hplace hspan (hcolumn ▸ hshown))

/-- The fragments of a line give the line back. Those of tokens are the spans of its tokens in
their order and places, each in the style that its group has, and the others are blank and without
a style, except for a comment behind all of them. Nothing but an empty line has an empty
fragment. -/
theorem colours_show_the_line {line : List Char} (hline : '\n' ∉ line) :
    (colour line).flatMap Fragment.text = line ∧
      (∃ parts, colour line = parts.map Stretch.fragment ∧
        parts.filterMap Stretch.token? = followed (Token.ofList line) ∧ InPlace 0 parts) ∧
      (line ≠ [] → ∀ fragment ∈ colour line, fragment.text ≠ []) := by
  have hlexes : Lexes [] line (Token.ofList line) := (lexes_iff line _).mpr rfl
  obtain ⟨parts, hparts, hshown⟩ := fragmentsFrom_displays hlexes hline
  by_cases hnil : line = []
  · -- an empty line has no parts, and one empty fragment all the same
    have hempty : parts = [] := by
      have htext := hshown.text_eq
      rw [hnil, List.flatMap_eq_nil_iff] at htext
      rw [List.eq_nil_iff_forall_not_mem]
      exact fun part hpart => hshown.text_ne_nil part hpart (htext part hpart)
    have htokens := hshown.tokens_eq
    rw [hempty] at htokens
    subst hnil
    constructor
    · simp [colour]
    · constructor
      · exact ⟨[.blanks []], rfl, htokens, .blanks (List.forall_mem_nil _) .nil⟩
      · exact fun h => absurd rfl h
  · have hcolour : colour line = parts.map Stretch.fragment := by
      rw [colour, if_neg hnil]
      exact hparts
    have htext : (colour line).flatMap Fragment.text = parts.flatMap Stretch.text := by
      rw [hcolour, List.flatMap_map]
      rfl
    constructor
    · rw [htext, hshown.text_eq]
    · constructor
      · exact ⟨parts, hcolour, hshown.tokens_eq, hshown.inPlace⟩
      · intro _ fragment hfragment
        rw [hcolour, List.mem_map] at hfragment
        obtain ⟨part, hpart, rfl⟩ := hfragment
        exact hshown.text_ne_nil part hpart

theorem colours_show_a_call_and_a_comment :
    '\n' ∉ "puts(\"#\") # last".toList ∧
      (colour "puts(\"#\") # last".toList).flatMap Fragment.text = "puts(\"#\") # last".toList ∧
      (∃ parts, colour "puts(\"#\") # last".toList = parts.map Stretch.fragment ∧
        parts.filterMap Stretch.token? = followed (Token.ofList "puts(\"#\") # last".toList) ∧
        InPlace 0 parts) ∧
      ∀ fragment ∈ colour "puts(\"#\") # last".toList, fragment.text ≠ [] := by
  have hline : '\n' ∉ "puts(\"#\") # last".toList := by decide
  obtain ⟨htext, hparts, hne⟩ := colours_show_the_line hline
  exact ⟨hline, htext, hparts, hne (by decide)⟩

end Shell
end Monkey
