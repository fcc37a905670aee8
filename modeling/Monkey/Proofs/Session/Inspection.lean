import Monkey.Proofs.Eval.Success
import Monkey.Proofs.Parse.Numerals
import Monkey.Proofs.Parse.Printing

/-!
# Shown data can be run

Data made of booleans, integers, arrays and hashes is shown as a text that is a program for it. The
argument follows the text through the lexer, the parser and the evaluator: it has the lexemes of the
data (`Literal.spelled`), tokens with these lexemes cohere as a tree (`Literal.coheres`), and the
tree comes to the data again with stamps of its own (`Denotes`). A negative integer is shown with a
sign in front, so the smallest word, whose digits are too large for a numeral, is left out.
-/
namespace Monkey

open Parse

namespace Value

/-- Data that can be written down. A hash has each key once, and its keys are integers and
booleans. -/
inductive Literal : Value → Prop where
  | integer {number : Int} (hlow : minWord < number) (hhigh : number ≤ maxWord) :
      Literal (.integer number)
  | boolean (flag : Bool) : Literal (.boolean flag)
  | array {elements : List Value} (stamp : Nat)
      (helements : ∀ element ∈ elements, Literal element) : Literal (.array stamp elements)
  | hash {entries : List (Key × Value)} (stamp : Nat)
      (hkeys : ∀ entry ∈ entries, Literal entry.1.value) (hdistinct : (entries.map (·.1)).Nodup)
      (hvalues : ∀ entry ∈ entries, Literal entry.2) : Literal (.hash stamp entries)

mutual

/-- The value with all stamps in it forgotten: what is left is its structure. -/
def unstamped : Value → Value
  | array _ elements => array 0 (unstampedAll elements)
  | hash _ entries => hash 0 (unstampedEntries entries)
  | function _ parameters body scope => function 0 parameters body scope
  | error failure => error ⟨0, failure.fault⟩
  | value => value

def unstampedAll : List Value → List Value
  | [] => []
  | value :: rest => value.unstamped :: unstampedAll rest

def unstampedEntries : List (Key × Value) → List (Key × Value)
  | [] => []
  | (key, value) :: rest => (key, value.unstamped) :: unstampedEntries rest

end

mutual

/-- How many arrays and hashes stand inside each other. -/
def nesting : Value → Nat
  | array _ elements => nestingAll elements + 1
  | hash _ entries => nestingEntries entries + 1
  | _ => 0

def nestingAll : List Value → Nat
  | [] => 0
  | value :: rest => max value.nesting (nestingAll rest)

def nestingEntries : List (Key × Value) → Nat
  | [] => 0
  | (_, value) :: rest => max value.nesting (nestingEntries rest)

end

end Value

/-- The lexemes of a number as it is shown: the digits, behind a sign if it is negative. -/
def integerLexemes (number : Int) : List Lexeme :=
  if 0 ≤ number then [(.int, toString number.toNat)]
  else [mark .minus, (.int, toString (-number).toNat)]

def booleanLexemes (flag : Bool) : List Lexeme :=
  [mark (if flag then .trueWord else .falseWord)]

def Key.lexemes : Key → List Lexeme
  | integer number => integerLexemes number
  | boolean flag => booleanLexemes flag
  | string _ => []

namespace Value

mutual

/-- The lexemes of literal data as it is shown. -/
def lexemes : Value → List Lexeme
  | integer number => integerLexemes number
  | boolean flag => booleanLexemes flag
  | array _ elements => inBrackets (commas (lexemesEach elements))
  | hash _ entries => inBraces (commas (lexemesEntries entries))
  | _ => []

def lexemesEach : List Value → List (List Lexeme)
  | [] => []
  | value :: rest => value.lexemes :: lexemesEach rest

def lexemesEntries : List (Key × Value) → List (List Lexeme)
  | [] => []
  | (key, value) :: rest => (key.lexemes ++ mark .colon :: value.lexemes) :: lexemesEntries rest

end

@[simp] theorem unstampedAll_eq_map (values : List Value) :
    unstampedAll values = values.map unstamped := by
  induction values with
  | nil => rfl
  | cons value rest ih => simp [unstampedAll, ih]

@[simp] theorem unstampedEntries_eq_map (entries : List (Key × Value)) :
    unstampedEntries entries = entries.map fun entry => (entry.1, entry.2.unstamped) := by
  induction entries with
  | nil => rfl
  | cons entry rest ih => simp [unstampedEntries, ih]

theorem nesting_le_nestingAll {values : List Value} {value : Value} (h : value ∈ values) :
    value.nesting ≤ nestingAll values := by
  induction values with
  | nil => cases h
  | cons first rest ih =>
      rw [nestingAll]
      rcases List.mem_cons.mp h with rfl | hrest
      · exact Nat.le_max_left _ _
      · exact Nat.le_trans (ih hrest) (Nat.le_max_right _ _)

theorem nesting_le_nestingEntries {entries : List (Key × Value)} {entry : Key × Value}
    (h : entry ∈ entries) : entry.2.nesting ≤ nestingEntries entries := by
  induction entries with
  | nil => cases h
  | cons first rest ih =>
      rw [nestingEntries]
      rcases List.mem_cons.mp h with rfl | hrest
      · exact Nat.le_max_left _ _
      · exact Nat.le_trans (ih hrest) (Nat.le_max_right _ _)

@[simp] theorem lexemesEach_eq_map (values : List Value) :
    lexemesEach values = values.map lexemes := by
  induction values with
  | nil => rfl
  | cons value rest ih => simp [lexemesEach, ih]

@[simp] theorem lexemesEntries_eq_map (entries : List (Key × Value)) :
    lexemesEntries entries =
      entries.map fun entry => entry.1.value.lexemes ++ mark .colon :: entry.2.lexemes := by
  have hkey (key : Key) : key.value.lexemes = key.lexemes := by
    cases key <;> simp [Key.lexemes, Key.value, lexemes]
  induction entries with
  | nil => rfl
  | cons entry rest ih => simp [lexemesEntries, hkey, ih]

theorem displayEntries_eq_map (entries : List (Key × Value)) :
    displayEntries entries =
      entries.map fun entry => entry.1.value.display ++ ": " ++ entry.2.display := by
  have hkey (key : Key) : key.display = key.value.display := by
    cases key <;> simp [Key.display, Key.value, display]
  induction entries with
  | nil => rfl
  | cons entry rest ih => simp [displayEntries, hkey, ih]

/-! ## From the text to its lexemes -/

theorem spelled_number (n : Nat) {after : List Char} (hafter : Divided after) :
    Spelled (toString n) after [(.int, toString n)] :=
  .of_fits ((Fits.of_number n).divided hafter (by simp)) (by decide)

theorem spelled_integer (number : Int) {after : List Char} (hafter : Divided after) :
    Spelled (toString number) after (integerLexemes number) := by
  rw [Int.toString_eq_repr, Int.repr_eq_if, integerLexemes]
  split
  · exact spelled_number _ hafter
  · have hminus : Spelled "-" ((toString (-number).toNat).toList ++ after) [mark .minus] := by
      refine .unarySign (show .minus ∈ unaryKinds by decide) ?_
      obtain ⟨first, more, hdigits⟩ := List.exists_cons_of_ne_nil
        (show Nat.toDigits 10 (-number).toNat ≠ [] from Nat.toDigits_ne_nil)
      have hfirst : first.isDigit :=
        Nat.isDigit_of_mem_toDigits (by decide) (Nat.le_refl _) (hdigits ▸ List.mem_cons_self)
      rw [Nat.toString_eq_ofList_toDigits, String.toList_ofList, hdigits]
      rintro ⟨⟩
      cases hfirst
    exact hminus.append (spelled_number _ hafter)

theorem spelled_boolean (flag : Bool) {after : List Char} (hafter : Divided after) :
    Spelled (if flag then "true" else "false") after (booleanLexemes flag) := by
  cases flag with
  | true =>
      have hmem : ⟨.trueWord, "true", ⟨1, 1⟩⟩ ∈ Token.ofSource "true" := by decide +kernel
      exact (Token.readable_of_mem hmem (by decide)).spelled (by decide) hafter
  | false =>
      have hmem : ⟨.falseWord, "false", ⟨1, 1⟩⟩ ∈ Token.ofSource "false" := by decide +kernel
      exact (Token.readable_of_mem hmem (by decide)).spelled (by decide) hafter

theorem Literal.spelled {value : Value} (h : Literal value) {after : List Char}
    (hafter : Divided after) : Spelled value.display after value.lexemes := by
  induction h generalizing after with
  | @integer number _ _ => simpa [display, lexemes] using spelled_integer number hafter
  | boolean flag => simpa [display, lexemes] using spelled_boolean flag hafter
  | @array elements _ _ ihs =>
      have hinside : Spelled (", ".intercalate (elements.map display)) (']' :: after)
          (commas (elements.map lexemes)) :=
        .commas (fun element helement _ => ihs element helement) (.cons (by decide) _)
      simpa [display, lexemes, displayAll_eq_map] using hinside.inBrackets
  | @hash entries _ _ _ _ ihk ihv =>
      have hentry (entry : Key × Value) (hentry : entry ∈ entries) (later : List Char)
          (hlater : Divided later) :
          Spelled (entry.1.value.display ++ ": " ++ entry.2.display) later
            (entry.1.value.lexemes ++ mark .colon :: entry.2.lexemes) := by
        have hcolon :
            Spelled (":" ++ " ") (entry.2.display.toList ++ later) ([mark .colon] ++ []) :=
          (Spelled.solitary (show .colon ∈ solitaryKinds by decide) _).append (.space _)
        have hall := (ihk entry hentry (by simp [Divided, dividers])).append
          (hcolon.append (ihv entry hentry hlater))
        simpa [String.append_assoc] using hall
      have hbrace : Divided ('\x7d' :: after) := .cons (by decide) _
      have hinside := Spelled.commas hentry hbrace
      simpa [display, lexemes, displayEntries_eq_map] using hinside.inBraces

/-! ## From a tree to its value -/

open Eval

/-- The node comes to a value with this structure, whatever the world; nothing but stamps is used up
on the way. -/
def Denotes (node : Node) (value : Value) : Prop :=
  ∀ maxTurns depth scope world, value.nesting + 2 ≤ depth → ∃ found made,
    Comes maxTurns depth scope node world found { world with objects := world.objects + made } ∧
      found.unstamped = value.unstamped

theorem Denotes.of_comes {node : Node} {value : Value}
    (h : ∀ maxTurns depth scope world, Comes maxTurns (depth + 2) scope node world value world) :
    Denotes node value := by
  intro maxTurns depth scope world hdepth
  obtain ⟨depth, rfl⟩ : ∃ left, depth = left + 2 := ⟨depth - 2, by omega⟩
  exact ⟨value, 0, h maxTurns depth scope world, rfl⟩

section
variable {α : Type} {items : List α} {maxTurns depth scope : Nat}

theorem comeAll_of_denotes {nodeOf : α → Node} {valueOf : α → Value}
    (h : ∀ item ∈ items, Denotes (nodeOf item) (valueOf item))
    (hdepth : ∀ item ∈ items, (valueOf item).nesting + 2 ≤ depth) (world : World) :
    ∃ found made, ComeAll maxTurns depth scope (items.map nodeOf) world found
        { world with objects := world.objects + made } ∧
      found.map unstamped = items.map fun item => (valueOf item).unstamped := by
  induction items generalizing world with
  | nil => exact ⟨[], 0, .nil, rfl⟩
  | cons item rest ih =>
      obtain ⟨hfirst, hrest⟩ := List.forall_mem_cons.mp h
      obtain ⟨hlevels, hothers⟩ := List.forall_mem_cons.mp hdepth
      obtain ⟨value, made, hvalue, hsame⟩ := hfirst maxTurns depth scope world hlevels
      obtain ⟨values, more, hvalues, hall⟩ :=
        ih hrest hothers { world with objects := world.objects + made }
      refine ⟨value :: values, made + more, ?_, by simp [hsame, hall]⟩
      rw [← Nat.add_assoc]
      exact .cons hvalue hvalues

theorem Denotes.array {nodeOf : α → Node} {valueOf : α → Value}
    (h : ∀ item ∈ items, Denotes (nodeOf item) (valueOf item)) (token : Token) (stamp : Nat) :
    Denotes (.array token (items.map nodeOf)) (.array stamp (items.map valueOf)) := by
  intro maxTurns depth scope world hdepth
  rw [nesting] at hdepth
  obtain ⟨depth, rfl⟩ : ∃ left, depth = left + 1 := ⟨depth - 1, by omega⟩
  have hlevels : ∀ item ∈ items, (valueOf item).nesting + 2 ≤ depth := by
    intro item hitem
    have hle := nesting_le_nestingAll (List.mem_map_of_mem (f := valueOf) hitem)
    omega
  obtain ⟨found, made, hfound, hsame⟩ := comeAll_of_denotes h hlevels world
  refine ⟨_, made + 1, .array hfound token, ?_⟩
  simpa [unstamped, Function.comp_def] using hsame

end

theorem putEntry_of_not_mem {key : Key} {entries : List (Key × Value)}
    (h : key ∉ entries.map (·.1)) (value : Value) :
    putEntry key value entries = entries ++ [(key, value)] := by
  induction entries with
  | nil => rfl
  | cons entry rest ih =>
      rw [List.map_cons, List.mem_cons, not_or] at h
      obtain ⟨hfirst, hrest⟩ := h
      rw [putEntry, if_neg (Ne.symm hfirst), ih hrest]
      rfl

/-- Entries with different keys stay as many as they are and in their order. -/
theorem foldl_putEntry {entries before : List (Key × Value)}
    (h : ((before ++ entries).map (·.1)).Nodup) :
    entries.foldl (fun all entry => putEntry entry.1 entry.2 all) before = before ++ entries := by
  induction entries generalizing before with
  | nil => simp
  | cons entry rest ih =>
      have hnew : entry.1 ∉ before.map (·.1) := by
        rw [List.map_append, List.map_cons] at h
        exact fun hmem => (List.disjoint_of_nodup_append h) hmem List.mem_cons_self
      rw [List.foldl_cons, putEntry_of_not_mem hnew, ih (by simpa using h)]
      simp

theorem eq_value_of_unstamped {found : Value} {key : Key}
    (h : found.unstamped = key.value.unstamped) : found = key.value := by
  cases key <;> cases found <;> simp_all [Key.value, unstamped]

section
variable {α : Type} {items : List α} {pairOf : α → Node × Node} {entryOf : α → Key × Value}
  (hkeys : ∀ item ∈ items, Denotes (pairOf item).1 (entryOf item).1.value)
  (hvalues : ∀ item ∈ items, Denotes (pairOf item).2 (entryOf item).2)
include hkeys hvalues

theorem comePairs_of_denotes {maxTurns depth scope : Nat}
    (hdepth : ∀ item ∈ items, (entryOf item).2.nesting + 2 ≤ depth) (world : World) :
    ∃ found made, ComePairs maxTurns depth scope (items.map pairOf) world found
        { world with objects := world.objects + made } ∧
      found.map (fun entry => (entry.1, entry.2.unstamped)) =
        items.map fun item => ((entryOf item).1, (entryOf item).2.unstamped) := by
  have hscalar (key : Key) : key.value.nesting = 0 := by cases key <;> simp [Key.value, nesting]
  induction items generalizing world with
  | nil => exact ⟨[], 0, .nil, rfl⟩
  | cons item rest ih =>
      obtain ⟨hkey, hkeys⟩ := List.forall_mem_cons.mp hkeys
      obtain ⟨hvalue, hvalues⟩ := List.forall_mem_cons.mp hvalues
      obtain ⟨hlevels, hothers⟩ := List.forall_mem_cons.mp hdepth
      obtain ⟨key, before, hfirst, hsame⟩ :=
        hkey maxTurns depth scope world (by rw [hscalar]; omega)
      obtain rfl := eq_value_of_unstamped hsame
      obtain ⟨value, made, hsecond, hstructure⟩ :=
        hvalue maxTurns depth scope { world with objects := world.objects + before } hlevels
      obtain ⟨entries, more, hrest, hall⟩ :=
        ih hkeys hvalues hothers { world with objects := world.objects + before + made }
      refine ⟨((entryOf item).1, value) :: entries, before + made + more, ?_,
        by simp [hstructure, hall]⟩
      rw [← Nat.add_assoc, ← Nat.add_assoc]
      exact .cons hfirst hsecond hrest

theorem Denotes.hash (hdistinct : ((items.map entryOf).map (·.1)).Nodup) (token : Token)
    (stamp : Nat) : Denotes (.hash token (items.map pairOf)) (.hash stamp (items.map entryOf)) := by
  intro maxTurns depth scope world hdepth
  rw [nesting] at hdepth
  obtain ⟨depth, rfl⟩ : ∃ left, depth = left + 1 := ⟨depth - 1, by omega⟩
  have hlevels : ∀ item ∈ items, (entryOf item).2.nesting + 2 ≤ depth := by
    intro item hitem
    have hle := nesting_le_nestingEntries (List.mem_map_of_mem (f := entryOf) hitem)
    omega
  obtain ⟨found, made, hfound, hsame⟩ := comePairs_of_denotes hkeys hvalues hlevels world
  have hnames : found.map (·.1) = (items.map entryOf).map (·.1) := by
    simpa [Function.comp_def] using congrArg (List.map (·.1)) hsame
  have hentries : found.foldl (fun all entry => putEntry entry.1 entry.2 all) [] = found :=
    foldl_putEntry (by rwa [List.nil_append, hnames])
  refine ⟨_, made + 1, .hash hfound token, ?_⟩
  simpa [unstamped, Function.comp_def, hentries] using hsame

end

/-! ## From the lexemes to a tree -/

/-- The tokens cohere, also behind a sign, as a tree for the value. -/
def ReadsBack (tokens : List Token) (value : Value) : Prop :=
  ∃ node, Coheres unaryStrength tokens node ∧ Denotes node value

theorem readsBack_integer {number : Int} (hlow : minWord < number) (hhigh : number ≤ maxWord)
    {tokens : List Token} (htokens : Spells tokens (integerLexemes number)) :
    ReadsBack tokens (.integer number) := by
  rw [integerLexemes] at htokens
  split at htokens
  next hsign =>
      obtain ⟨token, rfl, htoken⟩ := htokens.singleton
      have hnumber : (number.toNat : Int) = number := Int.toNat_of_nonneg hsign
      have hvalue := integerValue?_of_number (Token.kind_eq htoken) (Token.literal_eq htoken)
        (by rwa [hnumber])
      rw [hnumber] at hvalue
      refine ⟨_, .weaken (.integer (.inl (Token.kind_eq htoken)) hvalue) (by decide), ?_⟩
      exact .of_comes fun _ depth _ _ => .integer token number
  next hsign =>
      obtain ⟨sign, _, rfl, hsigned, hrest⟩ := htokens.cons
      obtain ⟨token, rfl, htoken⟩ := hrest.singleton
      have hnumber : ((-number).toNat : Int) = -number := Int.toNat_of_nonneg (by omega)
      have hvalue := integerValue?_of_number (Token.kind_eq htoken) (Token.literal_eq htoken) (by
        rw [hnumber]
        simp only [minWord, maxWord] at *
        omega)
      rw [hnumber] at hvalue
      have hminus : sign.kind ∈ unaryKinds := by
        rw [Token.kind_eq hsigned]
        decide
      have hdigits : Coheres undivided [token] (.integer token (-number)) :=
        .integer (.inl (Token.kind_eq htoken)) hvalue
      refine ⟨_, .unary hminus (hdigits.weaken (by decide)), .of_comes fun _ depth _ _ => ?_⟩
      have hnegated : (Value.integer (-number)).unary "-" = .ok (.integer number) := by
        have hword : wrap (- -number) = number := by
          rw [Int.neg_neg]
          exact wrap_of_inWord ⟨Int.le_of_lt hlow, hhigh⟩
        exact congrArg (fun value => Except.ok (Value.integer value)) hword
      rw [Token.literal_eq hsigned]
      exact .unary (.integer token (-number)) hnegated rfl sign

theorem readsBack_boolean (flag : Bool) {tokens : List Token}
    (htokens : Spells tokens (booleanLexemes flag)) : ReadsBack tokens (.boolean flag) := by
  obtain ⟨token, rfl, htoken⟩ := htokens.singleton
  refine ⟨.boolean token flag, ?_, .of_comes fun _ depth _ _ => .boolean token flag⟩
  cases flag with
  | true => exact .weaken (.truth (Token.kind_eq htoken)) (by decide)
  | false => exact .weaken (.falsity (Token.kind_eq htoken)) (by decide)

theorem readsBack_array {elements : List Value} (stamp : Nat)
    (h : ∀ element ∈ elements, ∀ tokens, Spells tokens element.lexemes → ReadsBack tokens element)
    {tokens : List Token}
    (htokens : Spells tokens (inBrackets (commas (elements.map lexemes)))) :
    ReadsBack tokens (.array stamp elements) := by
  obtain ⟨opening, inside, closing, rfl, hopening, hinside, hclosing⟩ := htokens.enclosed
  have hone : ∀ element ∈ elements, ∀ tokens, Spells tokens element.lexemes →
      ∃ found : Part × Value, found.1.tokens = tokens ∧
        (Coheres (lowest + 1) found.1.tokens found.1.tree ∧ Denotes found.1.tree found.2) ∧
        found.2 = id element := by
    intro element helement tokens htokens
    obtain ⟨node, hcoheres, hdenotes⟩ := h element helement tokens htokens
    exact ⟨⟨⟨tokens, node⟩, element⟩, rfl, ⟨hcoheres.weaken (by decide), hdenotes⟩, rfl⟩
  obtain ⟨founds, hlisted, hgood, hsame⟩ := exists_listed_of_commas hone hinside
  rw [List.map_id] at hsame
  subst hsame
  refine ⟨.array opening (trees (founds.map (·.1))), ?_, ?_⟩
  · refine .weaken (.array (Token.kind_eq hopening) ?_ ?_ hclosing) (by decide)
    · exact List.forall_mem_map.mpr fun found hfound => (hgood found hfound).1
    · simpa [Function.comp_def] using hlisted
  · have hdenotes := Denotes.array (fun found hfound => (hgood found hfound).2) opening stamp
    simpa [trees, Function.comp_def] using hdenotes

theorem readsBack_hash {entries : List (Key × Value)} (stamp : Nat)
    (hkeys : ∀ entry ∈ entries, ∀ tokens, Spells tokens entry.1.value.lexemes →
      ReadsBack tokens entry.1.value)
    (hdistinct : (entries.map (·.1)).Nodup)
    (hvalues : ∀ entry ∈ entries, ∀ tokens, Spells tokens entry.2.lexemes →
      ReadsBack tokens entry.2)
    {tokens : List Token}
    (htokens : Spells tokens (inBraces (commas (entries.map fun entry =>
      entry.1.value.lexemes ++ mark .colon :: entry.2.lexemes)))) :
    ReadsBack tokens (.hash stamp entries) := by
  obtain ⟨opening, inside, closing, rfl, hopening, hinside, hclosing⟩ := htokens.enclosed
  have hone : ∀ entry ∈ entries, ∀ tokens,
      Spells tokens (entry.1.value.lexemes ++ mark .colon :: entry.2.lexemes) →
      ∃ found : Entry × Key × Value, found.1.tokens = tokens ∧
        ((Coheres (lowest + 1) found.1.key.tokens found.1.key.tree ∧
            found.1.colon.kind = .colon ∧
            Coheres (lowest + 1) found.1.value.tokens found.1.value.tree) ∧
          Denotes found.1.key.tree found.2.1.value ∧ Denotes found.1.value.tree found.2.2) ∧
        found.2 = id entry := by
    intro entry hentry tokens htokens
    obtain ⟨before, _, rfl, hbefore, hrest⟩ := htokens.append
    obtain ⟨colon, after, rfl, hcolon, hafter⟩ := hrest.mark
    obtain ⟨key, hkey, hfirst⟩ := hkeys entry hentry before hbefore
    obtain ⟨value, hvalue, hsecond⟩ := hvalues entry hentry after hafter
    exact ⟨⟨⟨⟨before, key⟩, colon, ⟨after, value⟩⟩, entry⟩, rfl,
      ⟨⟨hkey.weaken (by decide), hcolon, hvalue.weaken (by decide)⟩, hfirst, hsecond⟩, rfl⟩
  obtain ⟨founds, hlisted, hgood, hsame⟩ := exists_listed_of_commas hone hinside
  rw [List.map_id] at hsame
  subst hsame
  refine ⟨.hash opening ((founds.map (·.1)).map (·.trees)), ?_, ?_⟩
  · refine .weaken (.hash (Token.kind_eq hopening) ?_ ?_ ?_ ?_ hclosing) (by decide)
    · exact List.forall_mem_map.mpr fun found hfound => (hgood found hfound).1.1
    · exact List.forall_mem_map.mpr fun found hfound => (hgood found hfound).1.2.1
    · exact List.forall_mem_map.mpr fun found hfound => (hgood found hfound).1.2.2
    · simpa [Function.comp_def] using hlisted
  · rw [List.map_map]
    exact .hash (fun found hfound => (hgood found hfound).2.1)
      (fun found hfound => (hgood found hfound).2.2) hdistinct opening stamp

/-- Tokens with the lexemes of the data are read as a tree for it. -/
theorem Literal.readsBack {value : Value} (h : Literal value) {tokens : List Token}
    (htokens : Spells tokens value.lexemes) : ReadsBack tokens value := by
  induction h generalizing tokens with
  | integer hlow hhigh => 
      rw [lexemes] at htokens
      exact readsBack_integer hlow hhigh htokens
  | boolean flag =>
      rw [lexemes] at htokens
      exact readsBack_boolean flag htokens
  | array stamp _ ihs =>
      rw [lexemes, lexemesEach_eq_map] at htokens
      exact readsBack_array stamp (fun element helement _ => ihs element helement) htokens
  | hash stamp _ hdistinct _ ihk ihv =>
      rw [lexemes, lexemesEntries_eq_map] at htokens
      exact readsBack_hash stamp (fun entry hentry _ => ihk entry hentry) hdistinct
        (fun entry hentry _ => ihv entry hentry) htokens

end Value

/-! ## In a session -/

namespace Session

open Eval

theorem source_display {value : Value} (h : value.Literal) :
    ∃ first node, Parse.source value.display = ⟨first, [.expression first node], []⟩ ∧
      Value.Denotes node value := by
  obtain ⟨ts, eof, htokens, heof, hlexemes⟩ := Token.ofSource_of_spelled (h.spelled .nil)
  obtain ⟨node, hcoheres, hdenotes⟩ := h.readsBack hlexemes
  obtain ⟨first, more, rfl, _⟩ := hcoheres.begins
  have hends : ahead [eof] = .eof := heof
  refine ⟨first, node, ?_, hdenotes⟩
  rw [Parse.source, htokens]
  exact tokens_of_coheres (hcoheres.weaken (by decide)) hends

/-- Shown, literal data is the text of a program for it: run in any world, within limits that are
deep enough for its arrays and hashes, the text comes to data of the same structure, with the
entries of each hash in the same order. Nothing is written, and only stamps are used up. The one
word that is not such data, the smallest, is shown as a text that is rejected. -/
theorem shown_data_runs (limits : Limits) (scope : Nat) (world : World) :
    (∀ value : Value, value.Literal → value.nesting + 4 ≤ limits.depth →
      ∃ found made, run limits scope value.display world =
          (.finished found false, { world with objects := world.objects + made }) ∧
        found.unstamped = value.unstamped) ∧
    run limits scope (Value.integer minWord).display world =
      (.rejected [.badInteger "9223372036854775808"], world) := by
  constructor
  · intro value h hdepth
    obtain ⟨first, node, hsource, hdenotes⟩ := source_display h
    obtain ⟨depth, hlevels⟩ : ∃ depth, limits.depth = depth + 2 := ⟨limits.depth - 2, by omega⟩
    obtain ⟨found, made, hcomes, hsame⟩ :=
      hdenotes limits.turns depth scope world (by omega)
    have hnull : found.isNull = false := by
      cases h <;> cases found <;> simp_all [Value.unstamped, Value.isNull]
    refine ⟨found, made, ?_, hsame⟩
    rw [run_of_comes hsource hlevels hcomes, hnull]
  · have hcomplaints : (Parse.source (Value.integer minWord).display).complaints =
        [.badInteger "9223372036854775808"] := by decide +kernel
    have hclean : (Parse.source (Value.integer minWord).display).isClean = false := by
      rw [Parsed.isClean, hcomplaints]
      rfl
    rw [run, hclean, hcomplaints]
    rfl

/-- A hash with a negative key that holds an array, and a hash without entries. -/
theorem shown_data_runs_nested :
    let value : Value := .hash 7 [(.integer (-3), .array 5 [.boolean true, .integer (minWord + 1)]),
      (.boolean false, .hash 2 [])]
    value.Literal ∧ value.nesting + 4 ≤ 6 ∧
      value.display = "\x7b-3: [true, -9223372036854775807], false: \x7b\x7d\x7d" ∧
      ∃ found made, run ⟨6, 1⟩ 0 value.display .initial =
          (.finished found false, { World.initial with objects := 0 + made }) ∧
        found.unstamped = value.unstamped := by
  intro value
  have hnumbers : Value.Literal (.integer (-3)) ∧ Value.Literal (.integer (minWord + 1)) :=
    ⟨.integer (by decide) (by decide), .integer (by decide) (by decide)⟩
  have harray : Value.Literal (.array 5 [.boolean true, .integer (minWord + 1)]) :=
    .array 5 (List.forall_mem_cons.mpr ⟨.boolean true, List.forall_mem_singleton.mpr hnumbers.2⟩)
  have hempty : Value.Literal (.hash 2 []) := .hash 2 (by simp) (by simp) (by simp)
  have hliteral : value.Literal :=
    .hash 7 (List.forall_mem_cons.mpr ⟨hnumbers.1, List.forall_mem_singleton.mpr (.boolean false)⟩)
      (by decide) (List.forall_mem_cons.mpr ⟨harray, List.forall_mem_singleton.mpr hempty⟩)
  exact ⟨hliteral, by decide, by decide,
    (shown_data_runs ⟨6, 1⟩ 0 .initial).1 value hliteral (by decide)⟩

end Session

end Monkey
