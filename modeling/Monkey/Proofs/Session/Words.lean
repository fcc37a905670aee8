import Monkey.Proofs.Parse.Completeness
import Monkey.Proofs.Session.Containment

/-!
# Integers stay words

Sums, differences, products, quotients and increments are wrapped, but remainders, lengths and
numerals are taken as they are. They are words all the same: a remainder lies between zero and its
dividend, a length is bounded by the size of what is counted, and a numeral by the parser.
-/
namespace Monkey

namespace Node

mutual

/-- Every integer in the tree is a word. -/
def inWords : Node → Bool
  | hole | increment .. | identifier _ | text .. | boolean .. => true
  | integer _ value => InWord value
  | program _ nodes | block _ nodes | array _ nodes => allInWords nodes
  | binding _ _ node | returning _ node | expression _ node | unary _ _ node | function _ _ node =>
      node.inWords
  | clause _ node nodes | switch _ node nodes | call _ node nodes =>
      node.inWords && allInWords nodes
  | binary _ left _ right | index _ left right => left.inWords && right.inWords
  | conditional _ condition consequence alternative =>
      condition.inWords && consequence.inWords && alternative.inWords
  | loop _ init condition post body =>
      init.inWords && condition.inWords && post.inWords && body.inWords
  | hash _ pairs => pairsInWords pairs

def allInWords : List Node → Bool
  | [] => true
  | node :: rest => node.inWords && allInWords rest

def pairsInWords : List (Node × Node) → Bool
  | [] => true
  | (key, value) :: rest => key.inWords && value.inWords && pairsInWords rest

end

theorem allInWords_iff (nodes : List Node) :
    allInWords nodes ↔ ∀ node ∈ nodes, node.inWords := by
  induction nodes with
  | nil => simp [allInWords]
  | cons node rest ih => simp [allInWords, ih]

theorem pairsInWords_iff (pairs : List (Node × Node)) :
    pairsInWords pairs ↔ ∀ pair ∈ pairs, pair.1.inWords ∧ pair.2.inWords := by
  induction pairs with
  | nil => simp [pairsInWords]
  | cons pair rest ih => simp [pairsInWords, ih]

/-- A tree is made of words if its own integer is one and its parts are made of words. -/
theorem inWords_iff_parts (node : Node) :
    node.inWords ↔ (∀ token value, node = .integer token value → InWord value) ∧
      ∀ part ∈ node.parts, part.inWords := by
  cases node with
  | hash token pairs =>
      rw [inWords, pairsInWords_iff, parts, List.forall_mem_flatMap]
      simp
  | _ => simp [parts, inWords, allInWords_iff, and_assoc]

/-- A word can hold every numeral. -/
theorem inWords_of_everywhere {node : Node} (h : node.Everywhere IsNumeral) : node.inWords := by
  induction h with
  | intro hown _ ih =>
      refine (inWords_iff_parts _).mpr ⟨?_, ih⟩
      rintro token value rfl
      obtain ⟨hlow, hhigh⟩ : 0 ≤ value ∧ value < 2 ^ 63 := hown
      simp only [InWord, minWord, maxWord]
      omega

end Node

namespace Value

mutual

/-- Every integer inside is a word: elements, keys and values at any depth, and what is written in
the bodies of functions. -/
def inWords : Value → Bool
  | integer value => InWord value
  | array _ elements => allInWords elements
  | hash _ entries => entriesInWords entries
  | function _ _ body _ => body.inWords
  | _ => true

def allInWords : List Value → Bool
  | [] => true
  | value :: rest => value.inWords && allInWords rest

def entriesInWords : List (Key × Value) → Bool
  | [] => true
  | (key, value) :: rest =>
      (match key with
        | .integer number => decide (InWord number)
        | _ => true) &&
      value.inWords && entriesInWords rest

end

theorem allInWords_iff (values : List Value) :
    allInWords values ↔ ∀ value ∈ values, value.inWords := by
  induction values with
  | nil => simp [allInWords]
  | cons value rest ih => simp [allInWords, ih]

theorem entriesInWords_iff (entries : List (Key × Value)) :
    entriesInWords entries ↔ ∀ entry ∈ entries, entry.1.value.inWords ∧ entry.2.inWords := by
  induction entries with
  | nil => simp [entriesInWords]
  | cons entry rest ih =>
      obtain ⟨key, value⟩ := entry
      cases key <;> simp [entriesInWords, Key.value, inWords, ih, and_assoc]

/-- A string of fewer bytes, or an array of fewer elements, than there are words above zero. -/
def isBrief : Value → Bool
  | string text => Eval.byteLength text < 2 ^ 63
  | array _ elements => elements.length < 2 ^ 63
  | _ => true

end Value

/-- A remainder lies between zero and its dividend. -/
theorem inWord_remainder {a : Int} (h : InWord a) (b : Int) : InWord (remainder a b) := by
  rw [remainder_eq_tmod]
  have hsize : (a.tmod b).natAbs ≤ a.natAbs := by
    rw [Int.natAbs_tmod]
    exact Nat.mod_le _ _
  simp only [InWord, minWord, maxWord] at *
  rcases Int.le_total 0 a with ha | ha
  · have hlow := Int.tmod_nonneg b ha
    omega
  · have hneg : (-a).tmod b = -a.tmod b := Int.neg_tmod a b
    have hhigh := Int.tmod_nonneg b (Int.neg_nonneg.mpr ha)
    omega

theorem inWord_of_lt {count : Nat} (h : count < 2 ^ 63) : InWord count := by
  simp only [InWord, minWord, maxWord]
  omega

namespace Eval

/-- The rules of a run in which all integers are words. -/
def wordRules : Rules where
  good value := value.inWords
  brief value := value.isBrief
  tree node := node.inWords
  returns := True
  catches := True

theorem wordRules_lawful : wordRules.Lawful where
  null := rfl
  boolean _ := rfl
  string _ := rfl
  builtin _ := rfl
  word value h := by simpa [wordRules, Value.inWords] using h
  remainder a b h := by
    have ha : InWord a := by simpa [wordRules, Value.inWords] using h
    simpa [wordRules, Value.inWords] using inWord_remainder ha b
  bytes text h := by
    have hcount : byteLength text < 2 ^ 63 := by simpa [wordRules, Value.isBrief] using h
    simpa [wordRules, Value.inWords] using inWord_of_lt hcount
  count stamp elements h := by
    have hcount : elements.length < 2 ^ 63 := by simpa [wordRules, Value.isBrief] using h
    simpa [wordRules, Value.inWords] using inWord_of_lt hcount
  array stamp elements := by simp [wordRules, Value.inWords, Value.allInWords_iff]
  hash stamp entries := by simp [wordRules, Value.inWords, Value.entriesInWords_iff]
  function stamp parameters body scope := by simp [wordRules, Value.inWords]
  literal token value h := by simpa [wordRules, Node.inWords, Value.inWords] using h
  evaluated _ h := Node.forall_evaluated (fun node h => ((Node.inWords_iff_parts node).mp h).2) h

/-- The visit comes to no string or array that is too large to be counted in a word, and is no call
with so many arguments. -/
def Visit.isModest (maxTurns depth : Nat) (visit : Visit) : Bool :=
  (match (visit.under (eval maxTurns depth)).value with
    | some (.ok value) => value.isBrief
    | _ => true) &&
  match visit.node with
  | .call _ _ arguments => arguments.length < 2 ^ 63
  | _ => true

theorem Visit.grants_of_isModest {maxTurns depth : Nat} {visit : Visit}
    (h : visit.isModest maxTurns depth) : wordRules.Grants maxTurns depth visit := by
  obtain ⟨hvalue, hcount⟩ := Bool.and_eq_true_iff.mp h
  constructor
  · intro value heq
    rw [heq] at hvalue
    exact hvalue
  · intro token callee arguments hnode
    rw [hnode] at hcount
    have hlength : arguments.length < 2 ^ 63 := by simpa using hcount
    exact wordRules_lawful.word _ (inWord_of_lt hlength)

end Eval

namespace Session

open Eval

/-- In a session that starts afresh, as long as strings, arrays and lists of arguments can be
counted in a word, every integer is a word: bound in a scope, inside a collection or a function,
passed to a function, or what an evaluation comes to or returns. -/
theorem integers_stay_words (limits : Limits) (texts : List String)
    (hmodest : ∀ entry ∈ visitsOfAll limits 0 texts .initial,
      entry.2.isModest limits.turns entry.1) :
    Holds (·.inWords) (runAll limits 0 texts .initial) ∧
      ∀ entry ∈ visitsOfAll limits 0 texts .initial,
        Throughout (·.inWords) limits.turns entry.1 entry.2 := by
  apply throughout_of_texts wordRules_lawful trivial trivial
  · exact fun text hclean => Node.inWords_of_everywhere (Parse.numerals_of_isClean hclean)
  · exact .initial _
  · exact fun entry hentry => Visit.grants_of_isModest (hmodest entry hentry)

/-- The largest word, increased, is the smallest, which neither negation nor division by minus one
leads out of the words. -/
theorem integers_stay_words_extremes :
    let texts := ["let n = 9223372036854775807; n++;",
      "let f = fn(x) \x7b return [x % -1, -x, x / -1]; \x7d; \x7bn: f(n), len(\"ab\"): n - 1\x7d;"]
    (∀ entry ∈ visitsOfAll ⟨20, 9⟩ 0 texts .initial, entry.2.isModest 9 entry.1) ∧
      ((runAll ⟨20, 9⟩ 0 texts .initial).bound? "n" 0).map (·.display) =
        some "-9223372036854775808" ∧
      Holds (·.inWords) (runAll ⟨20, 9⟩ 0 texts .initial) ∧
      ∀ entry ∈ visitsOfAll ⟨20, 9⟩ 0 texts .initial, Throughout (·.inWords) 9 entry.1 entry.2 := by
  intro texts
  have hmodest : ∀ entry ∈ visitsOfAll ⟨20, 9⟩ 0 texts .initial, entry.2.isModest 9 entry.1 := by
    decide +kernel
  have hbound : ((runAll ⟨20, 9⟩ 0 texts .initial).bound? "n" 0).map (·.display) =
      some "-9223372036854775808" := by
    decide +kernel
  exact ⟨hmodest, hbound, integers_stay_words ⟨20, 9⟩ texts hmodest⟩

end Session

end Monkey
