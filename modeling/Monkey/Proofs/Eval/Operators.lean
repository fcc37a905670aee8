import Monkey.Eval.Builtin
import Monkey.Value.Operator

/-!
# Properties that operators keep

A property of values is closed if the operators make values that have it of values that have it.
Integers need not all have it: sums, differences, products and quotients are wrapped to a word, a
remainder is taken as it is, and the number of things in a text or an array counts only if the value
is brief.
-/
namespace Monkey.Eval

structure Closed (good brief : Value → Prop) : Prop where
  null : good .null
  boolean : ∀ value, good (.boolean value)
  string : ∀ value, good (.string value)
  builtin : ∀ builtin, good (.builtin builtin)
  word : ∀ value, InWord value → good (.integer value)
  remainder : ∀ a b, good (.integer a) → good (.integer (Monkey.remainder a b))
  bytes : ∀ text, brief (.string text) → good (.integer (byteLength text))
  count : ∀ stamp elements, brief (.array stamp elements) → good (.integer elements.length)
  array : ∀ stamp elements, good (.array stamp elements) ↔ ∀ value ∈ elements, good value
  hash : ∀ stamp entries, good (.hash stamp entries) ↔
    ∀ entry ∈ entries, good entry.1.value ∧ good entry.2

/-- What all entries of a hash have in common, they have behind a write too. -/
theorem forall_putEntry {condition : Key × Value → Prop} {key : Key} {value : Value}
    {before : List (Key × Value)} (hnew : condition (key, value))
    (hbefore : ∀ entry ∈ before, condition entry) :
    ∀ entry ∈ Value.putEntry key value before, condition entry := by
  induction before with
  | nil => simpa [Value.putEntry] using hnew
  | cons first rest ih =>
      obtain ⟨hfirst, hrest⟩ := List.forall_mem_cons.mp hbefore
      unfold Value.putEntry
      split
      · exact List.forall_mem_cons.mpr ⟨hnew, hrest⟩
      · exact List.forall_mem_cons.mpr ⟨hfirst, ih hrest⟩

namespace Closed

variable {good brief : Value → Prop} (hclosed : Closed good brief)
include hclosed

theorem wrapped (value : Int) : good (.integer (wrap value)) :=
  hclosed.word _ (inWord_wrap value)

theorem integerBinary {operator : String} {a b : Int} {value : Value} (ha : good (.integer a))
    (h : Value.integerBinary operator a b = .ok value) : good value := by
  unfold Value.integerBinary at h
  split at h
  case h_4 =>
      split at h
      · cases h
      · obtain rfl := Except.ok.inj h
        exact hclosed.wrapped _
  case h_5 =>
      split at h
      · cases h
      · obtain rfl := Except.ok.inj h
        exact hclosed.remainder a b ha
  case h_10 => cases h
  all_goals
    obtain rfl := Except.ok.inj h
    first | exact hclosed.wrapped _ | exact hclosed.boolean _

theorem stringBinary {operator a b : String} {value : Value}
    (h : Value.stringBinary operator a b = .ok value) : good value := by
  unfold Value.stringBinary at h
  split at h
  case h_4 => cases h
  all_goals
    obtain rfl := Except.ok.inj h
    first | exact hclosed.string _ | exact hclosed.boolean _

theorem comparison {operator : String} {left right value : Value}
    (h : Value.comparison operator left right = .ok value) : good value := by
  unfold Value.comparison at h
  split at h
  · split at h
    case h_3 => cases h
    all_goals
      obtain rfl := Except.ok.inj h
      exact hclosed.boolean _
  · cases h

theorem binary {operator : String} {left right value : Value} (hleft : good left)
    (h : Value.binary operator left right = .ok value) : good value := by
  unfold Value.binary at h
  split at h
  · exact hclosed.integerBinary hleft h
  · exact hclosed.stringBinary h
  · exact hclosed.comparison h

theorem unary {operator : String} {operand value : Value}
    (h : operand.unary operator = .ok value) : good value := by
  unfold Value.unary at h
  split at h
  · obtain rfl := Except.ok.inj h
    exact hclosed.boolean _
  · split at h
    · obtain rfl := Except.ok.inj h
      exact hclosed.wrapped _
    · cases h
  · cases h

theorem elementAt {elements : List Value} (helements : ∀ value ∈ elements, good value)
    (position : Int) : good (Value.elementAt elements position) := by
  unfold Value.elementAt
  split
  · exact hclosed.null
  · cases hget : elements[position.toNat]? with
    | none => exact hclosed.null
    | some value => exact helements value (List.mem_of_getElem? hget)

theorem valueOf? {entries : List (Key × Value)} (hentries : ∀ entry ∈ entries, good entry.2)
    (key : Key) : good ((Value.valueOf? key entries).getD .null) := by
  induction entries with
  | nil => exact hclosed.null
  | cons entry rest ih =>
      obtain ⟨hentry, hrest⟩ := List.forall_mem_cons.mp hentries
      unfold Value.valueOf?
      split
      · exact hentry
      · exact ih hrest

theorem index {collection key value : Value} (hcollection : good collection)
    (h : collection.index key = .ok value) : good value := by
  unfold Value.index at h
  split at h
  · obtain rfl := Except.ok.inj h
    exact hclosed.elementAt ((hclosed.array _ _).mp hcollection) _
  · split at h
    · obtain rfl := Except.ok.inj h
      have hentries := (hclosed.hash _ _).mp hcollection
      exact hclosed.valueOf? (fun entry hmem => (hentries entry hmem).2) _
    · cases h
  · cases h

end Closed

end Monkey.Eval
