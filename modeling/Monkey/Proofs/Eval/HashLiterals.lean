import Monkey.Proofs.Eval.Equality
import Mathlib.Data.List.Basic
import Mathlib.Data.List.Induction

/-!
# Hash literals

A hash literal writes its pairs one after another. What they leave behind is an ordered map: each
key once, in the order in which keys were first written, with the value that was written last. A key
that cannot be one ends the construction before its value is evaluated.
-/
namespace Monkey

namespace Value

/-- The entries of a hash after all pairs have been written. -/
def gathered (pairs : List (Key × Value)) : List (Key × Value) :=
  pairs.foldl (fun all entry => putEntry entry.1 entry.2 all) []

theorem gathered_concat (pairs : List (Key × Value)) (entry : Key × Value) :
    gathered (pairs ++ [entry]) = putEntry entry.1 entry.2 (gathered pairs) := by
  simp [gathered]

theorem valueOf?_putEntry (key other : Key) (value : Value) (entries : List (Key × Value)) :
    valueOf? other (putEntry key value entries) =
      if key = other then some value else valueOf? other entries := by
  induction entries with
  | nil => rfl
  | cons entry rest ih =>
      obtain ⟨first, old⟩ := entry
      by_cases hwritten : first = key
      · subst hwritten
        by_cases hother : first = other <;> simp [putEntry, valueOf?, hother]
      · by_cases hother : first = other
        · subst hother
          simp [putEntry, valueOf?, hwritten, Ne.symm hwritten]
        · simp [putEntry, valueOf?, hwritten, hother, ih]

/-- A key that is there keeps its place, and a new one comes behind all others. -/
theorem keys_putEntry (key : Key) (value : Value) (entries : List (Key × Value)) :
    (putEntry key value entries).map (·.1) =
      if key ∈ entries.map (·.1) then entries.map (·.1) else entries.map (·.1) ++ [key] := by
  induction entries with
  | nil => rfl
  | cons entry rest ih =>
      obtain ⟨first, old⟩ := entry
      by_cases hwritten : first = key
      · subst hwritten
        simp [putEntry]
      · simp only [putEntry, if_neg hwritten, List.map_cons, List.mem_cons, Ne.symm hwritten,
          false_or, ih]
        split <;> simp

theorem mem_keys_gathered (pairs : List (Key × Value)) (key : Key) :
    key ∈ (gathered pairs).map (·.1) ↔ key ∈ pairs.map (·.1) := by
  induction pairs using List.reverseRecOn with
  | nil => rfl
  | append_singleton pairs entry ih =>
      rw [gathered_concat, keys_putEntry, List.map_append, List.mem_append, ← ih]
      split
      next hmem =>
          constructor
          · exact .inl
          · rintro (h | h)
            · exact h
            · rw [List.mem_singleton.mp h]
              exact hmem
      next => simp

/-- Keys stand in the order of their first occurrence. -/
theorem pairwise_keys_gathered (pairs : List (Key × Value)) :
    ((gathered pairs).map (·.1)).Pairwise fun first second =>
      (pairs.map (·.1)).idxOf first < (pairs.map (·.1)).idxOf second := by
  induction pairs using List.reverseRecOn with
  | nil => exact .nil
  | append_singleton pairs entry ih =>
      have hplace {key : Key} (hkey : key ∈ (gathered pairs).map (·.1)) :
          (pairs.map (·.1) ++ [entry.1]).idxOf key = (pairs.map (·.1)).idxOf key :=
        List.idxOf_append_of_mem ((mem_keys_gathered pairs key).mp hkey)
      have hbefore : ((gathered pairs).map (·.1)).Pairwise fun first second =>
          (pairs.map (·.1) ++ [entry.1]).idxOf first <
            (pairs.map (·.1) ++ [entry.1]).idxOf second := by
        refine ih.imp_of_mem fun hfirst hsecond hlt => ?_
        rwa [hplace hfirst, hplace hsecond]
      rw [gathered_concat, keys_putEntry, List.map_append, List.map_singleton]
      split
      next => exact hbefore
      next hnew =>
          -- a new key stands last, and so does its first occurrence
          refine List.pairwise_append.mpr ⟨hbefore, List.pairwise_singleton _ _, ?_⟩
          intro key hkey last hlast
          obtain rfl := List.mem_singleton.mp hlast
          rw [mem_keys_gathered] at hnew
          rw [hplace hkey, List.idxOf_append_of_notMem hnew, List.idxOf_cons_self, Nat.add_zero]
          exact List.idxOf_lt_length_iff.mpr ((mem_keys_gathered pairs key).mp hkey)

/-- The value of a key is the one in the last pair with this key. -/
theorem valueOf?_gathered {pairs : List (Key × Value)} {i : Nat} {entry : Key × Value}
    (h : pairs[i]? = some entry)
    (hlast : ∀ j later, i < j → pairs[j]? = some later → later.1 ≠ entry.1) :
    valueOf? entry.1 (gathered pairs) = some entry.2 := by
  induction pairs using List.reverseRecOn with
  | nil => cases h
  | append_singleton pairs last ih =>
      rw [gathered_concat, valueOf?_putEntry]
      have hbound : i < (pairs ++ [last]).length := (List.getElem?_eq_some_iff.mp h).1
      rw [List.length_append, List.length_singleton] at hbound
      by_cases hi : i < pairs.length
      · have hother : last.1 ≠ entry.1 := hlast pairs.length last hi List.getElem?_concat_length
        rw [if_neg hother]
        rw [List.getElem?_append_left hi] at h
        refine ih h fun j later hj hlater => hlast j later hj ?_
        rwa [List.getElem?_append_left (List.getElem?_eq_some_iff.mp hlater).1]
      · obtain rfl : i = pairs.length := by omega
        rw [List.getElem?_concat_length] at h
        obtain rfl := Option.some.inj h
        exact if_pos rfl

theorem valueOf?_gathered_eq_none {pairs : List (Key × Value)} {key : Key}
    (h : ∀ entry ∈ pairs, entry.1 ≠ key) : valueOf? key (gathered pairs) = none := by
  induction pairs using List.reverseRecOn with
  | nil => rfl
  | append_singleton pairs last ih =>
      obtain ⟨hpairs, hlast⟩ := List.forall_mem_append.mp h
      rw [gathered_concat, valueOf?_putEntry, if_neg (hlast last (List.mem_singleton_self last))]
      exact ih hpairs

/-! ## Indexing -/

section
variable {pairs : List (Key × Value)} {value : Value} (stamp : Nat)

theorem index_hash {key : Key} (h : value.key? = some key) (entries : List (Key × Value)) :
    index (.hash stamp entries) value = .ok ((valueOf? key entries).getD .null) := by
  simp [index, h]

theorem index_hash_of_unusable (h : value.key? = none) (entries : List (Key × Value)) :
    index (.hash stamp entries) value = .error (.unusableKey value.type) := by
  simp [index, h]

/-- A key differs from the value if the value of the key does. -/
theorem ne_of_same_eq_false {key other : Key} (hkey : value.key? = some key)
    (h : other.value.same value = false) : other ≠ key := by
  rintro rfl
  have hsame := (same_iff_of_key? (key?_value other) hkey).mpr rfl
  rw [h] at hsame
  cases hsame

theorem index_gathered (hvalue : value.key?.isSome) {i : Nat} {entry : Key × Value}
    (h : pairs[i]? = some entry) (hsame : entry.1.value.same value = true)
    (hlast : ∀ j later, i < j → pairs[j]? = some later → later.1.value.same value = false) :
    index (.hash stamp (gathered pairs)) value = .ok entry.2 := by
  obtain ⟨key, hkey⟩ := Option.isSome_iff_exists.mp hvalue
  obtain rfl := (same_iff_of_key? (key?_value entry.1) hkey).mp hsame
  have hfound : valueOf? entry.1 (gathered pairs) = some entry.2 :=
    valueOf?_gathered h fun j later hj hlater =>
      ne_of_same_eq_false hkey (hlast j later hj hlater)
  rw [index_hash stamp hkey, hfound]
  rfl

theorem index_gathered_eq_null (hvalue : value.key?.isSome)
    (h : ∀ entry ∈ pairs, entry.1.value.same value = false) :
    index (.hash stamp (gathered pairs)) value = .ok .null := by
  obtain ⟨key, hkey⟩ := Option.isSome_iff_exists.mp hvalue
  have hnone : valueOf? key (gathered pairs) = none :=
    valueOf?_gathered_eq_none fun entry hentry => ne_of_same_eq_false hkey (h entry hentry)
  rw [index_hash stamp hkey, hnone]
  rfl

end

end Value

/-! ## Construction -/

namespace Eval

open Monkey.Eval.Action

/-- Pairs behind others go on with the entries of these. -/
theorem entries_append (scope : Nat) (before : List (Key × Value))
    (early rest : List (Node × Node)) :
    entries scope before (early ++ rest) =
      entries scope before early >>= fun found => entries scope found rest := by
  induction early generalizing before with
  | nil => simp [entries]
  | cons pair early ih =>
      obtain ⟨keyNode, valueNode⟩ := pair
      simp only [List.cons_append, entries, bind_assoc]
      congr 1
      funext keyValue
      cases keyValue.key? with
      | none => rfl
      | some key => simp only [bind_assoc, ih]

section
variable {maxTurns depth scope : Nat} {pairs : List (Node × Node)} {world middle after : World}
  {found : List (Key × Value)}

/-- Pairs are evaluated in order, each key before its value. -/
theorem ComePairs.evaluated (h : ComePairs maxTurns depth scope pairs world found after)
    (before : List (Key × Value)) :
    (entries scope before pairs).evaluated (eval maxTurns depth) world =
      pairs.flatMap fun pair => [pair.1, pair.2] := by
  induction h generalizing before with
  | nil => rfl
  | @cons pair pairs world middle later after key value found hkey hvalue _ ih =>
      rw [entries, evaluated_bind_evaluate hkey, Value.key?_value, List.flatMap_cons]
      refine congrArg (pair.1 :: ·) ((evaluated_bind_evaluate hvalue _).trans ?_)
      exact congrArg (pair.2 :: ·) (ih _)

/-- A value that is no key ends the entries, whatever follows. -/
theorem run_entries_of_unusable {keyNode : Node} {keyValue : Value}
    (h : Comes maxTurns depth scope keyNode world keyValue after) (hkey : keyValue.key? = none)
    (before : List (Key × Value)) (valueNode : Node) (rest : List (Node × Node)) :
    (entries scope before ((keyNode, valueNode) :: rest)).run (eval maxTurns depth) world =
        ⟨some (.error (.failed ⟨after.errors, .unusableKey keyValue.type⟩)),
          { after with errors := after.errors + 1 }⟩ ∧
      (entries scope before ((keyNode, valueNode) :: rest)).evaluated (eval maxTurns depth) world =
        [keyNode] := by
  constructor
  · rw [entries, bind_of_ok h.run, hkey]
    rfl
  · rw [entries, evaluated_bind_evaluate h, hkey]
    rfl

/-- Behind pairs that come to entries, it ends the literal. -/
theorem ComePairs.hash_of_unusable {keyNode : Node} {keyValue : Value}
    (h : ComePairs maxTurns depth scope pairs world found middle)
    (hcomes : Comes maxTurns depth scope keyNode middle keyValue after)
    (hkey : keyValue.key? = none) (valueNode : Node) (rest : List (Node × Node)) :
    (hash scope (pairs ++ (keyNode, valueNode) :: rest)).run (eval maxTurns depth) world =
        ⟨some (.error (.failed ⟨after.errors, .unusableKey keyValue.type⟩)),
          { after with errors := after.errors + 1 }⟩ ∧
      (hash scope (pairs ++ (keyNode, valueNode) :: rest)).evaluated (eval maxTurns depth) world =
        (pairs.flatMap fun pair => [pair.1, pair.2]) ++ [keyNode] := by
  obtain ⟨hrun, hevaluated⟩ :=
    run_entries_of_unusable hcomes hkey (Value.gathered found) valueNode rest
  have hentries : (entries scope [] (pairs ++ (keyNode, valueNode) :: rest)).run
      (eval maxTurns depth) world =
        ⟨some (.error (.failed ⟨after.errors, .unusableKey keyValue.type⟩)),
          { after with errors := after.errors + 1 }⟩ := by
    rw [entries_append, bind_of_ok (h.run [])]
    exact hrun
  obtain ⟨hstop, hevents⟩ := bind_of_stop hentries fun contents => perform (.newHash contents)
  refine ⟨hstop, ?_⟩
  rw [Action.evaluated, hash, hevents, ← Action.evaluated, entries_append,
    evaluated_bind_of_ok (h.run []), h.evaluated]
  exact congrArg (_ ++ ·) hevaluated

end

/-- A hash literal is an ordered map in which the last write wins. If its pairs come to keys and
values, it comes to a hash with each key once, in the order of first occurrence; indexed by a value
that can be a key, the hash gives what the last pair with the same key has, or null if there is
none, and any other value is reported as unusable. The first key of a literal that cannot be one is
reported in the same way: before it the earlier pairs have been evaluated, and nothing after it. -/
theorem hash_literal_keeps_last_writes (maxTurns depth scope : Nat) (token : Token) :
    (∀ pairs world found after, ComePairs maxTurns depth scope pairs world found after →
      ∃ entries : List (Key × Value),
        Comes maxTurns (depth + 1) scope (.hash token pairs) world (.hash after.objects entries)
          { after with objects := after.objects + 1 } ∧
        (entries.map (·.1)).Nodup ∧
        (∀ key, key ∈ entries.map (·.1) ↔ key ∈ found.map (·.1)) ∧
        ((entries.map (·.1)).Pairwise fun first second =>
          (found.map (·.1)).idxOf first < (found.map (·.1)).idxOf second) ∧
        (∀ value : Value, value.key?.isSome →
          (∀ (i : Nat) (entry : Key × Value), found[i]? = some entry →
            entry.1.value.same value = true →
            (∀ (j : Nat) (later : Key × Value), i < j → found[j]? = some later →
              later.1.value.same value = false) →
            Value.index (.hash after.objects entries) value = .ok entry.2) ∧
          ((∀ entry ∈ found, entry.1.value.same value = false) →
            Value.index (.hash after.objects entries) value = .ok .null)) ∧
        ∀ value : Value, value.key? = none →
          Value.index (.hash after.objects entries) value = .error (.unusableKey value.type)) ∧
    (∀ early keyNode valueNode rest world found middle keyValue after,
      ComePairs maxTurns depth scope early world found middle →
      Comes maxTurns depth scope keyNode middle keyValue after → keyValue.key? = none →
        eval maxTurns (depth + 1) scope (.hash token (early ++ (keyNode, valueNode) :: rest))
            world =
          ⟨some (.error (.failed ⟨after.errors, .unusableKey keyValue.type⟩)),
            { after with errors := after.errors + 1 }⟩ ∧
        (level maxTurns scope (.hash token (early ++ (keyNode, valueNode) :: rest))).evaluated
            (eval maxTurns depth) world =
          (early.flatMap fun pair => [pair.1, pair.2]) ++ [keyNode]) ∧
    ∀ type : ValueType,
      (Fault.unusableKey type).message = "unusable as hash key: " ++ type.name := by
  refine ⟨?_, ?_, fun _ => rfl⟩
  · intro pairs world found after hpairs
    have horder := Value.pairwise_keys_gathered found
    refine ⟨Value.gathered found, .hash hpairs token, ?_, Value.mem_keys_gathered found, horder,
      ?_, ?_⟩
    · exact horder.imp fun hlt heq => absurd (heq ▸ hlt) (Nat.lt_irrefl _)
    · intro value hvalue
      exact ⟨fun i entry => Value.index_gathered after.objects hvalue,
        Value.index_gathered_eq_null after.objects hvalue⟩
    · exact fun value hvalue => Value.index_hash_of_unusable after.objects hvalue _
  · intro early keyNode valueNode rest world found middle keyValue after hearly hcomes hkey
    exact hearly.hash_of_unusable hcomes hkey valueNode rest

/-- A key that is written again keeps its place, and the integer, the boolean and the string that
are shown alike stay apart. In the second literal an array stands for a key, behind which nothing is
written. -/
theorem hash_literal_keeps_last_writes_again :
    let number (value : Int) : Node := .integer default value
    let pairs : List (Node × Node) :=
      [(number 1, number 10), (.text default "1", number 20), (.boolean default true, number 30),
        (number 1, number 40)]
    let found : List (Key × Value) :=
      [(.integer 1, .integer 10), (.string "1", .integer 20), (.boolean true, .integer 30),
        (.integer 1, .integer 40)]
    let unusable : List (Node × Node) :=
      pairs ++ (.array default [], .call default (.identifier ⟨default, "puts"⟩) []) :: pairs
    ComePairs 9 4 0 pairs .initial found .initial ∧
      (∃ entries : List (Key × Value),
        Comes 9 5 0 (.hash default pairs) .initial (.hash 0 entries)
          { World.initial with objects := 1 } ∧
        (entries.map (·.1)).Nodup ∧
        Value.index (.hash 0 entries) (.integer 1) = .ok (.integer 40) ∧
        Value.index (.hash 0 entries) (.boolean false) = .ok .null ∧
        Value.index (.hash 0 entries) .null = .error (.unusableKey .null)) ∧
      eval 9 5 0 (.hash default unusable) .initial =
        ⟨some (.error (.failed ⟨0, .unusableKey .array⟩)),
          { World.initial with objects := 1, errors := 1 }⟩ := by
  intro number pairs found unusable
  have hpairs : ComePairs 9 4 0 pairs .initial found .initial :=
    .cons rfl rfl (.cons rfl rfl (.cons rfl rfl (.cons rfl rfl .nil)))
  obtain ⟨hwritten, hunusable, _⟩ := hash_literal_keeps_last_writes 9 4 0 default
  obtain ⟨entries, hcomes, hdistinct, _, _, hindex, hother⟩ := hwritten _ _ _ _ hpairs
  refine ⟨hpairs, ⟨entries, hcomes, hdistinct, ?_, ?_, hother .null rfl⟩, ?_⟩
  · refine (hindex (.integer 1) rfl).1 3 _ rfl rfl fun j later hj hlater => ?_
    have hbound : j < 4 := (List.getElem?_eq_some_iff.mp hlater).1
    omega
  · refine (hindex (.boolean false) rfl).2 ?_
    decide
  · have harray : Comes 9 4 0 (.array default []) .initial (.array 0 [])
        { World.initial with objects := 1 } := rfl
    exact (hunusable pairs _ _ pairs _ _ _ _ _ hpairs harray rfl).1

end Eval

end Monkey
