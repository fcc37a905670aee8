import Monkey.Proofs.Eval.Assignment
import Monkey.Proofs.Eval.HashLiterals
import Monkey.Proofs.Eval.Ledger
import Monkey.Proofs.Eval.Sparing
import Monkey.Proofs.Eval.Success

/-!
# How values are handed on

A name that is read, an argument, a value that returns, an element of a collection: at each turn of
its way a value is handed on as it is. The rules for `Comes` are read backward here: from what a
node comes to, they tell what its parts came to.
-/
namespace Monkey

/-! ## Names -/

namespace World

variable {world : World} {scope : Nat} {name : String} {value : Value}

/-- A name that a scope holds is read there. -/
theorem get?_of_bound (h : world.bound? name scope = some value) :
    world.get? scope name = some value := by
  rw [get?, holder?_of_bound (by rw [h]; rfl)]
  exact h

theorem get?_set_self (h : scope < world.scopes.size) (name : String) (value : Value) :
    (world.set scope name value).get? scope name = some value := by
  apply get?_of_bound
  rw [bound?_set_self value name h, if_pos rfl]

end World

/-- A hash has no entries but those that were written. -/
theorem Value.gathered_subset (pairs : List (Key × Value)) : gathered pairs ⊆ pairs := by
  induction pairs using List.reverseRecOn with
  | nil => exact List.nil_subset _
  | append_singleton pairs entry ih =>
      rw [gathered_concat]
      intro other
      apply Eval.forall_putEntry (List.mem_append_right _ List.mem_cons_self)
      exact fun earlier hearlier => List.mem_append_left _ (ih hearlier)

namespace Eval

open Monkey.Eval.Action

theorem size_foldl_set (scope : Nat) (pairs : List (Name × Value)) (world : World) :
    (pairs.foldl (fun bound pair => bound.set scope pair.1.text pair.2) world).scopes.size =
      world.scopes.size := by
  induction pairs generalizing world with
  | nil => rfl
  | cons pair rest ih => exact (ih _).trans (World.size_set ..)

theorem bound?_foldl_set_of_ne {scope : Nat} {name : String} {pairs : List (Name × Value)}
    (h : ∀ pair ∈ pairs, pair.1.text ≠ name) {world : World} (hscope : scope < world.scopes.size) :
    (pairs.foldl (fun bound pair => bound.set scope pair.1.text pair.2) world).bound? name scope =
      world.bound? name scope := by
  induction pairs generalizing world with
  | nil => rfl
  | cons pair rest ih =>
      obtain ⟨hpair, hrest⟩ := List.forall_mem_cons.mp h
      have hsize : scope < (world.set scope pair.1.text pair.2).scopes.size := by
        rwa [World.size_set]
      refine (ih hrest hsize).trans ?_
      rw [World.bound?_set_self pair.2 name hscope, if_neg hpair]

/-- The body of a function finds an argument under the name of its parameter, if no parameter behind
it has the same name. -/
theorem get?_entered {world : World} {home : Nat} {parameters : List Name} {given : List Value}
    {before later : List (Name × Value)} {parameter : Name} {argument : Value}
    (hpairs : parameters.zip given = before ++ (parameter, argument) :: later)
    (hlater : ∀ pair ∈ later, pair.1.text ≠ parameter.text) :
    (entered world home parameters given).get? world.scopes.size parameter.text =
      some argument := by
  apply World.get?_of_bound
  rw [entered, hpairs, List.foldl_append, List.foldl_cons]
  have hsize : world.scopes.size < (before.foldl
      (fun bound pair => bound.set world.scopes.size pair.1.text pair.2)
      (world.enclose home).2).scopes.size := by
    rw [size_foldl_set, World.size_enclose]
    exact Nat.lt_succ_self _
  rw [bound?_foldl_set_of_ne hlater (by rwa [World.size_set]),
    World.bound?_set_self argument parameter.text hsize, if_pos rfl]

/-! ## The rules read backward -/

section
variable {maxTurns depth scope : Nat} {world middle after : World} {node : Node} {value : Value}

theorem of_run_yield {inner : Evaluator} {found : Value}
    (h : (Action.yield found).run inner world = ⟨some (.ok value), after⟩) :
    found = value ∧ world = after := by
  cases hfailure : found.isFailure with
  | true =>
      cases found with
      | error failure => cases h
      | _ => cases hfailure
  | false =>
      rw [run_yield hfailure] at h
      cases h
      exact ⟨rfl, rfl⟩

theorem of_run_ofExcept {inner : Evaluator} {result : Except Fault Value}
    (h : (Action.ofExcept result).run inner world = ⟨some (.ok value), after⟩) :
    result = .ok value ∧ world = after := by
  cases result with
  | error fault => cases h
  | ok found =>
      obtain ⟨rfl, hworld⟩ := of_run_yield h
      exact ⟨rfl, hworld⟩

theorem comes_of_run
    (h : (Action.evaluate scope node).run (eval maxTurns depth) world = ⟨some (.ok value), after⟩) :
    Comes maxTurns depth scope node world value after := by
  rwa [run_evaluate] at h

theorem comeAll_of_run {nodes : List Node} {found : List Value}
    (h : (values scope nodes).run (eval maxTurns depth) world = ⟨some (.ok found), after⟩) :
    ComeAll maxTurns depth scope nodes world found after := by
  induction nodes generalizing world found with
  | nil =>
      cases h
      exact .nil
  | cons node rest ih =>
      obtain ⟨first, middle, hfirst, hmore⟩ := exists_of_bind_ok h
      obtain ⟨others, last, hothers, hdone⟩ := exists_of_bind_ok hmore
      cases hdone
      exact .cons (comes_of_run hfirst) (ih hothers)

theorem comePairs_of_run {pairs : List (Node × Node)} {before all : List (Key × Value)}
    (h : (entries scope before pairs).run (eval maxTurns depth) world = ⟨some (.ok all), after⟩) :
    ∃ found, ComePairs maxTurns depth scope pairs world found after ∧
      all = found.foldl (fun all entry => Value.putEntry entry.1 entry.2 all) before := by
  induction pairs generalizing world before with
  | nil =>
      cases h
      exact ⟨[], .nil, rfl⟩
  | cons pair rest ih =>
      obtain ⟨keyValue, middle, hkey, hmore⟩ := exists_of_bind_ok h
      cases husable : keyValue.key? with
      | none =>
          rw [husable] at hmore
          cases hmore
      | some key =>
          rw [husable] at hmore
          obtain ⟨value, later, hvalue, hothers⟩ := exists_of_bind_ok hmore
          obtain ⟨found, hfound, rfl⟩ := ih hothers
          have hcomes := comes_of_run hkey
          rw [← Value.value_of_key? husable] at hcomes
          exact ⟨(key, value) :: found, .cons hcomes (comes_of_run hvalue) hfound, rfl⟩

theorem Comes.of_identifier {name : Name}
    (h : Comes maxTurns (depth + 1) scope (.identifier name) world value after) :
    world.get? scope name.text = some value := by
  have hlook : (Action.perform (.look scope name.text)).run (eval maxTurns depth) world =
      ⟨some (.ok (world.get? scope name.text)), world⟩ := rfl
  have hread := (bind_of_ok hlook _).symm.trans h
  cases hget : world.get? scope name.text with
  | none =>
      rw [hget] at hread
      cases hread
  | some found =>
      rw [hget] at hread
      rw [(of_run_yield hread).1]

theorem Comes.of_array {token : Token} {nodes : List Node}
    (h : Comes maxTurns (depth + 1) scope (.array token nodes) world value after) :
    ∃ found middle, ComeAll maxTurns depth scope nodes world found middle ∧
      value = .array middle.objects found := by
  obtain ⟨found, middle, hvalues, hmake⟩ := exists_of_bind_ok h
  cases hmake
  exact ⟨found, middle, comeAll_of_run hvalues, rfl⟩

theorem Comes.of_hash {token : Token} {pairs : List (Node × Node)}
    (h : Comes maxTurns (depth + 1) scope (.hash token pairs) world value after) :
    ∃ found middle, ComePairs maxTurns depth scope pairs world found middle ∧
      value = .hash middle.objects (Value.gathered found) := by
  obtain ⟨all, middle, hentries, hmake⟩ := exists_of_bind_ok h
  cases hmake
  obtain ⟨found, hfound, rfl⟩ := comePairs_of_run hentries
  exact ⟨found, middle, hfound, rfl⟩

theorem Comes.of_index {token : Token} {collection key : Node}
    (h : Comes maxTurns (depth + 1) scope (.index token collection key) world value after) :
    ∃ first second middle, Comes maxTurns depth scope collection world first middle ∧
      Comes maxTurns depth scope key middle second after ∧ first.index second = .ok value := by
  obtain ⟨first, middle, hfirst, hmore⟩ := exists_of_bind_ok h
  obtain ⟨second, last, hsecond, hresult⟩ := exists_of_bind_ok hmore
  obtain ⟨hindex, rfl⟩ := of_run_ofExcept hresult
  exact ⟨first, second, middle, comes_of_run hfirst, comes_of_run hsecond, hindex⟩

/-! ## Calls -/

theorem Result.caught_eq_ok_iff {result : Result (Except Stop Value)} :
    result.caught = ⟨some (.ok value), after⟩ ↔
      result = ⟨some (.ok value), after⟩ ∨ result = ⟨some (.error (.returning value)), after⟩ := by
  rcases result with ⟨_ | ⟨_ | _⟩ | _, _⟩ <;> simp [caught]

section
variable {callee : Node} {arguments : List Node} {function : Value} {given : List Value}
  (hcallee : Comes maxTurns depth scope callee world function middle)
  (harguments : ComeAll maxTurns depth scope arguments middle given after)
include hcallee harguments

theorem run_operands :
    (operands scope callee arguments).run (eval maxTurns depth) world =
      ⟨some (.ok (function, given)), after⟩ := by
  rw [operands, bind_of_ok hcallee.run, bind_of_ok harguments.run]
  rfl

/-- A call applies the value of its callee to those of its arguments. -/
theorem eval_call (token : Token) :
    eval maxTurns (depth + 1) scope (.call token callee arguments) world =
      (apply function given).run (eval maxTurns depth) after := by
  show (call scope callee arguments).run _ world = _
  rw [call_eq]
  exact bind_of_ok (run_operands hcallee harguments) _

end

/-- What the builtins for arrays make of their arguments, with a stamp for what is new. The elements
are handed on as they are. -/
inductive Answers (stamp : Nat) : Builtin → List Value → Value → Prop where
  | first (old : Nat) (elements : List Value) :
      Answers stamp .first [.array old elements] (elements.head?.getD .null)
  | last (old : Nat) (elements : List Value) :
      Answers stamp .last [.array old elements] (elements.getLast?.getD .null)
  | restOfNone (old : Nat) : Answers stamp .rest [.array old []] .null
  | rest (old : Nat) (first : Value) (others : List Value) :
      Answers stamp .rest [.array old (first :: others)] (.array stamp others)
  | push (old : Nat) (elements : List Value) (added : Value) :
      Answers stamp .push [.array old elements, added] (.array stamp (elements ++ [added]))

section
variable {inner : Evaluator} {builtin : Builtin} {given : List Value}

theorem of_run_withElements {collection : Value} {next : List Value → Action Value}
    (h : (withElements builtin collection next).run inner world = ⟨some (.ok value), after⟩) :
    ∃ stamp elements, collection = .array stamp elements ∧
      (next elements).run inner world = ⟨some (.ok value), after⟩ := by
  unfold withElements at h
  split at h
  next stamp elements => exact ⟨stamp, elements, rfl, h⟩
  · cases h

theorem of_run_callBuiltin {wanted : Nat} (harity : builtin.arity = some wanted)
    (h : (callBuiltin builtin given).run inner world = ⟨some (.ok value), after⟩) :
    given.length = wanted ∧
      (builtinBody builtin given).run inner world = ⟨some (.ok value), after⟩ := by
  rw [callBuiltin, harity] at h
  simp only at h
  split at h
  next hlength => exact ⟨hlength, h⟩
  · cases h

/-- A builtin that takes one array goes on with its elements. -/
theorem of_run_single {next : List Value → Action Value} (harity : builtin.arity = some 1)
    (hbody : ∀ collection, builtinBody builtin [collection] = withElements builtin collection next)
    (h : (callBuiltin builtin given).run inner world = ⟨some (.ok value), after⟩) :
    ∃ old elements, given = [.array old elements] ∧
      (next elements).run inner world = ⟨some (.ok value), after⟩ := by
  obtain ⟨hlength, hrun⟩ := of_run_callBuiltin harity h
  obtain ⟨collection, rfl⟩ := List.length_eq_one_iff.mp hlength
  rw [hbody] at hrun
  obtain ⟨old, elements, rfl, hnext⟩ := of_run_withElements hrun
  exact ⟨old, elements, rfl, hnext⟩

theorem answers_of_run (hbuiltin : builtin ∈ [.first, .last, .rest, .push])
    (h : (callBuiltin builtin given).run inner world = ⟨some (.ok value), after⟩) :
    Answers world.objects builtin given value := by
  cases builtin with
  | len | puts => simp at hbuiltin
  | first =>
      obtain ⟨old, elements, rfl, hnext⟩ := of_run_single rfl (fun _ => rfl) h
      obtain ⟨rfl, _⟩ := of_run_yield hnext
      exact .first old elements
  | last =>
      obtain ⟨old, elements, rfl, hnext⟩ := of_run_single rfl (fun _ => rfl) h
      obtain ⟨rfl, _⟩ := of_run_yield hnext
      exact .last old elements
  | rest =>
      obtain ⟨old, elements, rfl, hnext⟩ := of_run_single rfl (fun _ => rfl) h
      cases elements with
      | nil =>
          cases hnext
          exact .restOfNone old
      | cons first others =>
          cases hnext
          exact .rest old first others
  | push =>
      obtain ⟨hlength, hbody⟩ := of_run_callBuiltin rfl h
      obtain ⟨collection, added, rfl⟩ := List.length_eq_two.mp hlength
      obtain ⟨old, elements, rfl, hnext⟩ := of_run_withElements hbody
      cases hnext
      exact .push old elements added

end

end

/-! ## All ways together -/

/-- On its way from a scope of a world a value is handed on as it is. -/
structure HandsOn (maxTurns depth scope : Nat) (world : World) : Prop where
  /-- A name that is read has the value that is bound. -/
  name : ∀ name value after, Comes maxTurns (depth + 1) scope (.identifier name) world value after →
    world.get? scope name.text = some value
  /-- A name that has been bound is read as the value it was bound to. -/
  binding : ∀ token name node value after, scope < world.scopes.size →
    Comes maxTurns depth scope node world value after →
    Comes maxTurns (depth + 1) scope (.binding token name node) world .null
        (after.set scope name.text value) ∧
      (after.set scope name.text value).get? scope name.text = some value
  /-- The body of a function reads its arguments under the names of the parameters, and what the
  body comes to or returns is what the call comes to. -/
  call : ∀ token callee arguments stamp parameters body home given middle last,
    Comes maxTurns depth scope callee world (.function stamp parameters body home) middle →
    ComeAll maxTurns depth scope arguments middle given last →
    (∀ before parameter argument later,
      parameters.zip given = before ++ (parameter, argument) :: later →
      (∀ pair ∈ later, pair.1.text ≠ parameter.text) →
      (entered last home parameters given).get? last.scopes.size parameter.text =
        some argument) ∧
    ∀ value after,
      Comes maxTurns (depth + 1) scope (.call token callee arguments) world value after ↔
        eval maxTurns depth last.scopes.size body (entered last home parameters given) =
            ⟨some (.ok value), after⟩ ∨
          eval maxTurns depth last.scopes.size body (entered last home parameters given) =
            ⟨some (.error (.returning value)), after⟩
  returning : ∀ token node value after, Comes maxTurns depth scope node world value after →
    eval maxTurns (depth + 1) scope (.returning token node) world =
      ⟨some (.error (.returning value)), after⟩
  /-- An array holds what its elements came to. -/
  array : ∀ token nodes value after,
    Comes maxTurns (depth + 1) scope (.array token nodes) world value after →
      ∃ found middle, ComeAll maxTurns depth scope nodes world found middle ∧
        value = .array middle.objects found
  /-- A hash holds what its pairs came to. -/
  hash : ∀ token pairs value after,
    Comes maxTurns (depth + 1) scope (.hash token pairs) world value after →
      ∃ found middle, ComePairs maxTurns depth scope pairs world found middle ∧
        value = .hash middle.objects (Value.gathered found) ∧ Value.gathered found ⊆ found
  /-- What is taken out of a collection is what the collection holds. -/
  index : ∀ token collection key value after,
    Comes maxTurns (depth + 1) scope (.index token collection key) world value after →
      ∃ first second middle, Comes maxTurns depth scope collection world first middle ∧
        Comes maxTurns depth scope key middle second after ∧ first.index second = .ok value ∧
        (value = .null ∨ value ∈ first.contents)
  builtin : ∀ token callee arguments builtin given middle last value after,
    builtin ∈ [Builtin.first, .last, .rest, .push] →
    Comes maxTurns depth scope callee world (.builtin builtin) middle →
    ComeAll maxTurns depth scope arguments middle given last →
    Comes maxTurns (depth + 1) scope (.call token callee arguments) world value after →
      Answers last.objects builtin given value

theorem handsOn (maxTurns depth scope : Nat) (world : World) :
    HandsOn maxTurns depth scope world where
  name _ _ _ h := h.of_identifier
  binding token name node value after hscope h := by
    refine ⟨bind_of_ok h.run _, World.get?_set_self ?_ name.text value⟩
    have hsize := size_le_eval maxTurns depth scope node world
    rw [h] at hsize
    exact Nat.lt_of_lt_of_le hscope hsize
  call token callee arguments stamp parameters body home given middle last hcallee harguments := by
    refine ⟨fun _ _ _ _ hpairs hlater => get?_entered hpairs hlater, fun value after => ?_⟩
    rw [Comes, eval_call hcallee harguments, run_apply_function]
    exact Result.caught_eq_ok_iff
  returning _ _ _ _ h := bind_of_ok h.run _
  array _ _ _ _ h := h.of_array
  hash _ _ _ _ h := by
    obtain ⟨found, middle, hfound, hvalue⟩ := h.of_hash
    exact ⟨found, middle, hfound, hvalue, Value.gathered_subset found⟩
  index token collection key value after h := by
    obtain ⟨first, second, middle, hfirst, hsecond, hindex⟩ := h.of_index
    exact ⟨first, second, middle, hfirst, hsecond, hindex, Value.mem_contents_of_index hindex⟩
  builtin token _ _ _ _ _ _ _ _ hbuiltin hcallee harguments h :=
    answers_of_run hbuiltin ((eval_call hcallee harguments token).symm.trans h)

end Eval

end Monkey
