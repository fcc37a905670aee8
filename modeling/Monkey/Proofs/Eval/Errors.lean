import Monkey.Proofs.Eval.History
import Monkey.Proofs.Eval.Kept
import Monkey.Session
import Mathlib

/-!
# Errors end everything

An evaluation inside a construct that comes back with an error is the last thing the construct does,
and the error is its result in the same world. From a world that holds no error, errors can only
come from where they are made. So a run ends with an error exactly if it makes one, and then to make
it is the very last thing that is done.
-/
namespace Monkey

namespace Value

mutual

/-- No error is inside, at any depth. -/
def errorFree : Value → Bool
  | array _ elements => allErrorFree elements
  | hash _ entries => entriesErrorFree entries
  | error _ => false
  | _ => true

def allErrorFree : List Value → Bool
  | [] => true
  | value :: rest => value.errorFree && allErrorFree rest

def entriesErrorFree : List (Key × Value) → Bool
  | [] => true
  | (_, value) :: rest => value.errorFree && entriesErrorFree rest

end

theorem allErrorFree_iff (values : List Value) :
    allErrorFree values ↔ ∀ value ∈ values, value.errorFree := by
  induction values with
  | nil => simp [allErrorFree]
  | cons value rest ih => simp [allErrorFree, ih]

theorem entriesErrorFree_iff (entries : List (Key × Value)) :
    entriesErrorFree entries ↔ ∀ entry ∈ entries, entry.2.errorFree := by
  induction entries with
  | nil => simp [entriesErrorFree]
  | cons entry rest ih => simp [entriesErrorFree, ih]

end Value

namespace Eval

theorem hereditary_errorFree : Hereditary (·.errorFree) where
  integer _ := by simp [Value.errorFree]
  boolean _ := by simp [Value.errorFree]
  string _ := by simp [Value.errorFree]
  null := by simp [Value.errorFree]
  function _ _ _ _ := by simp [Value.errorFree]
  builtin _ := by simp [Value.errorFree]
  array _ elements := by rw [Value.errorFree, Value.allErrorFree_iff]
  hash _ entries := by rw [Value.errorFree, Value.entriesErrorFree_iff]

/-! ## Inside one construct -/

/-- The error that an evaluation came back with, in whichever form. -/
def Result.failure? (result : Result (Except Stop Value)) : Option Failure :=
  match result.value with
  | some (.error (.failed failure)) => some failure
  | some (.ok (.error failure)) => some failure
  | _ => none

section
variable {α : Type} {contract : Contract} {inner : Evaluator} {post : α → Prop} {world : World}
  {script : Script (Except Stop α)}

/-- Errors come back as errors, never as values. -/
theorem value_of_failure? (hinner : contract.KeptBy inner) (hworld : contract.holds world)
    {scope : Nat} (hscope : contract.reaches scope) {node : Node} {failure : Failure}
    (h : (inner scope node world).failure? = some failure) :
    (inner scope node world).value = some (.error (.failed failure)) := by
  have hends := hinner scope node world hworld hscope
  unfold Result.failure? at h
  split at h
  next found hvalue =>
      obtain rfl := Option.some.inj h
      exact hvalue
  next found hvalue =>
      have hcarries : contract.Carries (.error found) := hends.reply _ hvalue
      cases hcarries.2
  next => cases h

/-- In a script that meets a contract, nothing follows an evaluation that came back with an error,
and that is what the script comes to. -/
theorem Meets.events_end (h : Meets contract post script world) (hinner : contract.KeptBy inner)
    {before later : List Event} {scope : Nat} {node : Node} {result : Result (Except Stop Value)}
    {failure : Failure}
    (hevents : script.events inner world = before ++ .evaluated scope node result :: later)
    (hfailure : result.failure? = some failure) :
    later = [] ∧ result.value = some (.error (.failed failure)) ∧
      script.run inner world = ⟨some (.error (.failed failure)), result.world⟩ := by
  induction h generalizing before with
  | done | returning | failed | exhausted => simp [Script.events] at hevents
  | @raise world fault next _ hnext =>
      rw [Script.events_raise hnext] at hevents
      cases before with
      | nil => simp at hevents
      | cons _ before => simp at hevents
  | perform _ _ _ ih =>
      cases before with
      | nil => simp [Script.events] at hevents
      | cons _ before => exact ih (List.cons.inj hevents).2
  | @evaluate world part body next hworld hscope hfailed _ ih =>
      cases before with
      | nil =>
          rw [Script.events, List.nil_append] at hevents
          obtain ⟨hhead, htail⟩ := List.cons.inj hevents
          obtain ⟨_, _, rfl⟩ := Event.evaluated.inj hhead
          have hvalue := value_of_failure? hinner hworld hscope hfailure
          have hresult : inner part body world =
              ⟨some (.error (.failed failure)), (inner part body world).world⟩ := by rw [← hvalue]
          rw [hresult] at htail
          refine ⟨?_, hvalue, ?_⟩
          · rw [← htail]
            simp [hfailed, Script.events]
          · rw [Script.run_evaluate_some hresult, hfailed]
            rfl
      | cons _ before =>
          obtain ⟨after, hresult, hafter⟩ | ⟨other, after, hresult, hafter⟩ |
            ⟨reply, after, hresult, hafter, hbrings⟩ := hinner.cases body hworld hscope
          · rw [Script.events_evaluate_none hresult] at hevents
            simp at hevents
          · rw [Script.events_evaluate_some hresult, hfailed] at hevents
            simp [Script.events] at hevents
          · rw [Script.events_evaluate_some hresult] at hevents
            rw [Script.run_evaluate_some hresult]
            exact ih reply after hafter hbrings (List.cons.inj hevents).2

/-! ## Over a whole evaluation -/

def Operation.isRaise : Operation → Bool
  | .raise _ => true
  | _ => false

theorem errors_perform {operation : Operation} (h : operation.isRaise = false) (world : World) :
    (operation.perform world).2.errors = world.errors := by
  cases operation with
  | raise => cases h
  | assign scope name value =>
      simp only [Operation.perform, World.assign]
      split <;> rfl
  | _ => rfl

/-- Either one error was made, in the end, and the result is that error; or none was made, and the
result is none. -/
def Tidy (world : World) (operations : List Operation) (result : Result (Except Stop α)) : Prop :=
  (∃ before fault, operations = before ++ [.raise fault] ∧
    (∀ operation ∈ before, operation.isRaise = false) ∧
    result.value = some (.error (.failed ⟨world.errors, fault⟩))) ∨
  ((∀ operation ∈ operations, operation.isRaise = false) ∧
    (∀ failure, result.value ≠ some (.error (.failed failure))) ∧
    result.world.errors = world.errors)

/-- Operations in front that make no error do not matter. -/
theorem Tidy.append {middle : World} {first second : List Operation}
    {result : Result (Except Stop α)} (hfirst : ∀ operation ∈ first, operation.isRaise = false)
    (herrors : middle.errors = world.errors) (h : Tidy middle second result) :
    Tidy world (first ++ second) result := by
  have hall : ∀ others : List Operation, (∀ operation ∈ others, operation.isRaise = false) →
      ∀ operation ∈ first ++ others, operation.isRaise = false := by
    intro others hothers operation hmem
    rcases List.mem_append.mp hmem with hmem | hmem
    · exact hfirst operation hmem
    · exact hothers operation hmem
  obtain ⟨before, fault, rfl, hbefore, hvalue⟩ | ⟨hnone, hvalue, hlast⟩ := h
  · refine .inl ⟨first ++ before, fault, by simp, hall before hbefore, ?_⟩
    rw [hvalue, herrors]
  · exact .inr ⟨hall second hnone, hvalue, hlast.trans herrors⟩

/-- Where no error is held, a script that meets a contract is tidy if its evaluations are. -/
theorem Meets.tidy {doings : Nat → Node → World → List Operation}
    (h : Meets contract post script world) (hfree : ∀ failure, ¬ contract.good (.error failure))
    (hinner : contract.KeptBy inner)
    (htidy : ∀ scope node world, contract.holds world → contract.reaches scope →
      Tidy world (doings scope node world) (inner scope node world)) :
    Tidy world (script.operations inner doings world) (script.run inner world) := by
  induction h with
  | done | returning =>
      exact .inr ⟨by simp [Script.operations], by simp [Script.run], rfl⟩
  | exhausted => exact .inr ⟨by simp [Script.operations], by simp [Script.run], rfl⟩
  | failed _ hheld => exact absurd hheld (hfree _)
  | @raise world fault next _ hnext =>
      refine .inl ⟨[], fault, ?_, by simp, ?_⟩
      · simp [Script.operations, hnext, Operation.perform]
      · simp [Script.run, hnext, Operation.perform, World.freshFailure]
  | @perform world operation next _ hmay _ ih =>
      have hraise : operation.isRaise = false := by
        cases operation with
        | raise => exact hmay.elim
        | _ => rfl
      have hfirst : ∀ other ∈ [operation], other.isRaise = false := by simpa using hraise
      exact Tidy.append hfirst (errors_perform hraise world) ih
  | @evaluate world scope node next hworld hscope hfailed _ ih =>
      have hpart := htidy scope node world hworld hscope
      obtain ⟨after, hresult, hafter⟩ | ⟨failure, after, hresult, hafter⟩ |
        ⟨reply, after, hresult, hafter, hbrings⟩ := hinner.cases node hworld hscope
      · rw [Script.run_evaluate_none hresult, Script.operations_evaluate_none hresult]
        rw [hresult] at hpart
        obtain ⟨_, _, _, _, hvalue⟩ | ⟨hnone, _, herrors⟩ := hpart
        · cases hvalue
        · exact .inr ⟨hnone, by simp, herrors⟩
      · rw [Script.run_evaluate_some hresult, Script.operations_evaluate_some hresult, hfailed]
        rw [hresult] at hpart
        obtain ⟨before, fault, hdone, hbefore, hvalue⟩ | ⟨_, hnot, _⟩ := hpart
        · cases hvalue
          exact .inl ⟨before, fault, by simp [hdone, Script.operations], hbefore, rfl⟩
        · exact absurd rfl (hnot failure)
      · rw [Script.run_evaluate_some hresult, Script.operations_evaluate_some hresult]
        rw [hresult] at hpart
        obtain ⟨_, _, _, _, hvalue⟩ | ⟨hnone, _, herrors⟩ := hpart
        · obtain rfl := Option.some.inj hvalue
          exact hbrings.elim
        · exact Tidy.append hnone herrors (ih reply after hafter hbrings)

end

theorem history_tidy (maxTurns depth scope : Nat) (node : Node) (world : World)
    (hworld : Holds (·.errorFree) world) :
    Tidy world (history maxTurns depth scope node world)
      (eval maxTurns depth scope node world) := by
  induction depth generalizing scope node world with
  | zero => exact .inr ⟨by simp [history], by simp [eval], rfl⟩
  | succ depth ih =>
      have hmeets := level_within hereditary_errorFree hworld maxTurns scope node
      refine hmeets.tidy (fun failure => ?_)
        (keptBy_eval hereditary_errorFree _ _ world maxTurns depth) ?_
      · simp [within, Value.errorFree]
      · exact fun inside part middle hmiddle _ => ih inside part middle hmiddle.1

/-- An evaluation comes to an error only by failing. -/
theorem value_of_outcome {maxTurns depth scope : Nat} {node : Node} {world : World}
    {failure : Failure}
    (h : (eval maxTurns depth scope node world).outcome = some (.error failure)) :
    (eval maxTurns depth scope node world).value = some (.error (.failed failure)) := by
  have hkept := keptBy_eval hereditary_true (fun _ => True) (fun _ _ => True) world maxTurns depth
  have hworld : (within (fun _ => True) (fun _ => True) (fun _ _ => True) world).holds world :=
    ⟨holds_true world, Nat.le_refl _⟩
  have hends := hkept scope node world hworld (.inl trivial)
  obtain ⟨reply, hvalue, hreplied⟩ := Option.map_eq_some_iff.mp h
  have hallows := hends.reply reply hvalue
  rcases reply with ⟨found | value⟩ | value
  · obtain rfl := Value.error.inj hreplied
    exact hvalue
  · obtain rfl : value = .error failure := hreplied
    cases hallows.2
  · obtain rfl : value = .error failure := hreplied
    cases hallows.2

/-- What an evaluation comes to, by its history. -/
theorem history_of_outcome {maxTurns depth scope : Nat} {node : Node} {world : World}
    (hworld : Holds (·.errorFree) world) {failure : Failure}
    (h : (eval maxTurns depth scope node world).outcome = some (.error failure)) :
    ∃ before fault, history maxTurns depth scope node world = before ++ [.raise fault] ∧
      (∀ operation ∈ before, operation.isRaise = false) ∧ failure = ⟨world.errors, fault⟩ := by
  have hvalue := value_of_outcome h
  obtain ⟨before, fault, hhistory, hbefore, hfailed⟩ | ⟨_, hnone, _⟩ :=
    history_tidy maxTurns depth scope node world hworld
  · rw [hvalue] at hfailed
    cases hfailed
    exact ⟨before, fault, hhistory, hbefore, rfl⟩
  · exact absurd hvalue (hnone failure)

theorem outcome_of_raise {maxTurns depth scope : Nat} {node : Node} {world : World}
    (hworld : Holds (·.errorFree) world) {fault : Fault}
    (h : .raise fault ∈ history maxTurns depth scope node world) :
    ∃ failure, (eval maxTurns depth scope node world).outcome = some (.error failure) := by
  obtain ⟨_, last, _, _, hfailed⟩ | ⟨hnone, _, _⟩ :=
    history_tidy maxTurns depth scope node world hworld
  · exact ⟨⟨world.errors, last⟩, by rw [Result.outcome, hfailed]; rfl⟩
  · cases hnone _ h

end Eval

/-! ## Over a run -/

namespace Session

open Eval

theorem run_eq_of_isClean {limits : Limits} {scope : Nat} {text : String} {world : World}
    (h : (Parse.source text).isClean) :
    (run limits scope text world).2 =
        (eval limits.turns limits.depth scope (Parse.source text).program world).world ∧
      ∀ failure, (∃ quiet, (run limits scope text world).1 = .finished (.error failure) quiet) ↔
        (eval limits.turns limits.depth scope (Parse.source text).program world).outcome =
          some (.error failure) := by
  rw [run, if_pos h, Eval.evaluate]
  cases (eval limits.turns limits.depth scope (Parse.source text).program world).outcome with
  | none => simp
  | some value => simp

/-- A text that finishes has no complaints, and its value is what its evaluation comes to. -/
theorem outcome_of_finished {limits : Limits} {scope : Nat} {text : String} {world : World}
    {value : Value} {quiet : Bool} (h : (run limits scope text world).1 = .finished value quiet) :
    (Parse.source text).isClean ∧
      (eval limits.turns limits.depth scope (Parse.source text).program world).outcome =
        some value := by
  by_cases hclean : (Parse.source text).isClean
  · rw [run, if_pos hclean, Eval.evaluate] at h
    cases houtcome : (eval limits.turns limits.depth scope (Parse.source text).program
        world).outcome with
    | none => simp [houtcome] at h
    | some found =>
        obtain ⟨rfl, _⟩ : found = value ∧ _ := by simpa [houtcome] using h
        exact ⟨hclean, rfl⟩
  · rw [run, if_neg hclean] at h
    cases h

/-- An evaluation inside a construct that comes back with an error is the last step of the
construct, which has the same result in the same world. A clean source that is run in a world
without errors comes to an error exactly if one is made on the way, and to make it is then the last
of all operations. -/
theorem errors_end_everything (limits : Limits) (scope : Nat) (world : World) :
    (∀ (depth : Nat) (node : Node) (before later : List Event) (inside : Nat) (part : Node)
        (result : Result (Except Stop Value)) (failure : Failure),
      (level limits.turns scope node).script.events (eval limits.turns depth) world =
          before ++ .evaluated inside part result :: later →
        result.failure? = some failure →
        later = [] ∧ eval limits.turns (depth + 1) scope node world = result) ∧
    ∀ text, (Parse.source text).isClean → Holds (·.errorFree) world →
      let operations := history limits.turns limits.depth scope (Parse.source text).program world
      (run limits scope text world).2 = replay operations world ∧
      ((∃ failure quiet, (run limits scope text world).1 = .finished (.error failure) quiet) ↔
        ∃ fault, .raise fault ∈ operations) ∧
      ∀ failure quiet, (run limits scope text world).1 = .finished (.error failure) quiet →
        ∃ before fault, operations = before ++ [.raise fault] ∧
          (∀ operation ∈ before, operation.isRaise = false) ∧ failure = ⟨world.errors, fault⟩ := by
  refine ⟨?_, fun text hclean hworld => ?_⟩
  · intro depth node before later inside part result failure hevents hfailure
    have hmeets := level_within hereditary_true (holds_true world) limits.turns scope node
    have hkept :=
      keptBy_eval hereditary_true (· = scope) (Increments scope node) world limits.turns depth
    obtain ⟨hlater, hvalue, hrun⟩ := hmeets.events_end hkept hevents hfailure
    exact ⟨hlater, hrun.trans (by rw [← hvalue])⟩
  · obtain ⟨hafter, hverdict⟩ := @run_eq_of_isClean limits scope text world hclean
    refine ⟨by rw [hafter, eval_world_eq_replay], ⟨?_, ?_⟩, ?_⟩
    · rintro ⟨failure, hfinished⟩
      obtain ⟨before, fault, hhistory, _⟩ :=
        history_of_outcome hworld ((hverdict failure).mp hfinished)
      exact ⟨fault, by simp [hhistory]⟩
    · rintro ⟨fault, hraise⟩
      obtain ⟨failure, houtcome⟩ := outcome_of_raise hworld hraise
      exact ⟨failure, (hverdict failure).mpr houtcome⟩
    · intro failure quiet hfinished
      exact history_of_outcome hworld ((hverdict failure).mp ⟨quiet, hfinished⟩)

/-- Behind the name that is not bound, neither the binding nor the output happens. -/
theorem errors_end_everything_unbound :
    let text := "let a = [x, 2]; puts(a);"
    let unbound : Node := .identifier ⟨default, "x"⟩
    eval 9 4 0 (.array default [unbound, .integer default 2]) .initial =
        eval 9 3 0 unbound .initial ∧
      ∃ before fault, history 9 9 0 (Parse.source text).program .initial =
        before ++ [.raise fault] ∧ (∀ operation ∈ before, operation.isRaise = false) ∧
          (⟨0, .unbound "x"⟩ : Failure) = ⟨0, fault⟩ := by
  intro text unbound
  have hboth := errors_end_everything ⟨9, 9⟩ 0 .initial
  constructor
  · exact (hboth.1 3 _ [] [] 0 unbound _ ⟨0, .unbound "x"⟩ (by cbv) (by cbv)).2
  · exact (hboth.2 text (by decide +kernel) (.initial _)).2.2 ⟨0, .unbound "x"⟩ false (by cbv)

end Session

end Monkey
