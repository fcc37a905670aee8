import Monkey.Proofs.Eval.Errors
import Monkey.Proofs.Eval.Handover
import Monkey.Proofs.Eval.Stages

/-!
# Identity is creation

Literals of arrays, hashes and functions, `push`, and `rest` where there are elements, end by making
a value that is the same as nothing before. All other ways lead from a value to itself. So two
arrays, hashes or functions are the same exactly if they stem from one creation, however far apart
they have come: through names, arguments, returns, collections and captured scopes, in one text or
in many.
-/
namespace Monkey

namespace Eval

/-! ## Creations -/

/-- Evaluations that make a value with an identity, if they come to a value. -/
inductive Creation (maxTurns : Nat) : Nat → Visit → Prop where
  | array {depth scope : Nat} {world : World} (token : Token) (nodes : List Node) :
      Creation maxTurns (depth + 1) ⟨scope, .array token nodes, world⟩
  | hash {depth scope : Nat} {world : World} (token : Token) (pairs : List (Node × Node)) :
      Creation maxTurns (depth + 1) ⟨scope, .hash token pairs, world⟩
  | function {depth scope : Nat} {world : World} (token : Token) (parameters : List Name)
      (body : Node) : Creation maxTurns (depth + 1) ⟨scope, .function token parameters body, world⟩
  | push {depth scope : Nat} {world middle after : World} {callee : Node} {arguments : List Node}
      {given : List Value} (token : Token)
      (hcallee : Comes maxTurns depth scope callee world (.builtin .push) middle)
      (harguments : ComeAll maxTurns depth scope arguments middle given after) :
      Creation maxTurns (depth + 1) ⟨scope, .call token callee arguments, world⟩
  | rest {depth scope old : Nat} {world middle after : World} {callee : Node}
      {arguments : List Node} {first : Value} {others : List Value} (token : Token)
      (hcallee : Comes maxTurns depth scope callee world (.builtin .rest) middle)
      (harguments : ComeAll maxTurns depth scope arguments middle [.array old (first :: others)]
        after) :
      Creation maxTurns (depth + 1) ⟨scope, .call token callee arguments, world⟩

/-- The operations end with the one that makes the value. -/
def EndsByMaking (operations : List Operation) (world : World) (value : Value) : Prop :=
  ∃ before last, operations = before ++ [last] ∧ last.makes (replay before world) = [value]

section
variable {maxTurns depth : Nat} {world middle after : World} {value : Value}

theorem endsByMaking_bind {action : Action α} {next : α → Action β} {found : α} {last : Operation}
    (hfirst : action.run (eval maxTurns depth) world = ⟨some (.ok found), middle⟩)
    (hlast : (next found).script.operations (eval maxTurns depth) (history maxTurns depth) middle =
      [last]) (hmakes : last.makes middle = [value]) :
    EndsByMaking
      ((action >>= next).script.operations (eval maxTurns depth) (history maxTurns depth) world)
      world value := by
  refine ⟨_, last, (operations_bind_of_ok hfirst next).trans (by rw [hlast]), ?_⟩
  rw [← run_world_eq_replay (eval_world_eq_replay maxTurns depth), ← Action.run, hfirst]
  exact hmakes

theorem endsByMaking_call {scope : Nat} {callee : Node} {arguments : List Node} {token : Token}
    {function : Value} {given : List Value} {last : Operation}
    (hcallee : Comes maxTurns depth scope callee world function middle)
    (harguments : ComeAll maxTurns depth scope arguments middle given after)
    (hlast : (apply function given).script.operations (eval maxTurns depth)
      (history maxTurns depth) after = [last]) (hmakes : last.makes after = [value]) :
    EndsByMaking (history maxTurns (depth + 1) scope (.call token callee arguments) world) world
      value := by
  show EndsByMaking ((call scope callee arguments).script.operations _ _ world) world value
  rw [call_eq]
  exact endsByMaking_bind (run_operands hcallee harguments) hlast hmakes

/-- To make the value is the last thing that a creation does. -/
theorem Creation.endsByMaking {visit : Visit} (h : Creation maxTurns depth visit)
    (hvalue : visit.under (eval maxTurns depth) = ⟨some (.ok value), after⟩) :
    EndsByMaking (history maxTurns depth visit.scope visit.node visit.world) visit.world value := by
  cases h with
  | array token nodes =>
      obtain ⟨found, middle, hvalues, hmake⟩ := exists_of_bind_ok hvalue
      cases hmake
      exact endsByMaking_bind hvalues rfl rfl
  | hash token pairs =>
      obtain ⟨found, middle, hentries, hmake⟩ := exists_of_bind_ok hvalue
      cases hmake
      exact endsByMaking_bind hentries rfl rfl
  | function token parameters body =>
      cases hvalue
      exact ⟨[], _, rfl, rfl⟩
  | push token hcallee harguments =>
      have hrun := (eval_call hcallee harguments token).symm.trans hvalue
      cases answers_of_run (by simp) hrun
      exact endsByMaking_call hcallee harguments rfl rfl
  | rest token hcallee harguments =>
      have hrun := (eval_call hcallee harguments token).symm.trans hvalue
      cases answers_of_run (by simp) hrun
      exact endsByMaking_call hcallee harguments rfl rfl

end

/-! ## Evaluations on record -/

namespace Ledger

/-- The operations end with the one that makes the value. What was made before includes all of the
ledger, all that scopes hold by then stems from it, and nothing that does is the same as the
value. -/
def MakesLast (ledger : Ledger) (operations : List Operation) (value : Value) : Prop :=
  ∃ before last, operations = before ++ [last] ∧
    last.makes (ledger.replay before).world = [value] ∧
    ledger.made <+: (ledger.replay before).made ∧
    Holds (·.StemsFrom (ledger.replay before).made) (ledger.replay before).world ∧
    ∀ other : Value, other.StemsFrom (ledger.replay before).made → other.same value = false

/-- A visit begins in the world of the ledger and ends in the world of the one that its operations
lead to. All that it comes to is on record there, and what a creation makes is new. -/
structure Follows (ledger : Ledger) (maxTurns depth : Nat) (visit : Visit) : Prop where
  begins : ledger.world = visit.world
  ends : (ledger.replay (history maxTurns depth visit.scope visit.node visit.world)).world =
    (visit.under (eval maxTurns depth)).world
  outcome : ∀ value, (visit.under (eval maxTurns depth)).outcome = some value →
    value.StemsFrom
      (ledger.replay (history maxTurns depth visit.scope visit.node visit.world)).made
  creation : Creation maxTurns depth visit → ∀ value after,
    visit.under (eval maxTurns depth) = ⟨some (.ok value), after⟩ →
      ledger.MakesLast (history maxTurns depth visit.scope visit.node visit.world) value

theorem world_replay (operations : List Operation) (ledger : Ledger) :
    (ledger.replay operations).world = Eval.replay operations ledger.world :=
  recorded.world_replay operations ledger

theorem made_prefix_replay (operations : List Operation) (ledger : Ledger) :
    ledger.made <+: (ledger.replay operations).made := by
  induction operations generalizing ledger with
  | nil => exact List.prefix_rfl
  | cons operation rest ih => exact (List.prefix_append _ _).trans (ih (ledger.step operation))

/-- What an evaluation comes to stems from the ledger behind it. -/
theorem stemsFrom_of_outcome {ledger : Ledger} {operations : List Operation} {value : Value}
    {result : Result (Except Stop Value)}
    (hpasses : Passes recorded recorded.good ledger operations result)
    (hvalue : result.outcome = some value) : value.StemsFrom (ledger.replay operations).made :=
  (hpasses.good_of_outcome (fun _ => ⟨List.forall_mem_nil _, List.nil_subset _⟩) hvalue).2

namespace Sound

variable {ledger : Ledger} (h : ledger.Sound) {operations : List Operation}
include h

theorem replay (hpermits : recorded.Permits operations ledger) : (ledger.replay operations).Sound :=
  (hpermits.later lawful_recorded h).holds

theorem makesLast {value : Value} (hpermits : recorded.Permits operations ledger)
    (hends : EndsByMaking operations ledger.world value) : ledger.MakesLast operations value := by
  obtain ⟨before, last, rfl, hmakes⟩ := hends
  rw [← world_replay] at hmakes
  have hsound := h.replay (hpermits.front (List.prefix_append _ _))
  exact ⟨before, last, rfl, hmakes, made_prefix_replay before ledger, hsound.bound,
    fun _ => hsound.same_eq_false hmakes⟩

theorem follows {maxTurns depth : Nat} {visit : Visit} (hworld : ledger.world = visit.world)
    (hscope : visit.scope < ledger.world.scopes.size) :
    ledger.Follows maxTurns depth visit := by
  have hpasses := eval_passes lawful_recorded maxTurns depth visit.node h hscope
  have hstart : recorded.world ledger = visit.world := hworld
  rw [hstart] at hpasses
  refine ⟨hworld, ?_, fun value hvalue => stemsFrom_of_outcome hpasses hvalue, ?_⟩
  · rw [world_replay, hworld]
    exact (eval_world_eq_replay ..).symm
  intro hcreation value after hvalue
  apply h.makesLast hpasses.permits
  rw [hworld]
  exact hcreation.endsByMaking hvalue

end Sound

end Ledger

end Eval

/-! ## In a session -/

namespace Session

open Eval

/-- Worlds that a host comes to from nothing, each with what was made on the way: it opens roots,
takes the output out, and has trees evaluated and values called, where any point on the way counts.
What it does by itself is done in scopes that are there and with values that stem from the
ledger. -/
inductive Chronicle : Ledger → Prop where
  | empty : Chronicle ⟨.empty, []⟩
  | root {ledger : Ledger} (h : Chronicle ledger) (builtins : List Builtin) :
      Chronicle ⟨(ledger.world.root builtins).2, ledger.made⟩
  | flush {ledger : Ledger} (h : Chronicle ledger) : Chronicle ⟨ledger.world.flush.2, ledger.made⟩
  | step {ledger : Ledger} {operation : Operation} (h : Chronicle ledger)
      (hmay : recorded.May ledger operation) : Chronicle (ledger.step operation)
  | evaluate {ledger : Ledger} {scope : Nat} {before : List Operation} (h : Chronicle ledger)
      (hscope : scope < ledger.world.scopes.size) (limits : Limits) (node : Node)
      (hbefore : before <+: history limits.turns limits.depth scope node ledger.world) :
      Chronicle (ledger.replay before)
  | call {ledger : Ledger} {callee : Value} {arguments : List Value} {before : List Operation}
      (h : Chronicle ledger) (hcallee : recorded.good ledger callee)
      (harguments : ∀ value ∈ arguments, recorded.good ledger value) (limits : Limits)
      (hbefore : before <+: (apply callee arguments).script.operations
        (eval limits.turns limits.depth) (history limits.turns limits.depth) ledger.world) :
      Chronicle (ledger.replay before)

namespace Chronicle

variable {ledger : Ledger} (h : Chronicle ledger)
include h

theorem sound : ledger.Sound := by
  induction h with
  | empty => exact ⟨World.wellScoped_empty, rfl, nofun, .empty _⟩
  | root _ builtins ih =>
      exact ⟨ih.wellScoped.root builtins, ih.count, ih.stamps, ih.bound.root builtins⟩
  | flush _ ih =>
      exact ⟨⟨ih.wellScoped.outer, ih.wellScoped.captured⟩, ih.count, ih.stamps, ih.bound⟩
  | step _ hmay ih => exact ih.step hmay
  | evaluate _ hscope limits node hbefore ih =>
      have hpasses := eval_passes lawful_recorded limits.turns limits.depth node ih hscope
      exact ih.replay (hpasses.permits.front hbefore)
  | call _ hcallee harguments limits hbefore ih =>
      have hupholds := apply_upholds lawful_recorded ih hcallee harguments
      have hpasses := hupholds.passes lawful_recorded ih fun _ node _ hholds hinside =>
        eval_passes lawful_recorded limits.turns limits.depth node hholds hinside
      exact ih.replay (hpasses.permits.front hbefore)

/-- Every evaluation inside an evaluation begins at some point of the chronicle, and follows it. -/
theorem exists_follows {scope : Nat} (hscope : scope < ledger.world.scopes.size) {limits : Limits}
    {node : Node} {entry : Nat × Visit}
    (hentry : entry ∈ visits limits.turns limits.depth ⟨scope, node, ledger.world⟩) :
    ∃ before,
      before ++ history limits.turns entry.1 entry.2.scope entry.2.node entry.2.world <+:
        history limits.turns limits.depth scope node ledger.world ∧
      Chronicle (ledger.replay before) ∧
      (ledger.replay before).Follows limits.turns entry.1 entry.2 := by
  obtain ⟨before, hbegins, hown⟩ :=
    exists_begins_of_mem_visits lawful_recorded h.sound hscope hentry
  have hpoint : Chronicle (ledger.replay before) :=
    h.evaluate hscope limits node ((List.prefix_append _ _).trans hown)
  exact ⟨before, hown, hpoint, hpoint.sound.follows hbegins.world hbegins.scope⟩

/-- A text that is run goes on with the chronicle. -/
theorem exists_run {scope : Nat} (hscope : scope < ledger.world.scopes.size) (limits : Limits)
    (text : String) :
    ∃ operations,
      operations <+:
        history limits.turns limits.depth scope (Parse.source text).program ledger.world ∧
      Chronicle (ledger.replay operations) ∧
      (ledger.replay operations).world = (run limits scope text ledger.world).2 ∧
      ∀ value quiet, (run limits scope text ledger.world).1 = .finished value quiet →
        value.StemsFrom (ledger.replay operations).made := by
  by_cases hclean : (Parse.source text).isClean
  · refine ⟨_, List.prefix_rfl,
      h.evaluate hscope limits (Parse.source text).program List.prefix_rfl, ?_, ?_⟩
    · rw [Ledger.world_replay, (run_eq_of_isClean hclean).1, eval_world_eq_replay]
    · intro value quiet hfinished
      have hpasses := eval_passes lawful_recorded limits.turns limits.depth
        (Parse.source text).program h.sound hscope
      exact Ledger.stemsFrom_of_outcome hpasses (outcome_of_finished hfinished).2
  · refine ⟨[], List.nil_prefix, h, ?_, fun value quiet hfinished => ?_⟩
    · rw [run, if_neg hclean]
      rfl
    · exact absurd (outcome_of_finished hfinished).1 hclean

end Chronicle

/-- Wherever a host has come to, all that scopes hold stems from what was made on the way, and two
arrays, hashes or functions that do are the same exactly if they stem from one creation. Every
evaluation from there, and every evaluation inside it, leads from such a point to another one: it
comes to what stems from all that was made by then, and a literal, a `push`, and a `rest` of what is
not empty end by making their value, which is the same as nothing before it. So do texts. On all
other ways a value is handed on as it is. -/
theorem identity_is_creation {ledger : Ledger} (h : Chronicle ledger) :
    Holds (·.StemsFrom ledger.made) ledger.world ∧
    (∀ left right : Value, left.stamp?.isSome → right.stamp?.isSome →
      left.StemsFrom ledger.made → right.StemsFrom ledger.made →
      (left.same right = true ↔
        ∃ event : Nat, ledger.made[event]? = some left ∧ ledger.made[event]? = some right)) ∧
    (∀ scope < ledger.world.scopes.size, ∀ (limits : Limits) (node : Node),
      let operations := history limits.turns limits.depth scope node ledger.world
      Chronicle (ledger.replay operations) ∧
      ledger.Follows limits.turns limits.depth ⟨scope, node, ledger.world⟩ ∧
      ∀ entry ∈ visits limits.turns limits.depth ⟨scope, node, ledger.world⟩,
        ∃ before,
          before ++ history limits.turns entry.1 entry.2.scope entry.2.node entry.2.world <+:
            operations ∧
          Chronicle (ledger.replay before) ∧
          (ledger.replay before).Follows limits.turns entry.1 entry.2) ∧
    (∀ scope < ledger.world.scopes.size, ∀ (limits : Limits) (text : String),
      ∃ operations,
        operations <+:
          history limits.turns limits.depth scope (Parse.source text).program ledger.world ∧
        Chronicle (ledger.replay operations) ∧
        (ledger.replay operations).world = (run limits scope text ledger.world).2 ∧
        ∀ value quiet, (run limits scope text ledger.world).1 = .finished value quiet →
          value.StemsFrom (ledger.replay operations).made) ∧
    ∀ maxTurns depth scope world, HandsOn maxTurns depth scope world := by
  refine ⟨h.sound.bound, ?_, ?_, ?_, handsOn⟩
  · intro left right hleft hright hstems hstems'
    obtain ⟨first, hfirst⟩ := Option.isSome_iff_exists.mp hleft
    obtain ⟨second, hsecond⟩ := Option.isSome_iff_exists.mp hright
    exact h.sound.same_iff (hstems.mem hfirst) (hstems'.mem hsecond)
  · intro scope hscope limits node
    refine ⟨h.evaluate hscope limits node List.prefix_rfl, h.sound.follows rfl hscope, ?_⟩
    exact fun entry hentry => h.exists_follows hscope hentry
  · exact fun scope hscope limits text => h.exists_run hscope limits text

/-- An array that was handed to a function and returned is still the same; one that looks alike is
not, and neither is one that is made later. -/
theorem identity_is_creation_returned :
    let text := "let a = [1]; let b = fn(x) \x7b return x; \x7d(a); let c = [1];"
    let ledger : Ledger :=
      Ledger.replay (history 9 20 0 (Parse.source text).program .initial) ⟨.initial, []⟩
    let array (stamp : Nat) : Value := .array stamp [.integer 1]
    let literal : Node := .array default [.integer default 1]
    Chronicle ledger ∧ ledger.world.bound? "a" 0 = some (array 0) ∧
      ledger.world.bound? "b" 0 = some (array 0) ∧ ledger.world.bound? "c" 0 = some (array 2) ∧
      (∃ event : Nat, ledger.made[event]? = some (array 0) ∧
        ledger.made[event]? = some (array 0)) ∧
      (¬ ∃ event : Nat, ledger.made[event]? = some (array 0) ∧
        ledger.made[event]? = some (array 2)) ∧
      ∃ value after, Comes 9 3 0 literal ledger.world value after ∧
        (array 0).same value = false ∧ (array 2).same value = false := by
  intro text ledger array literal
  have hinitial : Chronicle ⟨.initial, []⟩ := Chronicle.empty.root Builtin.all
  have hledger : Chronicle ledger :=
    hinitial.evaluate (by decide) ⟨20, 9⟩ (Parse.source text).program List.prefix_rfl
  obtain ⟨hfirst, hreturned, hother⟩ : ledger.world.bound? "a" 0 = some (array 0) ∧
      ledger.world.bound? "b" 0 = some (array 0) ∧
      ledger.world.bound? "c" 0 = some (array 2) := by
    subst ledger text array
    cbv
    exact ⟨rfl, rfl, rfl⟩
  obtain ⟨hbound, hsame, hevaluations, _⟩ := identity_is_creation hledger
  have hold := hbound 0 "a" _ hfirst
  have hnew := hbound 0 "c" _ hother
  have hone := hsame (array 0) (array 0) rfl rfl hold (hbound 0 "b" _ hreturned)
  have htwo := hsame (array 0) (array 2) rfl rfl hold hnew
  refine ⟨hledger, hfirst, hreturned, hother, hone.mp rfl, ?_, ?_⟩
  · intro hevent
    cases htwo.mpr hevent
  · have helements : ComeAll 9 2 0 [.integer default 1] ledger.world [.integer 1] ledger.world :=
      .cons (.integer default 1) .nil
    have hcomes := Comes.array helements default
    have hscope : 0 < ledger.world.scopes.size := World.lt_size_of_bound hfirst
    obtain ⟨_, hfollows, _⟩ := hevaluations 0 hscope ⟨3, 9⟩ literal
    obtain ⟨before, _, _, _, hkept, _, hfresh⟩ := hfollows.creation (.array ..) _ _ hcomes
    exact ⟨_, _, hcomes, hfresh _ (hold.mono hkept.subset), hfresh _ (hnew.mono hkept.subset)⟩

/-- The rest of an empty array is null, and so no new value: it is the same as a null that was bound
before. -/
theorem rest_of_nothing_is_nothing_new :
    let world := (run ⟨20, 9⟩ 0 "let n = rest([]);" .initial).2
    world.bound? "n" 0 = some .null ∧
      (run ⟨20, 9⟩ 0 "rest([])" world).1 = .finished .null true ∧
      Value.null.same .null = true ∧
      (run ⟨20, 9⟩ 0 "n == rest([])" world).1 = .finished (.boolean true) false := by
  cbv

end Session

end Monkey
