import Monkey.Proofs.Eval.Places
import Monkey.Proofs.Parse.Joining
import Monkey.Session

/-!
# Two entries in one

Two texts may be run one after the other in one session, or as one text with the second on a line
of its own. If the first ends in a semicolon, the statements of the whole are those of both. So it
makes no difference, up to the places that functions remember, how the texts are run; and if a
statement of the first stops, nothing of the second is looked at.
-/
namespace Monkey

namespace Eval

/-- Where a statement follows, the value in front of it does not count. -/
theorem statements_of_ne_nil {nodes : List Node} (h : nodes ≠ []) (scope : Nat)
    (last other : Value) : statements scope last nodes = statements scope other nodes := by
  cases nodes with
  | nil => exact absurd rfl h
  | cons node rest => rfl

/-- What a program comes to is what its statements come to. -/
theorem evaluate_program (limits : Limits) (scope : Nat) (token : Token) (nodes : List Node)
    (world : World) :
    evaluate limits scope (.program token nodes) world =
      evaluate limits scope (.block token nodes) world := by
  obtain ⟨depth, maxTurns⟩ := limits
  cases depth with
  | zero => rfl
  | succ depth =>
      have hrun : eval maxTurns (depth + 1) scope (.program token nodes) world =
          ((statements scope .null nodes).script.bind _).run (eval maxTurns depth) world := rfl
      rw [Script.run_bind] at hrun
      have hblock : eval maxTurns (depth + 1) scope (.block token nodes) world =
          (statements scope .null nodes).script.run (eval maxTurns depth) world := rfl
      rw [evaluate, evaluate, hrun, hblock]
      rcases (statements scope .null nodes).script.run (eval maxTurns depth) world with
        ⟨_ | ⟨_ | _⟩ | _, _⟩ <;> rfl

section
variable {maxTurns depth scope : Nat} {token other last : Token} {first second : List Node}
  {world after : World}

/-- Statements in front that come to a value leave the rest to those behind them. -/
theorem eval_block_of_ok {value : Value}
    (h : eval maxTurns depth scope (.block token first) world = ⟨some (.ok value), after⟩)
    (hsecond : second ≠ []) :
    eval maxTurns depth scope (.block other (first ++ second)) world =
      eval maxTurns depth scope (.block last second) after := by
  cases depth with
  | zero => cases h
  | succ depth =>
      show (statements scope .null (first ++ second)).run (eval maxTurns depth) world =
        (statements scope .null second).run (eval maxTurns depth) after
      rw [statements_append, statements_of_ne_nil hsecond scope .null value]
      exact bind_of_ok h _

/-- Statements behind one that stops are not reached. -/
theorem eval_block_of_stop {stop : Stop}
    (h : eval maxTurns depth scope (.block token first) world = ⟨some (.error stop), after⟩) :
    eval maxTurns depth scope (.block other (first ++ second)) world =
        ⟨some (.error stop), after⟩ ∧
      (level maxTurns scope (.program other (first ++ second))).script.events
          (eval maxTurns (depth - 1)) world =
        (level maxTurns scope (.program token first)).script.events
          (eval maxTurns (depth - 1)) world := by
  cases depth with
  | zero => cases h
  | succ depth =>
      have hfirst : (statements scope .null first).run (eval maxTurns depth) world =
          ⟨some (.error stop), after⟩ := h
      obtain ⟨hrun, hevents⟩ := bind_of_stop hfirst fun value => statements scope value second
      rw [← statements_append] at hrun hevents
      refine ⟨hrun, ?_⟩
      show (Action.catchReturn _).script.events _ _ = (Action.catchReturn _).script.events _ _
      rw [events_catchReturn, events_catchReturn]
      exact hevents

end

/-- Trees that differ in places only come to results that differ in places only. -/
theorem eval_relocate_congr {move : Position → Position} {node other : Node}
    (h : node.relocate move = other.relocate move) (maxTurns depth scope : Nat) (world : World) :
    (eval maxTurns depth scope node world).relocate move (·.relocate move) =
      (eval maxTurns depth scope other world).relocate move (·.relocate move) := by
  rw [← eval_relocate, ← eval_relocate, h]

theorem Result.outcome_relocate (move : Position → Position)
    (result : Result (Except Stop Value)) :
    (result.relocate move (·.relocate move)).outcome = result.outcome.map (·.relocate move) := by
  rcases result with ⟨_ | ⟨_ | _⟩ | _, _⟩ <;> rfl

end Eval

namespace Session

open Eval

def Verdict.relocate (move : Position → Position) : Verdict → Verdict
  | rejected complaints => rejected complaints
  | finished value quiet => finished (value.relocate move) quiet
  | exhausted => exhausted

/-- What the statements of a text come to: a value, or the reason why one of them stopped. -/
def ending (limits : Limits) (scope : Nat) (text : String) (world : World) :
    Result (Except Stop Value) :=
  eval limits.turns limits.depth scope
    (.block (Parse.source text).first (Parse.source text).statements) world

/-- The steps of a run: which statements are evaluated, and what each comes to. -/
def steps (limits : Limits) (scope : Nat) (text : String) (world : World) : List Event :=
  (level limits.turns scope (Parse.source text).program).script.events
    (eval limits.turns (limits.depth - 1)) world

/-- The verdict on statements that came to a result. -/
def verdict (nodes : List Node) (result : Result (Except Stop Value)) : Verdict :=
  match result.outcome with
  | some value => .finished value (isQuiet value nodes)
  | none => .exhausted

theorem run_of_isClean {text : String} (h : (Parse.source text).isClean) (limits : Limits)
    (scope : Nat) (world : World) :
    run limits scope text world =
      (verdict (Parse.source text).statements (ending limits scope text world),
        (ending limits scope text world).world) := by
  rw [run, if_pos h, Parse.Parsed.program, evaluate_program, evaluate, verdict, ending]
  cases (eval limits.turns limits.depth scope _ world).outcome <;> rfl

theorem verdict_relocate (move : Position → Position) (nodes : List Node)
    (result : Result (Except Stop Value)) :
    (verdict nodes result).relocate move = verdict nodes (result.relocate move (·.relocate move)) := by
  rw [verdict, verdict, Result.outcome_relocate]
  cases result.outcome with
  | none => rfl
  | some value => simp [Verdict.relocate, isQuiet]

/-- Whether an entry is quiet depends on its last statement only, not on where it stands. -/
theorem verdict_append {second : List Node} (hsecond : second ≠ []) (move : Position → Position)
    (first : List Node) (result : Result (Except Stop Value)) :
    verdict (first ++ second.map (·.relocate move)) result = verdict second result := by
  have hlast : (first ++ second.map (·.relocate move)).getLast?.map (·.isBinding) =
      second.getLast?.map (·.isBinding) := by
    obtain ⟨front, last, rfl⟩ := List.eq_nil_or_concat second |>.resolve_left hsecond
    simp
  simp only [verdict, isQuiet, hlast]

section
variable {first second both : String} {move : Position → Position} {limits : Limits} {scope : Nat}
  {world after : World}
  (hstatements : (Parse.source both).statements =
    (Parse.source first).statements ++ (Parse.source second).statements.map (·.relocate move))
include hstatements

/-- Behind statements that come to a value, the second text comes to what it comes to alone. -/
theorem ending_of_ok (hsome : (Parse.source second).statements ≠ []) {value : Value}
    (h : (ending limits scope first world).value = some (.ok value)) :
    (ending limits scope both world).relocate .erase (·.relocate .erase) =
      (ending limits scope second (ending limits scope first world).world).relocate .erase
        (·.relocate .erase) := by
  -- the second text in its place on the lines below, then with all places erased
  let moved := (Parse.source second).statements.map (·.relocate move)
  have hmoved : moved ≠ [] := by simpa [moved] using hsome
  have hfirst : ending limits scope first world =
      ⟨some (.ok value), (ending limits scope first world).world⟩ := by rw [← h]
  have hboth : ending limits scope both world =
      eval limits.turns limits.depth scope (.block (Parse.source second).first moved)
        (ending limits scope first world).world := by
    rw [ending, hstatements]
    exact eval_block_of_ok hfirst hmoved
  have herase : (fun node : Node => (node.relocate move).relocate .erase) =
      fun node => node.relocate .erase :=
    funext fun node => node.relocate_relocate move .erase
  rw [hboth]
  refine eval_relocate_congr ?_ ..
  simp [moved, Function.comp_def, herase]

/-- Behind a statement that stops, the second text does nothing. -/
theorem ending_of_stop {stop : Stop}
    (h : (ending limits scope first world).value = some (.error stop)) :
    ending limits scope both world = ending limits scope first world ∧
      steps limits scope both world = steps limits scope first world := by
  have hfirst : ending limits scope first world =
      ⟨some (.error stop), (ending limits scope first world).world⟩ := by rw [← h]
  rw [hfirst, ending, steps, Parse.Parsed.program, hstatements]
  exact eval_block_of_stop hfirst

end

/-- Two clean texts, of which the first ends in a semicolon and the second is not empty, are clean
as one. If the first comes to a value, then to run the second behind it is, up to places, to run
both as one. If the first stops, with an error or a `return`, then both as one come to what the
first comes to, and nothing of the second is evaluated. -/
theorem joined_eq_successive {first second : String} (hfirst : (Parse.source first).isClean)
    (hsecond : (Parse.source second).isClean)
    (hlast : (Token.ofSource first).dropLast.getLast?.map (·.kind) = some .semicolon)
    (hsome : (Parse.source second).statements ≠ []) :
    let both := first ++ "\n" ++ second
    (Parse.source both).isClean ∧
      ∀ (limits : Limits) (scope : Nat) (world : World),
        (∀ value, (ending limits scope first world).value = some (.ok value) →
          (run limits scope both world).map (·.relocate .erase) (·.relocate .erase) =
            (run limits scope second (run limits scope first world).2).map
              (·.relocate .erase) (·.relocate .erase)) ∧
        ∀ stop, (ending limits scope first world).value = some (.error stop) →
          ∃ value quiet late after,
            run limits scope first world = (.finished value quiet, after) ∧
            run limits scope both world = (.finished value late, after) ∧
            steps limits scope both world = steps limits scope first world := by
  intro both
  obtain ⟨hboth, hstatements⟩ := Parse.source_join hfirst hsecond hlast
  refine ⟨hboth, ?_⟩
  intro limits scope world
  rw [run_of_isClean hfirst, run_of_isClean hsecond, run_of_isClean hboth]
  constructor
  · intro value hvalue
    have hsame := ending_of_ok hstatements hsome hvalue
    have hworld := congrArg Result.world hsame
    rw [hstatements, verdict_append hsome]
    simp only [Prod.map, verdict_relocate]
    rw [hsame]
    exact congrArg _ hworld
  · intro stop hvalue
    obtain ⟨hsame, hsteps⟩ := ending_of_stop hstatements hvalue
    have hvalues : ∃ result, (ending limits scope first world).outcome = some result := by
      rw [Result.outcome, hvalue]
      exact ⟨_, rfl⟩
    obtain ⟨result, hresult⟩ := hvalues
    -- the two may differ in how quiet they are, for each has a last statement of its own
    rw [hsame, verdict, verdict, hresult]
    exact ⟨result, _, _, _, rfl, rfl, hsteps⟩

/-- A function made on the second line sees the name bound on the first; behind a `return` nothing
is written. -/
theorem joined_eq_successive_closure :
    (run ⟨9, 9⟩ 0 "let n = 1; n++;\nfn(x) \x7b x + n \x7d" .initial).map
        (·.relocate .erase) (·.relocate .erase) =
      (run ⟨9, 9⟩ 0 "fn(x) \x7b x + n \x7d" (run ⟨9, 9⟩ 0 "let n = 1; n++;" .initial).2).map
        (·.relocate .erase) (·.relocate .erase) ∧
    steps ⟨9, 9⟩ 0 "puts(1); return 2;\nputs(3)" .initial =
      steps ⟨9, 9⟩ 0 "puts(1); return 2;" .initial := by
  constructor
  · have hending : (ending ⟨9, 9⟩ 0 "let n = 1; n++;" .initial).value =
        some (.ok (.integer 2)) := by cbv
    have hjoined := @joined_eq_successive "let n = 1; n++;" "fn(x) \x7b x + n \x7d"
      (by decide +kernel) (by decide +kernel) (by decide +kernel)
      (List.ne_nil_of_length_pos (by decide +kernel))
    exact (hjoined.2 ⟨9, 9⟩ 0 .initial).1 _ hending
  · have hending : (ending ⟨9, 9⟩ 0 "puts(1); return 2;" .initial).value =
        some (.error (.returning (.integer 2))) := by cbv
    have hjoined := @joined_eq_successive "puts(1); return 2;" "puts(3)"
      (by decide +kernel) (by decide +kernel) (by decide +kernel)
      (List.ne_nil_of_length_pos (by decide +kernel))
    obtain ⟨_, _, _, _, _, _, hsteps⟩ := (hjoined.2 ⟨9, 9⟩ 0 .initial).2 _ hending
    exact hsteps

end Session

end Monkey
