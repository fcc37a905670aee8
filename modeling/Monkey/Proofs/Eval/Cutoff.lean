import Monkey.CommandLine
import Monkey.Proofs.Eval.History

/-!
# Limits only cut off

What a limit does to an evaluation is to end it, nothing else. The actions of one level under a
higher limit are those under the lower one, prolonged where these are exhausted; an evaluator that
outlasts another ends wherever that one ends, and in the same way. Main statement: what is not
exhausted under some limits comes to the same under any higher ones (`limits_only_cut_off`). A
setting beyond what can be set is no higher limit: it is refused, and nothing is run.
-/
namespace Monkey

namespace Eval

open Monkey.Eval.Action

/-- Limits are higher if neither of them is lower. -/
instance : LE Limits :=
  ⟨fun limits higher => limits.depth ≤ higher.depth ∧ limits.turns ≤ higher.turns⟩

instance (limits higher : Limits) : Decidable (limits ≤ higher) :=
  inferInstanceAs (Decidable (_ ∧ _))

/-- Where the other evaluator ends, this one ends in the same way. -/
def Outlasts (longer shorter : Evaluator) : Prop :=
  ∀ scope node world reply after, shorter scope node world = ⟨some reply, after⟩ →
    longer scope node world = ⟨some reply, after⟩

/-- The first script takes the steps of the second, and may go on where that one is exhausted. -/
inductive Prolongs : Script α → Script α → Prop where
  | done (value : α) : Prolongs (.done value) (.done value)
  | exhausted (longer : Script α) : Prolongs longer .exhausted
  | perform {operation : Operation} {follow next : operation.Reply → Script α}
      (hnext : ∀ reply, Prolongs (follow reply) (next reply)) :
      Prolongs (.perform operation follow) (.perform operation next)
  | evaluate {scope : Nat} {node : Node} {follow next : Except Stop Value → Script α}
      (hnext : ∀ reply, Prolongs (follow reply) (next reply)) :
      Prolongs (.evaluate scope node follow) (.evaluate scope node next)

namespace Prolongs

variable {α β : Type}

theorem refl (script : Script α) : Prolongs script script := by
  induction script with
  | done value => exact .done value
  | exhausted => exact .exhausted _
  | perform operation next ih => exact .perform ih
  | evaluate scope node next ih => exact .evaluate ih

theorem bind {longer action : Action α} {follow next : α → Action β}
    (h : Prolongs longer.script action.script)
    (hnext : ∀ value, Prolongs (follow value).script (next value).script) :
    Prolongs (longer >>= follow).script (action >>= next).script := by
  obtain ⟨longer⟩ := longer
  obtain ⟨script⟩ := action
  change Prolongs longer script at h
  induction h with
  | done reply =>
      cases reply with
      | ok value => exact hnext value
      | error stop => exact Prolongs.done (Except.error stop)
  | exhausted => exact .exhausted _
  | perform _ ih => exact .perform ih
  | evaluate _ ih => exact .evaluate ih

/-- Where the shorter script has something to go on with, so has the longer one. -/
theorem bind_left (action : Action α) {follow next : α → Action β}
    (hnext : ∀ value, Prolongs (follow value).script (next value).script) :
    Prolongs (action >>= follow).script (action >>= next).script :=
  bind (refl action.script) hnext

theorem run {longer script : Script α} {outer inner : Evaluator} (h : Prolongs longer script)
    (hinner : Outlasts outer inner) {world after : World} {value : α}
    (hrun : script.run inner world = ⟨some value, after⟩) :
    longer.run outer world = ⟨some value, after⟩ := by
  induction h generalizing world with
  | done => exact hrun
  | exhausted => cases hrun
  | perform _ ih => exact ih _ hrun
  | @evaluate scope node _ _ _ ih =>
      rcases hresult : inner scope node world with ⟨_ | reply, middle⟩
      · rw [Script.run_evaluate_none hresult] at hrun
        cases hrun
      · rw [Script.run_evaluate_some hresult] at hrun
        rw [Script.run_evaluate_some (hinner scope node world reply middle hresult)]
        exact ih reply hrun

end Prolongs

/-! ## One level -/

theorem turns_prolongs {count more : Nat} (h : count ≤ more) (scope : Nat)
    (condition post body : Node) :
    Prolongs (turns scope condition post body more).script
      (turns scope condition post body count).script := by
  induction count generalizing more with
  | zero => exact .exhausted _
  | succ count ih =>
      obtain ⟨more, rfl⟩ : ∃ n, more = n + 1 := ⟨more - 1, by omega⟩
      have hlater := ih (Nat.le_of_succ_le_succ h)
      refine .bind_left (goesOn scope condition) fun goes => ?_
      cases goes with
      | true => exact .bind_left _ fun _ => .bind_left _ fun _ => hlater
      | false => exact .refl _

/-- Only a loop counts its turns. -/
theorem level_prolongs {maxTurns more : Nat} (h : maxTurns ≤ more) (scope : Nat) (node : Node) :
    Prolongs (level more scope node).script (level maxTurns scope node).script := by
  cases node with
  | loop token init condition post body =>
      exact .bind_left _ fun own => .bind_left _ fun _ => turns_prolongs h own condition post body
  | _ => exact .refl _

/-! ## All levels -/

theorem eval_outlasts {maxTurns more depth deeper : Nat} (hturns : maxTurns ≤ more)
    (hdepth : depth ≤ deeper) : Outlasts (eval more deeper) (eval maxTurns depth) := by
  induction depth generalizing deeper with
  | zero =>
      intro scope node world reply after hended
      cases hended
  | succ depth ih =>
      intro scope node world reply after hended
      obtain ⟨deeper, rfl⟩ : ∃ n, deeper = n + 1 := ⟨deeper - 1, by omega⟩
      have hinner := ih (Nat.le_of_succ_le_succ hdepth)
      exact (level_prolongs hturns scope node).run hinner hended

section
variable {limits higher : Limits} (h : limits ≤ higher)
include h

theorem evaluate_of_le {scope : Nat} {node : Node} {world after : World} {value : Value}
    (hended : evaluate limits scope node world = (some value, after)) :
    evaluate higher scope node world = (some value, after) := by
  obtain ⟨houtcome, rfl⟩ := Prod.mk.inj hended
  obtain ⟨reply, hreply, rfl⟩ := Option.map_eq_some_iff.mp houtcome
  have hsame := eval_outlasts h.2 h.1 scope node world reply
    (eval limits.turns limits.depth scope node world).world (by rw [← hreply])
  rw [evaluate, hsame]
  rfl

theorem applyTo_of_le {callee : Value} {arguments : List Value} {world after : World}
    {value : Value} (hended : applyTo limits callee arguments world = (some value, after)) :
    applyTo higher callee arguments world = (some value, after) := by
  obtain ⟨houtcome, rfl⟩ := Prod.mk.inj hended
  obtain ⟨reply, hreply, rfl⟩ := Option.map_eq_some_iff.mp houtcome
  have hrun : (apply callee arguments).script.run (eval limits.turns limits.depth) world =
      ⟨some reply, ((apply callee arguments).run (eval limits.turns limits.depth) world).world⟩ := by
    rw [← hreply]
    rfl
  have hsame := (Prolongs.refl _).run (eval_outlasts h.2 h.1) hrun
  rw [applyTo, Action.run, hsame]
  rfl

end

end Eval

/-! ## Entries and settings -/

open Eval

theorem Session.run_of_le {limits higher : Limits} (h : limits ≤ higher) {scope : Nat}
    {text : String} {world : World} (hended : (run limits scope text world).1 ≠ .exhausted) :
    run higher scope text world = run limits scope text world := by
  by_cases hclean : (Parse.source text).isClean
  · rw [run, if_pos hclean] at hended
    rw [run, run, if_pos hclean, if_pos hclean]
    rcases hresult : evaluate limits scope (Parse.source text).program world with ⟨_ | value, after⟩
    · rw [hresult] at hended
      exact absurd rfl hended
    · rw [evaluate_of_le h hresult]
  · rw [run, run, if_neg hclean, if_neg hclean]

namespace Settings

theorem limitsOf_le {frames more : Nat} (h : frames ≤ more) : limitsOf frames ≤ limitsOf more :=
  ⟨Nat.div_le_div_right h, Nat.le_refl maxTurns⟩

/-- Frames are refused exactly if more of them are asked for than can be set. -/
theorem limits_eq_error_iff {env : Variables} {fault : TooManyFrames} :
    limits env = .error fault ↔ frameLimit? env = some fault.asked ∧ mostFrames < fault.asked := by
  cases hasked : frameLimit? env with
  | none => simp [limits, appliedFrames, hasked, Except.map]
  | some asked =>
      by_cases hmost : asked ≤ mostFrames
      · have hnot : asked = fault.asked → fault.asked ≤ mostFrames := by
          rintro rfl
          exact hmost
        simpa [limits, appliedFrames, hasked, hmost, Except.map] using hnot
      · obtain ⟨other⟩ := fault
        have hlarge : asked = other → mostFrames < other := by
          rintro rfl
          exact Nat.lt_of_not_le hmost
        simpa [limits, appliedFrames, hasked, hmost, Except.map] using hlarge

end Settings

namespace CommandLine

open Settings

section
variable {env raised : Variables} {frames more : Nat} (h : appliedFrames 0 env = .ok frames)
include h

theorem runText_of_applied (text : String) :
    runText env text = finishOf (traceEnabled env)
      (Session.run (limitsOf frames) 0 text .initial).1
      (Session.run (limitsOf frames) 0 text .initial).2 := by
  simp [runText, withLimits, limits, h, Except.map]

/-- A run that does not end for want of depth ends in the same way with more of it. -/
theorem runText_of_le (hraised : appliedFrames 0 raised = .ok more) (hle : frames ≤ more)
    {text : String} (hended : (runText env text).exit ≠ .code 2) :
    runText raised text = runText env text := by
  rw [runText_of_applied h] at hended ⊢
  rw [runText_of_applied hraised]
  have hrun : (Session.run (limitsOf frames) 0 text .initial).1 ≠ .exhausted := by
    intro hexhausted
    rw [hexhausted] at hended
    exact hended rfl
  rw [Session.run_of_le (limitsOf_le hle) hrun]
  generalize (Session.run (limitsOf frames) 0 text .initial).1 = verdict at hrun ⊢
  cases verdict with
  | exhausted => exact absurd rfl hrun
  | rejected complaints => rfl
  | finished value quiet => cases value <;> rfl

end

theorem finishOf_exit_ne_refused (trace : Bool) (verdict : Session.Verdict) (world : World)
    (fault : TooManyFrames) : (finishOf trace verdict world).exit ≠ .refused fault := by
  cases verdict with
  | finished value quiet => cases value <;> simp [finishOf]
  | _ => simp [finishOf, rejected]

/-- Nothing is run within limits that are refused. -/
theorem runText_eq_refused_iff {env : Variables} {text : String} {fault : TooManyFrames} :
    runText env text = ⟨⟨"", ""⟩, .refused fault⟩ ↔
      frameLimit? env = some fault.asked ∧ mostFrames < fault.asked := by
  rw [← limits_eq_error_iff, runText, withLimits]
  cases hlimits : limits env with
  | error other => simp
  | ok limits =>
      have hne := finishOf_exit_ne_refused (traceEnabled env)
        (Session.run limits 0 text .initial).1 (Session.run limits 0 text .initial).2 fault
      simp only [reduceCtorEq, iff_false]
      intro heq
      exact hne (congrArg Finish.exit heq)

end CommandLine

namespace Session

/-- A limit only cuts off. Whatever is evaluated or called, in whichever world: what comes to a
value within some limits comes to the same value, with the same world behind it, within any higher
ones. So a program that ended is not changed by more frames, be they asked for or the number that
holds where none is asked for, as long as they are as many as can be set. More than that are
refused, and then nothing is run. -/
theorem limits_only_cut_off (env raised : Variables) (text : String) :
    (∀ limits higher : Limits, limits ≤ higher → ∀ (world after : World) (value : Value),
      (∀ (scope : Nat) (node : Node),
        evaluate limits scope node world = (some value, after) →
          evaluate higher scope node world = (some value, after)) ∧
      ∀ (callee : Value) (arguments : List Value),
        applyTo limits callee arguments world = (some value, after) →
          applyTo higher callee arguments world = (some value, after)) ∧
    (∀ frames more : Nat,
      Settings.appliedFrames 0 env = .ok frames → Settings.appliedFrames 0 raised = .ok more →
        frames ≤ more →
          (∀ (scope : Nat) (world : World),
            (run (Settings.limitsOf frames) scope text world).1 ≠ .exhausted →
              run (Settings.limitsOf more) scope text world =
                run (Settings.limitsOf frames) scope text world) ∧
          ((CommandLine.runText env text).exit ≠ .code 2 →
            CommandLine.runText raised text = CommandLine.runText env text)) ∧
    ∀ fault : Settings.TooManyFrames,
      CommandLine.runText raised text = ⟨⟨"", ""⟩, .refused fault⟩ ↔
        Settings.frameLimit? raised = some fault.asked ∧
          Settings.mostFrames < fault.asked := by
  refine ⟨?_, ?_, fun _ => CommandLine.runText_eq_refused_iff⟩
  · intro limits higher h world after value
    exact ⟨fun scope node => evaluate_of_le h, fun callee arguments => applyTo_of_le h⟩
  · intro frames more h hraised hle
    exact ⟨fun scope world => run_of_le (Settings.limitsOf_le hle),
      CommandLine.runText_of_le h hraised hle⟩

/-- A loop of calls that write, within thirty levels and with a hundred frames asked for. -/
theorem limits_only_cut_off_loop :
    let text := "for (let i = 0; i < 2; i++) \x7b fn(n) \x7b puts(n - 1) \x7d(i) \x7d"
    let env := [(Settings.limitVariable, "100")]
    evaluate ⟨10000, 0x4000000000000000⟩ 0 (Parse.source text).program .initial =
        evaluate ⟨30, 3⟩ 0 (Parse.source text).program .initial ∧
      Settings.appliedFrames 0 env = .ok 100 ∧ Settings.appliedFrames 0 [] = .ok 20000 ∧
      CommandLine.runText [] text = ⟨⟨"-1\n0\n", ""⟩, .code 0⟩ ∧
      CommandLine.runText env text = ⟨⟨"-1\n0\n", ""⟩, .code 0⟩ := by
  intro text env
  have hended : (evaluate ⟨30, 3⟩ 0 (Parse.source text).program .initial).1.isSome := by
    decide +kernel
  obtain ⟨value, hvalue⟩ := Option.isSome_iff_exists.mp hended
  have hasked : Settings.frameLimit? env = some 100 := by decide +kernel
  have hframes : Settings.appliedFrames 0 env = .ok 100 := by
    rw [Settings.appliedFrames, hasked]
    rfl
  have hdefault : Settings.appliedFrames 0 [] = .ok 20000 := rfl
  have hrun : CommandLine.runText env text = ⟨⟨"-1\n0\n", ""⟩, .code 0⟩ := by decide +kernel
  have hexit : (CommandLine.runText env text).exit ≠ .code 2 := by
    rw [hrun]
    decide
  constructor
  · have hevaluate : evaluate ⟨30, 3⟩ 0 (Parse.source text).program .initial =
        (some value, (evaluate ⟨30, 3⟩ 0 (Parse.source text).program .initial).2) :=
      Prod.ext hvalue rfl
    have hsame := ((limits_only_cut_off env [] text).1 ⟨30, 3⟩ ⟨10000, 0x4000000000000000⟩
      (by decide) _ _ _).1 0 (Parse.source text).program hevaluate
    exact hsame.trans hevaluate.symm
  · have hsame := ((limits_only_cut_off env [] text).2.1 100 20000 hframes hdefault (by decide)).2
    exact ⟨hframes, hdefault, (hsame hexit).trans hrun, hrun⟩

/-- To ask for more frames than can be set does change a program that ended. -/
theorem refused_frames_change_the_outcome :
    ¬ ∀ (env raised : Variables) (frames more : Nat) (text : String),
      Settings.frameLimit? env = some frames → Settings.frameLimit? raised = some more →
        frames ≤ more → (CommandLine.runText env text).exit = .code 0 →
          CommandLine.runText raised text = CommandLine.runText env text := by
  intro hsame
  have hfirst : Settings.frameLimit? [(Settings.limitVariable, "3000")] = some 3000 := by
    decide +kernel
  have hsecond : Settings.frameLimit? [(Settings.limitVariable, "3000000000")] =
      some 3000000000 := by
    decide +kernel
  have hended : CommandLine.runText [(Settings.limitVariable, "3000")] "1 + 1" =
      ⟨⟨"2\n", ""⟩, .code 0⟩ := by
    decide +kernel
  have hrefused : CommandLine.runText [(Settings.limitVariable, "3000000000")] "1 + 1" =
      ⟨⟨"", ""⟩, .refused ⟨3000000000⟩⟩ := by
    decide +kernel
  have hboth := hsame _ _ _ _ "1 + 1" hfirst hsecond (by decide) (by rw [hended])
  rw [hended, hrefused] at hboth
  exact absurd hboth (by decide)

end Session

end Monkey
