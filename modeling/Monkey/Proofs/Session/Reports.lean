import Monkey.CommandLine
import Mathlib

/-!
# How errors are reported

Run as a program, a text reports the error it comes to and leaves with the code for it. As an entry
at the prompt it shows the error too, unless its last statement binds a name: such an entry is
quiet whatever comes of it, so its error is written nowhere.
-/
namespace Monkey

namespace Session

/-- The last statement of the text binds a name. -/
def endsInBinding (text : String) : Bool :=
  ((Parse.source text).statements.getLast?.map (·.isBinding)).getD false

/-- An error is not null, so only the last statement can make the entry quiet. -/
theorem quiet_of_failure {limits : Eval.Limits} {scope : Nat} {text : String} {world after : World}
    {failure : Failure} {quiet : Bool}
    (h : run limits scope text world = (.finished (.error failure) quiet, after)) :
    quiet = endsInBinding text := by
  dsimp only [run] at h
  split at h
  · split at h
    next value _ _ =>
        simp only [Prod.mk.injEq, Verdict.finished.injEq] at h
        obtain ⟨⟨rfl, rfl⟩, _⟩ := h
        simp [isQuiet, Value.isNull, endsInBinding]
    next => simp at h
  · simp at h

/-- A binding that fails is a quiet entry. -/
theorem failure_hidden_by_binding :
    ¬ ∀ (limits : Eval.Limits) (scope : Nat) (text : String) (world : World) (failure : Failure)
        (quiet : Bool), (Parse.source text).isClean →
      (run limits scope text world).1 = .finished (.error failure) quiet → quiet = false := by
  intro hshown
  have hclean : (Parse.source "let a = b;").isClean := by decide +kernel
  have hrun : (run ⟨9, 9⟩ 0 "let a = b;" .initial).1 =
      .finished (.error ⟨0, .unbound "b"⟩) true := by cbv
  cases hshown _ _ _ _ _ _ hclean hrun

end Session

namespace Shell

/-- The error that an entry comes to is shown unless the entry ends in a binding. The same text, run
as a program from the same start, reports it in either case. -/
theorem failure_shown_unless_binding {shell : Shell} {text : String} {failure : Failure}
    {quiet : Bool} {after : World}
    (h : Session.run shell.limits shell.scope text shell.world =
      (.finished (.error failure) quiet, after)) :
    quiet = Session.endsInBinding text ∧
      (shell.runSource text).1 =
        ⟨if Session.endsInBinding text then after.output
          else after.output ++ (Value.error failure).display ++ "\n", ""⟩ ∧
      (shell.scope = 0 → shell.world = .initial →
        CommandLine.runText shell.env text =
          ⟨⟨after.output, (Value.error failure).display ++ "\n"⟩, .code 1⟩) := by
  have hquiet := Session.quiet_of_failure h
  refine ⟨hquiet, ?_, ?_⟩
  · simp [runSource, h, World.flush, hquiet]
  · intro hscope hworld
    rw [hscope, hworld] at h
    simp [CommandLine.runText, CommandLine.withLimits, CommandLine.finishOf, shell.applied, h]

/-- A binding to a name that is not bound: the prompt says nothing, the program reports it. -/
theorem failure_shown_unless_binding_unbound :
    ((start Settings.limits_nil).runSource "let a = b;").1 = ⟨"", ""⟩ ∧
      CommandLine.runText [] "let a = b;" =
        ⟨⟨"", "ERROR: identifier not found: b\n"⟩, .code 1⟩ := by
  have hrun : Session.run (start Settings.limits_nil).limits (start Settings.limits_nil).scope
      "let a = b;" (start Settings.limits_nil).world =
        (.finished (.error ⟨0, .unbound "b"⟩) true, { World.initial with errors := 1 }) := by cbv
  obtain ⟨hquiet, hshell, hprogram⟩ := failure_shown_unless_binding hrun
  constructor
  · rw [hshell, ← hquiet]
    rfl
  · exact (hprogram rfl rfl).trans (by decide +kernel)

end Shell

end Monkey
