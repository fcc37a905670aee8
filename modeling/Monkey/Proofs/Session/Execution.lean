import Monkey.Proofs.Eval.Bodies
import Monkey.Proofs.Eval.Foreseen
import Monkey.Proofs.Parse.Completeness
import Monkey.Proofs.Session.Containment

/-!
# Texts without complaints can be executed

In a world that nothing but texts has worked in, every function has a body that was read without
complaint. So an evaluation comes to complete trees only, be it in the text at hand or in functions
that were made long before, and never to a clause by itself. What it may fail with are the faults
that are foreseen (`clean_text_is_executable`).
-/
namespace Monkey.Session

open Eval Parse

/-- A world that only texts have worked in, in roots and scopes that hold nothing at first. -/
inductive Grown : World → Prop where
  | empty : Grown .empty
  | root {world : World} (h : Grown world) (builtins : List Builtin) : Grown (world.root builtins).2
  | enclose {world : World} (h : Grown world) (outer : Nat) : Grown (world.enclose outer).2
  | flush {world : World} (h : Grown world) : Grown world.flush.2
  | run {world : World} (h : Grown world) (limits : Limits) (scope : Nat) (text : String) :
      Grown (run limits scope text world).2

namespace Grown

theorem initial : Grown .initial := empty.root _

/-- What lawful rules say of values holds of all that such a world holds. -/
theorem holds {rules : Rules} (hlawful : rules.Lawful) (hreturns : rules.returns)
    (hcatches : rules.catches)
    (htrees : ∀ text, (source text).isClean → rules.tree (source text).program)
    (hgrants : ∀ maxTurns depth visit, rules.Grants maxTurns depth visit) {world : World}
    (h : Grown world) : Holds rules.good world := by
  induction h with
  | empty => exact .empty _
  | root _ builtins ih => exact ih.root builtins
  | enclose _ outer ih => exact ih.enclose outer
  | flush _ ih => exact ih.of_scopes_eq rfl
  | run _ limits scope text ih =>
      exact holds_run hlawful hreturns hcatches htrees ih fun _ _ => hgrants _ _ _

variable {world : World} (h : Grown world)
include h

theorem errorFree : Holds (·.errorFree) world := by
  have hlawful := hereditary_errorFree.lawful True True
  apply h.holds hlawful trivial trivial fun _ _ => trivial
  intro maxTurns depth visit
  constructor
  · exact fun _ _ => trivial
  · exact fun _ _ arguments _ => hlawful.literal default arguments.length trivial

theorem executable : Holds (fun value => ∀ body ∈ value.bodies, Executable body) world := by
  have hlawful : (treeRules Executable).Lawful := treeRules_lawful fun _ hnode => hnode.evaluated
  apply h.holds hlawful trivial trivial
  · exact fun text hclean => (complete_of_isClean hclean).executable (by decide)
  · exact treeRules_grants Executable

end Grown

/-- Every error that is made while a text is run is foreseen, whichever function makes it. -/
theorem isForeseen_of_raise {text : String} (hclean : (source text).isClean) {world : World}
    (hworld : Grown world) {maxTurns depth scope : Nat} {fault : Fault}
    (h : .raise fault ∈ history maxTurns depth scope (source text).program world) :
    fault.isForeseen := by
  have hprogram := (complete_of_isClean hclean).executable (by decide)
  obtain ⟨entry, hentry, hraise⟩ := @exists_visit_of_raise maxTurns depth ⟨scope, _, world⟩ fault h
  have habides : Abides (treeRules Executable) maxTurns depth ⟨scope, _, world⟩ :=
    abides_treeRules (fun _ hnode => hnode.evaluated) hworld.executable hprogram
  have hnode : Executable entry.2.node := (habides.visits entry hentry).2
  exact hnode.isForeseen hraise

/-- The tree of a text without complaints is complete, and its integers are numerals. When it is run
where only texts have worked before, every error made on the way, and so an error that it comes to,
is foreseen: it is neither an operator that the language does not have nor a node that cannot be
evaluated. -/
theorem clean_text_is_executable {text : String} (hclean : (source text).isClean) :
    Complete .program (source text).program ∧
    (source text).program.Everywhere Node.IsNumeral ∧
    ∀ world, Grown world → ∀ (limits : Limits) (scope : Nat),
      (∀ fault, .raise fault ∈
          history limits.turns limits.depth scope (source text).program world →
        fault.isForeseen ∧ ¬ Fault.unsupported.toList <+: fault.message.toList) ∧
      ∀ failure quiet, (run limits scope text world).1 = .finished (.error failure) quiet →
        failure.fault.isForeseen ∧
          ¬ Fault.unsupported.toList <+: failure.fault.message.toList := by
  refine ⟨complete_of_isClean hclean, numerals_of_isClean hclean, ?_⟩
  intro world hworld limits scope
  have hraised : ∀ fault, .raise fault ∈
      history limits.turns limits.depth scope (source text).program world →
      fault.isForeseen ∧ ¬ Fault.unsupported.toList <+: fault.message.toList := by
    intro fault hraise
    have hforeseen := isForeseen_of_raise hclean hworld hraise
    exact ⟨hforeseen, Fault.not_unsupported_of_isForeseen hforeseen⟩
  refine ⟨hraised, fun failure quiet hfinished => ?_⟩
  have houtcome := ((run_eq_of_isClean hclean).2 failure).mp ⟨quiet, hfinished⟩
  obtain ⟨before, fault, hhistory, _, rfl⟩ := history_of_outcome hworld.errorFree houtcome
  exact hraised fault (by simp [hhistory])

/-- A function of an earlier text negates what a clause of this one hands to it. -/
theorem clean_text_is_executable_negation :
    let earlier := "let g = fn(a) \x7b return -a; \x7d;"
    let text := "switch (1) \x7b case 3 % 2: g(\"a\"); break; \x7d"
    let world := (run ⟨12, 9⟩ 0 earlier .initial).2
    let fault := Fault.unknownUnary "-" .string
    (source text).isClean ∧ Grown world ∧
      (run ⟨12, 9⟩ 0 text world).1 = .finished (.error ⟨0, fault⟩) false ∧
      Complete .program (source text).program ∧
      (source text).program.Everywhere Node.IsNumeral ∧
      fault.isForeseen ∧ ¬ Fault.unsupported.toList <+: fault.message.toList := by
  intro earlier text world fault
  have hclean : (source text).isClean := by decide +kernel
  have hworld : Grown world := Grown.initial.run _ _ _
  have hfinished : (run ⟨12, 9⟩ 0 text world).1 = .finished (.error ⟨0, fault⟩) false := by
    subst world text earlier fault
    cbv
  obtain ⟨hcomplete, hnumerals, hruns⟩ := clean_text_is_executable hclean
  exact ⟨hclean, hworld, hfinished, hcomplete, hnumerals,
    (hruns world hworld ⟨12, 9⟩ 0).2 ⟨0, fault⟩ false hfinished⟩

end Monkey.Session
