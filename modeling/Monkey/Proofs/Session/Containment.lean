import Monkey.Proofs.Eval.Errors
import Monkey.Proofs.Eval.Throughout

/-!
# Good values throughout a session

In a session texts are run one after another. What holds of the values in the scopes at the start
and is kept by every evaluation holds of all that the session ever has to do with. For values
without errors inside, this says that errors stay contained: an error is an outcome, never an
element, a binding, an argument or a value that returns.
-/
namespace Monkey.Session

open Eval

/-- The world behind texts that are run one after another. -/
def runAll (limits : Limits) (scope : Nat) (texts : List String) (world : World) : World :=
  texts.foldl (fun world text => (run limits scope text world).2) world

/-- The visits of a text: none if there are complaints. -/
def visitsOf (limits : Limits) (scope : Nat) (text : String) (world : World) : List (Nat × Visit) :=
  if (Parse.source text).isClean then
    visits limits.turns limits.depth ⟨scope, (Parse.source text).program, world⟩
  else []

/-- All evaluations of a session, in the order in which they begin. -/
def visitsOfAll (limits : Limits) (scope : Nat) : List String → World → List (Nat × Visit)
  | [], _ => []
  | text :: rest, world =>
      visitsOf limits scope text world ++
        visitsOfAll limits scope rest (run limits scope text world).2

section
variable {rules : Rules} {limits : Limits} {scope : Nat} {world : World} (hlawful : rules.Lawful)
  (hreturns : rules.returns) (hcatches : rules.catches)
  (htrees : ∀ text, (Parse.source text).isClean → rules.tree (Parse.source text).program)
include hlawful hreturns hcatches htrees

theorem holds_run {text : String} (hworld : Holds rules.good world)
    (hgrants : ∀ entry ∈ visitsOf limits scope text world,
      rules.Grants limits.turns entry.1 entry.2) :
    Holds rules.good (run limits scope text world).2 := by
  by_cases hclean : (Parse.source text).isClean
  · rw [visitsOf, if_pos hclean] at hgrants
    have habides := abides_of_grants hlawful hreturns hcatches hworld (htrees text hclean) hgrants
    rw [(run_eq_of_isClean hclean).1]
    exact habides.ends.world
  · have hrun : (run limits scope text world).2 = world := by
      rw [run, if_neg hclean]
    rwa [hrun]

theorem throughout_of_text {text : String} (hworld : Holds rules.good world)
    (hgrants : ∀ entry ∈ visitsOf limits scope text world,
      rules.Grants limits.turns entry.1 entry.2) :
    ∀ entry ∈ visitsOf limits scope text world,
      Throughout rules.good limits.turns entry.1 entry.2 := by
  by_cases hclean : (Parse.source text).isClean
  · rw [visitsOf, if_pos hclean] at hgrants ⊢
    exact throughout_of_grants hlawful hreturns hcatches hworld (htrees text hclean) hgrants
  · rw [visitsOf, if_neg hclean]
    exact List.forall_mem_nil _

/-- What one text keeps, all texts of a session keep. -/
theorem throughout_of_texts {texts : List String} (hworld : Holds rules.good world)
    (hgrants : ∀ entry ∈ visitsOfAll limits scope texts world,
      rules.Grants limits.turns entry.1 entry.2) :
    Holds rules.good (runAll limits scope texts world) ∧
      ∀ entry ∈ visitsOfAll limits scope texts world,
        Throughout rules.good limits.turns entry.1 entry.2 := by
  induction texts generalizing world with
  | nil => exact ⟨hworld, List.forall_mem_nil _⟩
  | cons text rest ih =>
      obtain ⟨hfirst, hlater⟩ := List.forall_mem_append.mp hgrants
      have hmiddle := holds_run hlawful hreturns hcatches htrees hworld hfirst
      obtain ⟨hlast, hrest⟩ := ih hmiddle hlater
      have htext := throughout_of_text hlawful hreturns hcatches htrees hworld hfirst
      exact ⟨hlast, List.forall_mem_append.mpr ⟨htext, hrest⟩⟩

end

/-- In a session that starts without errors in its scopes, whatever the texts, no error is ever
bound in a scope, put into an array or a hash, passed to a function or a builtin, or returned,
neither by itself nor inside another value. -/
theorem errors_contained (limits : Limits) (scope : Nat) (texts : List String) {world : World}
    (hworld : Holds (·.errorFree) world) :
    Holds (·.errorFree) (runAll limits scope texts world) ∧
      ∀ entry ∈ visitsOfAll limits scope texts world,
        Throughout (·.errorFree) limits.turns entry.1 entry.2 := by
  have hlawful := hereditary_errorFree.lawful True True
  apply throughout_of_texts hlawful trivial trivial (fun _ _ => trivial) hworld
  intro entry _
  constructor
  · exact fun _ _ => trivial
  · exact fun _ _ arguments _ => hlawful.literal default arguments.length trivial

/-- A call fails inside a function, between two elements of an array that it would have returned. -/
theorem errors_contained_unbound :
    let texts := ["let f = fn(x) \x7b let kept = [x]; return [kept, y, x]; \x7d;", "f(1)",
      "let g = [f];"]
    (runAll ⟨20, 9⟩ 0 texts .initial).errors = 1 ∧
      Holds (·.errorFree) (runAll ⟨20, 9⟩ 0 texts .initial) ∧
      ∀ entry ∈ visitsOfAll ⟨20, 9⟩ 0 texts .initial,
        Throughout (·.errorFree) 9 entry.1 entry.2 := by
  intro texts
  constructor
  · decide +kernel
  · exact errors_contained ⟨20, 9⟩ 0 texts (.initial _)

end Monkey.Session
