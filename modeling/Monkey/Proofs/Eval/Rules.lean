import Monkey.Proofs.Eval.Kept
import Monkey.Proofs.Eval.Visits

/-!
# Rules for scripts

Rules say what the values and trees on their way through a script are like and whether the script
may stop with a value that returns, or catch one. Where a contract follows the world from step to
step, rules speak of no world: a script obeys its rules whatever the world replies, as long as the
replies are what good values lead to. A script that obeys its rules and does not catch has one more
habit: behind an evaluation that stopped, nothing follows.
-/
namespace Monkey.Eval

theorem Holds.perform {good : Value → Prop} {world : World} (h : Holds good world)
    {operation : Operation} (hbears : operation.Bears good) :
    Holds good (operation.perform world).2 := by
  cases operation with
  | enclose outer => exact h.enclose outer
  | set scope name value => exact h.set scope name hbears
  | assign scope name value => exact h.assign scope name hbears
  | _ => exact h.of_scopes_eq rfl

structure Rules where
  /-- What values are like that scopes and collections hold. -/
  good : Value → Prop
  /-- What values are like that evaluations come to, beyond that they are good. -/
  brief : Value → Prop
  /-- The trees that are evaluated. -/
  tree : Node → Prop
  /-- Whether a script may stop with a value that returns. -/
  returns : Prop
  /-- Whether a script may go on behind an evaluation that stopped with such a value. -/
  catches : Prop

namespace Rules

/-- A value on its way is good, and no error. -/
def Carries (rules : Rules) (value : Value) : Prop :=
  rules.good value ∧ value.isFailure = false

/-- What an evaluation comes to is brief as well. -/
def Brings (rules : Rules) (value : Value) : Prop :=
  rules.Carries value ∧ rules.brief value

/-- What an operation may come back with: what it put together, or a good value that it found. -/
def Replies (rules : Rules) (operation : Operation) (reply : operation.Reply) : Prop :=
  operation.Gives reply ∧
    ∀ scope name value, operation.Finds reply scope name value → rules.good value

theorem replies_perform {rules : Rules} (hbuiltin : ∀ builtin, rules.good (.builtin builtin))
    {world : World} (h : Holds rules.good world) (operation : Operation) :
    rules.Replies operation (operation.perform world).1 :=
  ⟨operation.gives_perform world, fun _ _ _ hfound =>
    h.good_of_get? hbuiltin hfound.get?_eq.1⟩

/-- A run ends in a world of good values, and so does what it came to. -/
structure Ends (rules : Rules) (post : α → Prop) (result : Result (Except Stop α)) : Prop where
  world : Holds rules.good result.world
  done : ∀ value, result.value = some (.ok value) → post value
  returned : ∀ value, result.value = some (.error (.returning value)) → rules.Brings value

end Rules

/-- The script keeps to the rules, and its values satisfy `post`. -/
inductive Obeys (rules : Rules) (post : α → Prop) : Script (Except Stop α) → Prop where
  | done {value : α} (hvalue : post value) : Obeys rules post (.done (.ok value))
  | failed {failure : Failure} : Obeys rules post (.done (.error (.failed failure)))
  | returning {value : Value} (hreturns : rules.returns) (hvalue : rules.Brings value) :
      Obeys rules post (.done (.error (.returning value)))
  | exhausted : Obeys rules post .exhausted
  | perform {operation : Operation} {next : operation.Reply → Script (Except Stop α)}
      (hbears : operation.Bears rules.good)
      (hnext : ∀ reply, rules.Replies operation reply → Obeys rules post (next reply)) :
      Obeys rules post (.perform operation next)
  | evaluate {scope : Nat} {node : Node} {next : Except Stop Value → Script (Except Stop α)}
      (htree : rules.tree node) (hstop : ∀ stop, next (.error stop) = .done (.error stop))
      (hnext : ∀ value, rules.Brings value → Obeys rules post (next (.ok value))) :
      Obeys rules post (.evaluate scope node next)
  /-- An evaluation that may return to the script. -/
  | guard {scope : Nat} {node : Node} {next : Except Stop Value → Script (Except Stop α)}
      (hcatches : rules.catches) (htree : rules.tree node)
      (hfailed : ∀ failure, next (.error (.failed failure)) = .done (.error (.failed failure)))
      (hreturned : ∀ value, rules.Brings value →
        Obeys rules post (next (.error (.returning value))))
      (hnext : ∀ value, rules.Brings value → Obeys rules post (next (.ok value))) :
      Obeys rules post (.evaluate scope node next)

/-! ## Runs of scripts that obey -/

/-- A run from a world of good values goes from good values to good values. -/
structure Conforms (rules : Rules) (post : α → Prop) (inner : Evaluator)
    (doings : Nat → Node → World → List Operation) (script : Script (Except Stop α))
    (world : World) : Prop where
  ends : rules.Ends post (script.run inner world)
  visits : ∀ visit ∈ script.visits inner world, Holds rules.good visit.world ∧ rules.tree visit.node
  operations : ∀ operation ∈ script.operations inner doings world, operation.Bears rules.good

section
variable {α : Type} {rules : Rules} {post : α → Prop} {inner : Evaluator}
  {doings : Nat → Node → World → List Operation} {script : Script (Except Stop α)} {world : World}

theorem Conforms.done {reply : Except Stop α} (hworld : Holds rules.good world)
    (hvalue : ∀ value, reply = .ok value → post value)
    (hreturned : ∀ value, reply = .error (.returning value) → rules.Brings value) :
    Conforms rules post inner doings (.done reply) world where
  ends := ⟨hworld, fun value heq => hvalue value (Option.some.inj heq),
    fun value heq => hreturned value (Option.some.inj heq)⟩
  visits _ hmem := nomatch hmem
  operations _ hmem := nomatch hmem

theorem Conforms.stopped {stop : Stop} (hworld : Holds rules.good world)
    (hreturned : ∀ value, stop = .returning value → rules.Brings value) :
    Conforms rules post inner doings (.done (.error stop)) world :=
  .done hworld nofun fun value heq => hreturned value (Except.error.inj heq)

/-- An evaluation that ends well conforms if what follows it does, whatever it comes back with. -/
theorem Conforms.evaluate {scope : Nat} {node : Node}
    {next : Except Stop Value → Script (Except Stop α)} (hworld : Holds rules.good world)
    (htree : rules.tree node) (hends : rules.Ends rules.Brings (inner scope node world))
    (hdoings : ∀ operation ∈ doings scope node world, operation.Bears rules.good)
    (hnext : ∀ reply after, inner scope node world = ⟨some reply, after⟩ → Holds rules.good after →
      (∀ value, reply = .ok value ∨ reply = .error (.returning value) → rules.Brings value) →
      Conforms rules post inner doings (next reply) after) :
    Conforms rules post inner doings (.evaluate scope node next) world := by
  rcases hresult : inner scope node world with ⟨_ | reply, after⟩
  · rw [hresult] at hends
    constructor
    · rw [Script.run_evaluate_none hresult]
      exact ⟨hends.world, nofun, nofun⟩
    · simpa [Script.visits, hresult] using ⟨hworld, htree⟩
    · rwa [Script.operations_evaluate_none hresult]
  · rw [hresult] at hends
    have hbrings : ∀ value, reply = .ok value ∨ reply = .error (.returning value) →
        rules.Brings value := by
      rintro value (rfl | rfl)
      · exact hends.done value rfl
      · exact hends.returned value rfl
    have hrest := hnext reply after hresult hends.world hbrings
    constructor
    · rw [Script.run_evaluate_some hresult]
      exact hrest.ends
    · rw [Script.visits_evaluate_some hresult]
      exact List.forall_mem_cons.mpr ⟨⟨hworld, htree⟩, hrest.visits⟩
    · rw [Script.operations_evaluate_some hresult]
      exact List.forall_mem_append.mpr ⟨hdoings, hrest.operations⟩

/-- A script that obeys its rules conforms to them if its evaluations do. -/
theorem Obeys.conforms (h : Obeys rules post script)
    (hbuiltin : ∀ builtin, rules.good (.builtin builtin)) (hworld : Holds rules.good world)
    (hinner : ∀ visit ∈ script.visits inner world, Holds rules.good visit.world →
      rules.tree visit.node → rules.Ends rules.Brings (visit.under inner) ∧
        ∀ operation ∈ doings visit.scope visit.node visit.world, operation.Bears rules.good) :
    Conforms rules post inner doings script world := by
  induction h generalizing world with
  | done hvalue => exact .done hworld (by rintro _ ⟨⟩; exact hvalue) nofun
  | failed => exact .stopped hworld nofun
  | returning _ hvalue => exact .stopped hworld (by rintro _ ⟨⟩; exact hvalue)
  | exhausted => exact ⟨⟨hworld, nofun, nofun⟩, nofun, nofun⟩
  | @perform operation next hbears _ ih =>
      have hreply := rules.replies_perform hbuiltin hworld operation
      have hrest := ih _ hreply (hworld.perform hbears) hinner
      exact ⟨hrest.ends, hrest.visits, List.forall_mem_cons.mpr ⟨hbears, hrest.operations⟩⟩
  | @evaluate scope node next htree hstop _ ih =>
      have hhead := hinner ⟨scope, node, world⟩ (by simp [Script.visits]) hworld htree
      refine .evaluate hworld htree hhead.1 hhead.2 fun reply after hresult hafter hbrings => ?_
      rw [Script.visits_evaluate_some hresult] at hinner
      cases reply with
      | ok value =>
          exact ih value (hbrings value (.inl rfl)) hafter (List.forall_mem_cons.mp hinner).2
      | error stop =>
          rw [hstop]
          apply Conforms.stopped hafter
          rintro value rfl
          exact hbrings value (.inr rfl)
  | @guard scope node next _ htree hfailed _ _ ihreturned ih =>
      have hhead := hinner ⟨scope, node, world⟩ (by simp [Script.visits]) hworld htree
      refine .evaluate hworld htree hhead.1 hhead.2 fun reply after hresult hafter hbrings => ?_
      rw [Script.visits_evaluate_some hresult] at hinner
      have hrest := (List.forall_mem_cons.mp hinner).2
      rcases reply with ⟨failure | value⟩ | value
      · rw [hfailed]
        exact .stopped hafter nofun
      · exact ihreturned value (hbrings value (.inr rfl)) hafter hrest
      · exact ih value (hbrings value (.inl rfl)) hafter hrest

end

end Monkey.Eval
