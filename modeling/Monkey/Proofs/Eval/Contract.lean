import Monkey.Proofs.Eval.Constructs

/-!
# Contracts of scripts

A contract says what holds of the world between any two steps of a script, in which scopes nodes
are evaluated and what the values on their way are like. A script that meets a contract has one
more habit: an error ends it. Behind a step that makes an error, and behind an evaluation that
comes back with one, nothing follows but that error. What follows the mandate of a lawful contract
meets it, so that a law of evaluation is proved by choosing a contract.
-/
namespace Monkey.Eval

/-- A property that collections have if their contents have it, and all other values but errors
have. -/
structure Hereditary (good : Value → Prop) : Prop where
  integer : ∀ value, good (.integer value)
  boolean : ∀ value, good (.boolean value)
  string : ∀ value, good (.string value)
  null : good .null
  function : ∀ stamp parameters body scope, good (.function stamp parameters body scope)
  builtin : ∀ builtin, good (.builtin builtin)
  array : ∀ stamp elements, good (.array stamp elements) ↔ ∀ value ∈ elements, good value
  hash : ∀ stamp entries, good (.hash stamp entries) ↔ ∀ entry ∈ entries, good entry.2

theorem hereditary_true : Hereditary fun _ => True := by
  constructor <;> simp

theorem Hereditary.closed {good : Value → Prop} (h : Hereditary good) :
    Closed good fun _ => True where
  null := h.null
  boolean := h.boolean
  string := h.string
  builtin := h.builtin
  word value _ := h.integer value
  remainder _ _ _ := h.integer _
  bytes _ _ := h.integer _
  count _ _ _ := h.integer _
  array := h.array
  hash stamp entries := by
    have hkey : ∀ key : Key, good key.value := by
      intro key
      cases key with
      | integer value => exact h.integer value
      | boolean value => exact h.boolean value
      | string value => exact h.string value
    simp [h.hash, hkey]

structure Contract where
  /-- Holds of the world before and behind every step. -/
  holds : World → Prop
  /-- The scopes that are written to and evaluated in. -/
  reaches : Nat → Prop
  /-- The names that are assigned to, seen from a scope. -/
  assigns : Nat → String → Prop
  /-- What values are like that scopes and collections hold. -/
  good : Value → Prop

namespace Contract

/-- A value on its way is good, and no error. -/
def Carries (contract : Contract) (value : Value) : Prop :=
  contract.good value ∧ value.isFailure = false

/-- What an evaluation may come back with, if that is no error. -/
def Brings (contract : Contract) : Except Stop Value → Prop
  | .ok value => contract.Carries value
  | .error (.returning value) => contract.Carries value
  | .error (.failed _) => False

/-- The operations that are allowed in a world. Only an integer is assigned to, and it becomes an
integer. To make an error is no operation like the others. -/
def May (contract : Contract) (world : World) : Operation → Prop
  | .set scope _ value => contract.reaches scope ∧ contract.good value
  | .assign scope name value => contract.assigns scope name ∧
      ∃ old new, world.get? scope name = some (.integer old) ∧ value = .integer new
  | .raise _ => False
  | _ => True

/-- What a contract must be like to be met: its steps lead from world to world, and what the
language does with good values gives good values. -/
structure Lawful (contract : Contract) : Prop extends Hereditary contract.good where
  keeps : ∀ world operation, contract.holds world → contract.May world operation →
    contract.holds (operation.perform world).2
  raises : ∀ world fault, contract.holds world → contract.holds (world.freshFailure fault).2
  looks : ∀ world scope name value, contract.holds world →
    world.get? scope name = some value → contract.good value
  opens : ∀ world, contract.holds world → contract.reaches world.scopes.size

variable {α : Type}

/-- What a run may come to: a value that satisfies `post`, or a reason to stop. -/
def Allows (contract : Contract) (post : α → Prop) : Except Stop α → Prop
  | .ok value => post value
  | .error (.returning value) => contract.Carries value
  | .error (.failed _) => True

/-- The contract holds behind a run, and allows what the run came to. -/
structure Ends (contract : Contract) (post : α → Prop) (result : Result (Except Stop α)) :
    Prop where
  world : contract.holds result.world
  reply : ∀ reply, result.value = some reply → contract.Allows post reply

/-- The evaluator keeps the contract wherever it may evaluate. -/
def KeptBy (contract : Contract) (inner : Evaluator) : Prop :=
  ∀ scope node world, contract.holds world → contract.reaches scope →
    contract.Ends contract.Carries (inner scope node world)

variable {contract : Contract} {post : α → Prop} {world : World}

theorem Ends.of_none (hworld : contract.holds world) : contract.Ends post ⟨none, world⟩ :=
  ⟨hworld, fun _ hreply => nomatch hreply⟩

theorem Ends.of_some {reply : Except Stop α} (hworld : contract.holds world)
    (hreply : contract.Allows post reply) : contract.Ends post ⟨some reply, world⟩ := by
  refine ⟨hworld, fun other hother => ?_⟩
  rwa [← Option.some.inj hother]

/-- An evaluation takes too long, comes back with an error or brings something. -/
theorem KeptBy.cases {inner : Evaluator} (hinner : contract.KeptBy inner) {scope : Nat}
    (node : Node) (hworld : contract.holds world) (hscope : contract.reaches scope) :
    (∃ after, inner scope node world = ⟨none, after⟩ ∧ contract.holds after) ∨
    (∃ failure after, inner scope node world = ⟨some (.error (.failed failure)), after⟩ ∧
      contract.holds after) ∨
    ∃ reply after, inner scope node world = ⟨some reply, after⟩ ∧ contract.holds after ∧
      contract.Brings reply := by
  have hends := hinner scope node world hworld hscope
  rcases hresult : inner scope node world with ⟨_ | reply, after⟩
  · rw [hresult] at hends
    exact .inl ⟨after, rfl, hends.world⟩
  · rw [hresult] at hends
    have hallows := hends.reply reply rfl
    rcases reply with ⟨failure | value⟩ | value
    · exact .inr (.inl ⟨failure, after, rfl, hends.world⟩)
    · exact .inr (.inr ⟨_, after, rfl, hends.world, hallows⟩)
    · exact .inr (.inr ⟨_, after, rfl, hends.world, hallows⟩)

end Contract

variable {α : Type} {contract : Contract} {post : α → Prop} {world : World}

/-- The script meets the contract from this world on, and its values satisfy `post`. -/
inductive Meets (contract : Contract) (post : α → Prop) :
    Script (Except Stop α) → World → Prop where
  | done {world : World} {value : α} (hworld : contract.holds world) (hvalue : post value) :
      Meets contract post (.done (.ok value)) world
  | returning {world : World} {value : Value} (hworld : contract.holds world)
      (hvalue : contract.Carries value) :
      Meets contract post (.done (.error (.returning value))) world
  /-- An error that was held before. -/
  | failed {world : World} {failure : Failure} (hworld : contract.holds world)
      (hheld : contract.good (.error failure)) :
      Meets contract post (.done (.error (.failed failure))) world
  | exhausted {world : World} (hworld : contract.holds world) :
      Meets contract post .exhausted world
  | raise {world : World} {fault : Fault} {next : Failure → Script (Except Stop α)}
      (hworld : contract.holds world)
      (hnext : ∀ failure, next failure = .done (.error (.failed failure))) :
      Meets contract post (.perform (.raise fault) next) world
  | perform {world : World} {operation : Operation}
      {next : operation.Reply → Script (Except Stop α)} (hworld : contract.holds world)
      (hmay : contract.May world operation)
      (hnext : Meets contract post (next (operation.perform world).1) (operation.perform world).2) :
      Meets contract post (.perform operation next) world
  | evaluate {world : World} {scope : Nat} {node : Node}
      {next : Except Stop Value → Script (Except Stop α)} (hworld : contract.holds world)
      (hscope : contract.reaches scope)
      (hfailed : ∀ failure, next (.error (.failed failure)) = .done (.error (.failed failure)))
      (hnext : ∀ reply after, contract.holds after → contract.Brings reply →
        Meets contract post (next reply) after) :
      Meets contract post (.evaluate scope node next) world

/-- A run of a script that meets a lawful contract keeps it, if the evaluations inside it do. -/
theorem Meets.run {script : Script (Except Stop α)} {inner : Evaluator}
    (h : Meets contract post script world) (hlawful : contract.Lawful)
    (hinner : contract.KeptBy inner) : contract.Ends post (script.run inner world) := by
  induction h with
  | done hworld hvalue => exact .of_some hworld hvalue
  | returning hworld hvalue => exact .of_some hworld hvalue
  | failed hworld _ => exact .of_some hworld trivial
  | exhausted hworld => exact .of_none hworld
  | @raise world fault next hworld hfailed =>
      have hrun : (Script.perform (.raise fault) next).run inner world =
          (next (world.freshFailure fault).1).run inner (world.freshFailure fault).2 := rfl
      rw [hrun, hfailed]
      exact .of_some (hlawful.raises world fault hworld) trivial
  | perform _ _ _ ih => exact ih
  | @evaluate world scope node next hworld hscope hfailed _ ih =>
      obtain ⟨after, hresult, hafter⟩ | ⟨failure, after, hresult, hafter⟩ |
        ⟨reply, after, hresult, hafter, hbrings⟩ := hinner.cases node hworld hscope
      · rw [Script.run_evaluate_none hresult]
        exact .of_none hafter
      · rw [Script.run_evaluate_some hresult, hfailed]
        exact .of_some hafter trivial
      · rw [Script.run_evaluate_some hresult]
        exact ih reply after hafter hbrings

/-! ## What follows the mandate of a contract -/

namespace Contract

/-- What a contract lets a script do. -/
def mandate (contract : Contract) : Mandate where
  scopes := contract.reaches
  names scope _ := contract.reaches scope
  assigns := contract.assigns
  sound value := value.isFailure = false
  sound_of_isFailure _ h := h

/-- The contract holds, and what is at hand is as it says. -/
structure Suits (contract : Contract) (world : World) (hand : Hand) : Prop where
  holds : contract.holds world
  opened : ∀ scope, hand.opened scope → contract.reaches scope
  values : ∀ value, hand.values value → contract.good value
  brought : ∀ value, hand.brought value → contract.good value
  found : ∀ scope name value, hand.found scope name value → world.get? scope name = some value

namespace Suits

theorem empty (hworld : contract.holds world) : contract.Suits world .empty :=
  ⟨hworld, nofun, nofun, nofun, nofun⟩

theorem call (hworld : contract.holds world) {callee : Value} (hcallee : contract.good callee)
    {arguments : List Value} (harguments : ∀ value ∈ arguments, contract.good value) :
    contract.Suits world (.call callee arguments) where
  holds := hworld
  opened _ hfalse := hfalse.elim
  values _ heq := heq ▸ hcallee
  brought := harguments
  found _ _ _ hfalse := hfalse.elim

section
variable {hand : Hand} (h : contract.Suits world hand)
include h

theorem reaches {scope : Nat} (hscope : contract.mandate.Reaches hand scope) :
    contract.reaches scope :=
  hscope.elim id (h.opened scope)

theorem bring {after : World} (hafter : contract.holds after) {value : Value}
    (hvalue : contract.good value) : contract.Suits after (hand.bring value) where
  holds := hafter
  opened := h.opened
  values := h.values
  brought other hother := hother.elim (fun heq => heq ▸ hvalue) (h.brought other)
  found _ _ _ hfalse := hfalse.elim

variable (hlawful : contract.Lawful)
include hlawful

theorem good {value : Value} (hvalue : contract.mandate.Makes hand value) : contract.good value :=
  hvalue.good hlawful.toHereditary.closed h.values
    (fun other hother => ⟨h.brought other hother, trivial⟩) fun number _ => hlawful.integer number

theorem may {operation : Operation} (hmay : contract.mandate.May hand operation) :
    contract.May world operation := by
  cases operation with
  | set scope name value => exact ⟨hmay.1.elim (h.opened scope) id, h.good hlawful hmay.2⟩
  | assign scope name value =>
      obtain ⟨hassigns, old, hfound, hnew⟩ := hmay
      obtain ⟨number, rfl, rfl⟩ := Value.exists_of_increment hnew
      exact ⟨hassigns, number, _, h.found _ _ _ hfound, rfl⟩
  | raise => exact hmay.elim
  | _ => trivial

theorem given {operation : Operation} (hmay : contract.mandate.May hand operation) :
    ∀ value ∈ operation.given (operation.perform world).1, contract.good value := by
  have hbears : operation.Bears contract.good := hmay.bears fun _ => h.good hlawful
  apply Operation.good_of_given hlawful.toHereditary.closed hbears (operation.gives_perform world)
  · exact fun scope name value hfound =>
      hlawful.looks world scope name value h.holds hfound.get?_eq.1
  · exact fun stamp parameters body scope _ => hlawful.function stamp parameters body scope

theorem perform {operation : Operation} (hmay : contract.mandate.May hand operation) :
    contract.Suits (operation.perform world).2 (hand.after operation (operation.perform world).1)
    where
  holds := hlawful.keeps world operation h.holds (h.may hlawful hmay)
  opened scope hopened := by
    rcases hopened with hnew | hold
    · cases operation with
      | enclose outer => exact hnew ▸ hlawful.opens world h.holds
      | _ => exact hnew.elim
    · exact h.opened scope hold
  values value hvalue := hvalue.elim (h.given hlawful hmay value) (h.values value)
  brought := h.brought
  found scope name value hfound := by
    rw [hfound.get?_eq.2]
    exact hfound.get?_eq.1

end

end Suits

end Contract

/-- What follows the mandate of a lawful contract meets it. -/
theorem Follows.meets {script : Script (Except Stop α)} {hand : Hand} {middle : Hand → α → Prop}
    (h : Follows contract.mandate middle script hand) (hlawful : contract.Lawful)
    (hsuits : contract.Suits world hand)
    (hpost : ∀ hand world value, contract.Suits world hand → middle hand value → post value) :
    Meets contract post script world := by
  induction h generalizing world with
  | done hvalue => exact .done hsuits.holds (hpost _ _ _ hsuits hvalue)
  | returning _ hvalue => exact .returning hsuits.holds ⟨hsuits.brought _ hvalue.1, hvalue.2⟩
  | failed hheld => exact .failed hsuits.holds (hsuits.good hlawful hheld)
  | exhausted => exact .exhausted hsuits.holds
  | raise _ hnext => exact .raise hsuits.holds hnext
  | @perform hand operation next hmay _ ih =>
      have hlast := ih _ (operation.gives_perform world) (hsuits.perform hlawful hmay)
      exact .perform hsuits.holds (hsuits.may hlawful hmay) hlast
  | evaluate hscope _ hstop _ ih =>
      refine .evaluate hsuits.holds (hsuits.reaches hscope) (fun _ => hstop _)
        fun reply after hafter hbrings => ?_
      rcases reply with ⟨failure | value⟩ | value
      · exact hbrings.elim
      · rw [hstop]
        exact .returning hafter hbrings
      · exact ih value hbrings.2 (hsuits.bring hafter hbrings.1)
  | guard _ hscope _ hfailed _ _ ihreturned ih =>
      refine .evaluate hsuits.holds (hsuits.reaches hscope) hfailed
        fun reply after hafter hbrings => ?_
      rcases reply with ⟨failure | value⟩ | value
      · exact hbrings.elim
      · exact ihreturned value hbrings.2 (hsuits.bring hafter hbrings.1)
      · exact ih value hbrings.2 (hsuits.bring hafter hbrings.1)

/-- An action that comes to a value on its way. -/
theorem Follows.meets_carries {action : Action Value} {hand : Hand}
    (h : Follows contract.mandate contract.mandate.Carries action.script hand)
    (hlawful : contract.Lawful) (hsuits : contract.Suits world hand) :
    Meets contract contract.Carries action.script world :=
  h.meets hlawful hsuits fun _ _ _ hlast hvalue => ⟨hlast.good hlawful hvalue.1, hvalue.2⟩

section
variable (hlawful : contract.Lawful) (hworld : contract.holds world)
include hlawful hworld

/-- What the evaluation of a node does meets every lawful contract that reaches its scope and lets
it assign to the name that it increments. -/
theorem level_meets (maxTurns : Nat) {scope : Nat} (hscope : contract.reaches scope) {node : Node}
    (hassigns : ∀ token name, node = .increment token name → contract.assigns scope name.text) :
    Meets contract contract.Carries (level maxTurns scope node).script world := by
  have hpermits : contract.mandate.Permits scope node := {
    scopes := hscope
    names := fun _ _ => hscope
    assigns := hassigns }
  exact (level_follows hpermits maxTurns).meets_carries hlawful (.empty hworld)

/-- A loop works in a scope of its own, so it meets the contract wherever it stands. -/
theorem loop_meets (maxTurns scope : Nat) (init condition post body : Node) :
    Meets contract contract.Carries
      (loop maxTurns scope init condition post body).script world := by
  have hfollows : Follows contract.mandate contract.mandate.Carries
      (loop maxTurns scope init condition post body).script .empty :=
    loop_follows trivial (fun _ _ => trivial) maxTurns
  exact hfollows.meets_carries hlawful (.empty hworld)

theorem apply_meets {callee : Value} (hcallee : contract.good callee) {arguments : List Value}
    (harguments : ∀ value ∈ arguments, contract.good value) :
    Meets contract contract.Carries (apply callee arguments).script world := by
  have hfollows : Follows contract.mandate contract.mandate.Carries
      (apply callee arguments).script (.call callee arguments) :=
    apply_follows (fun _ _ => trivial) trivial (.held rfl) (fun _ hmem => hmem) trivial
  exact hfollows.meets_carries hlawful (.call hworld hcallee harguments)

end

end Monkey.Eval
