import Monkey.Proofs.Eval.Constructs
import Monkey.Proofs.Eval.Visits

/-!
# What a level does by itself

Steps say which operations a script may perform and what the world may reply to them. A script keeps
its steps if it performs no other operations, whatever the evaluations inside it come back with.
Besides making collections, functions and output, a level looks up and writes the names of the node
in the scope at hand, binds names in scopes that it opened, and meets the faults of the node. So
every error that is made during an evaluation is one that some node on the way may meet
(`exists_visit_of_raise`).
-/
namespace Monkey.Eval

/-- Operations of a script, and what the world may reply to them. -/
structure Steps where
  may : Operation → Prop
  gives : (operation : Operation) → operation.Reply → Prop

/-- The script performs no operations but these steps. -/
def Script.Keeps (steps : Steps) : Script α → Prop
  | done _ | exhausted => True
  | perform operation next => steps.may operation ∧
      ∀ reply, operation.Gives reply → steps.gives operation reply → (next reply).Keeps steps
  | evaluate _ _ next => ∀ reply, (next reply).Keeps steps

/-- An operation of a run is a step of the script, or it is done by an evaluation inside. -/
theorem Script.Keeps.of_mem_operations {script : Script α} (h : script.Keeps steps)
    (hgives : ∀ operation world, steps.gives operation (Operation.perform operation world).1)
    {inner : Evaluator} {doings : Nat → Node → World → List Operation} {world : World}
    {operation : Operation} (hmem : operation ∈ script.operations inner doings world) :
    steps.may operation ∨ ∃ visit ∈ script.visits inner world,
      operation ∈ doings visit.scope visit.node visit.world := by
  induction script generalizing world with
  | done | exhausted => cases hmem
  | perform first next ih =>
      rcases List.mem_cons.mp hmem with rfl | hlater
      · exact .inl h.1
      · exact ih _ (h.2 _ (first.gives_perform world) (hgives first world)) hlater
  | evaluate scope node next ih =>
      rcases hresult : inner scope node world with ⟨_ | reply, after⟩
      · rw [Script.operations_evaluate_none hresult] at hmem
        exact .inr ⟨⟨scope, node, world⟩, Script.Arrives.here.mem_visits, hmem⟩
      · rw [Script.operations_evaluate_some hresult] at hmem
        rcases List.mem_append.mp hmem with hinside | hlater
        · exact .inr ⟨⟨scope, node, world⟩, Script.Arrives.here.mem_visits, hinside⟩
        · rw [Script.visits_evaluate_some hresult]
          obtain hown | ⟨visit, hvisit, hdone⟩ := ih reply (h reply) hlater
          · exact .inl hown
          · exact .inr ⟨visit, List.mem_cons_of_mem _ hvisit, hdone⟩

/-- The steps that every node may take: what it opens it may bind names in. -/
structure Steps.Common (steps : Steps) : Prop where
  enclose : ∀ outer, steps.may (.enclose outer)
  bind : ∀ outer own name value, steps.gives (.enclose outer) own → steps.may (.set own name value)
  write : ∀ text, steps.may (.write text)
  newArray : ∀ elements, steps.may (.newArray elements)
  newHash : ∀ entries, steps.may (.newHash entries)
  newFunction : ∀ parameters body scope, steps.may (.newFunction parameters body scope)

/-- The steps that the evaluation of a node in a scope may take. -/
structure Steps.Permit (steps : Steps) (scope : Nat) (node : Node) : Prop extends steps.Common where
  look : ∀ name ∈ node.names, steps.may (.look scope name)
  set : ∀ name ∈ node.names, ∀ value, steps.may (.set scope name value)
  assign : ∀ name ∈ node.names, ∀ value, steps.may (.assign scope name value)
  raise : ∀ fault, node.MayRaise fault → steps.may (.raise fault)

section
variable {α : Type} {steps : Steps}

/-- What steps let a script do. -/
def Steps.mandate (steps : Steps) : Mandate where
  names scope name := steps.may (.look scope name) ∧ ∀ value, steps.may (.set scope name value)
  assigns scope name := ∀ value, steps.may (.assign scope name value)
  raises fault := steps.may (.raise fault)

theorem Steps.Common.may (hcommon : steps.Common) {hand : Hand} {operation : Operation}
    (hopened : ∀ own, hand.opened own → ∃ outer, steps.gives (.enclose outer) own)
    (hmay : steps.mandate.May hand operation) : steps.may operation := by
  cases operation with
  | enclose outer => exact hcommon.enclose outer
  | look scope name => exact hmay.1
  | set scope name value =>
      obtain ⟨hown | hname, _⟩ := hmay
      · obtain ⟨outer, hgives⟩ := hopened scope hown
        exact hcommon.bind outer scope name value hgives
      · exact hname.2 value
  | assign scope name value => exact hmay.1 value
  | write text => exact hcommon.write text
  | newArray elements => exact hcommon.newArray elements
  | newHash entries => exact hcommon.newHash entries
  | newFunction parameters body scope => exact hcommon.newFunction parameters body scope
  | raise => exact hmay.elim

/-- What follows the mandate of steps keeps them. -/
theorem Follows.keeps {script : Script (Except Stop α)} {hand : Hand} {post : Hand → α → Prop}
    (h : Follows steps.mandate post script hand) (hcommon : steps.Common)
    (hopened : ∀ own, hand.opened own → ∃ outer, steps.gives (.enclose outer) own) :
    script.Keeps steps := by
  induction h with
  | done | returning | failed | exhausted => trivial
  | raise hraises hnext =>
      refine ⟨hraises, fun (failure : Failure) _ _ => ?_⟩
      rw [hnext]
      trivial
  | @perform hand operation next hmay _ ih =>
      refine ⟨hcommon.may hopened hmay, fun reply hreply hgives => ih reply hreply ?_⟩
      rintro own (hnew | hold)
      · cases operation with
        | enclose outer => exact ⟨outer, hnew ▸ hgives⟩
        | _ => exact hnew.elim
      · exact hopened own hold
  | evaluate _ _ hstop _ ih =>
      rintro (stop | value)
      · rw [hstop]
        trivial
      · exact ih value trivial hopened
  | guard _ _ _ hfailed _ _ ihreturned ih =>
      rintro (⟨failure | value⟩ | value)
      · rw [hfailed]
        trivial
      · exact ihreturned value trivial hopened
      · exact ih value trivial hopened

/-- The operations of a level are those of its node. -/
theorem level_keeps {scope : Nat} {node : Node} (h : steps.Permit scope node) (maxTurns : Nat) :
    (level maxTurns scope node).script.Keeps steps := by
  have hpermits : steps.mandate.Permits scope node := {
    names := fun name hname => ⟨h.look name hname, h.set name hname⟩
    assigns := by
      rintro token name rfl
      exact h.assign name.text (List.mem_singleton_self _)
    raises := h.raise }
  have hfollows : Follows steps.mandate _ (level maxTurns scope node).script .empty :=
    level_follows hpermits maxTurns
  exact hfollows.keeps h.toCommon nofun

end

/-! ## Errors of a whole evaluation -/

/-- All steps, but of errors only those that the node may meet. -/
def raising (node : Node) : Steps where
  may operation := ∀ fault, operation = .raise fault → node.MayRaise fault
  gives _ _ := True

theorem raising_permit (scope : Nat) (node : Node) : (raising node).Permit scope node where
  enclose _ := nofun
  bind _ _ _ _ _ := nofun
  write _ := nofun
  newArray _ := nofun
  newHash _ := nofun
  newFunction _ _ _ := nofun
  look _ _ := nofun
  set _ _ _ := nofun
  assign _ _ _ := nofun
  raise fault h other heq := by
    obtain rfl := Operation.raise.inj heq
    exact h

/-- An error that is made on the way is one that some node on the way may meet. -/
theorem exists_visit_of_raise {maxTurns depth : Nat} {visit : Visit} {fault : Fault}
    (h : .raise fault ∈ history maxTurns depth visit.scope visit.node visit.world) :
    ∃ entry ∈ visits maxTurns depth visit, entry.2.node.MayRaise fault := by
  induction depth generalizing visit with
  | zero => cases h
  | succ depth ih =>
      have hkeeps := level_keeps (raising_permit visit.scope visit.node) maxTurns
      obtain hown | ⟨part, hpart, hinside⟩ :=
        hkeeps.of_mem_operations (fun _ _ => trivial) h
      · exact ⟨_, mem_visits_self maxTurns (depth + 1) visit, hown fault rfl⟩
      · obtain ⟨entry, hentry, hmay⟩ := ih hinside
        exact ⟨entry, visits_subset_of_mem hpart hentry, hmay⟩

end Monkey.Eval
