import Monkey.Proofs.Eval.Calls
import Monkey.Proofs.Eval.Throughout
import Mathlib

/-!
# A return reaches its own call

Behind an evaluation that stops, a construct does nothing more and stops in the same way. Only a
program, and a call that has opened the scope of the function, go on: for them the value that
returns is the result. So a `return` that is carried out anywhere inside the body of a function, but
not inside the body of another function, is what the call of that very function comes to.
-/
namespace Monkey.Eval

open Monkey.Eval.Action

/-! ## Where a value that returns is caught -/

/-- Whether a node catches a value that returns to it behind these events: a program does, and a
call that has opened the scope of the function. -/
def catches (node : Node) (before : List Event) : Bool :=
  match node with
  | .program .. => true
  | .call .. => before.any Event.opens
  | _ => false

/-- Somewhere inside a visit a `return` is carried out: its operand has come to a value, behind
which the world is as given. Nothing around it, up to the visit, catches the value. -/
inductive Returns (maxTurns : Nat) : Nat → Visit → Value → World → Prop where
  | here {depth scope : Nat} {token : Token} {operand : Node} {world after : World} {value : Value}
      (h : eval maxTurns depth scope operand world = ⟨some (.ok value), after⟩) :
      Returns maxTurns (depth + 1) ⟨scope, .returning token operand, world⟩ value after
  | inside {depth : Nat} {visit part : Visit} {before : List Event} {value : Value} {after : World}
      (hleads : visit.Leads maxTurns depth before part) (hopen : catches visit.node before = false)
      (h : Returns maxTurns depth part value after) :
      Returns maxTurns (depth + 1) visit value after

/-! ## Scripts that pass on what stops -/

section
variable {α : Type} {tree : Node → Prop} {returns : Prop} {post : α → Prop}
  {script : Script (Except Stop α)} {inner : Evaluator} {world after : World}

theorem Rules.replies_plain {catches : Prop} (operation : Operation) (world : World) :
    (Rules.plain tree returns catches).Replies operation (operation.perform world).1 :=
  Rules.replies_perform (fun _ => trivial) (holds_true world) operation

/-- The evaluator comes to no error as a value. -/
def Proper (inner : Evaluator) : Prop :=
  ∀ scope node world value, (inner scope node world).value = some (.ok value) →
    value.isFailure = false

theorem Proper.brings (hinner : Proper inner) {scope : Nat} {node : Node} {value : Value}
    {catches : Prop} (h : inner scope node world = ⟨some (.ok value), after⟩) :
    (Rules.plain tree returns catches).Brings value :=
  ⟨⟨trivial, hinner scope node world value (by rw [h])⟩, trivial⟩

/-- A visit that stops is the last step of a script that does not catch, and the script stops in the
same way. -/
theorem Obeys.run_of_stop (h : Obeys (.plain tree returns False) post script)
    (hinner : Proper inner) {before : List Event} {visit : Visit} {stop : Stop}
    (harrives : script.Arrives inner world before visit)
    (hstopped : visit.under inner = ⟨some (.error stop), after⟩) :
    script.run inner world = ⟨some (.error stop), after⟩ ∧
      script.events inner world = before ++ [visit.event inner] := by
  induction h generalizing world before with
  | done | failed | returning | exhausted => cases harrives
  | @perform operation next hbears _ ih =>
      cases harrives with
      | performed harrives =>
          obtain ⟨hrun, hevents⟩ := ih _ (Rules.replies_plain operation world) harrives
          exact ⟨hrun, congrArg (_ :: ·) hevents⟩
  | @evaluate scope node next htree hstop _ ih =>
      cases harrives with
      | here =>
          have hresult : inner scope node world = ⟨some (.error stop), after⟩ := hstopped
          constructor
          · rw [Script.run_evaluate_some hresult, hstop]
            rfl
          · rw [Script.events_evaluate_some hresult, hstop, Visit.event, hstopped]
            rfl
      | @evaluated _ _ _ _ middle reply _ _ hresult harrives =>
          cases reply with
          | error other =>
              rw [hstop] at harrives
              cases harrives
          | ok value =>
              obtain ⟨hrun, hevents⟩ := ih value (hinner.brings hresult) harrives
              rw [Script.run_evaluate_some hresult, Script.events_evaluate_some hresult, hevents]
              exact ⟨hrun, rfl⟩
  | guard hcatches => exact hcatches.elim

/-- A script that neither returns nor catches stops with a value that returns only if one of its
visits does. -/
theorem Obeys.exists_arrives_of_returning (h : Obeys (.plain tree False False) post script)
    (hinner : Proper inner) {value : Value}
    (hrun : script.run inner world = ⟨some (.error (.returning value)), after⟩) :
    ∃ before visit, script.Arrives inner world before visit ∧
      visit.under inner = ⟨some (.error (.returning value)), after⟩ := by
  induction h generalizing world with
  | done | failed | exhausted => cases hrun
  | returning hreturns => exact hreturns.elim
  | @perform operation next hbears _ ih =>
      obtain ⟨before, visit, harrives, hvisit⟩ := ih _ (Rules.replies_plain operation world) hrun
      exact ⟨_, visit, .performed harrives, hvisit⟩
  | @evaluate scope node next htree hstop _ ih =>
      rcases hresult : inner scope node world with ⟨_ | stop | result, middle⟩
      · rw [Script.run_evaluate_none hresult] at hrun
        cases hrun
      · rw [Script.run_evaluate_some hresult, hstop] at hrun
        cases hrun
        exact ⟨[], ⟨scope, node, world⟩, .here, hresult⟩
      · rw [Script.run_evaluate_some hresult] at hrun
        obtain ⟨before, visit, harrives, hvisit⟩ := ih result (hinner.brings hresult) hrun
        exact ⟨_, visit, .evaluated hresult harrives, hvisit⟩
  | guard hcatches => exact hcatches.elim

end

theorem proper_eval (maxTurns depth : Nat) : Proper (eval maxTurns depth) := by
  intro scope node world value hvalue
  have habides : Abides (.plain (fun _ => True) True True) maxTurns depth ⟨scope, node, world⟩ :=
    abides_of_grants (hereditary_true.lawful True True) trivial trivial (holds_true world) trivial
      fun _ _ => ⟨fun _ _ => trivial, fun _ _ _ _ => trivial⟩
  exact (habides.ends.done value hvalue).1.2

/-- Whatever is called, a call does not end in a return. -/
theorem apply_ne_returning {inner : Evaluator} {world : World} (hinner : Proper inner)
    (callee : Value) (arguments : List Value) (value : Value) (after : World) :
    (apply callee arguments).run inner world ≠ ⟨some (.error (.returning value)), after⟩ := by
  intro hrun
  by_cases hcallee : ∃ stamp parameters body home, callee = .function stamp parameters body home
  · obtain ⟨stamp, parameters, body, home, rfl⟩ := hcallee
    rw [run_apply_function] at hrun
    exact Result.caught_ne_returning _ _ _ hrun
  · have hidle := @apply_idle callee arguments fun stamp parameters body home heq =>
      hcallee ⟨stamp, parameters, body, home, heq⟩
    obtain ⟨before, visit, harrives, _⟩ :=
      hidle.obeys_plain.exists_arrives_of_returning hinner hrun
    exact hidle.not_arrives harrives

/-! ## One level -/

section
variable {maxTurns depth scope : Nat} {world after : World} {before : List Event} {part : Visit}
  {value : Value}

/-- Behind a value that returns to it the node does nothing more. It has the value as its result if
it catches it, and passes it on if not. -/
structure Settles (maxTurns depth : Nat) (visit : Visit) (before : List Event) (part : Visit)
    (value : Value) (after : World) : Prop where
  last : (level maxTurns visit.scope visit.node).script.events (eval maxTurns depth) visit.world =
    before ++ [part.event (eval maxTurns depth)]
  result : visit.under (eval maxTurns (depth + 1)) =
    if catches visit.node before then ⟨some (.ok value), after⟩
    else ⟨some (.error (.returning value)), after⟩

theorem settles_program {token : Token} {nodes : List Node}
    (h : Visit.Leads maxTurns depth ⟨scope, .program token nodes, world⟩ before part)
    (hpart : part.under (eval maxTurns depth) = ⟨some (.error (.returning value)), after⟩) :
    Settles maxTurns depth ⟨scope, .program token nodes, world⟩ before part value after := by
  have hobeys : Obeys (.plain (fun _ => True) False False) _
      (statements scope .null nodes).script :=
    statements_obeys (hereditary_true.lawful False False).sound scope fun _ _ => trivial
  obtain ⟨hrun, hevents⟩ :=
    hobeys.run_of_stop (proper_eval maxTurns depth) (arrives_catchReturn h) hpart
  constructor
  · exact (events_catchReturn _).trans hevents
  · refine (run_catchReturn _).trans ?_
    rw [Action.run, hrun]
    rfl

theorem settles_call {token : Token} {callee : Node} {arguments : List Node}
    (h : Visit.Leads maxTurns depth ⟨scope, .call token callee arguments, world⟩ before part)
    (hpart : part.under (eval maxTurns depth) = ⟨some (.error (.returning value)), after⟩) :
    Settles maxTurns depth ⟨scope, .call token callee arguments, world⟩ before part value
      after := by
  have hcall : level maxTurns scope (.call token callee arguments) =
      operands scope callee arguments >>= fun found => apply found.1 found.2 :=
    call_eq scope callee arguments
  obtain hoperand | ⟨⟨function, given⟩, middle, more, hrun, rfl, hbody⟩ := arrives_call h
  · have hobeys : Obeys (.plain (fun _ => True) False False) _
        (operands scope callee arguments).script :=
      operands_obeys (hereditary_true.lawful False False).sound scope fun _ _ => trivial
    obtain ⟨hrun, hevents⟩ := hobeys.run_of_stop (proper_eval maxTurns depth) hoperand hpart
    obtain ⟨hstopped, hsame⟩ := bind_of_stop hrun fun found => apply found.1 found.2
    have hnone : before.any Event.opens = false := by
      have hoperands : OpensNone (eval maxTurns depth) (operands scope callee arguments) :=
        opensNone_operands scope callee arguments
      have hopens := hoperands world
      rw [hevents, List.any_append, Bool.or_eq_false_iff] at hopens
      exact hopens.1
    constructor
    · show (level maxTurns scope (.call token callee arguments)).script.events _ world = _
      rw [hcall, hsame, hevents]
    · show (level maxTurns scope (.call token callee arguments)).run _ world = _
      rw [hcall, hstopped]
      simp [catches, hnone]
  · by_cases hfunction : ∃ stamp parameters body home,
        function = .function stamp parameters body home
    · obtain ⟨stamp, parameters, body, home, rfl⟩ := hfunction
      obtain ⟨rfl, hopens, hevents⟩ := arrives_apply_function stamp parameters body home given hbody
      constructor
      · show (level maxTurns scope (.call token callee arguments)).script.events _ world = _
        rw [hcall, events_bind_of_ok hrun, hevents, List.append_assoc]
      · show (level maxTurns scope (.call token callee arguments)).run _ world = _
        rw [Visit.under] at hpart
        rw [hcall, bind_of_ok hrun, run_apply_function, hpart]
        simp [catches, hopens, Result.caught]
    · have hidle := @apply_idle function given fun stamp parameters body home heq =>
        hfunction ⟨stamp, parameters, body, home, heq⟩
      exact absurd hbody hidle.not_arrives

/-- All other nodes pass on what returns to them. -/
theorem settles_of_not_boundary {node : Node} (hnode : node.isBoundary = false)
    (h : Visit.Leads maxTurns depth ⟨scope, node, world⟩ before part)
    (hpart : part.under (eval maxTurns depth) = ⟨some (.error (.returning value)), after⟩) :
    Settles maxTurns depth ⟨scope, node, world⟩ before part value after := by
  have hobeys : Obeys (.plain (fun _ => True) True False) _ (level maxTurns scope node).script :=
    level_obeys (hereditary_true.lawful True False) trivial (fun _ _ _ _ => trivial)
      (fun _ _ _ => trivial) (by simp [hnode]) maxTurns scope
  obtain ⟨hrun, hevents⟩ := hobeys.run_of_stop (proper_eval maxTurns depth) h hpart
  refine ⟨hevents, ?_⟩
  have hopen : catches node before = false := by
    cases node <;> first | rfl | cases hnode
  rw [hopen]
  exact hrun

theorem settles {visit : Visit} (h : visit.Leads maxTurns depth before part)
    (hpart : part.under (eval maxTurns depth) = ⟨some (.error (.returning value)), after⟩) :
    Settles maxTurns depth visit before part value after := by
  obtain ⟨scope, node, world⟩ := visit
  cases node with
  | program => exact settles_program h hpart
  | call => exact settles_call h hpart
  | _ => exact settles_of_not_boundary rfl h hpart

theorem eval_program_ne_returning {token : Token} {nodes : List Node} :
    eval maxTurns depth scope (.program token nodes) world ≠
      ⟨some (.error (.returning value)), after⟩ := by
  intro heval
  cases depth with
  | zero => cases heval
  | succ depth =>
      have hrun : (catchReturn (statements scope .null nodes)).run (eval maxTurns depth) world =
          ⟨some (.error (.returning value)), after⟩ := heval
      rw [run_catchReturn] at hrun
      exact Result.caught_ne_returning _ _ _ hrun

/-- A call passes on only what returns from one of its operands. -/
theorem exists_operand_of_returning {callee : Node} {arguments : List Node}
    (hrun : (call scope callee arguments).run (eval maxTurns depth) world =
      ⟨some (.error (.returning value)), after⟩) :
    ∃ before part, (call scope callee arguments).script.Arrives (eval maxTurns depth) world before
        part ∧
      part.under (eval maxTurns depth) = ⟨some (.error (.returning value)), after⟩ := by
  have hproper := proper_eval maxTurns depth
  rw [call_eq] at hrun ⊢
  rcases hoperands : (operands scope callee arguments).run (eval maxTurns depth) world with
    ⟨_ | stop | found, middle⟩
  · rw [bind_of_none hoperands] at hrun
    cases hrun
  · rw [(bind_of_stop hoperands _).1] at hrun
    cases hrun
    have hobeys : Obeys (.plain (fun _ => True) False False) _
        (operands scope callee arguments).script :=
      operands_obeys (hereditary_true.lawful False False).sound scope fun _ _ => trivial
    obtain ⟨before, part, harrives, hpart⟩ :=
      hobeys.exists_arrives_of_returning hproper hoperands
    exact ⟨before, part, harrives.bind _, hpart⟩
  · rw [bind_of_ok hoperands] at hrun
    exact absurd hrun (apply_ne_returning hproper _ _ _ _)

theorem exists_leads_of_returning {node : Node} (hboundary : node.isBoundary = false)
    (hreturn : ∀ token operand, node ≠ .returning token operand)
    (heval : eval maxTurns (depth + 1) scope node world =
      ⟨some (.error (.returning value)), after⟩) :
    ∃ before part, Visit.Leads maxTurns depth ⟨scope, node, world⟩ before part ∧
      part.under (eval maxTurns depth) = ⟨some (.error (.returning value)), after⟩ := by
  have hobeys : Obeys (.plain (fun _ => True) False False) _ (level maxTurns scope node).script :=
    level_obeys (hereditary_true.lawful False False) trivial (fun _ _ _ _ => trivial) hreturn
      (by simp [hboundary]) maxTurns scope
  exact hobeys.exists_arrives_of_returning (proper_eval maxTurns depth) heval

/-- What returns from a node was returned to it, or the node is a `return` itself. -/
theorem origin_of_returning {node : Node}
    (heval : eval maxTurns (depth + 1) scope node world =
      ⟨some (.error (.returning value)), after⟩) :
    (∃ token operand, node = .returning token operand ∧
      eval maxTurns depth scope operand world = ⟨some (.ok value), after⟩) ∨
    ∃ before part, Visit.Leads maxTurns depth ⟨scope, node, world⟩ before part ∧
      part.under (eval maxTurns depth) = ⟨some (.error (.returning value)), after⟩ := by
  cases node with
  | program => exact absurd heval eval_program_ne_returning
  | call token callee arguments => exact .inr (exists_operand_of_returning heval)
  | returning token operand =>
      have hrun : (Action.evaluate scope operand >>= fun found => stop (.returning found)).run
          (eval maxTurns depth) world = ⟨some (.error (.returning value)), after⟩ := heval
      have hoperand : (Action.evaluate scope operand).run (eval maxTurns depth) world =
          eval maxTurns depth scope operand world := run_evaluate scope operand
      rcases hresult : eval maxTurns depth scope operand world with ⟨_ | stop | found, middle⟩
      · rw [bind_of_none (hoperand.trans hresult)] at hrun
        cases hrun
      · rw [(bind_of_stop (hoperand.trans hresult) _).1] at hrun
        cases hrun
        have hhere : (Action.evaluate scope operand).script.Arrives (eval maxTurns depth) world []
            ⟨scope, operand, world⟩ := .here
        exact .inr ⟨[], _, hhere.bind _, hresult⟩
      · rw [bind_of_ok (hoperand.trans hresult)] at hrun
        cases hrun
        exact .inl ⟨token, operand, rfl, hresult⟩
  | _ => exact .inr (exists_leads_of_returning rfl (fun _ _ => nofun) heval)

end

/-! ## Any depth -/

section
variable {maxTurns depth : Nat} {visit : Visit} {value : Value} {after : World}

theorem under_of_returns (h : Returns maxTurns depth visit value after) :
    visit.under (eval maxTurns depth) = ⟨some (.error (.returning value)), after⟩ := by
  induction h with
  | @here depth scope token operand world after value h =>
      have hoperand : (Action.evaluate scope operand).run (eval maxTurns depth) world =
          ⟨some (.ok value), after⟩ := (run_evaluate scope operand).trans h
      exact bind_of_ok hoperand fun found => stop (.returning found)
  | inside hleads hopen _ ih =>
      have hresult := (settles hleads ih).result
      rwa [hopen] at hresult

theorem returns_of_under
    (h : visit.under (eval maxTurns depth) = ⟨some (.error (.returning value)), after⟩) :
    Returns maxTurns depth visit value after := by
  induction depth generalizing visit with
  | zero => cases h
  | succ depth ih =>
      obtain ⟨scope, node, world⟩ := visit
      obtain ⟨token, operand, rfl, hoperand⟩ | ⟨before, part, hleads, hpart⟩ :=
        origin_of_returning h
      · exact .here hoperand
      · apply Returns.inside hleads _ (ih hpart)
        -- a node that catches the value does not end in a return
        by_contra hcatches
        have hresult := (settles hleads hpart).result
        rw [if_pos (by simpa using hcatches), h] at hresult
        cases hresult

/-- An error is passed on as such, never returned. -/
theorem isFailure_of_returns (h : Returns maxTurns depth visit value after) :
    value.isFailure = false := by
  induction h with
  | @here depth scope token operand world after value h =>
      exact proper_eval maxTurns depth scope operand world value (by rw [h])
  | inside _ _ _ ih => exact ih

end

/-- Neither a program nor a call ever ends in a return, and to evaluate from outside gives the value
that returns, which is no error. Behind an evaluation that ends in a return a node does nothing
more: programs, and calls in the body of the function, have the value as their result, and all
others end in the same return. So evaluation ends in a return exactly if one is carried out inside
it with nothing around it that catches the value, and if that is so for the body of a function, the
call has the value as its result, in the world as it was at the return. -/
theorem return_reaches_its_call (maxTurns depth : Nat) :
    (∀ scope token nodes world value after,
      eval maxTurns depth scope (.program token nodes) world ≠
        ⟨some (.error (.returning value)), after⟩) ∧
    (∀ callee arguments world value after,
      (apply callee arguments).run (eval maxTurns depth) world ≠
        ⟨some (.error (.returning value)), after⟩) ∧
    (∀ scope node world value after,
      eval maxTurns depth scope node world = ⟨some (.error (.returning value)), after⟩ →
        evaluate ⟨depth, maxTurns⟩ scope node world = (some value, after) ∧
          value.isFailure = false) ∧
    (∀ scope node world before later inside part value after,
      (level maxTurns scope node).script.events (eval maxTurns depth) world =
          before ++ .evaluated inside part ⟨some (.error (.returning value)), after⟩ :: later →
        later = [] ∧ eval maxTurns (depth + 1) scope node world =
          if catches node before then ⟨some (.ok value), after⟩
          else ⟨some (.error (.returning value)), after⟩) ∧
    (∀ visit value after, Returns maxTurns depth visit value after ↔
      visit.under (eval maxTurns depth) = ⟨some (.error (.returning value)), after⟩) ∧
    ∀ stamp parameters body home arguments world value after,
      Returns maxTurns depth ⟨world.scopes.size, body, entered world home parameters arguments⟩
          value after →
        (apply (.function stamp parameters body home) arguments).run (eval maxTurns depth) world =
          ⟨some (.ok value), after⟩ := by
  refine ⟨?_, ?_, ?_, ?_, ?_, ?_⟩
  · exact fun _ _ _ _ _ _ => eval_program_ne_returning
  · exact fun callee arguments _ => apply_ne_returning (proper_eval maxTurns depth) callee arguments
  · intro scope node world value after heval
    have hreturns : Returns maxTurns depth ⟨scope, node, world⟩ value after :=
      returns_of_under heval
    refine ⟨?_, isFailure_of_returns hreturns⟩
    rw [evaluate, heval]
    rfl
  · intro scope node world before later inside part value after hevents
    obtain ⟨start, hleads, hpart⟩ := Script.exists_arrives hevents
    have hsettles : Settles maxTurns depth ⟨scope, node, world⟩ before ⟨inside, part, start⟩ value
        after := settles hleads hpart
    have hlast := hsettles.last
    rw [hevents] at hlast
    have hlater := List.append_cancel_left hlast
    exact ⟨(List.cons.inj hlater).2, hsettles.result⟩
  · exact fun _ _ _ => ⟨under_of_returns, returns_of_under⟩
  · intro stamp parameters body home arguments world value after hreturns
    have hbody : eval maxTurns depth world.scopes.size body
        (entered world home parameters arguments) = ⟨some (.error (.returning value)), after⟩ :=
      under_of_returns hreturns
    rw [run_apply_function, hbody]
    rfl

/-- A `return` in an argument of another call, inside a loop: neither is the other call made nor
does the loop go on, and the scope of the loop stays. -/
theorem return_reaches_its_call_argument :
    let argument : Node :=
      .conditional default (.boolean default true) (.returning default (.integer default 7)) .hole
    let body : Node :=
      .loop default .hole .hole .hole (.call default (.identifier ⟨default, "puts"⟩) [argument])
    let start := entered .initial 0 [] []
    Returns 9 5 ⟨1, body, start⟩ (.integer 7) (start.enclose 1).2 ∧
      (apply (.function 0 [] body 0) []).run (eval 9 5) .initial =
        ⟨some (.ok (.integer 7)), (start.enclose 1).2⟩ := by
  intro argument body start
  obtain ⟨_, _, _, _, hiff, hcall⟩ := return_reaches_its_call 9 5
  have hreturns : Returns 9 5 ⟨1, body, start⟩ (.integer 7) (start.enclose 1).2 :=
    (hiff _ _ _).mpr (by cbv)
  exact ⟨hreturns, hcall 0 [] body 0 [] .initial _ _ hreturns⟩

end Monkey.Eval
