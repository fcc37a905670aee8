import Monkey.Proofs.Eval.Cutoff
import Monkey.Proofs.Eval.Success

/-!
# Switches as conditionals

A switch goes through its clauses in order: it evaluates a condition, runs the body behind it if the
clause is taken, and turns to the next clause otherwise. Without a subject it is a chain of
conditionals, each in the alternative of the one before. The chain lies deeper, so it needs higher
limits; apart from that both end in the same way (`switch_is_if_chain`).
-/
namespace Monkey.Eval

open Monkey.Eval.Action

/-- A condition with the statements that depend on it. -/
structure Branch where
  token : Token
  condition : Node
  body : List Node

/-- The branch as a clause of a switch. -/
def Branch.clause (branch : Branch) : Node :=
  .clause branch.token branch.condition branch.body

/-- The node is a chain of conditionals with these branches, as in
`if (c) { b } else { if (d) { e } else { ... } }`. The last one has no alternative, and without any
branch there is nothing. -/
inductive IfChain : List Branch → Node → Prop where
  | empty : IfChain [] .hole
  | last (branch : Branch) (first opening : Token) :
      IfChain [branch]
        (.conditional first branch.condition (.block opening branch.body) .hole)
  | more {next : Branch} {rest : List Branch} {chain : Node} (branch : Branch)
      (first opening second inside : Token) (h : IfChain (next :: rest) chain) :
      IfChain (branch :: next :: rest)
        (.conditional first branch.condition (.block opening branch.body)
          (.block second [.expression inside chain]))

theorem exists_ifChain (branches : List Branch) : ∃ chain, IfChain branches chain := by
  induction branches with
  | nil => exact ⟨_, .empty⟩
  | cons branch rest ih =>
      obtain ⟨chain, hchain⟩ := ih
      cases rest with
      | nil => exact ⟨_, .last branch branch.token branch.token⟩
      | cons next rest =>
          exact ⟨_, .more branch branch.token branch.token branch.token branch.token hchain⟩

/-! ## Clauses one after another -/

/-- The conditions come to values one after another, and none of these is one to take. -/
inductive PassedBy (maxTurns depth scope : Nat) (taken : Value → Prop) :
    List Branch → World → World → Prop where
  | nil {world : World} : PassedBy maxTurns depth scope taken [] world world
  | cons {branch : Branch} {branches : List Branch} {world middle after : World} {value : Value}
      (hcondition : Comes maxTurns depth scope branch.condition world value middle)
      (hvalue : ¬ taken value) (hrest : PassedBy maxTurns depth scope taken branches middle after) :
      PassedBy maxTurns depth scope taken (branch :: branches) world after

section
variable {maxTurns depth scope : Nat} {subject : Option Value} {branch : Branch}
  {passed rest : List Branch} {world middle after : World} {value : Value}

theorem Comes.run_clauses (h : Comes maxTurns depth scope branch.condition world value after) :
    (clauses scope subject ((branch :: rest).map Branch.clause)).run (eval maxTurns depth) world =
      if isTaken subject value then
        (statements scope .null branch.body).run (eval maxTurns depth) after
      else (clauses scope subject (rest.map Branch.clause)).run (eval maxTurns depth) after := by
  refine (bind_of_ok h.run _).trans ?_
  split <;> rfl

theorem Comes.evaluated_clauses
    (h : Comes maxTurns depth scope branch.condition world value after) :
    (clauses scope subject ((branch :: rest).map Branch.clause)).evaluated (eval maxTurns depth)
        world =
      branch.condition ::
        if isTaken subject value then
          (statements scope .null branch.body).evaluated (eval maxTurns depth) after
        else
          (clauses scope subject (rest.map Branch.clause)).evaluated (eval maxTurns depth)
            after := by
  refine (evaluated_bind_evaluate h _).trans ?_
  split <;> rfl

/-- Behind clauses that are passed by, a switch goes on as if they were not there. -/
theorem PassedBy.run_clauses
    (h : PassedBy maxTurns depth scope (isTaken subject · = true) passed world middle)
    (rest : List Branch) :
    (clauses scope subject ((passed ++ rest).map Branch.clause)).run (eval maxTurns depth) world =
      (clauses scope subject (rest.map Branch.clause)).run (eval maxTurns depth) middle := by
  induction h with
  | nil => rfl
  | cons hcondition hvalue _ ih =>
      rw [List.cons_append, hcondition.run_clauses, if_neg hvalue]
      exact ih

/-- Of clauses that are passed by, the conditions are evaluated and nothing else. -/
theorem PassedBy.evaluated_clauses
    (h : PassedBy maxTurns depth scope (isTaken subject · = true) passed world middle)
    (rest : List Branch) :
    (clauses scope subject ((passed ++ rest).map Branch.clause)).evaluated (eval maxTurns depth)
        world =
      passed.map (·.condition) ++
        (clauses scope subject (rest.map Branch.clause)).evaluated (eval maxTurns depth)
          middle := by
  induction h with
  | nil => rfl
  | cons hcondition hvalue _ ih =>
      rw [List.cons_append, hcondition.evaluated_clauses, if_neg hvalue, ih]
      rfl

end

/-- Statements are evaluated from the first on, up to one that does not come to a value. -/
theorem evaluated_statements_prefix (inner : Evaluator) (scope : Nat) (last : Value)
    (nodes : List Node) (world : World) :
    (statements scope last nodes).evaluated inner world <+: nodes := by
  induction nodes generalizing last world with
  | nil => exact List.prefix_rfl
  | cons node rest ih =>
      by_cases hvalue : ∃ value, (inner scope node world).value = some (.ok value)
      · obtain ⟨value, hvalue⟩ := hvalue
        have hresult : inner scope node world =
            ⟨some (.ok value), (inner scope node world).world⟩ := by rw [← hvalue]
        rw [statements, evaluated_bind_evaluate hresult]
        exact (List.prefix_cons_inj node).mpr (ih value _)
      · rw [statements, evaluated_bind_evaluate_of_ne (not_exists.mp hvalue)]
        exact List.prefix_append [node] rest

/-! ## Runs that outlast others -/

/-- Where the second run ends, the first one ends in the same way. -/
def Covers (longer shorter : Result (Except Stop α)) : Prop :=
  ∀ reply after, shorter = ⟨some reply, after⟩ → longer = ⟨some reply, after⟩

namespace Covers

theorem refl (result : Result (Except Stop α)) : Covers result result :=
  fun _ _ hended => hended

theorem trans {longest longer shorter : Result (Except Stop α)} (h : Covers longest longer)
    (hshorter : Covers longer shorter) : Covers longest shorter :=
  fun reply after hended => h reply after (hshorter reply after hended)

theorem of_none (longer : Result (Except Stop α)) (world : World) : Covers longer ⟨none, world⟩ :=
  fun _ _ hended => nomatch hended

/-- An action under an evaluator that outlasts another. -/
theorem run {outer inner : Evaluator} (h : Outlasts outer inner) (action : Action α)
    (world : World) : Covers (action.run outer world) (action.run inner world) :=
  fun _ _ hended => (Prolongs.refl action.script).run h hended

/-- Behind one and the same evaluation, it is enough that what follows is covered. -/
theorem bind_evaluate {outer inner : Evaluator} (h : Outlasts outer inner) {scope : Nat}
    {node : Node} {world : World} {follow next : Value → Action β}
    (hnext : ∀ value after,
      Covers ((follow value).run outer after) ((next value).run inner after)) :
    Covers ((Action.evaluate scope node >>= follow).run outer world)
      ((Action.evaluate scope node >>= next).run inner world) := by
  intro reply after hended
  rcases hresult : inner scope node world with ⟨_ | stop | value, middle⟩
  · rw [bind_of_none ((run_evaluate scope node).trans hresult)] at hended
    cases hended
  · rw [(bind_of_stop ((run_evaluate scope node).trans hresult) next).1] at hended
    have hstopped := h scope node world _ middle hresult
    rwa [(bind_of_stop ((run_evaluate scope node).trans hstopped) follow).1]
  · rw [bind_of_ok ((run_evaluate scope node).trans hresult)] at hended
    have hvalue := h scope node world _ middle hresult
    rw [bind_of_ok ((run_evaluate scope node).trans hvalue)]
    exact hnext value middle reply after hended

end Covers

section
variable {maxTurns scope : Nat}

/-- A block of one expression does what the expression does, two levels further up. -/
theorem eval_block_expression (depth : Nat) (first second : Token) (node : Node) (world : World) :
    eval maxTurns (depth + 2) scope (.block first [.expression second node]) world =
      eval maxTurns depth scope node world := by
  have hlast : (fun value => statements scope value []) = (Pure.pure : Value → Action Value) := by
    funext value
    rfl
  have hblock : eval maxTurns (depth + 2) scope (.block first [.expression second node]) world =
      (Action.evaluate scope (.expression second node)).run (eval maxTurns (depth + 1)) world := by
    show (statements scope .null [.expression second node]).run _ world = _
    rw [statements, hlast, bind_pure]
  rw [hblock, run_evaluate]
  exact run_evaluate scope node

/-- On any level, it ends nowhere but where the expression does. -/
theorem covers_block_expression (depth : Nat) (first second : Token) (node : Node)
    (world : World) :
    Covers (eval maxTurns depth scope node world)
      (eval maxTurns depth scope (.block first [.expression second node]) world) := by
  match depth with
  | 0 => exact .of_none _ world
  | 1 => exact .of_none _ world
  | depth + 2 =>
      rw [eval_block_expression]
      exact eval_outlasts (Nat.le_refl _) (by omega) scope node world

/-- A conditional with the same branch covers a clause, if its alternative covers the clauses that
follow. -/
theorem conditional_covers {depth deeper : Nat} (hdepth : depth < deeper) (branch : Branch)
    (first opening : Token) {alternative : Node} {rest : List Node}
    (hrest : ∀ after, Covers
      ((if alternative.isHole then return .null else Action.evaluate scope alternative).run
        (eval maxTurns deeper) after)
      ((clauses scope none rest).run (eval maxTurns depth) after)) (world : World) :
    Covers
      (eval maxTurns (deeper + 1) scope
        (.conditional first branch.condition (.block opening branch.body) alternative) world)
      ((clauses scope none (branch.clause :: rest)).run (eval maxTurns depth) world) := by
  have houtlasts : Outlasts (eval maxTurns deeper) (eval maxTurns depth) :=
    eval_outlasts (Nat.le_refl _) (Nat.le_of_lt hdepth)
  refine Covers.bind_evaluate houtlasts fun value after => ?_
  show Covers _ ((if value.holds then statements scope .null branch.body
    else clauses scope none rest).run (eval maxTurns depth) after)
  by_cases hholds : value.holds = true
  · obtain ⟨deeper, rfl⟩ : ∃ more, deeper = more + 1 := ⟨deeper - 1, by omega⟩
    rw [if_pos hholds, if_pos hholds, run_evaluate]
    exact .run (eval_outlasts (Nat.le_refl _) (by omega)) _ _
  · rw [if_neg hholds, if_neg hholds]
    exact hrest after

/-- Each branch costs the chain three levels: a conditional, a block and a statement. -/
theorem IfChain.covers {branches : List Branch} {chain : Node} (h : IfChain branches chain)
    {depth deeper : Nat} (hdepth : depth + 3 * branches.length < deeper) (world : World) :
    Covers (eval maxTurns deeper scope chain world)
      ((clauses scope none (branches.map Branch.clause)).run (eval maxTurns depth) world) := by
  induction h generalizing deeper world with
  | empty =>
      obtain ⟨deeper, rfl⟩ : ∃ more, deeper = more + 1 := ⟨deeper - 1, by omega⟩
      exact .refl _
  | last branch first opening =>
      rw [List.length_singleton] at hdepth
      obtain ⟨deeper, rfl⟩ : ∃ more, deeper = more + 1 := ⟨deeper - 1, by omega⟩
      exact conditional_covers (by omega) branch first opening (fun _ => .refl _) world
  | more branch first opening second inside _ ih =>
      rw [List.length_cons] at hdepth
      obtain ⟨deeper, rfl⟩ : ∃ more, deeper = more + 3 := ⟨deeper - 3, by omega⟩
      refine conditional_covers (by omega) branch first opening (fun after => ?_) world
      rw [if_neg (by simp [Node.isHole]), run_evaluate, eval_block_expression]
      exact ih (by omega) after

/-- A clause covers a conditional with the same branch, if the clauses that follow cover its
alternative. -/
theorem clause_covers {depth shallower : Nat} (hdepth : shallower ≤ depth) (branch : Branch)
    (first opening : Token) {alternative : Node} {rest : List Node}
    (hrest : ∀ after, Covers ((clauses scope none rest).run (eval maxTurns depth) after)
      ((if alternative.isHole then return .null else Action.evaluate scope alternative).run
        (eval maxTurns shallower) after)) (world : World) :
    Covers ((clauses scope none (branch.clause :: rest)).run (eval maxTurns depth) world)
      (eval maxTurns (shallower + 1) scope
        (.conditional first branch.condition (.block opening branch.body) alternative) world) := by
  refine Covers.bind_evaluate (eval_outlasts (Nat.le_refl _) hdepth) fun value after => ?_
  show Covers ((if value.holds then statements scope .null branch.body
    else clauses scope none rest).run (eval maxTurns depth) after) _
  by_cases hholds : value.holds = true
  · rw [if_pos hholds, if_pos hholds, run_evaluate]
    cases shallower with
    | zero => exact .of_none _ after
    | succ shallower => exact .run (eval_outlasts (Nat.le_refl _) (by omega)) _ _
  · rw [if_neg hholds, if_neg hholds]
    exact hrest after

theorem IfChain.covered {branches : List Branch} {chain : Node} (h : IfChain branches chain)
    {depth shallower : Nat} (hdepth : shallower ≤ depth + 1) (world : World) :
    Covers ((clauses scope none (branches.map Branch.clause)).run (eval maxTurns depth) world)
      (eval maxTurns shallower scope chain world) := by
  induction h generalizing shallower world with
  | empty =>
      cases shallower with
      | zero => exact .of_none _ world
      | succ shallower => exact .refl _
  | last branch first opening =>
      cases shallower with
      | zero => exact .of_none _ world
      | succ shallower =>
          exact clause_covers (by omega) branch first opening (fun _ => .refl _) world
  | more branch first opening second inside _ ih =>
      cases shallower with
      | zero => exact .of_none _ world
      | succ shallower =>
          refine clause_covers (by omega) branch first opening (fun after => ?_) world
          rw [if_neg (by simp [Node.isHole]), run_evaluate]
          exact (ih (by omega) after).trans (covers_block_expression _ _ _ _ _)

end

/-- A switch without a subject ends as every chain of conditionals with its branches does: with the
same value, error or return and in the same world, its output included. Limits cut them off in
different places, since the chain lies three levels deeper for each branch. Where no condition
holds, the result is null. Otherwise the switch ends as the body behind the first condition that
holds, and evaluates no conditions but those up to this one and no statements but those of this
body. -/
theorem switch_is_if_chain (maxTurns scope : Nat) (token : Token) (branches : List Branch)
    (world : World) :
    let switch := Node.switch token .hole (branches.map Branch.clause)
    (∃ chain, IfChain branches chain) ∧
    (∀ chain depth reply after, IfChain branches chain →
      eval maxTurns depth scope switch world = ⟨some reply, after⟩ →
        eval maxTurns (depth + 3 * branches.length) scope chain world = ⟨some reply, after⟩) ∧
    (∀ chain depth reply after, IfChain branches chain →
      eval maxTurns depth scope chain world = ⟨some reply, after⟩ →
        eval maxTurns depth scope switch world = ⟨some reply, after⟩) ∧
    (∀ depth after, PassedBy maxTurns depth scope (·.holds = true) branches world after →
      eval maxTurns (depth + 1) scope switch world = ⟨some (.ok .null), after⟩) ∧
    ∀ depth passed branch rest middle value last, branches = passed ++ branch :: rest →
      PassedBy maxTurns depth scope (·.holds = true) passed world middle →
      Comes maxTurns depth scope branch.condition middle value last → value.holds = true →
        eval maxTurns (depth + 1) scope switch world =
          (statements scope .null branch.body).run (eval maxTurns depth) last ∧
        ∃ ran, ran <+: branch.body ∧
          (level maxTurns scope switch).evaluated (eval maxTurns depth) world =
            (passed ++ [branch]).map (·.condition) ++ ran := by
  intro switch
  refine ⟨exists_ifChain branches, ?_, ?_, ?_, ?_⟩
  · intro chain depth reply after hchain hended
    cases depth with
    | zero => cases hended
    | succ depth => exact hchain.covers (by omega) world reply after hended
  · intro chain depth reply after hchain hended
    cases depth with
    | zero => cases hended
    | succ depth => exact hchain.covered (Nat.le_refl _) world reply after hended
  · intro depth after hpassed
    have hnone : PassedBy maxTurns depth scope (isTaken none · = true) branches world after :=
      hpassed
    have hrun := hnone.run_clauses []
    rw [List.append_nil] at hrun
    exact hrun
  · intro depth passed branch rest middle value last hbranches hpassed hcondition hholds
    subst hbranches
    have hnone : PassedBy maxTurns depth scope (isTaken none · = true) passed world middle :=
      hpassed
    have htaken : isTaken none value = true := hholds
    have hrun := hnone.run_clauses (branch :: rest)
    have hevaluated := hnone.evaluated_clauses (branch :: rest)
    rw [hcondition.run_clauses, if_pos htaken] at hrun
    rw [hcondition.evaluated_clauses, if_pos htaken] at hevaluated
    refine ⟨hrun, _, evaluated_statements_prefix (eval maxTurns depth) scope .null branch.body last,
      hevaluated.trans ?_⟩
    simp

/-- The second condition writes and holds; its body binds a name and returns. The third condition
would fail. -/
theorem switch_is_if_chain_return :
    let puts : Node := .call default (.identifier ⟨default, "puts"⟩) [.integer default 7]
    let skipped : Branch := ⟨default, .boolean default false, [puts]⟩
    let taken : Branch := ⟨default, puts, [.binding default ⟨default, "a"⟩ (.integer default 3),
      .returning default (.identifier ⟨default, "a"⟩), puts]⟩
    let failing : Branch := ⟨default, .identifier ⟨default, "b"⟩, []⟩
    let switch (branches : List Branch) : Node :=
      .switch default .hole (branches.map Branch.clause)
    let after := (World.initial.write "7\n").set 0 "a" (.integer 3)
    (∃ chain, IfChain [skipped, taken, failing] chain ∧
      eval 9 4 0 (switch [skipped, taken, failing]) .initial =
        ⟨some (.error (.returning (.integer 3))), after⟩ ∧
      eval 9 13 0 chain .initial = ⟨some (.error (.returning (.integer 3))), after⟩) ∧
    (∃ ran, ran <+: taken.body ∧
      (level 9 0 (switch [skipped, taken, failing])).evaluated (eval 9 3) .initial =
        [skipped.condition, taken.condition] ++ ran) ∧
    eval 9 4 0 (switch [skipped]) .initial = ⟨some (.ok .null), .initial⟩ := by
  intro puts skipped taken failing switch after
  have hfalse : Comes 9 3 0 skipped.condition .initial (.boolean false) .initial := rfl
  have hskipped : PassedBy 9 3 0 (·.holds = true) [skipped] .initial .initial :=
    .cons hfalse (by decide) .nil
  have hcondition : Comes 9 3 0 taken.condition .initial (.integer 1)
      (World.initial.write "7\n") := by
    have hfound : World.initial.get? 0 "puts" = some (.builtin .puts) := by
      rw [World.get?, World.holder?, World.chain]
      rfl
    have hcallee : Comes 9 2 0 (.identifier ⟨default, "puts"⟩) .initial (.builtin .puts) .initial :=
      .identifier hfound rfl
    exact (bind_of_ok hcallee.run _).trans rfl
  have hbody : (statements 0 .null taken.body).run (eval 9 3) (World.initial.write "7\n") =
      ⟨some (.error (.returning (.integer 3))), after⟩ := by
    have hfound : after.get? 0 "a" = some (.integer 3) := by
      rw [World.get?, World.holder?, World.chain]
      rfl
    have hname : Comes 9 2 0 (.identifier ⟨default, "a"⟩) after (.integer 3) after :=
      .identifier hfound rfl
    have hreturn : (Action.evaluate 0 (.returning default (.identifier ⟨default, "a"⟩))).run
        (eval 9 3) after = ⟨some (.error (.returning (.integer 3))), after⟩ :=
      (run_evaluate _ _).trans ((bind_of_ok hname.run _).trans rfl)
    exact (bind_of_stop hreturn _).1
  obtain ⟨⟨chain, hchain⟩, hforth, _, _, htaken⟩ :=
    switch_is_if_chain 9 0 default [skipped, taken, failing] .initial
  obtain ⟨_, _, _, hnone, _⟩ := switch_is_if_chain 9 0 default [skipped] .initial
  obtain ⟨hended, hevaluated⟩ :=
    htaken 3 [skipped] taken [failing] _ _ _ rfl hskipped hcondition rfl
  have hswitch := hended.trans hbody
  exact ⟨⟨chain, hchain, hswitch, hforth chain 4 _ _ hchain hswitch⟩, hevaluated,
    hnone 3 _ hskipped⟩

end Monkey.Eval
