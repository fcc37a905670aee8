import Monkey.Proofs.Eval.Invariant

/-!
# What follows the mandate of an invariant

The mandate of an invariant is to work in scopes that are there. What follows it upholds every
lawful invariant: a value that is at hand while others are evaluated stays good, as the worlds in
between only grow. So evaluation to any depth passes from a state in which the invariant holds, and
does only what is allowed.
-/
namespace Monkey.Eval

variable {α : Type} {invariant : Invariant} {start state after : invariant.State} {hand : Hand}

namespace Invariant

/-- What an invariant lets a script do that starts in this state. -/
def mandate (invariant : Invariant) (start : invariant.State) : Mandate where
  scopes scope := scope < invariant.size start
  around scope := scope < invariant.size start
  names scope _ := scope < invariant.size start
  assigns scope _ := scope < invariant.size start

/-- The invariant holds, the scopes at hand are there and the values at hand are good. -/
structure Suits (invariant : Invariant) (start state : invariant.State) (hand : Hand) : Prop where
  holds : invariant.holds state
  size : invariant.size start ≤ invariant.size state
  opened : ∀ scope, hand.opened scope → scope < invariant.size state
  values : ∀ value, hand.values value → invariant.good state value
  brought : ∀ value, hand.brought value → invariant.good state value

namespace Suits

theorem empty (hstate : invariant.holds state) : invariant.Suits state state .empty :=
  ⟨hstate, Nat.le_refl _, nofun, nofun, nofun⟩

theorem call (hstate : invariant.holds state) {callee : Value}
    (hcallee : invariant.good state callee) {arguments : List Value}
    (harguments : ∀ value ∈ arguments, invariant.good state value) :
    invariant.Suits state state (.call callee arguments) where
  holds := hstate
  size := Nat.le_refl _
  opened _ hfalse := hfalse.elim
  values _ heq := heq ▸ hcallee
  brought := harguments

variable (h : invariant.Suits start state hand)
include h

theorem scope {scope : Nat} (hscope : scope < invariant.size start) :
    scope < invariant.size state :=
  Nat.lt_of_lt_of_le hscope h.size

theorem reaches {scope : Nat} (hscope : (invariant.mandate start).Reaches hand scope) :
    scope < invariant.size state :=
  hscope.elim h.scope (h.opened scope)

theorem bring (hlater : invariant.Later state after) {value : Value}
    (hvalue : invariant.good after value) : invariant.Suits start after (hand.bring value) where
  holds := hlater.holds
  size := Nat.le_trans h.size hlater.size
  opened scope hopened := hlater.scope (h.opened scope hopened)
  values other hother := hlater.good other (h.values other hother)
  brought other hother :=
    hother.elim (fun heq => heq ▸ hvalue) fun hold => hlater.good other (h.brought other hold)

variable (hlawful : invariant.Lawful)
include hlawful

theorem good {value : Value} (hvalue : (invariant.mandate start).Makes hand value) :
    invariant.good state value := by
  induction hvalue with
  | held hvalue => exact h.values _ hvalue
  | brought hvalue => exact h.brought _ hvalue
  | null => exact hlawful.null state
  | boolean value => exact hlawful.boolean state value
  | string value => exact hlawful.string state value
  | integer | bytes | count => exact hlawful.integer state _
  | element _ hmem ih => exact hlawful.elements state _ _ ih _ hmem
  | increment hnew =>
      obtain ⟨number, _, rfl⟩ := Value.exists_of_increment hnew
      exact hlawful.integer state _
  | unary hresult => exact hlawful.unary state _ _ _ hresult
  | binary _ hresult ih => exact hlawful.binary state _ _ _ _ ih hresult
  | index _ hresult ih => exact hlawful.index state _ _ _ ih hresult

theorem may {operation : Operation} (hmay : (invariant.mandate start).May hand operation) :
    invariant.May state operation := by
  have hbears : operation.Bears (invariant.good state) := hmay.bears fun _ => h.good hlawful
  cases operation with
  | enclose outer =>
      -- the scope around the new one is not that of a call, which need not even be known here
      obtain houter | ⟨stamp, parameters, body, hfunction⟩ := hmay
      · exact h.scope houter
      · exact hlawful.function state _ _ _ _ (h.good hlawful hfunction)
  | look scope name => exact h.scope hmay
  | set scope name value => exact ⟨hmay.1.elim (h.opened scope) h.scope, hbears⟩
  | assign scope name value => exact ⟨h.scope hmay.1, hbears⟩
  | write => trivial
  | newArray elements => exact hbears
  | newHash entries => exact fun entry hmem => (hbears entry hmem).2
  | newFunction parameters body scope => exact h.scope hmay.1
  | raise => exact hmay.elim

theorem perform {operation : Operation} (hmay : (invariant.mandate start).May hand operation) :
    invariant.Suits start (invariant.step operation state)
      (hand.after operation (operation.perform (invariant.world state)).1) := by
  have hallowed := h.may hlawful hmay
  have hlater := hlawful.later h.holds hallowed
  constructor
  · exact hlater.holds
  · exact Nat.le_trans h.size hlater.size
  · rintro scope (hnew | hold)
    · exact invariant.lt_size_of_opens hnew
    · exact hlater.scope (h.opened scope hold)
  · rintro value (hnew | hold)
    · exact hlawful.gives state operation h.holds hallowed value hnew
    · exact hlater.good value (h.values value hold)
  · exact fun value hvalue => hlater.good value (h.brought value hvalue)

end Suits

end Invariant

/-- What follows the mandate of a lawful invariant upholds it. -/
theorem Follows.upholds {script : Script (Except Stop α)} {middle : Hand → α → Prop}
    {post : invariant.State → α → Prop} (h : Follows (invariant.mandate start) middle script hand)
    (hlawful : invariant.Lawful) (hsuits : invariant.Suits start state hand)
    (hpost : ∀ hand state value, invariant.Suits start state hand → middle hand value →
      post state value) : Upholds invariant post script state := by
  induction h generalizing state with
  | done hvalue => exact .done (hpost _ _ _ hsuits hvalue)
  | returning _ hvalue => exact .returning (hsuits.brought _ hvalue.1)
  | failed => exact .failed
  | exhausted => exact .exhausted
  | @raise hand fault next _ hnext =>
      have hlast : Upholds invariant post (next ((invariant.world state).freshFailure fault).1)
          (invariant.step (.raise fault) state) := by
        rw [hnext]
        exact .failed
      exact .perform trivial hlast
  | @perform hand operation next hmay _ ih =>
      have hlast := ih _ (operation.gives_perform _) (hsuits.perform hlawful hmay)
      exact .perform (hsuits.may hlawful hmay) hlast
  | evaluate hscope _ hstop _ ih =>
      refine .evaluate (hsuits.reaches hscope) fun reply after hlater hbrings => ?_
      rcases reply with ⟨failure | value⟩ | value
      · rw [hstop]
        exact .failed
      · rw [hstop]
        exact .returning hbrings
      · exact ih value trivial (hsuits.bring hlater hbrings)
  | guard _ hscope _ hfailed _ _ ihreturned ih =>
      refine .evaluate (hsuits.reaches hscope) fun reply after hlater hbrings => ?_
      rcases reply with ⟨failure | value⟩ | value
      · rw [hfailed]
        exact .failed
      · exact ihreturned value trivial (hsuits.bring hlater hbrings)
      · exact ih value trivial (hsuits.bring hlater hbrings)

/-- An action that comes to a value on its way. -/
theorem Follows.upholds_good {action : Action Value}
    (h : Follows (invariant.mandate start) (invariant.mandate start).Carries action.script hand)
    (hlawful : invariant.Lawful) (hsuits : invariant.Suits start state hand) :
    Upholds invariant invariant.good action.script state :=
  h.upholds hlawful hsuits fun _ _ _ hlast hvalue => hlast.good hlawful hvalue.1

section
variable (hlawful : invariant.Lawful) (hstate : invariant.holds state)
include hlawful hstate

theorem apply_upholds {callee : Value} (hcallee : invariant.good state callee)
    {arguments : List Value} (harguments : ∀ value ∈ arguments, invariant.good state value) :
    Upholds invariant invariant.good (apply callee arguments).script state := by
  have hfollows : Follows (invariant.mandate state) (invariant.mandate state).Carries
      (apply callee arguments).script (.call callee arguments) :=
    apply_follows (fun _ _ => trivial) trivial (.held rfl) (fun _ hmem => hmem) trivial
  exact hfollows.upholds_good hlawful (.call hstate hcallee harguments)

/-- What the evaluation of a node does upholds all lawful invariants. -/
theorem level_upholds {scope : Nat} (hscope : scope < invariant.size state) (maxTurns : Nat)
    (node : Node) : Upholds invariant invariant.good (level maxTurns scope node).script state := by
  have hpermits : (invariant.mandate state).Permits scope node := {
    scopes := hscope
    around := hscope
    names := fun _ _ => hscope
    assigns := fun _ _ _ => hscope }
  exact (level_follows hpermits maxTurns).upholds_good hlawful (.empty hstate)

end

/-- An evaluation in a scope that is there passes, to any depth. -/
theorem eval_passes (hlawful : invariant.Lawful) (maxTurns depth : Nat) {scope : Nat} (node : Node)
    {state : invariant.State} (hstate : invariant.holds state)
    (hscope : scope < invariant.size state) :
    Passes invariant invariant.good state
      (history maxTurns depth scope node (invariant.world state))
      (eval maxTurns depth scope node (invariant.world state)) := by
  induction depth generalizing scope node state with
  | zero => exact ⟨trivial, rfl, nofun, nofun⟩
  | succ depth ih =>
      have hupholds := level_upholds hlawful hstate hscope maxTurns node
      exact hupholds.passes hlawful hstate fun _ node _ hholds hinside => ih node hholds hinside

end Monkey.Eval
