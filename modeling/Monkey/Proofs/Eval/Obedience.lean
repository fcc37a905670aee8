import Monkey.Proofs.Eval.Rules

/-!
# What follows the mandate of rules

Rules are lawful if what the language does with good values gives good values and if what a tree to
evaluate turns to, the bodies of functions included, are trees to evaluate. The mandate of rules
asks of the trees and integers that are given what the rules ask of them. What follows it obeys the
rules, so every level does. Only a `return` stops with a value that returns, and only programs and
calls catch one.
-/
namespace Monkey.Eval

namespace Rules

/-- What the language makes of good values is good. A function is good if its body is a tree to
evaluate, and it may be called only if that is the only way to be good. -/
structure Sound (rules : Rules) : Prop extends Closed rules.good rules.brief where
  makes : ∀ stamp parameters body scope, rules.tree body →
    rules.good (.function stamp parameters body scope)
  calls : rules.catches → ∀ stamp parameters body scope,
    rules.good (.function stamp parameters body scope) → rules.tree body

structure Lawful (rules : Rules) : Prop extends Closed rules.good rules.brief where
  function : ∀ stamp parameters body scope,
    rules.good (.function stamp parameters body scope) ↔ rules.tree body
  literal : ∀ token value, rules.tree (.integer token value) → rules.good (.integer value)
  evaluated : ∀ node, rules.tree node → ∀ part ∈ node.evaluated, rules.tree part

theorem Lawful.sound {rules : Rules} (h : rules.Lawful) : rules.Sound where
  toClosed := h.toClosed
  makes stamp parameters body scope := (h.function stamp parameters body scope).mpr
  calls _ stamp parameters body scope := (h.function stamp parameters body scope).mp

end Rules

/-- Rules for which every value is brief. -/
def Rules.over (good : Value → Prop) (tree : Node → Prop) (returns catches : Prop) : Rules where
  good := good
  brief _ := True
  tree := tree
  returns := returns
  catches := catches

theorem Hereditary.sound {good : Value → Prop} (h : Hereditary good) {tree : Node → Prop}
    {returns catches : Prop} (hcalls : catches → ∀ body, tree body) :
    (Rules.over good tree returns catches).Sound where
  toClosed := h.closed
  makes stamp parameters body scope _ := h.function stamp parameters body scope
  calls hcatches _ _ body _ _ := hcalls hcatches body

theorem Hereditary.lawful {good : Value → Prop} (h : Hereditary good) (returns catches : Prop) :
    (Rules.over good (fun _ => True) returns catches).Lawful where
  toClosed := h.closed
  function stamp parameters body scope :=
    iff_of_true (h.function stamp parameters body scope) trivial
  literal _ value _ := h.integer value
  evaluated _ _ _ _ := trivial

variable {α : Type} {rules : Rules} {hand : Hand}

namespace Rules

/-- What rules let a script do. -/
def mandate (rules : Rules) : Mandate where
  trees := rules.tree
  integers value := rules.good (.integer value)
  sound value := value.isFailure = false
  sound_of_isFailure _ h := h
  returns := rules.returns
  catches := rules.catches

/-- What is at hand is as the rules say. -/
structure Suits (rules : Rules) (hand : Hand) : Prop where
  values : ∀ value, hand.values value → rules.good value
  brought : ∀ value, hand.brought value → rules.good value ∧ rules.brief value

namespace Suits

theorem empty (rules : Rules) : rules.Suits .empty :=
  ⟨nofun, nofun⟩

variable (h : rules.Suits hand)
include h

theorem brings {value : Value} (hvalue : rules.mandate.Brings hand value) : rules.Brings value :=
  ⟨⟨(h.brought value hvalue.1).1, hvalue.2⟩, (h.brought value hvalue.1).2⟩

theorem bring {value : Value} (hvalue : rules.Brings value) : rules.Suits (hand.bring value) where
  values := h.values
  brought other hother := hother.elim (fun heq => heq ▸ ⟨hvalue.1.1, hvalue.2⟩) (h.brought other)

variable (hsound : rules.Sound)
include hsound

theorem good {value : Value} (hvalue : rules.mandate.Makes hand value) : rules.good value :=
  hvalue.good hsound.toClosed h.values h.brought fun _ hgood => hgood

theorem after {operation : Operation} (hmay : rules.mandate.May hand operation)
    {reply : operation.Reply} (hreply : rules.Replies operation reply) :
    rules.Suits (hand.after operation reply) where
  values value hvalue := by
    have hgiven : ∀ value ∈ operation.given reply, rules.good value := by
      have hbears : operation.Bears rules.good := hmay.bears fun _ => h.good hsound
      apply Operation.good_of_given hsound.toClosed hbears hreply.1 hreply.2
      rintro stamp parameters body scope rfl
      exact hsound.makes stamp parameters body scope hmay.2
    exact hvalue.elim (hgiven value) (h.values value)
  brought := h.brought

end Suits

end Rules

/-- What follows the mandate of sound rules obeys them. -/
theorem Follows.obeys {script : Script (Except Stop α)} {middle : Hand → α → Prop}
    {post : α → Prop} (h : Follows rules.mandate middle script hand) (hsound : rules.Sound)
    (hsuits : rules.Suits hand)
    (hpost : ∀ hand value, rules.Suits hand → middle hand value → post value) :
    Obeys rules post script := by
  induction h with
  | done hvalue => exact .done (hpost _ _ hsuits hvalue)
  | returning hreturns hvalue => exact .returning hreturns (hsuits.brings hvalue)
  | failed => exact .failed
  | exhausted => exact .exhausted
  | raise _ hnext =>
      refine .perform trivial fun (failure : Failure) _ => ?_
      rw [hnext]
      exact .failed
  | perform hmay _ ih =>
      refine .perform (hmay.bears fun _ => hsuits.good hsound) fun reply hreply => ?_
      exact ih reply hreply.1 (hsuits.after hsound hmay hreply)
  | evaluate _ htree hstop _ ih =>
      exact .evaluate htree hstop fun value hvalue => ih value hvalue.1.2 (hsuits.bring hvalue)
  | @guard hand scope node next hcatches _ htree hfailed _ _ ihreturned ih =>
      have hnode : rules.tree node := by
        obtain hnode | ⟨stamp, parameters, home, hfunction⟩ := htree
        · exact hnode
        · exact hsound.calls hcatches _ _ _ _ (hsuits.good hsound hfunction)
      refine .guard hcatches hnode hfailed (fun value hvalue => ?_) fun value hvalue => ?_
      · exact ihreturned value hvalue.1.2 (hsuits.bring hvalue)
      · exact ih value hvalue.1.2 (hsuits.bring hvalue)

section
variable (hsound : rules.Sound)
include hsound

/-- An action that comes to a value on its way. -/
theorem Follows.obeys_carries {action : Action Value}
    (h : Follows rules.mandate rules.mandate.Carries action.script hand)
    (hsuits : rules.Suits hand) : Obeys rules rules.Carries action.script :=
  h.obeys hsound hsuits fun _ _ hlast hvalue => ⟨hlast.good hsound hvalue.1, hvalue.2⟩

theorem statements_obeys (scope : Nat) {nodes : List Node}
    (htrees : ∀ node ∈ nodes, rules.tree node) :
    Obeys rules rules.Carries (statements scope .null nodes).script :=
  (statements_follows (.inl trivial) Mandate.carries_null htrees).obeys_carries hsound (.empty rules)

theorem operands_obeys (scope : Nat) {callee : Node} {arguments : List Node}
    (htrees : ∀ part ∈ callee :: arguments, rules.tree part) :
    Obeys rules
      (fun found => rules.Brings found.1 ∧ found.2.length = arguments.length ∧
        ∀ value ∈ found.2, rules.Brings value)
      (operands scope callee arguments).script := by
  have hfollows : Follows rules.mandate _ (operands scope callee arguments).script .empty :=
    operands_follows (.inl trivial) htrees
  refine hfollows.obeys hsound (.empty rules) fun hand found hsuits hfound => ?_
  exact ⟨hsuits.brings hfound.1, hfound.2.1, fun value hmem =>
    hsuits.brings (hfound.2.2 value hmem)⟩

end

/-- What the evaluation of a node does obeys all lawful rules for the node. The number of arguments
of a call has to be good, as it may come back as a value. -/
theorem level_obeys (hlawful : rules.Lawful) {node : Node} (htree : rules.tree node)
    (hcount : ∀ token callee arguments, node = .call token callee arguments →
      rules.good (.integer arguments.length))
    (hreturns : ∀ token value, node = .returning token value → rules.returns)
    (hcatches : node.isBoundary → rules.catches) (maxTurns scope : Nat) :
    Obeys rules rules.Carries (level maxTurns scope node).script := by
  have hintegers : ∀ number ∈ node.integers, rules.good (.integer number) := by
    cases node with
    | integer token value => exact List.forall_mem_singleton.mpr (hlawful.literal token value htree)
    | call token callee arguments =>
        exact List.forall_mem_singleton.mpr (hcount token callee arguments rfl)
    | _ => exact List.forall_mem_nil _
  have hpermits : rules.mandate.Permits scope node := {
    trees := hlawful.evaluated node htree
    integers := hintegers
    returns := hreturns
    catches := hcatches }
  exact (level_follows hpermits maxTurns).obeys_carries hlawful.sound (.empty rules)

end Monkey.Eval
