import Monkey.Proofs.Eval.Mandate

/-!
# What a level does

Each construct of the language follows every mandate that lets it evaluate its parts, touch its
names and meet its faults. `level_follows` puts them together: what the evaluation of a node does by
itself is what the node permits, in its own scope and in those that it opens.
-/
namespace Monkey.Eval

open Monkey.Eval.Action

variable {mandate : Mandate} {hand : Hand}

/-! ## Builtins -/

theorem newArray_follows {elements : List Value}
    (helements : ∀ value ∈ elements, mandate.Makes hand value) :
    Follows mandate mandate.Carries (perform (.newArray elements)).script hand := by
  refine .perform helements ?_
  rintro made ⟨stamp, rfl⟩
  exact .done (Mandate.Makes.carries (.held (.inl List.mem_cons_self)) rfl)

section
variable (hraises : ∀ fault : Fault, fault.isOfCall → mandate.raises fault)
include hraises

theorem length_follows {value : Value} (hvalue : hand.brought value) :
    Follows mandate mandate.Carries (length value).script hand := by
  unfold length
  split
  · exact .pure (Mandate.Makes.carries (.bytes hvalue) rfl)
  · exact .pure (Mandate.Makes.carries (.count hvalue) rfl)
  · exact .fail (hraises _ rfl)

theorem withElements_follows {builtin : Builtin} {value : Value} {next : List Value → Action Value}
    (hvalue : hand.brought value)
    (hnext : ∀ elements, (∀ element ∈ elements, mandate.Makes hand element) →
      Follows mandate mandate.Carries (next elements).script hand) :
    Follows mandate mandate.Carries (withElements builtin value next).script hand := by
  unfold withElements
  split
  · exact hnext _ fun _ hmem => .element (.brought hvalue) hmem
  · exact .fail (hraises _ rfl)

variable {arguments : List Value} (harguments : ∀ value ∈ arguments, hand.brought value)
  (hcount : mandate.integers arguments.length)
include harguments hcount

theorem builtinBody_follows (builtin : Builtin) :
    Follows mandate mandate.Carries (builtinBody builtin arguments).script hand := by
  unfold builtinBody
  split
  · exact length_follows hraises (harguments _ (by simp))
  · refine withElements_follows hraises (harguments _ (by simp)) fun elements helements => ?_
    cases elements with
    | nil => exact .yield .null
    | cons first rest => exact .yield (helements first (by simp))
  · refine withElements_follows hraises (harguments _ (by simp)) fun elements helements => ?_
    cases hlast : elements.getLast? with
    | none => exact .yield .null
    | some last => exact .yield (helements last (List.mem_of_getLast? hlast))
  · refine withElements_follows hraises (harguments _ (by simp)) fun elements helements => ?_
    cases elements with
    | nil => exact .pure Mandate.carries_null
    | cons first rest => exact newArray_follows (List.forall_mem_cons.mp helements).2
  next value added =>
      have hadded : mandate.Makes hand added := .brought (harguments added (by simp))
      refine withElements_follows hraises (harguments value (by simp)) fun elements helements => ?_
      exact newArray_follows (List.forall_mem_append.mpr ⟨helements, by simpa using hadded⟩)
  · have hmay (text : String) : mandate.May hand (.write text) := trivial
    refine .bind (.performing (hmay _)) fun _ _ _ _ => .pure ?_
    exact Mandate.Makes.carries (.integer hcount) rfl
  · exact .fail (hraises _ rfl)

/-- A builtin looks at arguments that evaluations came to. -/
theorem callBuiltin_follows (builtin : Builtin) :
    Follows mandate mandate.Carries (callBuiltin builtin arguments).script hand := by
  have hbody := builtinBody_follows hraises harguments hcount builtin
  unfold callBuiltin
  split
  · split
    · exact hbody
    · exact .fail (hraises _ rfl)
  · exact hbody

end

/-! ## Calls -/

/-- Names are bound in a scope that was opened. -/
theorem bindAll_follows {own : Nat} (hown : hand.opened own) {pairs : List (Name × Value)}
    (hpairs : ∀ pair ∈ pairs, mandate.Makes hand pair.2) :
    Follows mandate (fun _ _ => True) (bindAll own pairs).script hand := by
  induction pairs generalizing hand with
  | nil => exact .pure trivial
  | cons pair rest ih =>
      obtain ⟨hpair, hrest⟩ := List.forall_mem_cons.mp hpairs
      have hmay : mandate.May hand (.set own pair.1.text pair.2) := ⟨.inl hown, hpair⟩
      refine .bind (.performing hmay) fun _ later hgrows _ => ?_
      exact ih (hgrows.opened own hown) fun other hmem => (hrest other hmem).grow hgrows

/-- A function runs in a scope of its own, inside the one that it was made in. -/
theorem apply_follows (hraises : ∀ fault : Fault, fault.isOfCall → mandate.raises fault)
    (hcatches : mandate.catches) {callee : Value} (hcallee : mandate.Makes hand callee)
    {arguments : List Value} (harguments : ∀ value ∈ arguments, hand.brought value)
    (hcount : mandate.integers arguments.length) :
    Follows mandate mandate.Carries (apply callee arguments).script hand := by
  unfold apply
  split
  next stamp parameters body home =>
      have hmay : mandate.May hand (.enclose home) := .inr ⟨stamp, parameters, body, hcallee⟩
      refine .bind (.performing hmay) fun own later hgrows hlater => ?_
      have hown : later.opened own := hlater.2 ▸ .inl rfl
      have hpairs : ∀ pair ∈ parameters.zip arguments, mandate.Makes later pair.2 := fun pair hmem =>
        .brought (hgrows.brought _ (harguments pair.2 (List.of_mem_zip hmem).2))
      refine .bind (bindAll_follows hown hpairs) fun _ last hlast _ => ?_
      exact .calling hcatches (.inr (hlast.opened own hown)) (hcallee.grow (hgrows.trans hlast))
  · exact callBuiltin_follows hraises harguments hcount _
  · exact .fail (hraises _ rfl)

/-! ## Parts of a node -/

section
variable {scope : Nat} (hscope : mandate.Reaches hand scope)
include hscope

theorem statements_follows {last : Value} (hlast : mandate.Carries hand last) {nodes : List Node}
    (htrees : ∀ node ∈ nodes, mandate.trees node) :
    Follows mandate mandate.Carries (statements scope last nodes).script hand := by
  induction nodes generalizing last hand with
  | nil => exact .pure hlast
  | cons node rest ih =>
      obtain ⟨hnode, hrest⟩ := List.forall_mem_cons.mp htrees
      refine .bind (.evaluation hscope hnode) fun value later hgrows hvalue => ?_
      exact ih (hscope.grow hgrows) hvalue.carries hrest

theorem values_follows {nodes : List Node} (htrees : ∀ node ∈ nodes, mandate.trees node) :
    Follows mandate
      (fun later found => found.length = nodes.length ∧
        ∀ value ∈ found, mandate.Brings later value)
      (values scope nodes).script hand := by
  induction nodes generalizing hand with
  | nil => exact .pure (by simp)
  | cons node rest ih =>
      obtain ⟨hnode, hrest⟩ := List.forall_mem_cons.mp htrees
      refine .bind (.evaluation hscope hnode) fun first later hgrows hfirst => ?_
      refine .bind (ih (hscope.grow hgrows) hrest) fun more last hlast hmore => .pure ?_
      exact ⟨by simp [hmore.1], List.forall_mem_cons.mpr ⟨hfirst.grow hlast, hmore.2⟩⟩

theorem entries_follows (hraises : ∀ type, mandate.raises (.unusableKey type))
    {before : List (Key × Value)}
    (hbefore : ∀ entry ∈ before,
      mandate.Makes hand entry.1.value ∧ mandate.Makes hand entry.2)
    {pairs : List (Node × Node)}
    (htrees : ∀ pair ∈ pairs, mandate.trees pair.1 ∧ mandate.trees pair.2) :
    Follows mandate
      (fun later found => ∀ entry ∈ found,
        mandate.Makes later entry.1.value ∧ mandate.Makes later entry.2)
      (entries scope before pairs).script hand := by
  induction pairs generalizing before hand with
  | nil => exact .pure hbefore
  | cons pair rest ih =>
      obtain ⟨hpair, hrest⟩ := List.forall_mem_cons.mp htrees
      refine .bind (.evaluation hscope hpair.1) fun keyValue later hgrows hkeyValue => ?_
      cases hkey : keyValue.key? with
      | none => exact .fail (hraises _)
      | some key =>
          refine .bind (.evaluation (hscope.grow hgrows) hpair.2) fun value last hlast hvalue => ?_
          have hlong := hgrows.trans hlast
          have hnew : mandate.Makes last key.value ∧ mandate.Makes last value := by
            rw [Value.value_of_key? hkey]
            exact ⟨(hkeyValue.grow hlast).makes, hvalue.makes⟩
          refine ih (hscope.grow hlong) (forall_putEntry hnew fun entry hmem => ?_) hrest
          exact ⟨(hbefore entry hmem).1.grow hlong, (hbefore entry hmem).2.grow hlong⟩

theorem clauses_follows (subject : Option Value) {nodes : List Node}
    (htrees : ∀ part ∈ nodes.flatMap Node.insideClause, mandate.trees part) :
    Follows mandate mandate.Carries (clauses scope subject nodes).script hand := by
  induction nodes generalizing hand with
  | nil => exact .pure Mandate.carries_null
  | cons node rest ih =>
      obtain ⟨hparts, hrest⟩ := List.forall_mem_append.mp htrees
      unfold clauses
      split
      next => contradiction
      next token condition body _ hcons =>
          obtain ⟨rfl, rfl⟩ := List.cons.inj hcons
          obtain ⟨hcondition, hbody⟩ := List.forall_mem_cons.mp hparts
          refine .bind (.evaluation hscope hcondition) fun value later hgrows _ => ?_
          split
          · exact statements_follows (hscope.grow hgrows) Mandate.carries_null hbody
          · exact ih (hscope.grow hgrows) hrest
      next hcons =>
          obtain ⟨rfl, rfl⟩ := List.cons.inj hcons
          exact ih hscope hrest

theorem goesOn_follows {condition : Node} (htree : mandate.trees condition) :
    Follows mandate (fun _ _ => True) (goesOn scope condition).script hand := by
  unfold goesOn
  split
  · exact .pure trivial
  · exact .bind (.evaluation hscope htree) fun _ _ _ _ => .pure trivial

theorem turns_follows {condition post body : Node} (hcondition : mandate.trees condition)
    (hpost : mandate.trees post) (hbody : mandate.trees body) (count : Nat) :
    Follows mandate mandate.Carries (turns scope condition post body count).script hand := by
  induction count generalizing hand with
  | zero => exact .exhausted
  | succ count ih =>
      refine .bind (goesOn_follows hscope hcondition) fun more later hgrows _ => ?_
      have hlater := hscope.grow hgrows
      split
      · refine .bind (.evaluation hlater hbody) fun _ next hnext _ => ?_
        refine .bind (.evaluation (hlater.grow hnext) hpost) fun _ last hlast _ => ?_
        exact ih (hlater.grow (hnext.trans hlast))
      · exact .pure Mandate.carries_null

end

/-! ## Nodes -/

/-- The callee of a call and its arguments, from left to right. -/
def operands (scope : Nat) (callee : Node) (arguments : List Node) :
    Action (Value × List Value) := do
  let function ← Action.evaluate scope callee
  let given ← values scope arguments
  return (function, given)

theorem call_eq (scope : Nat) (callee : Node) (arguments : List Node) :
    call scope callee arguments =
      operands scope callee arguments >>= fun found => apply found.1 found.2 := by
  simp [call, operands]

theorem operands_follows {scope : Nat} (hscope : mandate.Reaches hand scope) {callee : Node}
    {arguments : List Node} (htrees : ∀ part ∈ callee :: arguments, mandate.trees part) :
    Follows mandate
      (fun later found => mandate.Brings later found.1 ∧ found.2.length = arguments.length ∧
        ∀ value ∈ found.2, mandate.Brings later value)
      (operands scope callee arguments).script hand := by
  obtain ⟨hcallee, harguments⟩ := List.forall_mem_cons.mp htrees
  refine .bind (.evaluation hscope hcallee) fun function later hgrows hfunction => ?_
  refine .bind (values_follows (hscope.grow hgrows) harguments) fun given last hlast hgiven => ?_
  exact .pure ⟨hfunction.grow hlast, hgiven⟩

/-- A loop works in a scope of its own, so it does not matter where it stands. -/
theorem loop_follows {scope : Nat} (haround : mandate.around scope)
    {init condition post body : Node}
    (htrees : ∀ part ∈ [init, condition, post, body], mandate.trees part) (maxTurns : Nat) :
    Follows mandate mandate.Carries (loop maxTurns scope init condition post body).script hand := by
  have hmay : mandate.May hand (.enclose scope) := .inl haround
  refine .bind (.performing hmay) fun own later _ hlater => ?_
  have hown : mandate.Reaches later own := .inr (hlater.2 ▸ .inl rfl)
  refine .bind (.evaluation hown (htrees init (by simp))) fun _ last hlast _ => ?_
  exact turns_follows (hown.grow hlast) (htrees condition (by simp)) (htrees post (by simp))
    (htrees body (by simp)) maxTurns

/-- The mandate lets a node be evaluated in a scope. -/
structure Mandate.Permits (mandate : Mandate) (scope : Nat) (node : Node) : Prop where
  scopes : mandate.scopes scope := by exact trivial
  around : mandate.around scope := by exact trivial
  names : ∀ name ∈ node.names, mandate.names scope name := by exact fun _ _ => trivial
  assigns : ∀ token name, node = .increment token name → mandate.assigns scope name.text := by
    exact fun _ _ _ => trivial
  trees : ∀ part ∈ node.evaluated, mandate.trees part := by exact fun _ _ => trivial
  raises : ∀ fault, node.MayRaise fault → mandate.raises fault := by exact fun _ _ => trivial
  integers : ∀ number ∈ node.integers, mandate.integers number := by exact fun _ _ => trivial
  returns : ∀ token value, node = .returning token value → mandate.returns := by
    exact fun _ _ _ => trivial
  catches : node.isBoundary → mandate.catches := by exact fun _ => trivial

section
variable {scope : Nat}

theorem binding_follows {token : Token} {name : Name} {value : Node}
    (h : mandate.Permits scope (.binding token name value)) :
    Follows mandate mandate.Carries (binding scope name.text value).script hand := by
  have htree := h.trees value (List.mem_singleton_self _)
  refine .bind (.evaluation (.inl h.scopes) htree) fun found later _ hfound => ?_
  have hmay : mandate.May later (.set scope name.text found) :=
    ⟨.inr (h.names _ (List.mem_singleton_self _)), hfound.makes⟩
  exact .bind (.performing hmay) fun _ _ _ _ => .pure Mandate.carries_null

theorem returning_follows {token : Token} {value : Node}
    (h : mandate.Permits scope (.returning token value)) :
    Follows mandate mandate.Carries (returning scope value).script hand := by
  have htree := h.trees value (List.mem_singleton_self _)
  exact .bind (.evaluation (.inl h.scopes) htree) fun _ _ _ hfound =>
    .returning (h.returns token value rfl) hfound

theorem read_follows {name : Name} (h : mandate.Permits scope (.identifier name)) :
    Follows mandate mandate.Carries (read scope name.text).script hand := by
  have hmay : mandate.May hand (.look scope name.text) := h.names _ (List.mem_singleton_self _)
  refine .bind (.performing hmay) fun found later _ hlater => ?_
  cases found with
  | none => exact .fail (h.raises _ rfl)
  | some value => exact .yield (.held (hlater.2 ▸ .inl List.mem_cons_self))

/-- What is incremented was looked up just before. -/
theorem increment_follows {token : Token} {name : Name}
    (h : mandate.Permits scope (.increment token name)) :
    Follows mandate mandate.Carries (increment scope name.text).script hand := by
  have hmay : mandate.May hand (.look scope name.text) := h.names _ (List.mem_singleton_self _)
  refine .bind (.performing hmay) fun found later _ hlater => ?_
  cases found with
  | none => exact .fail (h.raises _ (.inl rfl))
  | some old =>
      dsimp only
      cases hnew : old.increment with
      | error fault => exact .fail (h.raises fault (.inr ⟨old, hnew⟩))
      | ok new =>
          have hfound : later.found scope name.text old := hlater.2 ▸ ⟨rfl, rfl, rfl⟩
          have hassign : mandate.May later (.assign scope name.text new) :=
            ⟨h.assigns token name rfl, old, hfound, hnew⟩
          refine .bind (.performing hassign) fun _ last _ _ => .pure ?_
          obtain ⟨number, rfl, rfl⟩ := Value.exists_of_increment hnew
          exact Mandate.Makes.carries (.increment hnew) rfl

theorem switch_follows {token : Token} {subject : Node} {cases : List Node}
    (h : mandate.Permits scope (.switch token subject cases)) :
    Follows mandate mandate.Carries (switch scope subject cases).script hand := by
  obtain ⟨hsubject, hcases⟩ := List.forall_mem_cons.mp h.trees
  have hscope : mandate.Reaches hand scope := .inl h.scopes
  unfold switch
  split
  · exact clauses_follows hscope none hcases
  · exact .bind (.evaluation hscope hsubject) fun value later hgrows _ =>
      clauses_follows (hscope.grow hgrows) (some value) hcases

theorem conditional_follows {token : Token} {condition consequence alternative : Node}
    (h : mandate.Permits scope (.conditional token condition consequence alternative)) :
    Follows mandate mandate.Carries
      (conditional scope condition consequence alternative).script hand := by
  have hbranch : ∀ later, ∀ part ∈ [consequence, alternative],
      Follows mandate mandate.Carries (Action.evaluate scope part).script later := by
    intro later part hpart
    have htree := h.trees part (List.mem_cons_of_mem _ hpart)
    exact (Follows.evaluation (.inl h.scopes) htree).mono fun _ _ hvalue => hvalue.carries
  have hcondition := h.trees condition List.mem_cons_self
  refine .bind (.evaluation (.inl h.scopes) hcondition) fun value later _ _ => ?_
  split
  · exact hbranch later consequence (by simp)
  · split
    · exact .pure Mandate.carries_null
    · exact hbranch later alternative (by simp)

theorem unary_follows {token : Token} {operator : String} {operand : Node}
    (h : mandate.Permits scope (.unary token operator operand)) :
    Follows mandate mandate.Carries (unary scope operator operand).script hand := by
  have htree := h.trees operand (List.mem_singleton_self _)
  refine .bind (.evaluation (.inl h.scopes) htree) fun value later _ _ => ?_
  exact .ofExcept (fun _ hresult => .unary hresult) fun fault hfault =>
    h.raises fault ⟨value, hfault⟩

/-- Two parts from left to right, both at hand behind the second. -/
theorem both_follow {left right : Node} {next : Value → Value → Action Value}
    (hscope : mandate.scopes scope) (htrees : ∀ part ∈ [left, right], mandate.trees part)
    (hnext : ∀ first second later, mandate.Makes later first →
      Follows mandate mandate.Carries (next first second).script later) :
    Follows mandate mandate.Carries
      (Action.evaluate scope left >>= fun first =>
        Action.evaluate scope right >>= fun second => next first second).script hand := by
  refine .bind (.evaluation (.inl hscope) (htrees left (by simp))) fun first later _ hfirst => ?_
  refine .bind (.evaluation (.inl hscope) (htrees right (by simp))) fun second last hlast _ => ?_
  exact hnext first second last (hfirst.grow hlast).makes

theorem binary_follows {token : Token} {left right : Node} {operator : String}
    (h : mandate.Permits scope (.binary token left operator right)) :
    Follows mandate mandate.Carries (binary scope left operator right).script hand := by
  refine both_follow h.scopes h.trees fun first second later hfirst => ?_
  exact .ofExcept (fun _ hresult => .binary hfirst hresult) fun fault hfault =>
    h.raises fault ⟨first, second, hfault⟩

theorem index_follows {token : Token} {collection key : Node}
    (h : mandate.Permits scope (.index token collection key)) :
    Follows mandate mandate.Carries (index scope collection key).script hand := by
  refine both_follow h.scopes h.trees fun first second later hfirst => ?_
  exact .ofExcept (fun _ hresult => .index hfirst hresult) fun fault hfault =>
    h.raises fault ⟨first, second, hfault⟩

theorem function_follows {token : Token} {parameters : List Name} {body : Node}
    (h : mandate.Permits scope (.function token parameters body)) :
    Follows mandate mandate.Carries
      (Action.perform (.newFunction parameters body scope)).script hand := by
  refine .perform ⟨h.around, h.trees body (List.mem_singleton_self _)⟩ ?_
  rintro made ⟨stamp, rfl⟩
  exact .done (Mandate.Makes.carries (.held (.inl List.mem_cons_self)) rfl)

theorem call_follows {token : Token} {callee : Node} {arguments : List Node}
    (h : mandate.Permits scope (.call token callee arguments)) :
    Follows mandate mandate.Carries (call scope callee arguments).script hand := by
  rw [call_eq]
  refine .bind (operands_follows (.inl h.scopes) h.trees) fun found later _ hfound => ?_
  obtain ⟨hfunction, hlength, hgiven⟩ := hfound
  have hcount : mandate.integers found.2.length := by
    rw [hlength]
    exact h.integers _ List.mem_cons_self
  exact apply_follows h.raises (h.catches rfl) hfunction.makes
    (fun value hmem => (hgiven value hmem).1) hcount

theorem array_follows {token : Token} {elements : List Node}
    (h : mandate.Permits scope (.array token elements)) :
    Follows mandate mandate.Carries (array scope elements).script hand := by
  refine .bind (values_follows (.inl h.scopes) h.trees) fun contents later _ hcontents => ?_
  exact newArray_follows fun value hmem => (hcontents.2 value hmem).makes

theorem hash_follows {token : Token} {pairs : List (Node × Node)}
    (h : mandate.Permits scope (.hash token pairs)) :
    Follows mandate mandate.Carries (hash scope pairs).script hand := by
  have htrees : ∀ pair ∈ pairs, mandate.trees pair.1 ∧ mandate.trees pair.2 := by
    intro pair hmem
    constructor
    · exact h.trees pair.1 (List.mem_flatMap.mpr ⟨pair, hmem, by simp⟩)
    · exact h.trees pair.2 (List.mem_flatMap.mpr ⟨pair, hmem, by simp⟩)
  have hentries : Follows mandate _ (entries scope [] pairs).script hand :=
    entries_follows (.inl h.scopes) (fun type => h.raises _ ⟨type, rfl⟩) (List.forall_mem_nil _)
      htrees
  refine .bind hentries fun contents later _ hcontents => .perform hcontents ?_
  rintro made ⟨stamp, rfl⟩
  exact .done (Mandate.Makes.carries (.held (.inl List.mem_cons_self)) rfl)

/-- What the evaluation of a node does by itself: it follows every mandate that permits the node. -/
theorem level_follows {node : Node} (h : mandate.Permits scope node) (maxTurns : Nat) :
    Follows mandate mandate.Carries (level maxTurns scope node).script hand := by
  have hscope : mandate.Reaches hand scope := .inl h.scopes
  cases node with
  | hole => exact .pure Mandate.carries_null
  | program token nodes =>
      exact .catchReturn (h.catches rfl) (statements_follows hscope Mandate.carries_null h.trees)
  | block token nodes => exact statements_follows hscope Mandate.carries_null h.trees
  | binding token name value => exact binding_follows h
  | returning token value => exact returning_follows h
  | expression token body =>
      have htree := h.trees body (List.mem_singleton_self _)
      exact (Follows.evaluation hscope htree).mono fun _ _ hvalue => hvalue.carries
  | increment token name => exact increment_follows h
  | clause => exact .fail (h.raises _ rfl)
  | switch token subject cases => exact switch_follows h
  | identifier name => exact read_follows h
  | integer token value =>
      exact .pure (Mandate.Makes.carries (.integer (h.integers value List.mem_cons_self)) rfl)
  | text token value => exact .pure (Mandate.Makes.carries (.string value) rfl)
  | boolean token value => exact .pure (Mandate.Makes.carries (.boolean value) rfl)
  | unary token operator operand => exact unary_follows h
  | binary token left operator right => exact binary_follows h
  | conditional token condition consequence alternative => exact conditional_follows h
  | loop token init condition post body => exact loop_follows h.around h.trees maxTurns
  | function token parameters body => exact function_follows h
  | call token callee arguments => exact call_follows h
  | array token elements => exact array_follows h
  | index token collection key => exact index_follows h
  | hash token pairs => exact hash_follows h

end

end Monkey.Eval
