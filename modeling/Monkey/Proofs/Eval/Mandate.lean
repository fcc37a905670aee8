import Monkey.Eval.Level
import Monkey.Proofs.Eval.Operators
import Monkey.Proofs.Parts

/-!
# Mandates of scripts

A mandate says what a script may do: where it may evaluate what, which names it may touch, which
errors it may make. What it may do with values and scopes depends on what it has at hand, which is
what its steps so far came back with. A script that follows its mandate has one more habit: where an
evaluation stopped, it stops as well, unless its mandate lets it catch a value that returns.

A mandate speaks of no world. What a level of evaluation does is shown once, as a mandate that it
follows; what is true of its worlds, values and steps is read off from there.
-/
namespace Monkey

/-! ## What a node may do -/

/-- A value that returns comes to its end at a program or a call. -/
def Node.isBoundary : Node → Bool
  | program .. | call .. => true
  | _ => false

/-- The names that the evaluation of a node looks up or binds in its own scope. -/
def Node.names : Node → List String
  | binding _ name _ | increment _ name | identifier name => [name.text]
  | _ => []

/-- The integers that are given with a node: a literal, or how many arguments a call has. -/
def Node.integers : Node → List Int
  | integer _ value => [value]
  | call _ _ arguments => [(arguments.length : Int)]
  | _ => []

/-- The faults of a call: its callee is no function, or a builtin does not take the arguments. -/
def Fault.isOfCall : Fault → Bool
  | notFunction _ | wrongCount .. | noLength _ | notArray .. => true
  | _ => false

/-- The faults that the evaluation of a node may meet by itself. -/
def Node.MayRaise : Node → Fault → Prop
  | clause .. , fault => fault = .strayClause
  | identifier name, fault => fault = .unbound name.text
  | increment _ name, fault =>
      fault = .unbound name.text ∨ ∃ value : Value, value.increment = .error fault
  | unary _ operator _, fault => ∃ value : Value, value.unary operator = .error fault
  | binary _ _ operator _, fault => ∃ left right, Value.binary operator left right = .error fault
  | index .., fault => ∃ collection key : Value, collection.index key = .error fault
  | hash .., fault => ∃ type, fault = .unusableKey type
  | call .., fault => fault.isOfCall
  | _, _ => False

namespace Eval

open Monkey.Eval.Action

/-! ## Replies -/

namespace Operation

/-- The values that an operation comes back with. -/
def given : (operation : Operation) → operation.Reply → List Value
  | .look .., found => Option.toList found
  | .newArray _, made | .newHash _, made | .newFunction .., made => [made]
  | _, _ => []

/-- What is put together comes back with its parts. -/
def Gives : (operation : Operation) → operation.Reply → Prop
  | .newArray elements, made => ∃ stamp, made = Value.array stamp elements
  | .newHash entries, made => ∃ stamp, made = Value.hash stamp entries
  | .newFunction parameters body scope, made =>
      ∃ stamp, made = Value.function stamp parameters body scope
  | _, _ => True

theorem gives_perform (operation : Operation) (world : World) :
    operation.Gives (operation.perform world).1 := by
  cases operation with
  | newArray | newHash | newFunction => exact ⟨world.objects, rfl⟩
  | _ => trivial

/-- All values that an operation writes or puts into a collection are good. -/
def Bears (good : Value → Prop) : Operation → Prop
  | .set _ _ value => good value
  | .assign _ _ value => good value
  | .newArray elements => ∀ value ∈ elements, good value
  | .newHash entries => ∀ entry ∈ entries, good entry.1.value ∧ good entry.2
  | _ => True

/-- The operation opened this scope. -/
def Opens : (operation : Operation) → operation.Reply → Nat → Prop
  | .enclose _, own, scope => scope = own
  | _, _, _ => False

/-- The operation found this value under this name. -/
def Finds : (operation : Operation) → operation.Reply → Nat → String → Value → Prop
  | .look scope name, found, inside, key, value =>
      inside = scope ∧ key = name ∧ Option.some value = found
  | _, _, _, _, _ => False

/-- What was found is there, and finding it changes nothing. -/
theorem Finds.get?_eq {operation : Operation} {world : World} {scope : Nat} {name : String}
    {value : Value} (h : operation.Finds (operation.perform world).1 scope name value) :
    world.get? scope name = some value ∧ (operation.perform world).2 = world := by
  cases operation with
  | look =>
      obtain ⟨rfl, rfl, hvalue⟩ := h
      exact ⟨hvalue.symm, rfl⟩
  | _ => exact h.elim

/-- What good values are put together to is good, if what was found is and functions are. -/
theorem good_of_given {good brief : Value → Prop} (hclosed : Closed good brief)
    {operation : Operation} {reply : operation.Reply} (hbears : operation.Bears good)
    (hgives : operation.Gives reply)
    (hfound : ∀ scope name value, operation.Finds reply scope name value → good value)
    (hmade : ∀ stamp parameters body scope, operation = .newFunction parameters body scope →
      good (.function stamp parameters body scope)) :
    ∀ value ∈ operation.given reply, good value := by
  cases operation with
  | look scope name =>
      exact fun value hvalue => hfound scope name value ⟨rfl, rfl, (Option.mem_toList.mp hvalue).symm⟩
  | newArray elements =>
      obtain ⟨stamp, rfl⟩ := hgives
      exact List.forall_mem_singleton.mpr ((hclosed.array stamp elements).mpr hbears)
  | newHash entries =>
      obtain ⟨stamp, rfl⟩ := hgives
      exact List.forall_mem_singleton.mpr ((hclosed.hash stamp entries).mpr hbears)
  | newFunction parameters body scope =>
      obtain ⟨stamp, rfl⟩ := hgives
      exact List.forall_mem_singleton.mpr (hmade stamp parameters body scope rfl)
  | _ => exact List.forall_mem_nil _

end Operation

/-! ## Mandates -/

/-- What a mandate does not speak of, it allows. -/
structure Mandate where
  /-- The scopes to evaluate in. -/
  scopes : Nat → Prop := fun _ => True
  /-- The scopes to open others in. -/
  around : Nat → Prop := fun _ => True
  /-- The names to look up and to bind, seen from a scope. -/
  names : Nat → String → Prop := fun _ _ => True
  /-- The names to assign to, seen from a scope. -/
  assigns : Nat → String → Prop := fun _ _ => True
  /-- The trees to evaluate. -/
  trees : Node → Prop := fun _ => True
  /-- The faults to make errors of. -/
  raises : Fault → Prop := fun _ => True
  /-- The integers that are given. -/
  integers : Int → Prop := fun _ => True
  /-- What values are like that evaluations come to. -/
  sound : Value → Prop := fun _ => True
  sound_of_isFailure : ∀ value, value.isFailure = false → sound value := by
    exact fun _ _ => trivial
  /-- Whether a script may stop with a value that returns. -/
  returns : Prop := True
  /-- Whether a script may go on behind an evaluation that stopped with such a value. -/
  catches : Prop := True

/-- What a script has at hand. -/
structure Hand where
  /-- The scopes that it opened. -/
  opened : Nat → Prop
  /-- The values that it was given, but for those that evaluations came to. -/
  values : Value → Prop
  /-- The values that evaluations came to. -/
  brought : Value → Prop
  /-- The binding that was found just before. -/
  found : Nat → String → Value → Prop

namespace Hand

def empty : Hand := ⟨fun _ => False, fun _ => False, fun _ => False, fun _ _ _ => False⟩

/-- A callee is at hand, and arguments that evaluations came to. -/
def call (callee : Value) (arguments : List Value) : Hand :=
  ⟨fun _ => False, (· = callee), (· ∈ arguments), fun _ _ _ => False⟩

/-- Everything is at hand. -/
def full : Hand := ⟨fun _ => True, fun _ => True, fun _ => True, fun _ _ _ => True⟩

/-- The hand behind an operation. -/
def after (hand : Hand) (operation : Operation) (reply : operation.Reply) : Hand where
  opened scope := operation.Opens reply scope ∨ hand.opened scope
  values value := value ∈ operation.given reply ∨ hand.values value
  brought := hand.brought
  found := operation.Finds reply

/-- The hand behind an evaluation that came to a value. -/
def bring (hand : Hand) (value : Value) : Hand where
  opened := hand.opened
  values := hand.values
  brought other := other = value ∨ hand.brought other
  found _ _ _ := False

/-- A later hand. What was found before is forgotten. -/
structure Grows (before after : Hand) : Prop where
  opened : ∀ scope, before.opened scope → after.opened scope
  values : ∀ value, before.values value → after.values value
  brought : ∀ value, before.brought value → after.brought value

variable {hand middle last : Hand}

theorem Grows.refl (hand : Hand) : hand.Grows hand :=
  ⟨fun _ h => h, fun _ h => h, fun _ h => h⟩

theorem Grows.trans (h : hand.Grows middle) (h' : middle.Grows last) : hand.Grows last where
  opened scope ho := h'.opened scope (h.opened scope ho)
  values value hv := h'.values value (h.values value hv)
  brought value hb := h'.brought value (h.brought value hb)

theorem grows_after (hand : Hand) (operation : Operation) (reply : operation.Reply) :
    hand.Grows (hand.after operation reply) :=
  ⟨fun _ => .inr, fun _ => .inr, fun _ h => h⟩

theorem grows_bring (hand : Hand) (value : Value) : hand.Grows (hand.bring value) :=
  ⟨fun _ h => h, fun _ h => h, fun _ => .inr⟩

end Hand

namespace Mandate

/-- The values that come of those at hand. -/
inductive Makes (mandate : Mandate) (hand : Hand) : Value → Prop where
  | held {value : Value} (h : hand.values value) : Makes mandate hand value
  | brought {value : Value} (h : hand.brought value) : Makes mandate hand value
  | null : Makes mandate hand .null
  | boolean (value : Bool) : Makes mandate hand (.boolean value)
  | string (value : String) : Makes mandate hand (.string value)
  | integer {value : Int} (h : mandate.integers value) : Makes mandate hand (.integer value)
  | bytes {text : String} (h : hand.brought (.string text)) :
      Makes mandate hand (.integer (byteLength text))
  | count {stamp : Nat} {elements : List Value} (h : hand.brought (.array stamp elements)) :
      Makes mandate hand (.integer elements.length)
  | element {stamp : Nat} {elements : List Value} {value : Value}
      (h : Makes mandate hand (.array stamp elements)) (hmem : value ∈ elements) :
      Makes mandate hand value
  | increment {old new : Value} (h : old.increment = .ok new) : Makes mandate hand new
  | unary {operator : String} {operand value : Value} (h : operand.unary operator = .ok value) :
      Makes mandate hand value
  | binary {operator : String} {left right value : Value} (hleft : Makes mandate hand left)
      (h : Value.binary operator left right = .ok value) : Makes mandate hand value
  | index {collection key value : Value} (hcollection : Makes mandate hand collection)
      (h : collection.index key = .ok value) : Makes mandate hand value

/-- The operations that are allowed with these things at hand. Only what was found just before is
incremented. To make an error is no operation like the others. -/
def May (mandate : Mandate) (hand : Hand) : Operation → Prop
  | .enclose outer => mandate.around outer ∨
      ∃ stamp parameters body, mandate.Makes hand (.function stamp parameters body outer)
  | .look scope name => mandate.names scope name
  | .set scope name value =>
      (hand.opened scope ∨ mandate.names scope name) ∧ mandate.Makes hand value
  | .assign scope name value => mandate.assigns scope name ∧
      ∃ old, hand.found scope name old ∧ old.increment = .ok value
  | .write _ => True
  | .newArray elements => ∀ value ∈ elements, mandate.Makes hand value
  | .newHash entries =>
      ∀ entry ∈ entries, mandate.Makes hand entry.1.value ∧ mandate.Makes hand entry.2
  | .newFunction _ body scope => mandate.around scope ∧ mandate.trees body
  | .raise _ => False

/-- Nodes are evaluated in the scopes of the mandate and in those that were opened. -/
def Reaches (mandate : Mandate) (hand : Hand) (scope : Nat) : Prop :=
  mandate.scopes scope ∨ hand.opened scope

/-- What a script that is done has come to. -/
def Carries (mandate : Mandate) (hand : Hand) (value : Value) : Prop :=
  mandate.Makes hand value ∧ mandate.sound value

/-- What an evaluation has come to. -/
def Brings (mandate : Mandate) (hand : Hand) (value : Value) : Prop :=
  hand.brought value ∧ mandate.sound value

variable {mandate : Mandate} {hand later : Hand} {value : Value}

theorem Makes.grow (h : mandate.Makes hand value) (hgrows : hand.Grows later) :
    mandate.Makes later value := by
  induction h with
  | held h => exact .held (hgrows.values _ h)
  | brought h => exact .brought (hgrows.brought _ h)
  | null => exact .null
  | boolean => exact .boolean _
  | string => exact .string _
  | integer h => exact .integer h
  | bytes h => exact .bytes (hgrows.brought _ h)
  | count h => exact .count (hgrows.brought _ h)
  | element _ hmem ih => exact .element ih hmem
  | increment h => exact .increment h
  | unary h => exact .unary h
  | binary _ h ih => exact .binary ih h
  | index _ h ih => exact .index ih h

/-- What is made of good values is good. -/
theorem Makes.good {good brief : Value → Prop} (h : mandate.Makes hand value)
    (hclosed : Closed good brief) (hvalues : ∀ value, hand.values value → good value)
    (hbrought : ∀ value, hand.brought value → good value ∧ brief value)
    (hintegers : ∀ value, mandate.integers value → good (.integer value)) : good value := by
  induction h with
  | held h => exact hvalues _ h
  | brought h => exact (hbrought _ h).1
  | null => exact hclosed.null
  | boolean value => exact hclosed.boolean value
  | string value => exact hclosed.string value
  | integer h => exact hintegers _ h
  | bytes h => exact hclosed.bytes _ (hbrought _ h).2
  | count h => exact hclosed.count _ _ (hbrought _ h).2
  | element _ hmem ih => exact (hclosed.array _ _).mp ih _ hmem
  | increment h =>
      obtain ⟨number, _, rfl⟩ := Value.exists_of_increment h
      exact hclosed.wrapped _
  | unary h => exact hclosed.unary h
  | binary _ h ih => exact hclosed.binary ih h
  | index _ h ih => exact hclosed.index ih h

theorem May.bears {good : Value → Prop} {operation : Operation} (h : mandate.May hand operation)
    (hgood : ∀ value, mandate.Makes hand value → good value) : operation.Bears good := by
  cases operation with
  | set => exact hgood _ h.2
  | assign =>
      obtain ⟨_, old, _, hnew⟩ := h
      exact hgood _ (.increment hnew)
  | newArray => exact fun value hmem => hgood value (h value hmem)
  | newHash => exact fun entry hmem => ⟨hgood _ (h entry hmem).1, hgood _ (h entry hmem).2⟩
  | _ => trivial

theorem Reaches.grow {scope : Nat} (h : mandate.Reaches hand scope) (hgrows : hand.Grows later) :
    mandate.Reaches later scope :=
  h.imp_right (hgrows.opened scope)

theorem Brings.makes (h : mandate.Brings hand value) : mandate.Makes hand value :=
  .brought h.1

theorem Brings.grow (h : mandate.Brings hand value) (hgrows : hand.Grows later) :
    mandate.Brings later value :=
  ⟨hgrows.brought value h.1, h.2⟩

theorem Brings.carries (h : mandate.Brings hand value) : mandate.Carries hand value :=
  ⟨h.makes, h.2⟩

theorem Makes.carries (h : mandate.Makes hand value) (hvalue : value.isFailure = false) :
    mandate.Carries hand value :=
  ⟨h, mandate.sound_of_isFailure value hvalue⟩

theorem carries_null : mandate.Carries hand .null :=
  Makes.null.carries rfl

end Mandate

/-- The script follows the mandate with these things at hand, and its values satisfy `post`. -/
inductive Follows (mandate : Mandate) (post : Hand → α → Prop) :
    Script (Except Stop α) → Hand → Prop where
  | done {hand : Hand} {value : α} (hvalue : post hand value) :
      Follows mandate post (.done (.ok value)) hand
  | returning {hand : Hand} {value : Value} (hreturns : mandate.returns)
      (hvalue : mandate.Brings hand value) :
      Follows mandate post (.done (.error (.returning value))) hand
  /-- An error that was held before. -/
  | failed {hand : Hand} {failure : Failure} (hheld : mandate.Makes hand (.error failure)) :
      Follows mandate post (.done (.error (.failed failure))) hand
  | exhausted {hand : Hand} : Follows mandate post .exhausted hand
  | raise {hand : Hand} {fault : Fault} {next : Failure → Script (Except Stop α)}
      (hraises : mandate.raises fault)
      (hnext : ∀ failure, next failure = .done (.error (.failed failure))) :
      Follows mandate post (.perform (.raise fault) next) hand
  | perform {hand : Hand} {operation : Operation}
      {next : operation.Reply → Script (Except Stop α)} (hmay : mandate.May hand operation)
      (hnext : ∀ reply, operation.Gives reply →
        Follows mandate post (next reply) (hand.after operation reply)) :
      Follows mandate post (.perform operation next) hand
  | evaluate {hand : Hand} {scope : Nat} {node : Node}
      {next : Except Stop Value → Script (Except Stop α)} (hscope : mandate.Reaches hand scope)
      (htree : mandate.trees node) (hstop : ∀ stop, next (.error stop) = .done (.error stop))
      (hnext : ∀ value, mandate.sound value →
        Follows mandate post (next (.ok value)) (hand.bring value)) :
      Follows mandate post (.evaluate scope node next) hand
  /-- An evaluation that may return to the script: the body of a function at hand is one. -/
  | guard {hand : Hand} {scope : Nat} {node : Node}
      {next : Except Stop Value → Script (Except Stop α)} (hcatches : mandate.catches)
      (hscope : mandate.Reaches hand scope)
      (htree : mandate.trees node ∨
        ∃ stamp parameters home, mandate.Makes hand (.function stamp parameters node home))
      (hfailed : ∀ failure, next (.error (.failed failure)) = .done (.error (.failed failure)))
      (hreturned : ∀ value, mandate.sound value →
        Follows mandate post (next (.error (.returning value))) (hand.bring value))
      (hnext : ∀ value, mandate.sound value →
        Follows mandate post (next (.ok value)) (hand.bring value)) :
      Follows mandate post (.evaluate scope node next) hand

/-! ## Scripts that follow, put together -/

namespace Follows

variable {α β : Type} {mandate : Mandate} {hand : Hand} {post : Hand → β → Prop}
  {middle : Hand → α → Prop}

theorem bind {action : Action α} {next : α → Action β}
    (h : Follows mandate middle action.script hand)
    (hnext : ∀ value later, hand.Grows later → middle later value →
      Follows mandate post (next value).script later) :
    Follows mandate post (action >>= next).script hand := by
  obtain ⟨script⟩ := action
  change Follows mandate middle script hand at h
  induction h with
  | done hvalue => exact hnext _ _ (.refl _) hvalue
  | returning hreturns hvalue => exact .returning hreturns hvalue
  | failed hheld => exact .failed hheld
  | exhausted => exact .exhausted
  | raise hraises hfailed =>
      refine .raise hraises fun failure => ?_
      rw [hfailed failure]
      rfl
  | @perform hand operation more hmay _ ih =>
      -- the second part is only promised hands that grew from the first one
      refine .perform hmay fun reply hreply => ih reply hreply fun value later hgrows => ?_
      exact hnext value later ((hand.grows_after operation reply).trans hgrows)
  | @evaluate hand scope node more hscope htree hstop _ ih =>
      refine .evaluate hscope htree (fun stop => ?_) fun value hvalue =>
        ih value hvalue fun result later hgrows => ?_
      · rw [hstop stop]
        rfl
      · exact hnext result later ((hand.grows_bring value).trans hgrows)
  | @guard hand scope node more hcatches hscope htree hfailed _ _ ihreturned ih =>
      refine .guard hcatches hscope htree (fun failure => ?_)
        (fun value hvalue => ihreturned value hvalue fun result later hgrows => ?_)
        fun value hvalue => ih value hvalue fun result later hgrows => ?_
      · rw [hfailed failure]
        rfl
      · exact hnext result later ((hand.grows_bring value).trans hgrows)
      · exact hnext result later ((hand.grows_bring value).trans hgrows)

theorem mono {weaker : Hand → β → Prop} {script : Script (Except Stop β)}
    (h : Follows mandate post script hand)
    (hweaker : ∀ hand value, post hand value → weaker hand value) :
    Follows mandate weaker script hand := by
  induction h with
  | done hvalue => exact .done (hweaker _ _ hvalue)
  | returning hreturns hvalue => exact .returning hreturns hvalue
  | failed hheld => exact .failed hheld
  | exhausted => exact .exhausted
  | raise hraises hfailed => exact .raise hraises hfailed
  | perform hmay _ ih => exact .perform hmay ih
  | evaluate hscope htree hstop _ ih => exact .evaluate hscope htree hstop ih
  | guard hcatches hscope htree hfailed _ _ ihreturned ih =>
      exact .guard hcatches hscope htree hfailed ihreturned ih

theorem pure {value : β} (hvalue : post hand value) :
    Follows mandate post (Pure.pure value : Action β).script hand :=
  .done hvalue

theorem fail {fault : Fault} (hraises : mandate.raises fault) :
    Follows mandate post (Action.fail fault).script hand :=
  .raise hraises fun _ => rfl

theorem performing {operation : Operation} (hmay : mandate.May hand operation) :
    Follows mandate
      (fun later reply => operation.Gives reply ∧ later = hand.after operation reply)
      (Action.perform operation).script hand :=
  .perform hmay fun _ hreply => .done ⟨hreply, rfl⟩

theorem evaluation {scope : Nat} {node : Node} (hscope : mandate.Reaches hand scope)
    (htree : mandate.trees node) :
    Follows mandate mandate.Brings (Action.evaluate scope node).script hand :=
  .evaluate hscope htree (fun _ => rfl) fun _ hvalue => .done ⟨.inl rfl, hvalue⟩

/-- Every evaluation inside the boundary of a program may return to it. -/
theorem catchReturn {action : Action Value} (hcatches : mandate.catches)
    (h : Follows mandate mandate.Carries action.script hand) :
    Follows mandate mandate.Carries (Action.catchReturn action).script hand := by
  obtain ⟨script⟩ := action
  change Follows mandate mandate.Carries script hand at h
  induction h with
  | done hvalue => exact .done hvalue
  | returning _ hvalue => exact .done hvalue.carries
  | failed hheld => exact .failed hheld
  | exhausted => exact .exhausted
  | raise hraises hfailed =>
      refine .raise hraises fun failure => ?_
      rw [hfailed failure]
      rfl
  | perform hmay _ ih => exact .perform hmay ih
  | @evaluate hand scope node next hscope htree hstop _ ih =>
      -- without the boundary a value that returns would end the script; here it is what it comes to
      refine .guard hcatches hscope (.inl htree) (fun failure => ?_) (fun value hvalue => ?_) ih
      · rw [hstop]
        rfl
      · rw [hstop]
        exact .done ⟨.brought (.inl rfl), hvalue⟩
  | @guard hand scope node next hcatches hscope htree hfailed _ _ ihreturned ih =>
      refine .guard hcatches hscope htree (fun failure => ?_) ihreturned ih
      rw [hfailed failure]
      rfl

/-- The body of a function at hand returns to its call. -/
theorem calling {stamp : Nat} {parameters : List Name} {body : Node} {home own : Nat}
    (hcatches : mandate.catches) (hscope : mandate.Reaches hand own)
    (hcallee : mandate.Makes hand (.function stamp parameters body home)) :
    Follows mandate mandate.Carries (Action.catchReturn (Action.evaluate own body)).script hand :=
  .guard hcatches hscope (.inr ⟨stamp, parameters, home, hcallee⟩) (fun _ => rfl)
    (fun _ hvalue => .done ⟨.brought (.inl rfl), hvalue⟩)
    fun _ hvalue => .done ⟨.brought (.inl rfl), hvalue⟩

/-- A value is on its way unless it is an error, which was held. -/
theorem yield {value : Value} (hvalue : mandate.Makes hand value) :
    Follows mandate mandate.Carries (Action.yield value).script hand := by
  cases value with
  | error failure => exact .failed hvalue
  | _ => exact .done (hvalue.carries rfl)

theorem ofExcept {result : Except Fault Value}
    (hvalue : ∀ value, result = .ok value → mandate.Makes hand value)
    (hraises : ∀ fault, result = .error fault → mandate.raises fault) :
    Follows mandate mandate.Carries (Action.ofExcept result).script hand := by
  cases result with
  | ok value => exact yield (hvalue value rfl)
  | error fault => exact fail (hraises fault rfl)

end Follows

end Eval

end Monkey
