import Monkey.Proofs.Eval.History
import Monkey.Proofs.Eval.Relocation

/-!
# Evaluation does not look at places

Evaluating a relocated tree in a relocated world gives the relocated result. The rules of `Moves`
follow the steps of actions; each construct moves if the evaluations inside it do. Main statement:
`eval_relocate`.
-/
namespace Monkey.Eval

open Monkey.Eval.Action

def Stop.relocate (move : Position → Position) : Stop → Stop
  | failed failure => failed failure
  | returning value => returning (value.relocate move)

/-- A reply with its value converted, or the stop moved. -/
def relocateReply (move : Position → Position) (convert : α → α) : Except Stop α → Except Stop α
  | .ok value => .ok (convert value)
  | .error stop => .error (stop.relocate move)

def Result.relocate (move : Position → Position) (convert : α → α)
    (result : Result (Except Stop α)) : Result (Except Stop α) :=
  ⟨result.value.map (relocateReply move convert), result.world.relocate move⟩

/-- The evaluations inside do not depend on places. -/
def Natural (move : Position → Position) (inner : Evaluator) : Prop :=
  ∀ scope node world, inner scope (node.relocate move) (world.relocate move) =
    (inner scope node world).relocate move (·.relocate move)

/-- In a relocated world, the second action comes to what the first comes to in the world. -/
def Moves (move : Position → Position) (inner : Evaluator) (convert : α → α)
    (action moved : Action α) : Prop :=
  ∀ world : World, moved.run inner (world.relocate move) =
    (action.run inner world).relocate move convert

namespace Moves

variable {α β : Type} {move : Position → Position} {inner : Evaluator} {convert : α → α}
  {change : β → β} {action moved : Action α}

theorem bind {next other : α → Action β} (h : Moves move inner convert action moved)
    (hnext : ∀ value, Moves move inner change (next value) (other (convert value))) :
    Moves move inner change (action >>= next) (moved >>= other) := by
  intro world
  have hfirst := h world
  show (moved.script.bind _).run inner _ = Result.relocate _ _ ((action.script.bind _).run inner _)
  rw [Script.run_bind, Script.run_bind]
  rw [Action.run, Action.run] at hfirst
  rw [hfirst]
  rcases action.script.run inner world with ⟨_ | stop | value, after⟩
  · rfl
  · rfl
  · exact hnext value after

theorem pure_of_eq {value other : α} (h : convert value = other) :
    Moves move inner convert (Pure.pure value) (Pure.pure other) := by
  subst h
  exact fun _ => rfl

theorem pure (value : α) :
    Moves move inner convert (Pure.pure value) (Pure.pure (convert value)) :=
  pure_of_eq rfl

theorem stop (reason : Stop) :
    Moves move inner convert (Action.stop reason) (Action.stop (reason.relocate move)) :=
  fun _ => rfl

theorem exhausted : Moves move inner convert Action.exhausted Action.exhausted :=
  fun _ => rfl

theorem fail (fault : Fault) :
    Moves move inner convert (Action.fail fault) (Action.fail fault) :=
  fun _ => rfl

theorem ite {condition : Prop} [Decidable condition] {first second rest : Action α}
    (hfirst : Moves move inner convert first moved)
    (hsecond : Moves move inner convert second rest) :
    Moves move inner convert (if condition then first else second)
      (if condition then moved else rest) := by
  split
  · exact hfirst
  · exact hsecond

theorem yield (value : Value) :
    Moves move inner (·.relocate move) (Action.yield value) (Action.yield (value.relocate move)) := by
  cases value with
  | error failure => exact stop (.failed failure)
  | _ => exact .pure _

theorem ofExcept {result other : Except Fault Value} (h : other = result.map (·.relocate move)) :
    Moves move inner (·.relocate move) (Action.ofExcept result) (Action.ofExcept other) := by
  subst h
  cases result with
  | ok value => exact yield value
  | error fault => exact fail fault

theorem catchReturn {action moved : Action Value}
    (h : Moves move inner (·.relocate move) action moved) :
    Moves move inner (·.relocate move) (Action.catchReturn action) (Action.catchReturn moved) := by
  intro world
  have hfirst := h world
  show (moved.script.bind _).run inner _ = Result.relocate _ _ ((action.script.bind _).run inner _)
  rw [Script.run_bind, Script.run_bind]
  rw [Action.run, Action.run] at hfirst
  rw [hfirst]
  rcases action.script.run inner world with ⟨_ | ⟨failure | value⟩ | value, after⟩ <;> rfl

theorem evaluate (hinner : Natural move inner) (scope : Nat) (node : Node) :
    Moves move inner (·.relocate move) (Action.evaluate scope node)
      (Action.evaluate scope (node.relocate move)) := by
  intro world
  have hresult := hinner scope node world
  have hrun (own : Node) (start : World) :
      (Action.evaluate scope own).run inner start = inner scope own start := by
    rcases hown : inner scope own start with ⟨_ | reply, after⟩
    · exact Script.run_evaluate_none hown
    · exact Script.run_evaluate_some hown
  rw [hrun, hrun, hresult]

end Moves

section
variable {move : Position → Position} {inner : Evaluator}

/-! ## Operations -/

theorem newArray_moves (elements : List Value) :
    Moves move inner (·.relocate move) (perform (.newArray elements))
      (perform (.newArray (elements.map (·.relocate move)))) := by
  intro world
  have hvalue : (Value.array world.objects elements).relocate move =
      .array world.objects (elements.map (·.relocate move)) := by simp
  exact congrArg (fun value => (⟨some (.ok value), _⟩ : Result (Except Stop Value))) hvalue.symm

theorem newHash_moves (entries : List (Key × Value)) :
    Moves move inner (·.relocate move) (perform (.newHash entries))
      (perform (.newHash (entries.map (Prod.map id (·.relocate move))))) := by
  intro world
  have hvalue : (Value.hash world.objects entries).relocate move =
      .hash world.objects (entries.map (Prod.map id (·.relocate move))) := by simp
  exact congrArg (fun value => (⟨some (.ok value), _⟩ : Result (Except Stop Value))) hvalue.symm

theorem newFunction_moves (parameters : List Name) (body : Node) (scope : Nat) :
    Moves move inner (·.relocate move) (perform (.newFunction parameters body scope))
      (perform (.newFunction (parameters.map (·.relocate move)) (body.relocate move) scope)) :=
  fun _ => rfl

section
variable {α : Type} {convert : α → α} {scope : Nat} {name : String}

theorem bind_look {next other : Option Value → Action α}
    (h : ∀ found, Moves move inner convert (next found) (other (found.map (·.relocate move)))) :
    Moves move inner convert (perform (.look scope name) >>= next)
      (perform (.look scope name) >>= other) := by
  intro world
  show (other ((world.relocate move).get? scope name)).run inner (world.relocate move) =
    ((next (world.get? scope name)).run inner world).relocate move convert
  rw [World.get?_relocate]
  exact h _ world

theorem bind_set {value : Value} {next other : Unit → Action α}
    (h : Moves move inner convert (next ()) (other ())) :
    Moves move inner convert (perform (.set scope name value) >>= next)
      (perform (.set scope name (value.relocate move)) >>= other) := by
  intro world
  show (other ()).run inner ((world.relocate move).set scope name (value.relocate move)) =
    ((next ()).run inner (world.set scope name value)).relocate move convert
  rw [World.set_relocate]
  exact h _

theorem bind_assign {value : Value} {next other : Bool → Action α}
    (h : ∀ found, Moves move inner convert (next found) (other found)) :
    Moves move inner convert (perform (.assign scope name value) >>= next)
      (perform (.assign scope name (value.relocate move)) >>= other) := by
  intro world
  have hassign := World.assign_relocate move world scope name value
  show (other ((world.relocate move).assign scope name (value.relocate move)).1).run inner
      ((world.relocate move).assign scope name (value.relocate move)).2 =
    ((next (world.assign scope name value).1).run inner
      (world.assign scope name value).2).relocate move convert
  rw [hassign]
  exact h _ _

theorem bind_enclose {next other : Nat → Action α}
    (h : ∀ own, Moves move inner convert (next own) (other own)) :
    Moves move inner convert (perform (.enclose scope) >>= next)
      (perform (.enclose scope) >>= other) := by
  intro world
  show (other ((world.relocate move).enclose scope).1).run inner
      ((world.relocate move).enclose scope).2 =
    ((next (world.enclose scope).1).run inner (world.enclose scope).2).relocate move convert
  rw [World.enclose_relocate]
  exact h _ _

theorem bind_write {text : String} {next other : Unit → Action α}
    (h : Moves move inner convert (next ()) (other ())) :
    Moves move inner convert (perform (.write text) >>= next)
      (perform (.write text) >>= other) :=
  fun world => h (world.write text)

end

/-! ## Builtins -/

theorem length_moves (value : Value) :
    Moves move inner (·.relocate move) (length value) (length (value.relocate move)) := by
  cases value with
  | string text => exact .pure _
  | array stamp elements =>
      refine .pure_of_eq ?_
      simp
  | _ => exact .fail _

theorem withElements_moves {builtin : Builtin} (value : Value)
    {next other : List Value → Action Value}
    (h : ∀ elements, Moves move inner (·.relocate move) (next elements)
      (other (elements.map (·.relocate move)))) :
    Moves move inner (·.relocate move) (withElements builtin value next)
      (withElements builtin (value.relocate move) other) := by
  cases value with
  | array stamp elements =>
      rw [Value.relocate, Value.relocateAll_eq_map]
      exact h elements
  | _ => exact .fail _

theorem wrongCount_moves (arguments : List Value) (wanted : Nat) :
    Moves move inner (Value.relocate move) (fail (.wrongCount arguments.length wanted))
      (fail (.wrongCount (arguments.map (·.relocate move)).length wanted)) := by
  rw [List.length_map]
  exact .fail _

theorem builtinBody_moves (builtin : Builtin) (arguments : List Value) :
    Moves move inner (·.relocate move) (builtinBody builtin arguments)
      (builtinBody builtin (arguments.map (·.relocate move))) := by
  have hwrong : Moves move inner (Value.relocate move) _ _ :=
    wrongCount_moves arguments (builtin.arity.getD 0)
  cases builtin with
  | len =>
      match arguments with
      | [value] => exact length_moves value
      | [] | _ :: _ :: _ => exact hwrong
  | first =>
      match arguments with
      | [value] =>
          refine withElements_moves value fun elements => ?_
          cases elements <;> exact .yield _
      | [] | _ :: _ :: _ => exact hwrong
  | last =>
      match arguments with
      | [value] =>
          refine withElements_moves value fun elements => ?_
          rw [List.getLast?_map]
          cases elements.getLast? <;> exact .yield _
      | [] | _ :: _ :: _ => exact hwrong
  | rest =>
      match arguments with
      | [value] =>
          refine withElements_moves value fun elements => ?_
          cases elements with
          | nil => exact .pure _
          | cons first tail => exact newArray_moves tail
      | [] | _ :: _ :: _ => exact hwrong
  | push =>
      match arguments with
      | [value, added] =>
          refine withElements_moves value fun elements => ?_
          have hpushed : Moves move inner (Value.relocate move) _ _ :=
            newArray_moves (elements ++ [added])
          rwa [List.map_append] at hpushed
      | [] | [_] | _ :: _ :: _ :: _ => exact hwrong
  | puts =>
      have hshown : (arguments.map (·.relocate move)).map (·.display) =
          arguments.map (·.display) := by simp [Value.display_relocate]
      rw [builtinBody, builtinBody, hshown]
      refine bind_write (.pure_of_eq ?_)
      simp

theorem callBuiltin_moves (builtin : Builtin) (arguments : List Value) :
    Moves move inner (·.relocate move) (callBuiltin builtin arguments)
      (callBuiltin builtin (arguments.map (·.relocate move))) := by
  unfold callBuiltin
  split
  · rw [List.length_map]
    exact .ite (builtinBody_moves builtin arguments) (.fail _)
  · exact builtinBody_moves builtin arguments

/-! ## Names -/

theorem read_moves (scope : Nat) (name : String) :
    Moves move inner (·.relocate move) (read scope name) (read scope name) := by
  refine bind_look fun found => ?_
  cases found with
  | none => exact .fail _
  | some value => exact .yield value

theorem increment_moves (scope : Nat) (name : String) :
    Moves move inner (·.relocate move) (increment scope name) (increment scope name) := by
  refine bind_look fun found => ?_
  cases found with
  | none => exact .fail _
  | some old =>
      simp only [Option.map_some, Value.increment_relocate]
      cases old.increment with
      | error fault => exact .fail fault
      | ok new => exact bind_assign fun _ => .pure new

theorem bindAll_moves (scope : Nat) (pairs : List (Name × Value)) :
    Moves move inner id (bindAll scope pairs)
      (bindAll scope (pairs.map (Prod.map (·.relocate move) (·.relocate move)))) := by
  induction pairs with
  | nil => exact .pure ()
  | cons pair rest ih => exact bind_set ih

/-! ## Constructs -/

variable (hinner : Natural move inner)
include hinner

theorem statements_moves (scope : Nat) (last : Value) (nodes : List Node) :
    Moves move inner (·.relocate move) (statements scope last nodes)
      (statements scope (last.relocate move) (nodes.map (·.relocate move))) := by
  induction nodes generalizing last with
  | nil => exact .pure last
  | cons node rest ih => exact (Moves.evaluate hinner scope node).bind ih

theorem values_moves (scope : Nat) (nodes : List Node) :
    Moves move inner (List.map (·.relocate move)) (values scope nodes)
      (values scope (nodes.map (·.relocate move))) := by
  induction nodes with
  | nil => exact .pure []
  | cons node rest ih =>
      exact (Moves.evaluate hinner scope node).bind fun value => ih.bind fun more =>
        .pure (value :: more)

theorem entries_moves (scope : Nat) (before : List (Key × Value)) (pairs : List (Node × Node)) :
    Moves move inner (List.map (Prod.map id (·.relocate move))) (entries scope before pairs)
      (entries scope (before.map (Prod.map id (·.relocate move)))
        (pairs.map (Prod.map (·.relocate move) (·.relocate move)))) := by
  induction pairs generalizing before with
  | nil => exact .pure before
  | cons pair rest ih =>
      refine (Moves.evaluate hinner scope pair.1).bind fun keyValue => ?_
      rw [Value.key?_relocate, Value.type_relocate]
      cases keyValue.key? with
      | none => exact .fail _
      | some key =>
          refine (Moves.evaluate hinner scope pair.2).bind fun value => ?_
          rw [Value.putEntry_relocate]
          exact ih _

omit hinner in
theorem isTaken_relocate (subject : Option Value) (value : Value) :
    isTaken (subject.map (·.relocate move)) (value.relocate move) = isTaken subject value := by
  cases subject <;> simp [isTaken]

theorem clauses_moves (scope : Nat) (subject : Option Value) (nodes : List Node) :
    Moves move inner (·.relocate move) (clauses scope subject nodes)
      (clauses scope (subject.map (·.relocate move)) (nodes.map (·.relocate move))) := by
  induction nodes with
  | nil => exact .pure Value.null
  | cons node rest ih =>
      cases node with
      | clause token condition body =>
          refine (Moves.evaluate hinner scope condition).bind fun value => ?_
          rw [isTaken_relocate, Node.relocateAll_eq_map]
          exact .ite (statements_moves hinner scope .null body) ih
      | _ => exact ih

theorem switch_moves (scope : Nat) (subject : Node) (cases : List Node) :
    Moves move inner (·.relocate move) (switch scope subject cases)
      (switch scope (subject.relocate move) (cases.map (·.relocate move))) := by
  unfold switch
  rw [Node.isHole_relocate]
  exact .ite (clauses_moves hinner scope none cases)
    ((Moves.evaluate hinner scope subject).bind fun value =>
      clauses_moves hinner scope (some value) cases)

theorem goesOn_moves (scope : Nat) (condition : Node) :
    Moves move inner id (goesOn scope condition) (goesOn scope (condition.relocate move)) := by
  unfold goesOn
  rw [Node.isHole_relocate]
  refine .ite (.pure true) ((Moves.evaluate hinner scope condition).bind fun value => ?_)
  exact .pure_of_eq (by simp)

theorem turns_moves (scope : Nat) (condition post body : Node) (count : Nat) :
    Moves move inner (·.relocate move) (turns scope condition post body count)
      (turns scope (condition.relocate move) (post.relocate move) (body.relocate move) count) := by
  induction count with
  | zero => exact .exhausted
  | succ count ih =>
      refine (goesOn_moves hinner scope condition).bind fun more => .ite ?_ (.pure Value.null)
      exact (Moves.evaluate hinner scope body).bind fun _ =>
        (Moves.evaluate hinner scope post).bind fun _ => ih

theorem loop_moves (maxTurns scope : Nat) (init condition post body : Node) :
    Moves move inner (·.relocate move) (loop maxTurns scope init condition post body)
      (loop maxTurns scope (init.relocate move) (condition.relocate move) (post.relocate move)
        (body.relocate move)) :=
  bind_enclose fun own => (Moves.evaluate hinner own init).bind fun _ =>
    turns_moves hinner own condition post body maxTurns

theorem conditional_moves (scope : Nat) (condition consequence alternative : Node) :
    Moves move inner (·.relocate move) (conditional scope condition consequence alternative)
      (conditional scope (condition.relocate move) (consequence.relocate move)
        (alternative.relocate move)) := by
  refine (Moves.evaluate hinner scope condition).bind fun value => ?_
  rw [Value.holds_relocate, Node.isHole_relocate]
  exact .ite (.evaluate hinner scope consequence)
    (.ite (.pure Value.null) (.evaluate hinner scope alternative))

theorem binding_moves (scope : Nat) (name : String) (node : Node) :
    Moves move inner (·.relocate move) (binding scope name node)
      (binding scope name (node.relocate move)) :=
  (Moves.evaluate hinner scope node).bind fun _ => bind_set (.pure Value.null)

theorem returning_moves (scope : Nat) (node : Node) :
    Moves move inner (·.relocate move) (returning scope node)
      (returning scope (node.relocate move)) :=
  (Moves.evaluate hinner scope node).bind fun value => .stop (.returning value)

theorem unary_moves (scope : Nat) (operator : String) (operand : Node) :
    Moves move inner (·.relocate move) (unary scope operator operand)
      (unary scope operator (operand.relocate move)) :=
  (Moves.evaluate hinner scope operand).bind fun value =>
    .ofExcept (value.unary_relocate move operator)

theorem binary_moves (scope : Nat) (left : Node) (operator : String) (right : Node) :
    Moves move inner (·.relocate move) (binary scope left operator right)
      (binary scope (left.relocate move) operator (right.relocate move)) :=
  (Moves.evaluate hinner scope left).bind fun first =>
    (Moves.evaluate hinner scope right).bind fun second =>
      .ofExcept (Value.binary_relocate move operator first second)

theorem index_moves (scope : Nat) (collection key : Node) :
    Moves move inner (·.relocate move) (index scope collection key)
      (index scope (collection.relocate move) (key.relocate move)) :=
  (Moves.evaluate hinner scope collection).bind fun first =>
    (Moves.evaluate hinner scope key).bind fun second =>
      .ofExcept (Value.index_relocate move first second)

theorem apply_moves (callee : Value) (arguments : List Value) :
    Moves move inner (·.relocate move) (apply callee arguments)
      (apply (callee.relocate move) (arguments.map (·.relocate move))) := by
  cases callee with
  | function stamp parameters body home =>
      refine bind_enclose fun own => ?_
      rw [List.zip_map]
      exact (bindAll_moves own _).bind fun _ => .catchReturn (.evaluate hinner own body)
  | builtin builtin => exact callBuiltin_moves builtin arguments
  | _ => exact .fail _

theorem call_moves (scope : Nat) (callee : Node) (arguments : List Node) :
    Moves move inner (·.relocate move) (call scope callee arguments)
      (call scope (callee.relocate move) (arguments.map (·.relocate move))) :=
  (Moves.evaluate hinner scope callee).bind fun function =>
    (values_moves hinner scope arguments).bind fun given => apply_moves hinner function given

theorem array_moves (scope : Nat) (elements : List Node) :
    Moves move inner (·.relocate move) (array scope elements)
      (array scope (elements.map (·.relocate move))) :=
  (values_moves hinner scope elements).bind newArray_moves

theorem hash_moves (scope : Nat) (pairs : List (Node × Node)) :
    Moves move inner (·.relocate move) (hash scope pairs)
      (hash scope (pairs.map (Prod.map (·.relocate move) (·.relocate move)))) :=
  (entries_moves hinner scope [] pairs).bind newHash_moves

theorem level_moves (maxTurns scope : Nat) (node : Node) :
    Moves move inner (·.relocate move) (level maxTurns scope node)
      (level maxTurns scope (node.relocate move)) := by
  cases node <;> simp only [Node.relocate, Node.relocateAll_eq_map, Node.relocatePairs_eq_map]
  case hole => exact .pure Value.null
  case program token nodes => exact .catchReturn (statements_moves hinner scope .null nodes)
  case block token nodes => exact statements_moves hinner scope .null nodes
  case binding token name value => exact binding_moves hinner scope name.text value
  case returning token value => exact returning_moves hinner scope value
  case expression token body => exact .evaluate hinner scope body
  case increment token name => exact increment_moves scope name.text
  case clause => exact .fail _
  case switch token subject cases => exact switch_moves hinner scope subject cases
  case identifier name => exact read_moves scope name.text
  case integer token value => exact .pure (Value.integer value)
  case text token value => exact .pure (Value.string value)
  case boolean token value => exact .pure (Value.boolean value)
  case unary token operator operand => exact unary_moves hinner scope operator operand
  case binary token left operator right => exact binary_moves hinner scope left operator right
  case conditional token condition consequence alternative =>
    exact conditional_moves hinner scope condition consequence alternative
  case loop token init condition post body =>
    exact loop_moves hinner maxTurns scope init condition post body
  case function token parameters body => exact newFunction_moves parameters body scope
  case call token callee arguments => exact call_moves hinner scope callee arguments
  case array token elements => exact array_moves hinner scope elements
  case index token collection key => exact index_moves hinner scope collection key
  case hash token pairs => exact hash_moves hinner scope pairs

end

/-- A relocated tree in a relocated world comes to the relocated result. -/
theorem eval_relocate (move : Position → Position) (maxTurns depth : Nat) :
    Natural move (eval maxTurns depth) := by
  induction depth with
  | zero => exact fun _ _ _ => rfl
  | succ depth ih => exact fun scope node => level_moves ih maxTurns scope node

end Monkey.Eval
