import Monkey.Proofs.Eval.Calls
import Monkey.Session

/-!
# Evaluations that come to a value

`Comes` says that the evaluation of a node ends with a value, and in which world. Its rules follow
the constructs: from what the parts of a node come to, one after another, each rule tells what the
node comes to, one level further up.
-/
namespace Monkey.Eval

/-- Evaluated down to a depth, the node comes to the value, and the world is then `after`. -/
def Comes (maxTurns depth scope : Nat) (node : Node) (world : World) (value : Value)
    (after : World) : Prop :=
  eval maxTurns depth scope node world = ⟨some (.ok value), after⟩

/-- The nodes come to the values one after another. -/
inductive ComeAll (maxTurns depth scope : Nat) : List Node → World → List Value → World → Prop where
  | nil {world : World} : ComeAll maxTurns depth scope [] world [] world
  | cons {node : Node} {nodes : List Node} {world middle after : World} {value : Value}
      {values : List Value} (hfirst : Comes maxTurns depth scope node world value middle)
      (hrest : ComeAll maxTurns depth scope nodes middle values after) :
      ComeAll maxTurns depth scope (node :: nodes) world (value :: values) after

/-- The pairs come to keys and values one after another, each key before its value. -/
inductive ComePairs (maxTurns depth scope : Nat) :
    List (Node × Node) → World → List (Key × Value) → World → Prop where
  | nil {world : World} : ComePairs maxTurns depth scope [] world [] world
  | cons {pair : Node × Node} {pairs : List (Node × Node)} {world middle later after : World}
      {key : Key} {value : Value} {entries : List (Key × Value)}
      (hkey : Comes maxTurns depth scope pair.1 world key.value middle)
      (hvalue : Comes maxTurns depth scope pair.2 middle value later)
      (hrest : ComePairs maxTurns depth scope pairs later entries after) :
      ComePairs maxTurns depth scope (pair :: pairs) world ((key, value) :: entries) after

section
variable {maxTurns depth scope : Nat} {world middle after : World} {node : Node} {value : Value}

theorem Comes.run (h : Comes maxTurns depth scope node world value after) :
    (Action.evaluate scope node).run (eval maxTurns depth) world = ⟨some (.ok value), after⟩ := by
  rw [run_evaluate]
  exact h

theorem run_yield (hvalue : value.isFailure = false) (inner : Evaluator) :
    (Action.yield value).run inner world = ⟨some (.ok value), world⟩ := by
  cases value with
  | error failure => cases hvalue
  | _ => rfl

theorem ComeAll.run {nodes : List Node} {found : List Value}
    (h : ComeAll maxTurns depth scope nodes world found after) :
    (values scope nodes).run (eval maxTurns depth) world = ⟨some (.ok found), after⟩ := by
  induction h with
  | nil => rfl
  | cons hfirst _ ih =>
      rw [values, bind_of_ok hfirst.run, bind_of_ok ih]
      rfl

/-- The entries of a hash are those of its pairs, each put behind or in place of an older one. -/
theorem ComePairs.run {pairs : List (Node × Node)} {found : List (Key × Value)}
    (h : ComePairs maxTurns depth scope pairs world found after) (before : List (Key × Value)) :
    (entries scope before pairs).run (eval maxTurns depth) world =
      ⟨some (.ok (found.foldl (fun all entry => Value.putEntry entry.1 entry.2 all) before)),
        after⟩ := by
  induction h generalizing before with
  | nil => rfl
  | cons hkey hvalue _ ih =>
      rw [entries, bind_of_ok hkey.run, Value.key?_value]
      exact (bind_of_ok hvalue.run _).trans (ih _)

namespace Comes

theorem integer (token : Token) (number : Int) :
    Comes maxTurns (depth + 1) scope (.integer token number) world (.integer number) world := rfl

theorem boolean (token : Token) (flag : Bool) :
    Comes maxTurns (depth + 1) scope (.boolean token flag) world (.boolean flag) world := rfl

theorem identifier {name : Name} (h : world.get? scope name.text = some value)
    (hvalue : value.isFailure = false) :
    Comes maxTurns (depth + 1) scope (.identifier name) world value world := by
  have hlook : (Action.perform (.look scope name.text)).run (eval maxTurns depth) world =
      ⟨some (.ok (some value)), world⟩ := by
    rw [← h]
    rfl
  exact (bind_of_ok hlook _).trans (run_yield hvalue _)

theorem unary {operator : String} {operand : Value}
    (h : Comes maxTurns depth scope node world operand after)
    (hresult : operand.unary operator = .ok value) (hvalue : value.isFailure = false)
    (token : Token) :
    Comes maxTurns (depth + 1) scope (.unary token operator node) world value after := by
  refine (bind_of_ok h.run _).trans ?_
  rw [hresult]
  exact run_yield hvalue _

theorem binary {operator : String} {left right : Node} {first second : Value}
    (hleft : Comes maxTurns depth scope left world first middle)
    (hright : Comes maxTurns depth scope right middle second after)
    (hresult : Value.binary operator first second = .ok value) (hvalue : value.isFailure = false)
    (token : Token) :
    Comes maxTurns (depth + 1) scope (.binary token left operator right) world value after := by
  refine (bind_of_ok hleft.run _).trans ((bind_of_ok hright.run _).trans ?_)
  rw [hresult]
  exact run_yield hvalue _

theorem array {nodes : List Node} {found : List Value}
    (h : ComeAll maxTurns depth scope nodes world found after) (token : Token) :
    Comes maxTurns (depth + 1) scope (.array token nodes) world (.array after.objects found)
      { after with objects := after.objects + 1 } :=
  bind_of_ok h.run _

theorem hash {pairs : List (Node × Node)} {found : List (Key × Value)}
    (h : ComePairs maxTurns depth scope pairs world found after) (token : Token) :
    Comes maxTurns (depth + 1) scope (.hash token pairs) world
      (.hash after.objects
        (found.foldl (fun all entry => Value.putEntry entry.1 entry.2 all) []))
      { after with objects := after.objects + 1 } :=
  bind_of_ok (h.run []) _

theorem expression (h : Comes maxTurns depth scope node world value after) (token : Token) :
    Comes maxTurns (depth + 1) scope (.expression token node) world value after :=
  h.run

/-- A program of one statement comes to what the statement does. -/
theorem program (h : Comes maxTurns depth scope node world value after) (token : Token) :
    Comes maxTurns (depth + 1) scope (.program token [node]) world value after := by
  have hstatements : (statements scope .null [node]).run (eval maxTurns depth) world =
      ⟨some (.ok value), after⟩ := bind_of_ok h.run _
  refine (run_catchReturn _).trans ?_
  rw [hstatements]
  rfl

end Comes

end

/-! ## What is evaluated on the way -/

/-- The node that was evaluated. -/
def Event.node? : Event → Option Node
  | .evaluated _ node _ => some node
  | .performed _ => none

/-- The nodes that the run of an action evaluates, in order; those inside them do not count. -/
def Action.evaluated (action : Action α) (inner : Evaluator) (world : World) : List Node :=
  (action.script.events inner world).filterMap Event.node?

section
variable {inner : Evaluator} {world after : World}

theorem evaluated_bind_of_ok {action : Action α} {value : α}
    (h : action.run inner world = ⟨some (.ok value), after⟩) (next : α → Action β) :
    (action >>= next).evaluated inner world =
      action.evaluated inner world ++ (next value).evaluated inner after := by
  rw [Action.evaluated, events_bind_of_ok h, List.filterMap_append]
  rfl

theorem evaluated_evaluate (scope : Nat) (node : Node) :
    (Action.evaluate scope node).evaluated inner world = [node] := by
  rw [Action.evaluated, events_evaluate]
  rfl

/-- An action begins with what it evaluates first. -/
theorem evaluated_bind_evaluate {scope : Nat} {node : Node} {value : Value}
    (h : inner scope node world = ⟨some (.ok value), after⟩) (next : Value → Action β) :
    (Action.evaluate scope node >>= next).evaluated inner world =
      node :: (next value).evaluated inner after := by
  rw [evaluated_bind_of_ok ((run_evaluate scope node).trans h), evaluated_evaluate]
  rfl

/-- If that does not come to a value, nothing else is evaluated. -/
theorem evaluated_bind_evaluate_of_ne {scope : Nat} {node : Node}
    (h : ∀ value, (inner scope node world).value ≠ some (.ok value)) (next : Value → Action β) :
    (Action.evaluate scope node >>= next).evaluated inner world = [node] := by
  rcases hresult : inner scope node world with ⟨_ | stop | value, after⟩
  · have hevents : (Action.evaluate scope node >>= next).script.events inner world =
        [.evaluated scope node ⟨none, after⟩] := Script.events_evaluate_none hresult
    rw [Action.evaluated, hevents]
    rfl
  · rw [Action.evaluated, (bind_of_stop ((run_evaluate scope node).trans hresult) next).2]
    exact evaluated_evaluate scope node
  · exact absurd (by rw [hresult]) (h value)

end

end Monkey.Eval

/-! ## In a session -/

namespace Monkey.Session

open Eval

/-- A text that is read as one expression comes to what the expression comes to. -/
theorem run_of_comes {limits : Limits} {depth scope : Nat} {text : String} {first token : Token}
    {node : Node} {world after : World} {value : Value}
    (hsource : Parse.source text = ⟨first, [.expression token node], []⟩)
    (hdepth : limits.depth = depth + 2)
    (h : Comes limits.turns depth scope node world value after) :
    run limits scope text world = (.finished value value.isNull, after) := by
  have hprogram : Comes limits.turns limits.depth scope (Parse.source text).program world value
      after := by
    rw [hsource, hdepth]
    exact (h.expression token).program first
  have hevaluate : Eval.evaluate limits scope (Parse.source text).program world =
      (some value, after) := by
    rw [Eval.evaluate, hprogram]
    rfl
  have hclean : (Parse.source text).isClean := by rw [hsource]; rfl
  have hquiet : isQuiet value (Parse.source text).statements = value.isNull := by
    simp [isQuiet, hsource, Node.isBinding]
  rw [run, if_pos hclean, hevaluate, ← hquiet]

end Monkey.Session
