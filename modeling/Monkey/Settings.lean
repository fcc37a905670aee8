import Monkey.Eval.Run
import Monkey.Text.Numeral

/-!
# Settings

Two variables of the surroundings steer the interpreter: whether fatal errors come with a trace,
and how deep evaluation may go. The second counts frames, of which a level of evaluation takes at
least two. It is used as it is, so a number that is too large is no setting but a fault.
-/
namespace Monkey

/-- Variables with their values, each at most once. -/
abbrev Variables := List (String × String)

namespace Variables

def get? (env : Variables) (name : String) : Option String :=
  env.lookup name

def remove (env : Variables) (name : String) : Variables :=
  env.filter (·.1 != name)

def put (env : Variables) (name value : String) : Variables :=
  (name, value) :: env.remove name

theorem get?_remove_of_ne {name other : String} (h : name ≠ other) (env : Variables) :
    (env.remove other).get? name = env.get? name := by
  induction env with
  | nil => rfl
  | cons binding rest ih =>
      obtain ⟨key, value⟩ := binding
      by_cases hkey : key = other
      · have hname : (name == other) = false := by simpa using h
        simpa [remove, get?, List.lookup_cons, hkey, hname] using ih
      · by_cases hname : name = key
        · simp [remove, get?, hkey, hname]
        · have hname' : (name == key) = false := by simpa using hname
          simpa [remove, get?, List.lookup_cons, hkey, hname'] using ih

theorem get?_put_of_ne {name other : String} (h : name ≠ other) (env : Variables)
    (value : String) : (env.put other value).get? name = env.get? name := by
  have hkey : (name == other) = false := by simpa using h
  simpa [put, get?, List.lookup_cons, hkey] using get?_remove_of_ne h env

end Variables

namespace Settings

def traceVariable : String := "MONKEY_DEBUG_PY_TRACE"

def limitVariable : String := "MONKEY_RECURSION_LIMIT"

def onWords : List String := ["1", "true", "on", "yes"]

def offWords : List String := ["0", "false", "off", "no"]

/-- The text in lower case. Flags are words of ASCII letters, and no character beyond ASCII becomes
one of their letters. -/
def lowerCase (text : String) : String :=
  .ofList (text.toList.map Char.toLower)

/-- The meaning of a flag, if it has one. -/
def flag? (text : String) : Option Bool :=
  let word := lowerCase text
  if word ∈ onWords then some true
  else if word ∈ offWords then some false
  else none

def traceEnabled (env : Variables) : Bool :=
  match env.get? traceVariable with
  | some text => flag? (Text.strip text) == some true
  | none => false

def setTrace (enabled : Bool) (env : Variables) : Variables :=
  if enabled then env.put traceVariable "1" else env.remove traceVariable

/-- The number of frames that is asked for; only a positive integer counts. -/
def frameLimit? (env : Variables) : Option Nat := do
  let text ← env.get? limitVariable
  let limit ← Text.Numeral.read? 10 (Text.strip text).toList
  if 0 < limit then some limit.toNat else none

/-- The number of frames where none is asked for. -/
def defaultFrames : Nat := 20000

/-- The most frames that can be set, the largest signed number of 32 bits. -/
def mostFrames : Nat := 0x7fffffff

/-- More frames were asked for than can be set. -/
structure TooManyFrames where
  asked : Nat
  deriving DecidableEq, Repr

def TooManyFrames.message (_ : TooManyFrames) : String :=
  "Python int too large to convert to C int"

/-- The limit that holds from now on: the one asked for, else one that is never lowered. -/
def appliedFrames (current : Nat) (env : Variables) : Except TooManyFrames Nat :=
  match frameLimit? env with
  | some asked => if asked ≤ mostFrames then .ok asked else .error ⟨asked⟩
  | none => .ok (max current defaultFrames)

/-- The most turns of one loop, two to the power of 62. -/
def maxTurns : Nat := 0x4000000000000000

def limitsOf (frames : Nat) : Eval.Limits :=
  ⟨frames / 2, maxTurns⟩

/-- The limits that a run starts with. -/
def limits (env : Variables) : Except TooManyFrames Eval.Limits :=
  (appliedFrames 0 env).map limitsOf

theorem limits_nil : limits [] = .ok (limitsOf defaultFrames) := rfl

/-- The trace sets no limits. -/
theorem limits_setTrace (enabled : Bool) (env : Variables) :
    limits (setTrace enabled env) = limits env := by
  have hname : limitVariable ≠ traceVariable := by decide
  have hkept : (setTrace enabled env).get? limitVariable = env.get? limitVariable := by
    rw [setTrace]
    split
    · exact Variables.get?_put_of_ne hname env "1"
    · exact Variables.get?_remove_of_ne hname env
  simp [limits, appliedFrames, frameLimit?, hkept]

end Settings

end Monkey
