import Monkey.Session
import Monkey.Settings
import Monkey.Shell.Command
import Monkey.Shell.Editing

/-!
# The prompt

A shell takes one line after the other. Commands change the shell, other lines are run in its
scope, and blank lines do nothing. The session ends with the input, or at once when evaluation went
too deep.
-/
namespace Monkey

/-- Text written while a line was handled. -/
structure Turn where
  out : String
  err : String
  deriving DecidableEq, Repr, Inhabited

structure Shell where
  env : Variables
  limits : Eval.Limits
  /-- The limits are those that the variables set. -/
  applied : Settings.limits env = .ok limits
  world : World
  scope : Nat

namespace Shell

def start {env : Variables} {limits : Eval.Limits} (applied : Settings.limits env = .ok limits) :
    Shell :=
  ⟨env, limits, applied, .initial, 0⟩

/-- A new shell, unless the variables ask for limits that cannot be set. -/
def start? (env : Variables) : Except Settings.TooManyFrames Shell :=
  match h : Settings.limits env with
  | .ok _ => .ok (start h)
  | .error fault => .error fault

theorem start?_of_limits {env : Variables} {limits : Eval.Limits}
    (applied : Settings.limits env = .ok limits) : start? env = .ok (start applied) := by
  unfold start?
  split
  next found hfound =>
      obtain rfl : found = limits := Except.ok.inj (hfound.symm.trans applied)
      rfl
  next hfault => cases hfault.symm.trans applied

theorem start?_of_refused {env : Variables} {fault : Settings.TooManyFrames}
    (h : Settings.limits env = .error fault) : start? env = .error fault := by
  unfold start?
  split
  next hfound => cases hfound.symm.trans h
  next other hother => rw [Except.error.inj (hother.symm.trans h)]

def banner : String := "monkey repl: Ctrl-D to exit, /help for commands\n"

def traceEnabled (shell : Shell) : Bool :=
  Settings.traceEnabled shell.env

/-- Turns the trace on or off, and says so. -/
def setTrace (shell : Shell) (enabled : Bool) : Turn × Shell :=
  (⟨"Python traceback: " ++ (if enabled then "on" else "off") ++ "\n", ""⟩,
    { shell with
      env := Settings.setTrace enabled shell.env
      applied := (Settings.limits_setTrace enabled shell.env).trans shell.applied })

def execute (shell : Shell) : Request → Turn × Shell
  | .known .clear _ => (⟨"<clear>\n", ""⟩, shell)
  | .known .help _ => (⟨helpText, ""⟩, shell)
  | .known .reset _ =>
      (⟨"Environment reset.\n", ""⟩, { shell with world := .initial, scope := 0 })
  | .known .trace argument =>
      if argument = "" then shell.setTrace (!shell.traceEnabled)
      else match Settings.flag? argument with
        | some enabled => shell.setTrace enabled
        | none => (⟨"", "usage: " ++ Command.trace.name ++ " " ++ Command.trace.usage ++ "\n"⟩,
            shell)
  | .unknown name => (⟨"", "Unknown command: " ++ name ++ " (try /help)\n"⟩, shell)

/-- What comes of a line: the shell goes on or is left with a code. -/
inductive Next where
  | goesOn (shell : Shell)
  | leaves (code : Nat)

/-- Runs a line as source text. -/
def runSource (shell : Shell) (text : String) : Turn × Next :=
  let (verdict, world) := Session.run shell.limits shell.scope text shell.world
  let (written, world) := world.flush
  let after := { shell with world := world }
  match verdict with
  | .rejected complaints => (⟨written, Session.report complaints ++ "\n"⟩, .goesOn after)
  | .exhausted => (⟨written, Session.exhaustionReport shell.traceEnabled⟩, .leaves 2)
  | .finished value quiet =>
      (⟨if quiet then written else written ++ value.display ++ "\n", ""⟩, .goesOn after)

/-- Handles a line as it was typed. -/
def handle (shell : Shell) (line : String) : Turn × Next :=
  let text := tidy line
  if Text.strip text = "" then (⟨"", ""⟩, .goesOn shell)
  else match request? text with
    | some request =>
        let (turn, after) := shell.execute request
        (turn, .goesOn after)
    | none => shell.runSource text

/-- A turn, and whether the trace is on after it. -/
structure Step where
  turn : Turn
  trace : Bool
  deriving DecidableEq, Repr

/-- The steps from a shell on, with the code it is left with. An entry without text is an
interrupt, and the end of the entries is answered by an empty line. -/
def steps (shell : Shell) : List (Option String) → List Step × Option Nat
  | [] => ([⟨⟨"\n", ""⟩, shell.traceEnabled⟩], none)
  | none :: rest =>
      let more := shell.steps rest
      (⟨⟨"", ""⟩, shell.traceEnabled⟩ :: more.1, more.2)
  | some line :: rest =>
      match shell.handle line with
      | (turn, .leaves code) => ([⟨turn, shell.traceEnabled⟩], some code)
      | (turn, .goesOn after) =>
          let more := after.steps rest
          (⟨turn, after.traceEnabled⟩ :: more.1, more.2)

/-- Why a session ends with entries left. -/
inductive Ending where
  /-- The shell is left with a code. -/
  | left (code : Nat)
  /-- There is no shell. -/
  | refused (fault : Settings.TooManyFrames)
  deriving DecidableEq, Repr

/-- A whole session, from its banner on. -/
def session (env : Variables) (lines : List (Option String)) : List Step × Option Ending :=
  match start? env with
  | .ok shell =>
      let more := shell.steps lines
      (⟨⟨banner, ""⟩, shell.traceEnabled⟩ :: more.1, more.2.map .left)
  | .error fault => ([], some (.refused fault))

end Shell

end Monkey
