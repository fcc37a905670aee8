import Monkey.Node.Outline
import Monkey.Shell.Prompt
import Monkey.Text.Newline
import Monkey.Text.Utf8

/-!
# The command line

The arguments say where the source text is: in a file, in the standard input, or in the argument
itself if no file has its name. Without any, a terminal gets a prompt.
-/
namespace Monkey.CommandLine

open Parse (Complaint)

/-- What the arguments ask for. -/
structure Options where
  outline : Bool
  file : Option String
  argument : Option String
  deriving DecidableEq, Repr

/-- The mark of an option that holds the path of a file. -/
def fileMark : List Char := "--file=".toList

/-- Reads the arguments; the message is for those that cannot be. -/
def readOptions (options : Options) : List String → Except String Options
  | [] =>
      match options.file, options.argument with
      | some _, some extra => .error ("Unexpected argument: " ++ extra)
      | _, _ => .ok options
  | "--ast" :: rest => readOptions { options with outline := true } rest
  | ["--file"] => .error "--file flag requires a path"
  | "--file" :: path :: rest => readOptions { options with file := some path } rest
  | argument :: rest =>
      if fileMark.isPrefixOf argument.toList then
        let path := String.ofList (argument.toList.drop fileMark.length)
        readOptions { options with file := some path } rest
      else match options.argument with
        | none => readOptions { options with argument := some argument } rest
        | some _ => .error ("Unexpected argument: " ++ argument)

def options (arguments : List String) : Except String Options :=
  readOptions ⟨false, none, none⟩ arguments

/-- What surrounds a run. -/
structure Host where
  env : Variables
  /-- The bytes of the standard input. -/
  input : List Nat
  /-- The lines that will be typed, if the standard input is a terminal. -/
  terminal : Option (List (Option String))
  /-- The bytes of the file at a path. -/
  file? : String → Option (List Nat)

/-- How a run ends. -/
inductive Exit where
  | code (number : Nat)
  /-- It could not begin. -/
  | message (text : String)
  /-- Its text could not be decoded. -/
  | undecodable (fault : Text.Utf8.Fault)
  /-- Its limits could not be set. -/
  | refused (fault : Settings.TooManyFrames)
  deriving DecidableEq, Repr

structure Finish where
  turn : Turn
  exit : Exit
  deriving DecidableEq, Repr

/-- Bytes from outside as a text with plain line ends. -/
def decode (bytes : List Nat) : Except Exit String :=
  match Text.Utf8.decode bytes with
  | .ok text => .ok (.ofList (Text.unifyLineEnds text))
  | .error fault => .error (.undecodable fault)

/-- The standard input as source text; it must not be empty. -/
def inputText (host : Host) : Except Exit String := do
  let text ← decode host.input
  if text = "" then .error (.message "No input provided on stdin") else .ok text

/-- The source text that the options lead to. -/
def sourceText (host : Host) (options : Options) : Except Exit String :=
  match options.file, options.argument with
  | some path, _ =>
      match host.file? path with
      | some bytes => decode bytes
      | none => .error (.message ("File not found: " ++ path))
  | none, some argument =>
      if argument = "-" then inputText host
      else match host.file? argument with
        | some bytes => decode bytes
        | none => .ok argument
  | none, none => inputText host

/-- The complaints about a source text on the error output. -/
def rejected (complaints : List Complaint) : Finish :=
  ⟨⟨"", "parser errors:\n" ++ Session.report complaints ++ "\n"⟩, .code 1⟩

/-- Goes on with the limits that the variables set. -/
def withLimits (env : Variables) (next : Eval.Limits → Finish) : Finish :=
  match Settings.limits env with
  | .ok limits => next limits
  | .error fault => ⟨⟨"", ""⟩, .refused fault⟩

def showOutline (env : Variables) (text : String) : Finish :=
  withLimits env fun _ =>
    let parsed := Parse.source text
    if parsed.isClean then ⟨⟨parsed.program.outlineText ++ "\n", ""⟩, .code 0⟩
    else rejected parsed.complaints

/-- How a run ends: its value goes to the output, an error to the error output. -/
def finishOf (trace : Bool) (verdict : Session.Verdict) (world : World) : Finish :=
  match verdict with
  | .rejected complaints => rejected complaints
  | .exhausted => ⟨⟨world.output, Session.exhaustionReport trace⟩, .code 2⟩
  | .finished (.error failure) _ =>
      ⟨⟨world.output, (Value.error failure).display ++ "\n"⟩, .code 1⟩
  | .finished .null _ => ⟨⟨world.output, ""⟩, .code 0⟩
  | .finished value _ => ⟨⟨world.output ++ value.display ++ "\n", ""⟩, .code 0⟩

/-- Runs a source text. -/
def runText (env : Variables) (text : String) : Finish :=
  withLimits env fun limits =>
    let (verdict, world) := Session.run limits 0 text .initial
    finishOf (Settings.traceEnabled env) verdict world

/-- A session ends well with the end of its entries. -/
def exitOf : Option Shell.Ending → Exit
  | none => .code 0
  | some (.left code) => .code code
  | some (.refused fault) => .refused fault

/-- A session at the terminal, with all it wrote. -/
def prompt (env : Variables) (lines : List (Option String)) : Finish :=
  let (steps, ending) := Shell.session env lines
  ⟨⟨String.join (steps.map (·.turn.out)), String.join (steps.map (·.turn.err))⟩, exitOf ending⟩

def runOptions (host : Host) (options : Options) : Finish :=
  match options.file, options.argument, host.terminal with
  | none, none, some lines => prompt host.env lines
  | _, _, _ =>
      match sourceText host options with
      | .error exit => ⟨⟨"", ""⟩, exit⟩
      | .ok text => if options.outline then showOutline host.env text else runText host.env text

/-- The whole program. -/
def run (host : Host) (arguments : List String) : Finish :=
  match options arguments with
  | .error text => ⟨⟨"", ""⟩, .message text⟩
  | .ok options => runOptions host options

/-- The outline of the standard input, or the complaints about it. -/
def outlineInput (host : Host) : Finish :=
  match decode host.input with
  | .error exit => ⟨⟨"", ""⟩, exit⟩
  | .ok text =>
      let parsed := Parse.source text
      if parsed.isClean then ⟨⟨parsed.program.outlineText, ""⟩, .code 0⟩
      else ⟨⟨"", Session.report parsed.complaints ++ "\n"⟩, .code 1⟩

end Monkey.CommandLine
