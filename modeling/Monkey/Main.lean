import Monkey.CommandLine

/-!
# The program

Input and output around the command line and the prompt.
-/
namespace Monkey.Main

open CommandLine

/-- The bytes of a file that can be read. -/
def readFile? (path : String) : IO (Option (List Nat)) := do
  try
    let bytes ← IO.FS.readBinFile path
    return some (bytes.toList.map (·.toNat))
  catch _ => return none

def readVariables : IO Variables := do
  let found ← [Settings.traceVariable, Settings.limitVariable].mapM fun name => do
    return (← IO.getEnv name).map fun value => (name, value)
  return found.filterMap id

def display (turn : Turn) : IO Unit := do
  (← IO.getStdout).putStr turn.out
  (← IO.getStdout).flush
  (← IO.getStderr).putStr turn.err

/-- The prompt at a terminal. `typed` holds the lines of an entry with open brackets. -/
partial def prompt (shell : Shell) (typed : String) : IO UInt32 := do
  let stdout ← IO.getStdout
  stdout.putStr (if typed.isEmpty then ">> " else ".. ")
  stdout.flush
  let line ← (← IO.getStdin).getLine
  if line.isEmpty then
    stdout.putStrLn ""
    return 0
  let text := typed ++ (String.ofList (line.toList.filter (· != '\n')))
  match Shell.enterKey text with
  | .insert added => prompt shell (text ++ added)
  | .submit =>
      let (turn, next) := shell.handle text
      display turn
      match next with
      | .leaves code => return code.toUInt32
      | .goesOn after => prompt after ""

/-- Reads what the options need, runs them and shows what came of it. -/
def runOptions (env : Variables) (options : Options) : IO UInt32 := do
  let path := options.file <|> options.argument
  let contents ← path.elim (pure none) readFile?
  let readsInput := options.file.isNone && options.argument.all (· == "-")
  let input ← if readsInput then (← IO.getStdin).readBinToEnd else pure .empty
  let host : Host :=
    { env, input := input.toList.map (·.toNat), terminal := none,
      file? := fun asked => if some asked = path then contents else none }
  let finish := CommandLine.runOptions host options
  display finish.turn
  match finish.exit with
  | .code number => return number.toUInt32
  | .message text => IO.eprintln text; return 1
  | .undecodable fault => IO.eprintln fault.message; return 1
  | .refused fault => IO.eprintln fault.message; return 1

end Monkey.Main

def main (arguments : List String) : IO UInt32 := do
  let env ← Monkey.Main.readVariables
  match Monkey.CommandLine.options arguments with
  | .error text => IO.eprintln text; return 1
  | .ok options =>
      if options.file.isNone && options.argument.isNone && (← (← IO.getStdin).isTty) then
        match Monkey.Shell.start? env with
        | .ok shell =>
            (← IO.getStdout).putStr Monkey.Shell.banner
            Monkey.Main.prompt shell ""
        | .error fault => IO.eprintln fault.message; return 1
      else Monkey.Main.runOptions env options
