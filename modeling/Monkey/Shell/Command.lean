import Monkey.Text.Blank

/-!
# Commands of the shell

A line that begins with a slash is a command: its name up to the first space, then its argument.
-/
namespace Monkey.Shell

inductive Command where
  | clear
  | help
  | trace
  | reset
  deriving DecidableEq, Repr

namespace Command

/-- Every command, in the order of the help text. -/
def all : List Command := [clear, help, trace, reset]

def name : Command → String
  | clear => "/clear"
  | help => "/help"
  | trace => "/py-traceback"
  | reset => "/reset"

def usage : Command → String
  | trace => "[on|off]"
  | _ => ""

def summary : Command → String
  | clear => "clear the screen"
  | help => "list shell commands"
  | trace => "show Python tracebacks for fatal errors"
  | reset => "forget every binding"

def ofName? (text : String) : Option Command :=
  all.find? (·.name == text)

theorem ofName?_name (command : Command) : ofName? command.name = some command := by
  cases command <;> decide

end Command

/-- Fills a text with spaces up to a width. -/
def padRight (width : Nat) (text : String) : String :=
  text ++ .ofList (List.replicate (width - text.length) ' ')

def helpLine (command : Command) : String :=
  "  " ++ padRight 24 (Text.strip (command.name ++ " " ++ command.usage)) ++ " " ++
    command.summary ++ "\n"

def helpText : String :=
  String.join (Command.all.map helpLine)

/-- What a command line asks for. -/
inductive Request where
  | known (command : Command) (argument : String)
  | unknown (name : String)
  deriving DecidableEq, Repr

/-- Reads a line as a command; other lines are none. -/
def request? (line : String) : Option Request :=
  let text := (Text.strip line).toList
  if text.head? = some '/' then
    let name := String.ofList (text.takeWhile (· != ' '))
    let argument := Text.strip (.ofList ((text.dropWhile (· != ' ')).drop 1))
    match Command.ofName? name with
    | some command => some (.known command argument)
    | none => some (.unknown name)
  else none

/-- A command that the text typed so far may become. -/
structure Completion where
  command : Command
  /-- How many characters it replaces. -/
  typed : Nat
  deriving DecidableEq, Repr

/-- The commands that begin with a text, if it begins with a slash and has no space. -/
def completions (typed : String) : List Completion :=
  if typed.toList.head? = some '/' ∧ ' ' ∉ typed.toList then
    (Command.all.filter fun command => typed.toList.isPrefixOf command.name.toList).map
      fun command => ⟨command, typed.length⟩
  else []

end Monkey.Shell
