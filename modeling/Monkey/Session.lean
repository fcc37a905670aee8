import Monkey.Eval.Run
import Monkey.Parse.Program

/-!
# Entries of a session

An entry is a source text run in a scope that may have been used before. A text with complaints is
not run at all.
-/
namespace Monkey.Session

open Parse

inductive Verdict where
  | rejected (complaints : List Complaint)
  /-- A quiet value is not worth showing. -/
  | finished (value : Value) (quiet : Bool)
  | exhausted

/-- An entry is quiet if its value is null or its last statement binds a name. -/
def isQuiet (value : Value) (statements : List Node) : Bool :=
  value.isNull || (statements.getLast?.map (·.isBinding)).getD false

def run (limits : Eval.Limits) (scope : Nat) (text : String) (world : World) : Verdict × World :=
  let parsed := Parse.source text
  if parsed.isClean then
    match Eval.evaluate limits scope parsed.program world with
    | (some value, after) => (.finished value (isQuiet value parsed.statements), after)
    | (none, after) => (.exhausted, after)
  else (.rejected parsed.complaints, world)

/-- Complaints one to a line, each behind a tab. -/
def report (complaints : List Complaint) : String :=
  "\n".intercalate (complaints.map fun complaint => "\t" ++ complaint.message)

/-- What is said when evaluation went too deep. -/
def exhaustionReport (trace : Bool) : String :=
  "fatal: RECURSION\n" ++ if trace then "\nPython traceback:\nTRACEBACK" else ""

end Monkey.Session
