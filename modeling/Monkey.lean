import Monkey.Text.Ranges
import Monkey.Text.Letter
import Monkey.Text.Number
import Monkey.Text.Printable
import Monkey.Text.Blank
import Monkey.Text.Quoted
import Monkey.Text.Numeral
import Monkey.Text.Newline
import Monkey.Text.Utf8
import Monkey.Token
import Monkey.Token.Lexer
import Monkey.Token.Listing
import Monkey.Node
import Monkey.Node.Source
import Monkey.Node.Outline
import Monkey.Parse.Complaint
import Monkey.Parse.Cursor
import Monkey.Parse.Precedence
import Monkey.Parse.Phrase
import Monkey.Parse.Program
import Monkey.Value
import Monkey.Value.Word
import Monkey.Value.Operator
import Monkey.World
import Monkey.Eval.Script
import Monkey.Eval.Action
import Monkey.Eval.Builtin
import Monkey.Eval.Level
import Monkey.Eval.Run
import Monkey.Settings
import Monkey.Session
import Monkey.Shell.Editing
import Monkey.Shell.Colouring
import Monkey.Shell.Command
import Monkey.Shell.Prompt
import Monkey.Directory
import Monkey.CommandLine
import Monkey.Main
import Monkey.Proofs.Relocation
import Monkey.Proofs.Parts
import Monkey.Proofs.Token.Classes
import Monkey.Proofs.Token.Layout
import Monkey.Proofs.Token.Seam
import Monkey.Proofs.Token.Respacing
import Monkey.Proofs.Token.Division
import Monkey.Proofs.Parse.Grammar
import Monkey.Proofs.Parse.Reading
import Monkey.Proofs.Parse.Soundness
import Monkey.Proofs.Parse.Rendering
import Monkey.Proofs.Parse.ReadBack
import Monkey.Proofs.Parse.RoundTrip
import Monkey.Proofs.Parse.Relocation
import Monkey.Proofs.Parse.Abreast
import Monkey.Proofs.Parse.Lockstep
import Monkey.Proofs.Parse.Joining
import Monkey.Proofs.Parse.Literals
import Monkey.Proofs.Eval.Bindings
import Monkey.Proofs.Eval.Operators
import Monkey.Proofs.Eval.Mandate
import Monkey.Proofs.Eval.Constructs
import Monkey.Proofs.Eval.Contract
import Monkey.Proofs.Eval.Kept
import Monkey.Proofs.Eval.History
import Monkey.Proofs.Eval.Errors
import Monkey.Proofs.Eval.Frame
import Monkey.Proofs.Eval.Relocation
import Monkey.Proofs.Eval.Places
import Monkey.Proofs.Eval.Visits
import Monkey.Proofs.Eval.Rules
import Monkey.Proofs.Eval.Obedience
import Monkey.Proofs.Eval.Throughout
import Monkey.Proofs.Eval.Calls
import Monkey.Proofs.Eval.Returns
import Monkey.Proofs.Session.Reports
import Monkey.Proofs.Session.Joining
import Monkey.Proofs.Session.Respacing
import Monkey.Proofs.Session.Containment
import Monkey.Proofs.Session.Words
import Monkey.Proofs.Shell.Lines
import Monkey.Proofs.Eval.Invariant
import Monkey.Proofs.Eval.Upkeep
import Monkey.Proofs.Shell.Brackets
import Monkey.Proofs.Shell.Inert
import Monkey.Proofs.Eval.ScopeGraph
import Monkey.Proofs.Session.Hosting
import Monkey.Proofs.Eval.Cutoff
import Monkey.Proofs.Parse.Parts
import Monkey.Proofs.Eval.Steps
import Monkey.Proofs.Eval.Sparing
import Monkey.Proofs.Eval.Bodies
import Monkey.Proofs.Session.Unmentioned
import Monkey.Proofs.Parse.Cohesion
import Monkey.Proofs.Parse.Grouping
import Monkey.Proofs.Token.Fragments
import Monkey.Proofs.Parse.Printing
import Monkey.Proofs.Eval.Success
import Monkey.Proofs.Session.Arithmetic
import Monkey.Proofs.Parse.Numerals
import Monkey.Proofs.Session.Inspection
import Monkey.Proofs.Parse.Completeness
import Monkey.Proofs.Eval.Foreseen
import Monkey.Proofs.Session.Execution
import Monkey.Proofs.Eval.Clauses
import Monkey.Proofs.Eval.Equality
import Monkey.Proofs.Eval.HashLiterals
import Monkey.Proofs.Parse.Positional
import Monkey.Proofs.Shell.Colouring
import Monkey.Proofs.Eval.Assignment
import Monkey.Proofs.Parse.Descent
import Monkey.Proofs.Eval.Stages
import Monkey.Proofs.Eval.Ledger
import Monkey.Proofs.Eval.Handover
import Monkey.Proofs.Session.Identity
