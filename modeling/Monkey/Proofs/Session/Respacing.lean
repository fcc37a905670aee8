import Monkey.Proofs.Session.Joining
import Monkey.Proofs.Token.Respacing

/-!
# Layout decides nothing

A source and the same tokens with single spaces between them differ in places only. Parsing,
printing and evaluation do not look at places, so both sources have the same complaints and the same
texts, and they come to the same when they are run.
-/
namespace Monkey

namespace Parse

/-- Tokens that say the same give programs that differ in places only. -/
theorem tokens_of_lexemes {ts others : List Token} (hts : ts ≠ [])
    (h : ts.map (·.lexeme) = others.map (·.lexeme)) :
    (tokens ts).relocate .erase = (tokens others).relocate .erase := by
  have hothers : others ≠ [] := by
    rintro rfl
    exact hts (by simpa using h)
  rw [← tokens_relocate .erase hts, ← tokens_relocate .erase hothers,
    Token.relocate_erase_of_lexemes h]

theorem source_respace (text : String) :
    (source (Token.respace text)).relocate .erase = (source text).relocate .erase := by
  have hsome : Token.ofSource (Token.respace text) ≠ [] := by
    obtain ⟨ts, eof, htokens, _⟩ := Token.ofSource_eq_concat (Token.respace text)
    simp [htokens]
  exact tokens_of_lexemes hsome (Token.lexemes_respace text)

section
variable {first second : Parsed} (h : first.relocate .erase = second.relocate .erase)
include h

theorem complaints_of_relocate : first.complaints = second.complaints := by
  have hcomplaints := congrArg Parsed.complaints h
  exact hcomplaints

theorem program_of_relocate : first.program.relocate .erase = second.program.relocate .erase := by
  have hprogram := congrArg Parsed.program h
  simpa [Parsed.program, Parsed.relocate] using hprogram

end

end Parse

namespace Session

open Eval

/-- The text that a finished entry has to show. -/
def Verdict.shown? : Verdict → Option String
  | finished value _ => some value.display
  | _ => none

theorem Verdict.shown?_relocate (move : Position → Position) (verdict : Verdict) :
    (verdict.relocate move).shown? = verdict.shown? := by
  cases verdict with
  | finished value quiet => simp [relocate, shown?, Value.display_relocate]
  | _ => rfl

/-- Statements that differ in places only give the same verdict. -/
theorem verdict_of_relocate {move : Position → Position} {nodes others : List Node}
    (h : nodes.map (·.relocate move) = others.map (·.relocate move))
    (result : Result (Except Stop Value)) : verdict nodes result = verdict others result := by
  have hquiet (statements : List Node) (value : Value) :
      isQuiet value (statements.map (·.relocate move)) = isQuiet value statements := by
    simp [isQuiet, Function.comp_def]
  have hsame (value : Value) : isQuiet value nodes = isQuiet value others := by
    rw [← hquiet nodes, h, hquiet]
  simp only [verdict, hsame]

/-- Texts whose programs differ in places only come to what differs in places only. -/
theorem run_of_relocate {first second : String}
    (h : (Parse.source first).relocate .erase = (Parse.source second).relocate .erase)
    (limits : Limits) (scope : Nat) (world : World) :
    (run limits scope first world).map (·.relocate .erase) (·.relocate .erase) =
      (run limits scope second world).map (·.relocate .erase) (·.relocate .erase) := by
  have hcomplaints := Parse.complaints_of_relocate h
  have hstatements := congrArg Parse.Parsed.statements h
  have hfirst := congrArg Parse.Parsed.first h
  have hsame : (Parse.source first).isClean = (Parse.source second).isClean := by
    rw [Parse.Parsed.isClean, hcomplaints, Parse.Parsed.isClean]
  by_cases hclean : (Parse.source second).isClean
  · have hblock : (Node.block (Parse.source first).first (Parse.source first).statements).relocate
        .erase = (Node.block (Parse.source second).first (Parse.source second).statements).relocate
        .erase := by
      simp only [Parse.Parsed.relocate] at hstatements hfirst
      simp [hstatements, hfirst]
    have hending : (ending limits scope first world).relocate .erase (·.relocate .erase) =
        (ending limits scope second world).relocate .erase (·.relocate .erase) :=
      eval_relocate_congr hblock ..
    have hworld := congrArg Result.world hending
    rw [run_of_isClean hclean, run_of_isClean (hsame.trans hclean), Prod.map, Prod.map,
      verdict_relocate, verdict_relocate, hending, verdict_of_relocate hstatements]
    exact congrArg _ hworld
  · have hunclean : ¬ (Parse.source first).isClean := by rwa [hsame]
    rw [run, run, if_neg hclean, if_neg hunclean, hcomplaints]

/-- A source says the same with single spaces in the place of its gaps: it has the same tokens but
for their places, the same complaints, the same text and the same outline, whatever that is shown
as, and run from the same world it comes to the same, shows the same and writes the same. -/
theorem layout_immaterial (text : String) :
    let other := Token.respace text
    (Token.ofSource other).map (·.lexeme) = (Token.ofSource text).map (·.lexeme) ∧
      (Parse.source other).complaints = (Parse.source text).complaints ∧
      (Parse.source other).program.source = (Parse.source text).program.source ∧
      (Parse.source other).program.outline = (Parse.source text).program.outline ∧
      (Parse.source other).program.outlineText = (Parse.source text).program.outlineText ∧
      ∀ (limits : Limits) (scope : Nat) (world : World),
        (run limits scope other world).map (·.relocate .erase) (·.relocate .erase) =
            (run limits scope text world).map (·.relocate .erase) (·.relocate .erase) ∧
          (run limits scope other world).1.shown? = (run limits scope text world).1.shown? ∧
          (run limits scope other world).2.output = (run limits scope text world).2.output := by
  intro other
  have hparsed := Parse.source_respace text
  have hprogram := Parse.program_of_relocate hparsed
  have houtline : (Parse.source other).program.outline = (Parse.source text).program.outline := by
    rw [← Node.outline_relocate .erase, hprogram, Node.outline_relocate]
  refine ⟨Token.lexemes_respace text, Parse.complaints_of_relocate hparsed, ?_, houtline, ?_, ?_⟩
  · rw [← Node.source_relocate .erase, hprogram, Node.source_relocate]
  · rw [Node.outlineText, houtline, Node.outlineText]
  · intro limits scope world
    have hrun := run_of_relocate hparsed limits scope world
    refine ⟨hrun, ?_, ?_⟩
    · have hshown := congrArg (fun result => result.1.shown?) hrun
      simpa [Verdict.shown?_relocate] using hshown
    · exact congrArg (fun result => result.2.output) hrun

/-- Gaps are of no account: comments, blank lines and a text that is not closed. -/
example : Token.respace "let a=1;# one\n\n a +\t++\"x\ny" = "let a = 1 ; a + ++ \"x\ny" := by
  decide +kernel

end Session

end Monkey
