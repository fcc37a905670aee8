import Monkey.Parse.Program
import Monkey.Proofs.Relocation

/-!
# Parsing does not look at places

Every parser gives on relocated tokens what it gives on the tokens themselves, relocated, with the
same complaints. The rules of `Moves` follow the steps of the parsers; a test on a token asks for its
kind, which stays. Main statement: `tokens_relocate`.
-/
namespace Monkey.Parse

open Monkey.Parse.Parser

namespace Cursor

def relocate (move : Position → Position) (cursor : Cursor) : Cursor :=
  ⟨cursor.current.relocate move, cursor.rest.map (·.relocate move)⟩

variable (move : Position → Position) (cursor : Cursor)

@[simp] theorem current_relocate :
    (cursor.relocate move).current = cursor.current.relocate move := rfl

@[simp] theorem length_rest_relocate :
    (cursor.relocate move).rest.length = cursor.rest.length := by
  simp [relocate]

@[simp] theorem peek_relocate : (cursor.relocate move).peek = cursor.peek.relocate move := by
  obtain ⟨current, _ | ⟨next, rest⟩⟩ := cursor <;> rfl

@[simp] theorem advance_relocate :
    (cursor.relocate move).advance = cursor.advance.relocate move := by
  obtain ⟨current, _ | ⟨next, rest⟩⟩ := cursor <;> rfl

end Cursor

/-- A reading with its value converted and its cursor moved. -/
def Reading.relocate (move : Position → Position) (convert : α → α) (reading : Reading α) :
    Reading α :=
  ⟨reading.value.map convert, reading.complaints, reading.after.relocate move⟩

/-- On relocated tokens, the second parser reads what the first does on the tokens. -/
def Moves (move : Position → Position) (convert : α → α) (parser moved : Parser α) : Prop :=
  ∀ cursor : Cursor, moved (cursor.relocate move) = (parser cursor).relocate move convert

namespace Moves

variable {move : Position → Position} {α β : Type} {convert : α → α} {change : β → β}
  {parser moved : Parser α}

theorem bind {next other : α → Parser β} (h : Moves move convert parser moved)
    (hnext : ∀ value, Moves move change (next value) (other (convert value))) :
    Moves move change (parser >>= next) (moved >>= other) := by
  intro cursor
  rw [bind_apply, bind_apply, h cursor]
  cases hvalue : (parser cursor).value with
  | none => simp [Reading.relocate, hvalue]
  | some value =>
      have hlast := hnext value (parser cursor).after
      simp [Reading.relocate, hvalue, hlast]

theorem pure_of_eq {value other : α} (h : convert value = other) :
    Moves move convert (Pure.pure value) (Pure.pure other) := by
  rw [← h]
  exact fun _ => rfl

theorem pure (value : α) :
    Moves move convert (Pure.pure value) (Pure.pure (convert value)) :=
  pure_of_eq rfl

theorem bind_current {next other : Token → Parser β}
    (h : ∀ token, Moves move change (next token) (other (token.relocate move))) :
    Moves move change (current >>= next) (current >>= other) := by
  have hcurrent : Moves move (·.relocate move) current current := fun _ => rfl
  exact hcurrent.bind h

theorem bind_peek {next other : Token → Parser β}
    (h : ∀ token, Moves move change (next token) (other (token.relocate move))) :
    Moves move change (peek >>= next) (peek >>= other) := by
  have hpeek : Moves move (·.relocate move) peek peek := by
    intro cursor
    simp [Reading.relocate]
  exact hpeek.bind h

theorem advance : Moves move id Parser.advance Parser.advance := by
  intro cursor
  simp [Reading.relocate]

theorem bind_advance {next other : Unit → Parser β}
    (h : Moves move change (next ()) (other ())) :
    Moves move change (Parser.advance >>= next) (Parser.advance >>= other) :=
  advance.bind fun _ => h

theorem bind_remaining {next other : Nat → Parser β}
    (h : ∀ count, Moves move change (next count) (other count)) :
    Moves move change (remaining >>= next) (remaining >>= other) := by
  have hremaining : Moves move id remaining remaining := by
    intro cursor
    simp [Reading.relocate, remaining]
  exact hremaining.bind h

theorem fail : Moves move convert Parser.fail Parser.fail :=
  fun _ => rfl

theorem bind_fail {next other : α → Parser β} :
    Moves move change (Parser.fail >>= next) (Parser.fail >>= other) :=
  fun _ => rfl

theorem complain (complaint : Complaint) :
    Moves move id (Parser.complain complaint) (Parser.complain complaint) :=
  fun _ => rfl

theorem ite {condition : Prop} [Decidable condition] {first second : Parser α}
    (hfirst : Moves move convert first moved) {rest : Parser α}
    (hsecond : Moves move convert second rest) :
    Moves move convert (if condition then first else second)
      (if condition then moved else rest) := by
  split
  · exact hfirst
  · exact hsecond

theorem expect (wanted : Kind) : Moves move id (Parser.expect wanted) (Parser.expect wanted) :=
  .bind_peek fun _ => .ite .advance (.bind (.complain _) fun _ => .fail)

theorem bind_expect {wanted : Kind} {next other : Unit → Parser β}
    (h : Moves move change (next ()) (other ())) :
    Moves move change (Parser.expect wanted >>= next) (Parser.expect wanted >>= other) :=
  (expect wanted).bind fun _ => h

theorem skip (kind : Kind) : Moves move id (Parser.skip kind) (Parser.skip kind) :=
  .bind_peek fun _ => .ite .advance (.pure ())

theorem attempt (h : Moves move convert parser moved) :
    Moves move (Option.map convert) parser.attempt moved.attempt := by
  intro cursor
  simp [Parser.attempt, h cursor, Reading.relocate]

theorem orHole {parser moved : Parser Node} (h : Moves move (·.relocate move) parser moved) :
    Moves move (·.relocate move) parser.orHole moved.orHole := by
  intro cursor
  simp only [Parser.orHole, h cursor, Reading.relocate]
  cases (parser cursor).value <;> simp

end Moves

/-- The phrases inside do not depend on places. -/
def Natural (move : Position → Position) (inner : Inner) : Prop :=
  ∀ phrase, Moves move (·.relocate move) (inner phrase) (inner phrase)

section
variable {move : Position → Position}

theorem name_moves : Moves move (·.relocate move) name name :=
  .bind_current fun _ => .pure _

theorem expectName_moves : Moves move (·.relocate move) expectName expectName :=
  .bind_expect name_moves

theorem closing_moves {node other : Node} (h : node.relocate move = other) :
    Moves move (·.relocate move) (closing node) (closing other) :=
  .bind (.skip _) fun _ => .pure_of_eq h

theorem integer_moves : Moves move (·.relocate move) integer integer := by
  refine .bind_current fun token => ?_
  have hvalue : integerValue? (token.relocate move) = integerValue? token := rfl
  rw [hvalue]
  cases integerValue? token with
  | none => exact .bind (.complain _) fun _ => .fail
  | some value => exact .pure (Node.integer token value)

theorem noExpression_moves : Moves move (·.relocate move) noExpression noExpression :=
  .bind_current fun _ => .bind (.complain _) fun _ => .fail

section List
variable {α : Type} {convert : α → α} {parser : Parser α} (h : Moves move convert parser parser)
include h

theorem moreOf_moves (count : Nat) :
    Moves move (List.map convert) (moreOf parser count) (moreOf parser count) := by
  induction count with
  | zero => exact .pure []
  | succ count ih =>
      refine .bind_peek fun _ => .ite ?_ (.pure [])
      exact .bind_advance (h.bind fun first => ih.bind fun rest => .pure (first :: rest))

theorem listOf_moves (closer : Kind) :
    Moves move (List.map convert) (listOf parser closer) (listOf parser closer) := by
  refine .bind_peek fun _ => .ite (.bind_advance (.pure [])) ?_
  refine h.bind fun first => .bind_remaining fun count => ?_
  exact (moreOf_moves h count).bind fun rest => .bind_expect (.pure (first :: rest))

end List

variable {inner : Inner} (h : Natural move inner)
include h

theorem statementsUpTo_moves (closes : Kind → Bool) (count : Nat) :
    Moves move (List.map (·.relocate move)) (statementsUpTo inner closes count)
      (statementsUpTo inner closes count) := by
  induction count with
  | zero => exact .pure []
  | succ count ih =>
      refine .bind_current fun _ => .ite (.pure []) ?_
      refine (h .statement).attempt.bind fun first => .bind_advance (ih.bind fun rest => ?_)
      exact .pure_of_eq (by cases first <;> simp)

theorem statements_moves (closes : Kind → Bool) :
    Moves move (List.map (·.relocate move)) (statements inner closes) (statements inner closes) :=
  .bind_remaining fun _ => statementsUpTo_moves h closes _

theorem block_moves : Moves move (·.relocate move) (block inner) (block inner) := by
  refine .bind_current fun opening => .bind_advance ?_
  refine (statements_moves h _).bind fun body => .bind_current fun last => ?_
  refine .ite (.bind (.complain _) fun _ => ?_) ?_
  · exact .pure_of_eq (by simp)
  · exact .pure_of_eq (by simp)

/-! ## Operands -/

theorem unary_moves : Moves move (·.relocate move) (unary inner) (unary inner) := by
  refine .bind_current fun token => .bind_advance ?_
  exact (h _).orHole.bind fun operand => .pure (Node.unary token token.literal operand)

theorem group_moves : Moves move (·.relocate move) (group inner) (group inner) := by
  refine .bind_advance ((h _).attempt.bind fun body => .bind_expect ?_)
  cases body with
  | none => exact .fail
  | some node => exact .pure node

theorem conditional_moves : Moves move (·.relocate move) (conditional inner) (conditional inner) := by
  refine .bind_current fun token => .bind_expect (.bind_advance ?_)
  refine (h _).orHole.bind fun condition => .bind_expect (.bind_expect ?_)
  refine (block_moves h).bind fun consequence => .bind_peek fun _ => .ite ?_ ?_
  · refine .bind_advance (.bind_expect ((block_moves h).bind fun alternative => ?_))
    exact .pure (Node.conditional token condition consequence alternative)
  · exact .pure (Node.conditional token condition consequence .hole)

theorem loop_moves : Moves move (·.relocate move) (loop inner) (loop inner) := by
  refine .bind_current fun token => .bind_expect (.bind_advance ?_)
  refine (h _).orHole.bind fun init => .bind_current fun last => ?_
  refine .ite (.bind (.complain _) fun _ => .bind_fail) ?_
  refine .bind_advance ((h _).orHole.bind fun condition => .bind_expect (.bind_advance ?_))
  refine (h _).orHole.bind fun post => .bind_expect (.bind_expect ?_)
  exact (block_moves h).bind fun body => .pure (Node.loop token init condition post body)

theorem function_moves : Moves move (·.relocate move) (function inner) (function inner) := by
  refine .bind_current fun token => .bind_expect ?_
  refine (listOf_moves expectName_moves _).bind fun names => .bind_expect ?_
  exact (block_moves h).bind fun body => .pure (Node.function token names body)

theorem item_moves : Moves move (·.relocate move) (item inner) (item inner) :=
  .bind_advance (h _)

theorem items_moves (closer : Kind) :
    Moves move (List.map (·.relocate move)) (items inner closer) (items inner closer) :=
  listOf_moves (item_moves h) closer

theorem array_moves : Moves move (·.relocate move) (array inner) (array inner) := by
  refine .bind_current fun token => (items_moves h _).bind fun elements => ?_
  exact .pure_of_eq (by simp)

theorem pair_moves :
    Moves move (Prod.map (·.relocate move) (·.relocate move)) (pair inner) (pair inner) := by
  refine (item_moves h).bind fun key => .bind_expect ?_
  exact (item_moves h).bind fun value => .pure (key, value)

theorem hash_moves : Moves move (·.relocate move) (hash inner) (hash inner) := by
  refine .bind_current fun token => (listOf_moves (pair_moves h) _).bind fun pairs => ?_
  exact .pure_of_eq (by simp)

theorem operand_moves : Moves move (·.relocate move) (operand inner) (operand inner) := by
  refine .bind_current fun token => ?_
  rw [Token.kind_relocate]
  split
  · exact .pure (Node.identifier ⟨token, token.literal⟩)
  · exact integer_moves
  · exact integer_moves
  · exact .pure (Node.text token token.literal)
  · exact .pure (Node.boolean token true)
  · exact .pure (Node.boolean token false)
  · exact unary_moves h
  · exact unary_moves h
  · exact group_moves h
  · exact conditional_moves h
  · exact loop_moves h
  · exact function_moves h
  · exact array_moves h
  · exact hash_moves h
  · exact noExpression_moves

/-! ## Expressions -/

theorem extension_moves (left : Node) :
    Moves move (·.relocate move) (extension inner left) (extension inner (left.relocate move)) := by
  refine .bind_current fun token => ?_
  rw [Token.kind_relocate]
  split
  · refine (items_moves h _).bind fun arguments => ?_
    exact .pure_of_eq (by simp)
  · refine .bind_advance ((h _).orHole.bind fun key => .bind_expect ?_)
    exact .pure (Node.index token left key)
  · refine .bind_advance ((h _).orHole.bind fun right => ?_)
    exact .pure (Node.binary token left token.literal right)

theorem extensions_moves (bound count : Nat) (left : Node) :
    Moves move (·.relocate move) (extensions inner bound count left)
      (extensions inner bound count (left.relocate move)) := by
  induction count generalizing left with
  | zero => exact .pure left
  | succ count ih =>
      refine .bind_peek fun _ => .ite ?_ (.pure left)
      exact .bind_advance ((extension_moves h left).bind ih)

theorem expression_moves (bound : Nat) :
    Moves move (·.relocate move) (expression inner bound) (expression inner bound) :=
  (operand_moves h).bind fun left => .bind_remaining fun count => extensions_moves h bound count left

/-! ## Statements -/

theorem bindingStatement_moves :
    Moves move (·.relocate move) (bindingStatement inner) (bindingStatement inner) := by
  refine .bind_current fun token => expectName_moves.bind fun target => ?_
  refine .bind_expect (.bind_advance ((h _).orHole.bind fun value => ?_))
  exact closing_moves rfl

theorem returnStatement_moves :
    Moves move (·.relocate move) (returnStatement inner) (returnStatement inner) := by
  refine .bind_current fun token => .bind_advance ((h _).orHole.bind fun value => ?_)
  exact closing_moves rfl

omit h in
theorem signedIncrement_moves : Moves move (·.relocate move) signedIncrement signedIncrement :=
  .bind_current fun _ => expectName_moves.bind fun _ => closing_moves rfl

omit h in
theorem incrementOfName_moves : Moves move (·.relocate move) incrementOfName incrementOfName :=
  name_moves.bind fun _ => .bind_advance (.bind_current fun _ => closing_moves rfl)

theorem expressionStatement_moves :
    Moves move (·.relocate move) (expressionStatement inner) (expressionStatement inner) :=
  .bind_current fun _ => (expression_moves h lowest).orHole.bind fun _ => closing_moves rfl

theorem clauseBody_moves (count : Nat) :
    Moves move (List.map (·.relocate move)) (clauseBody inner count) (clauseBody inner count) := by
  induction count with
  | zero => exact .pure []
  | succ count ih =>
      refine .bind_peek fun _ => .ite (.pure []) (.ite (.bind (.complain _) fun _ => .fail) ?_)
      refine .bind_advance ((h .statement).attempt.bind fun first => ih.bind fun rest => ?_)
      exact .pure_of_eq (by cases first <;> simp)

theorem clause_moves : Moves move (·.relocate move) (clause inner) (clause inner) := by
  refine .bind_current fun token => .bind_advance ((h _).orHole.bind fun condition => ?_)
  refine .bind_expect (.bind_remaining fun count => (clauseBody_moves h _).bind fun body => ?_)
  exact .bind_advance (closing_moves (by simp))

theorem clauses_moves (count : Nat) :
    Moves move (List.map (·.relocate move)) (clauses inner count) (clauses inner count) := by
  induction count with
  | zero => exact .pure []
  | succ count ih =>
      refine .bind_peek fun _ => .ite ?_ (.pure [])
      exact .bind_advance ((clause_moves h).bind fun first => ih.bind fun rest =>
        .pure (first :: rest))

theorem subject_moves : Moves move (·.relocate move) (subject inner) (subject inner) :=
  .bind_peek fun _ => .ite (.pure Node.hole) (.bind_advance (h _).orHole)

theorem switchStatement_moves :
    Moves move (·.relocate move) (switchStatement inner) (switchStatement inner) := by
  refine .bind_current fun token => (subject_moves h).bind fun value => .bind_expect ?_
  refine .bind_remaining fun count => (clauses_moves h count).bind fun cases => .bind_expect ?_
  exact .pure_of_eq (by simp)

theorem statement_moves : Moves move (·.relocate move) (statement inner) (statement inner) := by
  refine .bind_current fun token => .bind_peek fun next => ?_
  rw [Token.kind_relocate, Token.kind_relocate]
  split
  · exact bindingStatement_moves h
  · exact returnStatement_moves h
  · exact signedIncrement_moves
  · exact switchStatement_moves h
  · exact .ite incrementOfName_moves (expressionStatement_moves h)
  · exact expressionStatement_moves h

/-! ## All levels -/

theorem level_natural : Natural move (level inner) := by
  intro phrase
  cases phrase with
  | statement => exact statement_moves h
  | expression bound => exact expression_moves h bound

end

theorem phrase_natural (move : Position → Position) (depth : Nat) : Natural move (phrase depth) := by
  induction depth with
  | zero => exact level_natural fun _ => noExpression_moves
  | succ depth ih => exact level_natural ih

def Parsed.relocate (move : Position → Position) (parsed : Parsed) : Parsed :=
  ⟨parsed.first.relocate move, parsed.statements.map (·.relocate move), parsed.complaints⟩

theorem topLevel_moves (move : Position → Position) :
    Moves move (List.map (·.relocate move)) topLevel topLevel :=
  .bind_remaining fun _ => statements_moves (phrase_natural move _) _

/-- Moved tokens give the moved program and the same complaints. -/
theorem tokens_relocate (move : Position → Position) {ts : List Token} (hts : ts ≠ []) :
    tokens (ts.map (·.relocate move)) = (tokens ts).relocate move := by
  obtain ⟨first, rest, rfl⟩ := List.exists_cons_of_ne_nil hts
  have hread := topLevel_moves move ⟨first, rest⟩
  have hcursor : Cursor.ofTokens ((first :: rest).map (·.relocate move)) =
      Cursor.relocate move ⟨first, rest⟩ := rfl
  rw [tokens, hcursor, hread]
  cases hvalue : (topLevel ⟨first, rest⟩).value with
  | none => simp [tokens, Parsed.relocate, Reading.relocate, Cursor.ofTokens, hvalue]
  | some nodes => simp [tokens, Parsed.relocate, Reading.relocate, Cursor.ofTokens, hvalue]

end Monkey.Parse
