import Monkey.Node
import Monkey.Parse.Complaint

/-!
# Reading from a window on the tokens

A cursor shows the token being read and the one after it; behind the last token it shows end
markers without end. A `Parser` moves the cursor, collects complaints and may come back without a
value. A parser without a value ends what it is part of, unless that goes on with a hole.
-/
namespace Monkey.Parse

structure Cursor where
  current : Token
  rest : List Token
  deriving DecidableEq, Repr

namespace Cursor

/-- The token after the current one; at the end of the tokens, an end marker in the same place. -/
def peek (cursor : Cursor) : Token :=
  cursor.rest.headD (.eofAt cursor.current.position)

def advance (cursor : Cursor) : Cursor :=
  ⟨cursor.peek, cursor.rest.tail⟩

/-- A cursor on the first of the tokens. -/
def ofTokens (tokens : List Token) : Cursor :=
  advance ⟨.eofAt ⟨0, 0⟩, tokens⟩

@[simp] theorem peek_cons (current next : Token) (rest : List Token) :
    peek ⟨current, next :: rest⟩ = next := rfl

@[simp] theorem advance_cons (current next : Token) (rest : List Token) :
    advance ⟨current, next :: rest⟩ = ⟨next, rest⟩ := rfl

@[simp] theorem advance_nil (current : Token) :
    advance ⟨current, []⟩ = ⟨.eofAt current.position, []⟩ := rfl

@[simp] theorem length_rest_advance (cursor : Cursor) :
    cursor.advance.rest.length = cursor.rest.length - 1 := by
  simp [advance]

end Cursor

/-- What a parser makes of the tokens at a cursor. -/
structure Reading (α : Type) where
  value : Option α
  complaints : List Complaint
  after : Cursor

def Parser (α : Type) := Cursor → Reading α

namespace Parser

def pure (a : α) : Parser α := fun cursor => ⟨some a, [], cursor⟩

def bind (parser : Parser α) (next : α → Parser β) : Parser β := fun cursor =>
  let first := parser cursor
  match first.value with
  | none => ⟨none, first.complaints, first.after⟩
  | some a =>
      let second := next a first.after
      ⟨second.value, first.complaints ++ second.complaints, second.after⟩

instance : Monad Parser where
  pure := Parser.pure
  bind := Parser.bind

@[simp] theorem pure_apply (a : α) (cursor : Cursor) :
    (Pure.pure a : Parser α) cursor = ⟨some a, [], cursor⟩ := rfl

theorem bind_apply (parser : Parser α) (next : α → Parser β) (cursor : Cursor) :
    (parser >>= next) cursor =
      match (parser cursor).value with
      | none => ⟨none, (parser cursor).complaints, (parser cursor).after⟩
      | some a =>
          ⟨(next a (parser cursor).after).value,
            (parser cursor).complaints ++ (next a (parser cursor).after).complaints,
            (next a (parser cursor).after).after⟩ := rfl

theorem bind_of_value {parser : Parser α} {next : α → Parser β} {cursor after : Cursor} {a : α}
    {complaints : List Complaint} (h : parser cursor = ⟨some a, complaints, after⟩) :
    (parser >>= next) cursor =
      ⟨(next a after).value, complaints ++ (next a after).complaints, (next a after).after⟩ := by
  simp [bind_apply, h]

theorem bind_of_none {parser : Parser α} {next : α → Parser β} {cursor after : Cursor}
    {complaints : List Complaint} (h : parser cursor = ⟨none, complaints, after⟩) :
    (parser >>= next) cursor = ⟨none, complaints, after⟩ := by
  simp [bind_apply, h]

theorem map_id (parser : Parser α) : id <$> parser = parser := by
  funext cursor
  show (parser >>= fun a => Pure.pure (id a)) cursor = parser cursor
  rw [bind_apply]
  rcases parser cursor with ⟨_ | _, _, _⟩ <;> simp

theorem pure_bind (a : α) (next : α → Parser β) : Pure.pure a >>= next = next a := by
  funext cursor
  simp [bind_apply]

theorem bind_assoc (parser : Parser α) (next : α → Parser β) (last : β → Parser γ) :
    parser >>= next >>= last = parser >>= fun a => next a >>= last := by
  funext cursor
  simp only [bind_apply]
  cases (parser cursor).value with
  | none => rfl
  | some a =>
      dsimp only
      cases (next a (parser cursor).after).value <;> simp

instance : LawfulMonad Parser :=
  LawfulMonad.mk' Parser map_id pure_bind bind_assoc

/-- No value and no complaint of its own. -/
def fail : Parser α := fun cursor => ⟨none, [], cursor⟩

def complain (complaint : Complaint) : Parser Unit := fun cursor =>
  ⟨some (), [complaint], cursor⟩

def current : Parser Token := fun cursor => ⟨some cursor.current, [], cursor⟩

def peek : Parser Token := fun cursor => ⟨some cursor.peek, [], cursor⟩

def advance : Parser Unit := fun cursor => ⟨some (), [], cursor.advance⟩

@[simp] theorem fail_apply (cursor : Cursor) : (fail : Parser α) cursor = ⟨none, [], cursor⟩ := rfl

@[simp] theorem complain_apply (complaint : Complaint) (cursor : Cursor) :
    complain complaint cursor = ⟨some (), [complaint], cursor⟩ := rfl

@[simp] theorem current_apply (cursor : Cursor) :
    current cursor = ⟨some cursor.current, [], cursor⟩ := rfl

@[simp] theorem peek_apply (cursor : Cursor) :
    peek cursor = ⟨some cursor.peek, [], cursor⟩ := rfl

@[simp] theorem advance_apply (cursor : Cursor) :
    advance cursor = ⟨some (), [], cursor.advance⟩ := rfl

/-- How many tokens follow the current one. -/
def remaining : Parser Nat := fun cursor => ⟨some cursor.rest.length, [], cursor⟩

/-- Moves on to the next token if it is of the kind wanted, and complains otherwise. -/
def expect (wanted : Kind) : Parser Unit := do
  let next ← peek
  if next.kind = wanted then advance
  else
    complain (.expected wanted next.kind)
    fail

theorem expect_apply (wanted : Kind) (cursor : Cursor) :
    expect wanted cursor =
      if cursor.peek.kind = wanted then ⟨some (), [], cursor.advance⟩
      else ⟨none, [.expected wanted cursor.peek.kind], cursor⟩ := by
  simp only [expect, bind_apply, peek_apply]
  split <;> simp_all [bind_apply]

/-- Moves on to the next token if it is of this kind. -/
def skip (kind : Kind) : Parser Unit := do
  let next ← peek
  if next.kind = kind then advance else return ()

theorem skip_apply (kind : Kind) (cursor : Cursor) :
    skip kind cursor =
      ⟨some (), [], if cursor.peek.kind = kind then cursor.advance else cursor⟩ := by
  simp only [skip, bind_apply, peek_apply]
  split <;> simp_all

/-- Goes on without the value where there is none. -/
def attempt (parser : Parser α) : Parser (Option α) := fun cursor =>
  let reading := parser cursor
  ⟨some reading.value, reading.complaints, reading.after⟩

/-- Goes on with a hole where there is no tree. -/
def orHole (parser : Parser Node) : Parser Node := fun cursor =>
  let reading := parser cursor
  ⟨some (reading.value.getD .hole), reading.complaints, reading.after⟩

end Parser

end Monkey.Parse
