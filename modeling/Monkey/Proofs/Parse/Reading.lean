import Monkey.Proofs.Parse.Grammar

/-!
# Readings without complaint

`Cleanly` is the contract of a parser that is trusted only where it does not complain: then it has
a value, and the value and the cursor behind it are as promised. Its rules follow the parsers'
own steps, so that a contract is proved by walking through the parser once. `Passes` names the
tokens between two cursors; moving on at the end of the tokens passes none, so a parser that
relies on a token has to look at it. `Yields` is the contract of a parser that is known to succeed.
-/
namespace Monkey.Parse

namespace Cursor

variable {before middle after : Cursor} {first second : List Token}

/-- The tokens behind the current one up to the current one of a later cursor. -/
def Passes (before : Cursor) (tokens : List Token) (after : Cursor) : Prop :=
  before.rest = tokens ++ after.rest ∧ after.current = tokens.getLastD before.current

theorem Passes.refl (cursor : Cursor) : cursor.Passes [] cursor := ⟨rfl, rfl⟩

theorem Passes.trans (h : before.Passes first middle) (h' : middle.Passes second after) :
    before.Passes (first ++ second) after := by
  obtain ⟨hrest, hcurrent⟩ := h
  obtain ⟨hrest', hcurrent'⟩ := h'
  refine ⟨by rw [hrest, hrest', List.append_assoc], ?_⟩
  rw [hcurrent', hcurrent]
  cases second with
  | nil => simp
  | cons token rest => simp [List.getLastD_eq_getLast?, List.getLast?_append]

/-- A token that is no end marker is one of those in front of the cursor. -/
theorem passes_advance {cursor : Cursor} (h : cursor.peek.kind ≠ .eof) :
    cursor.Passes [cursor.peek] cursor.advance := by
  obtain ⟨current, _ | ⟨next, rest⟩⟩ := cursor
  · exact absurd rfl h
  · exact ⟨rfl, rfl⟩

/-- Where the current token has changed, the tokens passed end with the new one. -/
theorem Passes.eq_concat (h : before.Passes first after)
    (hne : after.current ≠ before.current) : ∃ tokens, first = tokens ++ [after.current] := by
  obtain rfl | ⟨tokens, last, rfl⟩ := first.eq_nil_or_concat
  · exact absurd h.2 hne
  · have hlast : after.current = last := by simpa [List.getLastD_eq_getLast?] using h.2
    exact ⟨tokens, by simp [hlast]⟩

/-- Tokens from the next one up to a later current one are passed, unless that is an end marker
behind all tokens. -/
theorem passes_of_advance {cursor : Cursor} {tokens : List Token}
    (h : cursor.advance.current :: cursor.advance.rest = tokens ++ after.current :: after.rest)
    (hkind : after.current.kind ≠ .eof) : cursor.Passes (tokens ++ [after.current]) after := by
  obtain ⟨current, _ | ⟨next, rest⟩⟩ := cursor
  · simp only [advance_nil] at h
    obtain ⟨rfl, hlast⟩ | ⟨_, rfl, hnil⟩ := List.cons_eq_append_iff.mp h
    · rw [(List.cons.inj hlast).1] at hkind
      exact absurd rfl hkind
    · simp at hnil
  · exact ⟨by simpa using h, by simp [List.getLastD_eq_getLast?]⟩

theorem Passes.length_lt (h : before.Passes first after) (hne : first ≠ []) :
    after.rest.length < before.rest.length := by
  have hpos := List.length_pos_iff.mpr hne
  rw [h.1, List.length_append]
  omega

end Cursor

namespace Parser

open Cursor

/-- If the parser does not complain, it has a value that satisfies `post` with the cursor behind
it. -/
def Cleanly (parser : Parser α) (cursor : Cursor) (post : α → Cursor → Prop) : Prop :=
  (parser cursor).complaints = [] →
    ∃ value, (parser cursor).value = some value ∧ post value (parser cursor).after

namespace Cleanly

variable {α β : Type} {parser : Parser α} {next : α → Parser β} {cursor : Cursor}
  {post : β → Cursor → Prop} {middle : α → Cursor → Prop}

theorem bind (h : Cleanly parser cursor middle)
    (hnext : ∀ value after, middle value after → Cleanly (next value) after post) :
    Cleanly (parser >>= next) cursor post := by
  intro hclean
  rw [bind_apply] at hclean ⊢
  cases hvalue : (parser cursor).value with
  | none =>
      rw [hvalue] at hclean
      obtain ⟨value, hsome, _⟩ := h hclean
      rw [hvalue] at hsome
      cases hsome
  | some value =>
      rw [hvalue] at hclean
      obtain ⟨hfirst, hsecond⟩ := List.append_eq_nil_iff.mp hclean
      obtain ⟨found, hfound, hmiddle⟩ := h hfirst
      obtain rfl : value = found := Option.some.inj (hvalue.symm.trans hfound)
      exact hnext value _ hmiddle hsecond

theorem mono {weaker : α → Cursor → Prop} (h : Cleanly parser cursor middle)
    (himp : ∀ value after, middle value after → weaker value after) :
    Cleanly parser cursor weaker := by
  intro hclean
  obtain ⟨value, hvalue, hmiddle⟩ := h hclean
  exact ⟨value, hvalue, himp _ _ hmiddle⟩

theorem pure {value : β} (h : post value cursor) :
    Cleanly (Pure.pure value : Parser β) cursor post :=
  fun _ => ⟨value, rfl, h⟩

theorem bind_current {next : Token → Parser β} (h : Cleanly (next cursor.current) cursor post) :
    Cleanly (current >>= next) cursor post := by
  have hcurrent : Cleanly current cursor
      fun token after => token = cursor.current ∧ after = cursor := fun _ => ⟨_, rfl, rfl, rfl⟩
  exact hcurrent.bind (by rintro _ _ ⟨rfl, rfl⟩; exact h)

theorem bind_peek {next : Token → Parser β} (h : Cleanly (next cursor.peek) cursor post) :
    Cleanly (peek >>= next) cursor post := by
  have hpeek : Cleanly peek cursor
      fun token after => token = cursor.peek ∧ after = cursor := fun _ => ⟨_, rfl, rfl, rfl⟩
  exact hpeek.bind (by rintro _ _ ⟨rfl, rfl⟩; exact h)

theorem bind_remaining {next : Nat → Parser β}
    (h : Cleanly (next cursor.rest.length) cursor post) :
    Cleanly (remaining >>= next) cursor post := by
  have hremaining : Cleanly remaining cursor
      fun count after => count = cursor.rest.length ∧ after = cursor := fun _ => ⟨_, rfl, rfl, rfl⟩
  exact hremaining.bind (by rintro _ _ ⟨rfl, rfl⟩; exact h)

theorem bind_advance {next : Unit → Parser β} (h : Cleanly (next ()) cursor.advance post) :
    Cleanly (advance >>= next) cursor post := by
  have hadvance : Cleanly advance cursor fun _ after => after = cursor.advance :=
    fun _ => ⟨_, rfl, rfl⟩
  exact hadvance.bind (by rintro _ _ rfl; exact h)

/-- What has complained promises nothing. -/
theorem bind_complain {complaint : Complaint} {next : Unit → Parser β} :
    Cleanly (complain complaint >>= next) cursor post := by
  intro hclean
  simp [bind_apply] at hclean

/-- An expected token is the next one, and it is passed. -/
theorem expect {wanted : Kind} (hwanted : wanted ≠ .eof) :
    Cleanly (expect wanted) cursor fun _ after =>
      cursor.Passes [after.current] after ∧ after.current.kind = wanted := by
  intro hclean
  rw [expect_apply] at hclean ⊢
  split at hclean
  next hkind =>
      rw [if_pos hkind]
      exact ⟨(), rfl, passes_advance (hkind ▸ hwanted), hkind⟩
  next => cases hclean

theorem bind_expect {wanted : Kind} {next : Unit → Parser β} (hwanted : wanted ≠ .eof)
    (h : ∀ after : Cursor, cursor.Passes [after.current] after → after.current.kind = wanted →
      Cleanly (next ()) after post) :
    Cleanly (Parser.expect wanted >>= next) cursor post :=
  bind (expect hwanted) fun _ after hafter => h after hafter.1 hafter.2

theorem skip_semicolon :
    Cleanly (skip .semicolon) cursor fun _ after =>
      ∃ tokens, cursor.Passes tokens after ∧ Ending tokens := by
  intro _
  rw [skip_apply]
  refine ⟨(), rfl, ?_⟩
  split
  next hkind => exact ⟨_, passes_advance (by rw [hkind]; decide), .present hkind⟩
  next => exact ⟨_, .refl cursor, .absent⟩

theorem orHole {parser : Parser Node} {middle : Node → Cursor → Prop}
    (h : Cleanly parser cursor middle) : Cleanly parser.orHole cursor middle := by
  intro hclean
  obtain ⟨value, hvalue, hmiddle⟩ := h hclean
  exact ⟨value, congrArg (fun found : Option Node => some (found.getD .hole)) hvalue, hmiddle⟩

theorem attempt (h : Cleanly parser cursor middle) :
    Cleanly parser.attempt cursor
      fun found after => ∃ value, found = some value ∧ middle value after := by
  intro hclean
  obtain ⟨value, hvalue, hmiddle⟩ := h hclean
  exact ⟨_, rfl, value, hvalue, hmiddle⟩

end Cleanly

/-- The parser has this value, with no complaint, and leaves the cursor there. -/
def Yields (parser : Parser α) (cursor : Cursor) (value : α) (after : Cursor) : Prop :=
  parser cursor = ⟨some value, [], after⟩

namespace Yields

variable {α β : Type} {parser : Parser α} {next : α → Parser β} {cursor middle after : Cursor}
  {first : α} {value : β} {token other : Token} {rest : List Token}

theorem bind (h : Yields parser cursor first middle)
    (hnext : Yields (next first) middle value after) :
    Yields (parser >>= next) cursor value after := by
  rw [Yields, bind_of_value h, hnext]
  rfl

theorem pure (value : β) (cursor : Cursor) :
    Yields (Pure.pure value : Parser β) cursor value cursor := rfl

theorem bind_current {next : Token → Parser β}
    (h : Yields (next cursor.current) cursor value after) :
    Yields (current >>= next) cursor value after :=
  bind rfl h

theorem bind_peek {next : Token → Parser β} (h : Yields (next cursor.peek) cursor value after) :
    Yields (peek >>= next) cursor value after :=
  bind rfl h

theorem bind_remaining {next : Nat → Parser β}
    (h : Yields (next cursor.rest.length) cursor value after) :
    Yields (remaining >>= next) cursor value after :=
  bind rfl h

theorem bind_advance {next : Unit → Parser β} (h : Yields (next ()) cursor.advance value after) :
    Yields (advance >>= next) cursor value after :=
  bind rfl h

theorem bind_expect {wanted : Kind} {next : Unit → Parser β} (hkind : other.kind = wanted)
    (h : Yields (next ()) ⟨other, rest⟩ value after) :
    Yields (expect wanted >>= next) ⟨token, other :: rest⟩ value after := by
  refine bind ?_ h
  rw [Yields, expect_apply]
  exact if_pos hkind

theorem skip {kind : Kind} (hkind : other.kind = kind) :
    Yields (skip kind) ⟨token, other :: rest⟩ () ⟨other, rest⟩ := by
  rw [Yields, skip_apply]
  exact congrArg _ (if_pos hkind)

theorem ite_pos {condition : Prop} [Decidable condition] {parser other : Parser β}
    (hcondition : condition) (h : Yields parser cursor value after) :
    Yields (if condition then parser else other) cursor value after := by
  rwa [if_pos hcondition]

theorem ite_neg {condition : Prop} [Decidable condition] {parser other : Parser β}
    (hcondition : ¬ condition) (h : Yields other cursor value after) :
    Yields (if condition then parser else other) cursor value after := by
  rwa [if_neg hcondition]

theorem orHole {parser : Parser Node} {node : Node} (h : Yields parser cursor node after) :
    Yields parser.orHole cursor node after := by
  simp [Yields, Parser.orHole, show parser cursor = _ from h]

theorem attempt (h : Yields parser cursor first after) :
    Yields parser.attempt cursor (some first) after := by
  simp [Yields, Parser.attempt, show parser cursor = _ from h]

end Yields

end Parser

end Monkey.Parse
