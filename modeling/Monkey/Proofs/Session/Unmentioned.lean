import Monkey.Proofs.Eval.Bodies
import Monkey.Proofs.Eval.Errors
import Monkey.Proofs.Eval.Sparing
import Monkey.Proofs.Parse.Parts
import Monkey.Session

/-!
# Names that a text does not mention

A text has to do with those names only that stand in it. Whatever another name is bound to, be it
the name of a builtin, the text runs as it would without that binding, and leaves it alone
(`unmentioned_name_does_not_interfere`).
-/
namespace Monkey

/-- A tree takes its names from tokens for names. -/
theorem Parse.not_mem_names_of_derives {name : String} {category : Category} {tokens : List Token}
    {node : Node} (h : Derives category tokens node)
    (htokens : ∀ token ∈ tokens, token.kind = .ident → token.literal ≠ name) :
    name ∉ node.names := by
  induction h with
  | binding _ htarget _ _ _ =>
      have hne := htokens _ (by simp) htarget
      simpa [Node.names, nameOf] using hne.symm
  | signedIncrement _ htarget _ =>
      have hne := htokens _ (by simp) htarget
      simpa [Node.names, nameOf] using hne.symm
  | incrementOfName htarget _ _ =>
      have hne := htokens _ (by simp) htarget
      simpa [Node.names, nameOf] using hne.symm
  | identifier htarget =>
      have hne := htokens _ (by simp) htarget
      simpa [Node.names, nameOf] using hne.symm
  | group _ _ _ ih => exact ih fun token hmem => htokens token (by simp [hmem])
  | _ => exact List.not_mem_nil

/-- The text has no token for the name. -/
def Token.Unmentioned (name text : String) : Prop :=
  ∀ token ∈ ofSource text, token.kind = .ident → token.literal ≠ name

instance (name text : String) : Decidable (Token.Unmentioned name text) :=
  inferInstanceAs (Decidable (∀ token ∈ _, _))

theorem Parse.program_everywhere_of_unmentioned {name text : String} (hclean : (source text).isClean)
    (hname : Token.Unmentioned name text) :
    (source text).program.Everywhere (name ∉ ·.names) := by
  obtain ⟨tokens, hsubset, hderives⟩ := derives_program_of_isClean hclean
  apply everywhere_of_derives (List.not_mem_nil) not_mem_names_of_derives hderives
  exact fun token hmem => hname token (hsubset hmem)

namespace Session

open Eval

/-- In a world none of whose functions mentions the name either, the text runs in the same way
where the name is planted. -/
theorem run_plant {text name : String} (hclean : (Parse.source text).isClean)
    (hname : Token.Unmentioned name text) {world : World} {home : Nat}
    (hhome : home < world.scopes.size)
    (hworld : Holds (fun value => ∀ body ∈ value.bodies, body.Everywhere (name ∉ ·.names)) world)
    (limits : Limits) (scope : Nat) (value : Value) :
    run limits scope text (world.plant home name value) =
      ((run limits scope text world).1, (run limits scope text world).2.plant home name value) := by
  have hprogram := Parse.program_everywhere_of_unmentioned hclean hname
  have hnames : ∀ entry ∈ visits limits.turns limits.depth
      ⟨scope, (Parse.source text).program, world⟩, name ∉ entry.2.node.names :=
    fun entry hentry => (everywhere_of_mem_visits hworld hprogram hentry).own
  have heval := eval_plant (by exact hhome) hnames value
  rw [run, run, if_pos hclean, if_pos hclean, evaluate, evaluate, heval, Visit.under]
  rcases eval limits.turns limits.depth scope (Parse.source text).program world with
    ⟨_ | reply, after⟩
  · rfl
  · rfl

theorem size_le_run {text : String} (hclean : (Parse.source text).isClean) (limits : Limits)
    (scope : Nat) (world : World) :
    world.scopes.size ≤ (run limits scope text world).2.scopes.size := by
  rw [(run_eq_of_isClean hclean).1]
  exact size_le_eval limits.turns limits.depth scope _ world

/-- Where nothing is bound, to bind a name is to plant it. -/
theorem set_initial (name : String) (value : Value) :
    World.initial.set 0 name value = World.initial.plant 0 name value := rfl

/-- A name that a text does not mention does not interfere with it, whatever it is bound to: the
text comes to the same and writes the same, the name keeps its value, and every other name has the
value it would have had. -/
theorem unmentioned_name_does_not_interfere (limits : Limits) {text name : String}
    (hclean : (Parse.source text).isClean) (hname : Token.Unmentioned name text) (value : Value) :
    let plain := run limits 0 text .initial
    let bound := run limits 0 text (World.initial.set 0 name value)
    bound.1 = plain.1 ∧ bound.2.output = plain.2.output ∧
      bound.2.bound? name 0 = some value ∧
      (∀ other, other ≠ name → bound.2.bound? other 0 = plain.2.bound? other 0) := by
  intro plain bound
  have hhome : 0 < World.initial.scopes.size := by decide
  have hkept : 0 < plain.2.scopes.size :=
    Nat.lt_of_lt_of_le hhome (size_le_run hclean limits 0 .initial)
  have hbound : bound = (plain.1, plain.2.plant 0 name value) := by
    show run limits 0 text (World.initial.set 0 name value) = _
    rw [set_initial]
    exact run_plant hclean hname hhome (.initial _) limits 0 value
  rw [hbound]
  refine ⟨rfl, rfl, World.bound?_plant_self hkept, fun other hother => ?_⟩
  exact World.bound?_plant_of_ne hother.symm 0

/-- A builtin's name that is not mentioned, beside a parameter that is left unbound and looked up
outside, and a closure that changes it. -/
theorem unmentioned_name_does_not_interfere_len :
    let text := "let x = 1; let f = fn(a, x) \x7b puts(a + x); fn() \x7b x++; x \x7d \x7d; f(2)()"
    let plain := run ⟨40, 9⟩ 0 text .initial
    let bound := run ⟨40, 9⟩ 0 text (World.initial.set 0 "len" (.string "v"))
    (Parse.source text).isClean ∧ Token.Unmentioned "len" text ∧ plain.2.output = "3\n" ∧
      bound.1 = plain.1 ∧ bound.2.output = plain.2.output ∧
      bound.2.bound? "len" 0 = some (.string "v") ∧
      ∀ other, other ≠ "len" → bound.2.bound? other 0 = plain.2.bound? other 0 := by
  intro text
  have hclean : (Parse.source text).isClean := by decide +kernel
  have hname : Token.Unmentioned "len" text := by decide +kernel
  have houtput : (run ⟨40, 9⟩ 0 text .initial).2.output = "3\n" := by decide +kernel
  exact ⟨hclean, hname, houtput,
    unmentioned_name_does_not_interfere ⟨40, 9⟩ hclean hname (.string "v")⟩

end Session

end Monkey
