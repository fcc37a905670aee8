import Monkey.Proofs.Eval.Clauses

/-!
# One notion of equality

Values are compared in four places: by the operators, which treat integers and strings on their own,
by `same`, which decides which clause of a switch is taken, and by the keys of a hash. All of them
compare what makes a value the value it is, its `essence`: the content of a scalar, the stamp of
what has an identity.
-/
namespace Monkey

/-- What two values must have in common to be the same. -/
inductive Essence where
  | content (key : Key)
  | null
  | builtin (which : Builtin)
  /-- What was made as the stamped one of its type. -/
  | made (type : ValueType) (stamp : Nat)
  deriving DecidableEq

namespace Value

def essence : Value → Essence
  | integer value => .content (.integer value)
  | boolean value => .content (.boolean value)
  | string value => .content (.string value)
  | null => .null
  | array stamp _ => .made .array stamp
  | hash stamp _ => .made .hash stamp
  | function stamp _ _ _ => .made .function stamp
  | builtin which => .builtin which
  | error failure => .made .error failure.stamp

theorem same_iff (left right : Value) : left.same right = true ↔ left.essence = right.essence := by
  cases left <;> cases right <;> simp [same, essence]

/-- Values of different types are never the same. -/
theorem type_eq_of_same {left right : Value} (h : left.same right = true) :
    left.type = right.type := by
  rw [same_iff] at h
  cases left <;> cases right <;> simp_all [essence, type]

theorem same_equivalence : Equivalence fun left right : Value => left.same right = true where
  refl value := (same_iff value value).mpr rfl
  symm {left right} h := (same_iff right left).mpr ((same_iff left right).mp h).symm
  trans {left middle right} h hright :=
    (same_iff left right).mpr
      (((same_iff left middle).mp h).trans ((same_iff middle right).mp hright))

/-- Values that a hash can be indexed by are the same if their keys are. -/
theorem same_iff_of_key? {left right : Value} {first second : Key} (hleft : left.key? = some first)
    (hright : right.key? = some second) : left.same right = true ↔ first = second := by
  have hessence {value : Value} {key : Key} (h : value.key? = some key) :
      value.essence = .content key := by
    cases value <;> simp_all [key?, essence]
  rw [same_iff, hessence hleft, hessence hright, Essence.content.injEq]

/-! ## Operators -/

theorem binary_eq_of_type_eq {left right : Value} (h : left.type = right.type) :
    binary "==" left right = .ok (.boolean (left.same right)) := by
  unfold binary
  split
  · rfl
  · rfl
  · exact if_pos h

theorem binary_ne_of_type_eq {left right : Value} (h : left.type = right.type) :
    binary "!=" left right = .ok (.boolean (!left.same right)) := by
  unfold binary
  split
  · rfl
  · rfl
  · exact if_pos h

/-- Whatever the operator, it needs operands of one type. -/
theorem binary_of_type_ne {left right : Value} (h : left.type ≠ right.type) (operator : String) :
    binary operator left right = .error (.typeMismatch left.type operator right.type) := by
  unfold binary
  split
  · exact absurd rfl h
  · exact absurd rfl h
  · exact if_neg h

/-- Compared by the operator, the values are equal. -/
def Equals (left right : Value) : Prop :=
  binary "==" left right = .ok (.boolean true)

theorem equals_iff (left right : Value) : left.Equals right ↔ left.same right = true := by
  by_cases htype : left.type = right.type
  · rw [Equals, binary_eq_of_type_eq htype, Except.ok.injEq, boolean.injEq]
  · rw [Equals, binary_of_type_ne htype]
    exact ⟨nofun, fun hsame => absurd (type_eq_of_same hsame) htype⟩

end Value

namespace Eval

open Monkey.Eval.Action

section
variable {maxTurns depth scope : Nat} {world middle after : World} {left right : Node}
  {first second : Value}

/-- A comparison in a program comes to true if its operands come to equal values. -/
theorem Comes.equals_iff (hleft : Comes maxTurns depth scope left world first middle)
    (hright : Comes maxTurns depth scope right middle second after) (token : Token) :
    Comes maxTurns (depth + 1) scope (.binary token left "==" right) world (.boolean true) after ↔
      first.Equals second := by
  constructor
  · intro h
    have hrun : (ofExcept (Value.binary "==" first second)).run (eval maxTurns depth) after =
        ⟨some (.ok (.boolean true)), after⟩ := by
      rw [← h]
      exact ((bind_of_ok hleft.run _).trans (bind_of_ok hright.run _)).symm
    by_cases htype : first.type = second.type
    · rw [Value.binary_eq_of_type_eq htype] at hrun
      have hresult : (⟨some (.ok (.boolean (first.same second))), after⟩ :
          Result (Except Stop Value)) = ⟨some (.ok (.boolean true)), after⟩ := hrun
      rw [Value.equals_iff]
      simpa using hresult
    · rw [Value.binary_of_type_ne htype] at hrun
      cases hrun
  · intro h
    exact .binary hleft hright h rfl token

/-- A switch goes through its clauses once its subject has come to a value. -/
theorem Comes.run_switch {subject : Node} (hsubject : subject ≠ .hole)
    (h : Comes maxTurns depth scope subject world first middle) (token : Token)
    (cases : List Node) :
    eval maxTurns (depth + 1) scope (.switch token subject cases) world =
      (clauses scope (some first) cases).run (eval maxTurns depth) middle := by
  have hhole : ¬ subject.isHole = true := by rwa [Node.isHole_iff]
  show (switch scope subject cases).run _ world = _
  rw [switch, if_neg hhole]
  exact bind_of_ok h.run _

end

/-- All comparisons agree. To be the same is an equivalence. On values of one type the operator `==`
tells whether they are the same and `!=` whether they are not; on values of different types, which
are never the same, both fail alike. Values that a hash can be indexed by have one key exactly if
they are the same. So a clause of a switch with a subject is taken, once those before it have been
passed by, exactly if the subject compared with the value of its condition gives true. -/
theorem equality_is_one_notion :
    (Equivalence fun left right : Value => left.same right = true) ∧
    (∀ left right : Value, left.type = right.type →
      Value.binary "==" left right = .ok (.boolean (left.same right)) ∧
      Value.binary "!=" left right = .ok (.boolean (!left.same right))) ∧
    (∀ left right : Value, left.type ≠ right.type →
      left.same right = false ∧
      ∀ operator ∈ ["==", "!="],
        Value.binary operator left right = .error (.typeMismatch left.type operator right.type) ∧
        (Fault.typeMismatch left.type operator right.type).message =
          "type mismatch: " ++ left.type.name ++ " " ++ operator ++ " " ++ right.type.name) ∧
    (∀ left right : Value, left.key?.isSome → right.key?.isSome →
      (left.key? = right.key? ↔ left.same right = true)) ∧
    (∀ maxTurns depth scope token left right world first middle second after,
      Comes maxTurns depth scope left world first middle →
      Comes maxTurns depth scope right middle second after →
      (Comes maxTurns (depth + 1) scope (.binary token left "==" right) world (.boolean true)
        after ↔ first.Equals second)) ∧
    ∀ maxTurns depth scope token subject passed branch rest world first middle later second last,
      subject ≠ .hole → Comes maxTurns depth scope subject world first middle →
      PassedBy maxTurns depth scope first.Equals passed middle later →
      Comes maxTurns depth scope branch.condition later second last →
        eval maxTurns (depth + 1) scope
            (.switch token subject ((passed ++ branch :: rest).map Branch.clause)) world =
          (if isTaken (some first) second then statements scope .null branch.body
            else clauses scope (some first) (rest.map Branch.clause)).run (eval maxTurns depth)
              last ∧
        (isTaken (some first) second = true ↔ first.Equals second) := by
  refine ⟨Value.same_equivalence, ?_, ?_, ?_, ?_, ?_⟩
  · intro left right htype
    exact ⟨Value.binary_eq_of_type_eq htype, Value.binary_ne_of_type_eq htype⟩
  · intro left right htype
    refine ⟨?_, fun operator _ => ⟨Value.binary_of_type_ne htype operator, rfl⟩⟩
    exact Bool.eq_false_iff.mpr fun hsame => htype (Value.type_eq_of_same hsame)
  · intro left right hleft hright
    obtain ⟨first, hfirst⟩ := Option.isSome_iff_exists.mp hleft
    obtain ⟨second, hsecond⟩ := Option.isSome_iff_exists.mp hright
    rw [Value.same_iff_of_key? hfirst hsecond, hfirst, hsecond, Option.some.injEq]
  · exact fun _ _ _ token _ _ _ _ _ _ _ hleft hright => hleft.equals_iff hright token
  · intro maxTurns depth scope token subject passed branch rest world first middle later second last
      hsubject hfirst hpassed hcondition
    have hequals : first.Equals = (isTaken (some first) · = true) := by
      funext value
      exact propext (Value.equals_iff first value)
    rw [hequals] at hpassed
    refine ⟨?_, (Value.equals_iff first second).symm⟩
    rw [hfirst.run_switch hsubject, hpassed.run_clauses, hcondition.run_clauses]
    split <;> rfl

/-- The subject is a string: an integer is passed by, since comparing it fails, and so is another
string; an equal string that an operator has made is taken. -/
theorem equality_is_one_notion_text :
    let branch (condition : Node) (number : Int) : Branch :=
      ⟨default, condition, [.integer default number]⟩
    let passed := [branch (.integer default 1) 1, branch (.text default "b") 2]
    let taken := branch (.binary default (.text default "a") "+" (.text default "b")) 3
    (Value.string "ab").type ≠ (Value.integer 1).type ∧
      Value.binary "==" (.string "ab") (.integer 1) =
        .error (.typeMismatch .string "==" .integer) ∧
      Value.binary "!=" (.string "ab") (.string "b") = .ok (.boolean true) ∧
      PassedBy 9 3 0 (Value.string "ab").Equals passed .initial .initial ∧
      (Value.string "ab").Equals (.string "ab") ∧
      eval 9 4 0 (.switch default (.text default "ab") ((passed ++ [taken]).map Branch.clause))
        .initial = ⟨some (.ok (.integer 3)), .initial⟩ := by
  intro branch passed taken
  obtain ⟨_, halike, hdiffer, hkeys, _, hswitch⟩ := equality_is_one_notion
  have htypes : (Value.string "ab").type ≠ (Value.integer 1).type := by decide
  have hmismatch := ((hdiffer _ _ htypes).2 "==" (by decide)).1
  have hother : (Value.string "ab").same (.string "b") = false := by
    rw [Bool.eq_false_iff, ne_eq, ← hkeys _ _ rfl rfl]
    decide
  have hunequal := (halike (.string "ab") (.string "b") rfl).2
  rw [hother] at hunequal
  have hsubject : Comes 9 3 0 (.text default "ab") .initial (.string "ab") .initial := rfl
  have hnumber : Comes 9 3 0 (.integer default 1) .initial (.integer 1) .initial := rfl
  have htext : Comes 9 3 0 (.text default "b") .initial (.string "b") .initial := rfl
  have hsum : Comes 9 3 0 taken.condition .initial (.string "ab") .initial := by
    have hleft : Comes 9 2 0 (.text default "a") .initial (.string "a") .initial := rfl
    have hright : Comes 9 2 0 (.text default "b") .initial (.string "b") .initial := rfl
    exact .binary hleft hright rfl rfl default
  have hpassed : PassedBy 9 3 0 (Value.string "ab").Equals passed .initial .initial := by
    refine .cons hnumber ?_ (.cons htext ?_ .nil)
    · rw [Value.Equals, hmismatch]
      intro hequal
      cases hequal
    · rw [Value.equals_iff, hother]
      decide
  have hwritten : Node.text default "ab" ≠ .hole := Node.noConfusion
  obtain ⟨hrun, hequals⟩ := hswitch 9 3 0 default (.text default "ab") passed taken [] _ _ _ _ _ _
    hwritten hsubject hpassed hsum
  exact ⟨htypes, hmismatch, hunequal, hpassed, hequals.mp (by decide), hrun⟩

end Eval

end Monkey
