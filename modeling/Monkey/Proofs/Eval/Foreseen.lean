import Monkey.Proofs.Eval.Steps
import Monkey.Proofs.Parse.Rendering
import Monkey.Proofs.Parts

/-!
# Faults that are foreseen

Some faults can be met only where a tree was not put together as the grammar has it: a clause
outside a switch, or an operator that the language does not know. All others are foreseen: they
depend on the values that a program comes to. A complete tree turns to complete trees only, and to
clauses never, and what it meets by itself is foreseen.
-/
namespace Monkey

namespace Fault

/-- The fault lies in the values at hand. Integers take every operator between two operands, so for
them no operator of the language is unknown. -/
def isForeseen : Fault → Bool
  | unknownUnary operator operand => operator = "-" && operand ≠ .integer
  | unknownBinary left operator _ => operator ∈ Parse.binaryOperators && left ≠ .integer
  | typeMismatch _ operator _ => operator ∈ Parse.binaryOperators
  | strayClause | stated _ => false
  | _ => true

/-- How the report of a node that cannot be evaluated begins. -/
def unsupported : String := "unsupported node: "

theorem not_unsupported_append {first rest : String} (hlength : 3 ≤ first.toList.length)
    (hfirst : first.toList.take 3 ≠ unsupported.toList.take 3) :
    ¬ unsupported.toList <+: (first ++ rest).toList := by
  intro hbegins
  have htake := (hbegins.take 3).eq_of_length (by simp [unsupported]; omega)
  rw [String.toList_append, List.take_append_of_le_length hlength] at htake
  exact hfirst htake.symm

/-- A fault that is foreseen is not reported as a node that cannot be evaluated. -/
theorem not_unsupported_of_isForeseen {fault : Fault} (h : fault.isForeseen) :
    ¬ unsupported.toList <+: fault.message.toList := by
  cases fault with
  | strayClause | stated => cases h
  | divisionByZero => decide
  | unbound | notFunction | noLength | unusableKey | notIndexable =>
      unfold message
      exact not_unsupported_append (by decide) (by decide)
  | _ =>
      unfold message
      dsimp only
      simp only [String.append_assoc]
      exact not_unsupported_append (by decide) (by decide)

example : unsupported.toList <+: strayClause.message.toList := by decide

theorem isForeseen_of_isOfCall {fault : Fault} (h : fault.isOfCall) : fault.isForeseen := by
  cases fault with
  | notFunction | wrongCount | noLength | notArray => rfl
  | _ => cases h

end Fault

/-! ## Operators -/

namespace Value

theorem isForeseen_of_unary {operator : String} (hoperator : operator ∈ Parse.unaryOperators)
    {operand : Value} {fault : Fault} (h : operand.unary operator = .error fault) :
    fault.isForeseen := by
  simp only [Parse.unaryOperators, List.mem_cons, List.not_mem_nil, or_false] at hoperator
  rcases hoperator with rfl | rfl
  · cases h
  · cases operand <;> cases h <;> rfl

/-- Integers take every operator of the language, and only a division can fail. -/
theorem eq_divisionByZero_of_integerBinary {operator : String}
    (hoperator : operator ∈ Parse.binaryOperators) {a b : Int} {fault : Fault}
    (h : integerBinary operator a b = .error fault) : fault = .divisionByZero := by
  unfold integerBinary at h
  split at h
  case h_4 | h_5 =>
      split at h
      · exact (Except.error.inj h).symm
      · cases h
  case h_10 => simp_all [Parse.binaryOperators]
  all_goals cases h

theorem isForeseen_of_stringBinary {operator : String}
    (hoperator : operator ∈ Parse.binaryOperators) {a b : String} {fault : Fault}
    (h : stringBinary operator a b = .error fault) : fault.isForeseen := by
  unfold stringBinary at h
  split at h
  case h_4 =>
      obtain rfl := Except.error.inj h
      simpa [Fault.isForeseen] using hoperator
  all_goals cases h

theorem isForeseen_of_comparison {operator : String}
    (hoperator : operator ∈ Parse.binaryOperators) {left right : Value} {fault : Fault}
    (hinteger : ∀ a b, ¬ (left = .integer a ∧ right = .integer b))
    (h : comparison operator left right = .error fault) : fault.isForeseen := by
  unfold comparison at h
  split at h
  next htype =>
      split at h
      case h_3 =>
          obtain rfl := Except.error.inj h
          have hleft : left.type ≠ .integer := by
            intro hleft
            cases left <;> cases right <;> simp_all [type]
          simp [Fault.isForeseen, hoperator, hleft]
      all_goals cases h
  next =>
      obtain rfl := Except.error.inj h
      simpa [Fault.isForeseen] using hoperator

theorem isForeseen_of_binary {operator : String} (hoperator : operator ∈ Parse.binaryOperators)
    {left right : Value} {fault : Fault} (h : binary operator left right = .error fault) :
    fault.isForeseen := by
  unfold binary at h
  split at h
  · rw [eq_divisionByZero_of_integerBinary hoperator h]
    rfl
  · exact isForeseen_of_stringBinary hoperator h
  next hinteger _ =>
      exact isForeseen_of_comparison hoperator (fun a b hboth => hinteger a b hboth.1 hboth.2) h

theorem isForeseen_of_index {collection key : Value} {fault : Fault}
    (h : collection.index key = .error fault) : fault.isForeseen := by
  unfold index at h
  split at h
  · cases h
  · split at h
    · cases h
    · cases h
      rfl
  · cases h
    rfl

theorem isForeseen_of_increment {value : Value} {fault : Fault}
    (h : value.increment = .error fault) : fault.isForeseen := by
  cases value <;> cases h <;> rfl

end Value

/-! ## Trees -/

namespace Parse

/-- The tree is absent, or complete and no clause. -/
def Executable (node : Node) : Prop :=
  node = .hole ∨ ∃ category, category ≠ .clause ∧ Complete category node

theorem executable_hole : Executable .hole := .inl rfl

theorem Complete.executable {category : Category} {node : Node} (h : Complete category node)
    (hclause : category ≠ .clause) : Executable node :=
  .inr ⟨category, hclause, h⟩

theorem executable_of_mem {category : Category} {nodes : List Node}
    (h : ∀ node ∈ nodes, Complete category node) (hclause : category ≠ .clause) :
    ∀ node ∈ nodes, Executable node :=
  fun node hmem => (h node hmem).executable hclause

theorem executable_of_clauses {clauses : List Node}
    (h : ∀ clause ∈ clauses, Complete .clause clause) :
    ∀ node ∈ clauses.flatMap Node.insideClause, Executable node := by
  refine List.forall_mem_flatMap.mpr fun clause hclause => ?_
  cases h clause hclause with
  | clause hcondition hbody =>
      exact List.forall_mem_cons.mpr
        ⟨hcondition.executable (by decide), executable_of_mem hbody (by decide)⟩

/-- What can be evaluated turns to trees that can be evaluated. -/
theorem Executable.evaluated {node : Node} (h : Executable node) :
    ∀ part ∈ node.evaluated, Executable part := by
  obtain rfl | ⟨category, hclause, hcomplete⟩ := h
  · exact List.forall_mem_nil _
  · cases hcomplete with
    | program hnodes | block hnodes => exact executable_of_mem hnodes (by decide)
    | binding _ hvalue | returning hvalue | expression hvalue =>
        exact List.forall_mem_singleton.mpr (hvalue.executable (by decide))
    | switchOn hsubject hclauses =>
        exact List.forall_mem_cons.mpr
          ⟨hsubject.executable (by decide), executable_of_clauses hclauses⟩
    | switch hclauses =>
        exact List.forall_mem_cons.mpr ⟨executable_hole, executable_of_clauses hclauses⟩
    | clause => cases hclause rfl
    | increment | identifier | integer | text | boolean => exact List.forall_mem_nil _
    | unary _ hoperand => exact List.forall_mem_singleton.mpr (hoperand.executable (by decide))
    | binary hleft _ hright | index hleft hright =>
        simp only [Node.evaluated, Node.parts, List.forall_mem_cons]
        exact ⟨hleft.executable (by decide), hright.executable (by decide), List.forall_mem_nil _⟩
    | conditional hcondition hconsequence =>
        simp only [Node.evaluated, Node.parts, List.forall_mem_cons]
        exact ⟨hcondition.executable (by decide), hconsequence.executable (by decide),
          executable_hole, List.forall_mem_nil _⟩
    | conditionalElse hcondition hconsequence halternative =>
        simp only [Node.evaluated, Node.parts, List.forall_mem_cons]
        exact ⟨hcondition.executable (by decide), hconsequence.executable (by decide),
          halternative.executable (by decide), List.forall_mem_nil _⟩
    | loop hinit _ hcondition hpost hbody =>
        simp only [Node.evaluated, Node.parts, List.forall_mem_cons]
        exact ⟨hinit.executable (by decide), hcondition.executable (by decide),
          hpost.executable (by decide), hbody.executable (by decide), List.forall_mem_nil _⟩
    | function _ hbody => exact List.forall_mem_singleton.mpr (hbody.executable (by decide))
    | call hcallee harguments =>
        exact List.forall_mem_cons.mpr
          ⟨hcallee.executable (by decide), executable_of_mem harguments (by decide)⟩
    | array helements => exact executable_of_mem helements (by decide)
    | hash hkeys hvalues =>
        refine List.forall_mem_flatMap.mpr fun pair hpair => ?_
        simp only [List.forall_mem_cons]
        exact ⟨(hkeys pair hpair).executable (by decide),
          (hvalues pair hpair).executable (by decide), List.forall_mem_nil _⟩

/-- What an executable tree meets by itself is foreseen. -/
theorem Executable.isForeseen {node : Node} (h : Executable node) {fault : Fault}
    (hraise : node.MayRaise fault) : fault.isForeseen := by
  obtain rfl | ⟨category, hclause, hcomplete⟩ := h
  · cases hraise
  · cases hcomplete with
    | clause => cases hclause rfl
    | identifier =>
        cases hraise
        rfl
    | increment =>
        rcases hraise with rfl | ⟨value, hvalue⟩
        · rfl
        · exact Value.isForeseen_of_increment hvalue
    | unary hoperator _ =>
        obtain ⟨value, hvalue⟩ := hraise
        exact Value.isForeseen_of_unary hoperator hvalue
    | binary _ hoperator _ =>
        obtain ⟨left, right, hvalue⟩ := hraise
        exact Value.isForeseen_of_binary hoperator hvalue
    | index =>
        obtain ⟨collection, key, hvalue⟩ := hraise
        exact Value.isForeseen_of_index hvalue
    | hash =>
        obtain ⟨type, rfl⟩ := hraise
        rfl
    | call => exact Fault.isForeseen_of_isOfCall hraise
    | _ => cases hraise

end Parse

end Monkey
