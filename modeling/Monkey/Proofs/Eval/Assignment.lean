import Monkey.Proofs.Eval.ScopeGraph
import Mathlib.Logic.Relation

/-!
# Who sees an update

Scopes form a forest that closures share, so a binding that changes is seen from many scopes. An
update of a scope is seen from those that come to it on their way outward past no other holder of
the name, and nothing else changes. Assigning is such an update of the nearest holder, and so is
counting up, which reads the name first: both find the same scope, because a builtin is no integer.
Main statement: `World.updates_are_seen_on_the_way_outward`.
-/
namespace Monkey

namespace World

/-- The second scope stands around the first. -/
def Around (world : World) (scope outer : Nat) : Prop :=
  ∃ builtins, world.frame? scope = some (some outer, builtins)

/-- Scopes stand in older ones, so no way outward goes in a circle. -/
def Forest (world : World) : Prop :=
  ∀ scope outer, world.Around scope outer → outer < scope

/-- The way outward from a scope comes to another, and no scope before that one holds the name. -/
def Reaches (world : World) (name : String) : Nat → Nat → Prop :=
  Relation.ReflTransGen fun scope outer => world.bound? name scope = none ∧ world.Around scope outer

/-- The first scope on the way outward that holds the name. -/
def Nearest (world : World) (name : String) (scope holder : Nat) : Prop :=
  world.Reaches name scope holder ∧ (world.bound? name holder).isSome

/-- Behind an update, a name has a value as seen from some scopes, and all else is seen as it was
before. -/
def SeenFrom (seen : Nat → Prop) (name : String) (value : Value) (before after : World) : Prop :=
  ∀ scope key, (key = name ∧ seen scope → after.get? scope key = some value) ∧
    (¬(key = name ∧ seen scope) → after.get? scope key = before.get? scope key)

theorem WellScoped.forest {world : World} (h : world.WellScoped) : world.Forest := by
  rintro scope outer ⟨builtins, hframe⟩
  exact (h.outer scope outer builtins hframe).1

variable {world : World} {name : String} {scope outer : Nat}

/-! ## Holders, step by step -/

theorem Around.unique {other : Nat} (h : world.Around scope outer) (h' : world.Around scope other) :
    other = outer := by
  obtain ⟨builtins, hframe⟩ := h
  obtain ⟨builtins', hframe'⟩ := h'
  rw [hframe] at hframe'
  exact Option.some.inj (Prod.mk.inj (Option.some.inj hframe'.symm)).1

theorem holder?_of_bound (h : (world.bound? name scope).isSome) :
    world.holder? scope name = some scope := by
  obtain ⟨value, hvalue⟩ := Option.isSome_iff_exists.mp h
  have hlt : scope < world.scopes.size := lt_size_of_bound hvalue
  have hfirst : (chain world.scopes scope).head? = some scope := by
    rw [chain, Array.getElem?_eq_getElem hlt]
    simp only
    split <;> rfl
  obtain ⟨path, hpath⟩ := List.head?_eq_some_iff.mp hfirst
  rw [holder?, hpath, List.find?_cons]
  simp [h]

theorem holder?_of_around (hforest : world.Forest) (hfree : world.bound? name scope = none)
    (h : world.Around scope outer) : world.holder? scope name = world.holder? outer name := by
  have hlt := hforest scope outer h
  obtain ⟨builtins, hframe⟩ := h
  obtain ⟨found, hfound, hparts⟩ := Option.map_eq_some_iff.mp hframe
  have hchain : chain world.scopes scope = scope :: chain world.scopes outer := by
    rw [chain, hfound]
    simp [(Prod.mk.inj hparts).1, hlt]
  rw [holder?, hchain, List.find?_cons_of_neg (by simp [hfree]), holder?]

theorem holder?_of_not_around (hfree : world.bound? name scope = none)
    (h : ∀ outer, ¬world.Around scope outer) : world.holder? scope name = none := by
  rw [holder?, List.find?_eq_none]
  cases hscope : world.scopes[scope]? with
  | none => simp [chain, hscope]
  | some found =>
      cases houter : found.outer with
      | none => simp [chain, hscope, houter, hfree]
      | some outer => exact absurd ⟨found.builtins, by simp [frame?, hscope, houter]⟩ (h outer)

/-- Induction along the way outward, up to the first scope that holds a name. -/
theorem Forest.induction (hforest : world.Forest) (name : String) {motive : Nat → Prop}
    (held : ∀ scope, (world.bound? name scope).isSome → motive scope)
    (around : ∀ scope outer, world.bound? name scope = none → world.Around scope outer →
      motive outer → motive scope)
    (ended : ∀ scope, world.bound? name scope = none → (∀ outer, ¬world.Around scope outer) →
      motive scope) (scope : Nat) : motive scope := by
  induction scope using Nat.strongRecOn with
  | ind scope ih =>
      by_cases hheld : (world.bound? name scope).isSome
      · exact held scope hheld
      · have hfree : world.bound? name scope = none := by simpa using hheld
        by_cases haround : ∃ outer, world.Around scope outer
        · obtain ⟨outer, houter⟩ := haround
          exact around scope outer hfree houter (ih outer (hforest scope outer houter))
        · exact ended scope hfree (not_exists.mp haround)

namespace Reaches

variable {target : Nat}

theorem outward (hfree : world.bound? name scope = none) (haround : world.Around scope outer)
    (h : world.Reaches name outer target) : world.Reaches name scope target :=
  .head ⟨hfree, haround⟩ h

theorem eq_of_held (h : world.Reaches name scope target)
    (hheld : (world.bound? name scope).isSome) : scope = target := by
  rcases h.cases_head with heq | ⟨_, ⟨hfree, _⟩, _⟩
  · exact heq
  · simp [hfree] at hheld

theorem eq_of_ended (h : world.Reaches name scope target)
    (hended : ∀ outer, ¬world.Around scope outer) : scope = target := by
  rcases h.cases_head with heq | ⟨outer, ⟨_, haround⟩, _⟩
  · exact heq
  · exact absurd haround (hended outer)

theorem of_around (h : world.Reaches name scope target) (haround : world.Around scope outer)
    (hne : scope ≠ target) : world.Reaches name outer target := by
  rcases h.cases_head with heq | ⟨other, ⟨_, hother⟩, hrest⟩
  · exact absurd heq hne
  · obtain rfl := hother.unique haround
    exact hrest

end Reaches

/-- Looking for a holder finds the nearest. -/
theorem Forest.holder?_eq_some_iff (hforest : world.Forest) (scope : Nat) {holder : Nat} :
    world.holder? scope name = some holder ↔ world.Nearest name scope holder := by
  induction scope using hforest.induction name with
  | held scope hheld =>
      rw [holder?_of_bound hheld, Option.some_inj]
      constructor
      · rintro rfl
        exact ⟨.refl, hheld⟩
      · exact fun ⟨hreaches, _⟩ => hreaches.eq_of_held hheld
  | around scope outer hfree haround ih =>
      rw [holder?_of_around hforest hfree haround, ih]
      constructor
      · exact fun ⟨hreaches, hheld⟩ => ⟨hreaches.outward hfree haround, hheld⟩
      · rintro ⟨hreaches, hheld⟩
        have hne : scope ≠ holder := by
          rintro rfl
          simp [hfree] at hheld
        exact ⟨hreaches.of_around haround hne, hheld⟩
  | ended scope hfree hended =>
      rw [holder?_of_not_around hfree hended]
      constructor
      · exact fun h => nomatch h
      · rintro ⟨hreaches, hheld⟩
        rw [← hreaches.eq_of_ended hended, hfree] at hheld
        cases hheld

theorem exists_nearest_iff (world : World) (name : String) (scope : Nat) :
    (∃ holder, world.Nearest name scope holder) ↔
      ∃ number, Relation.ReflTransGen world.Around scope number ∧
        (world.bound? name number).isSome := by
  constructor
  · rintro ⟨holder, hreaches, hheld⟩
    exact ⟨holder, hreaches.lift id fun _ _ hstep => hstep.2, hheld⟩
  · rintro ⟨number, hpath, hheld⟩
    induction hpath using Relation.ReflTransGen.head_induction_on with
    | refl => exact ⟨number, .refl, hheld⟩
    | @head scope outer haround _ ih =>
        obtain ⟨holder, hreaches, hholder⟩ := ih
        by_cases hhere : (world.bound? name scope).isSome
        · exact ⟨scope, .refl, hhere⟩
        · exact ⟨holder, hreaches.outward (by simpa using hhere) haround, hholder⟩

/-! ## Updates -/

section
variable {target : Nat} {value : Value}

theorem around_set : (world.set target name value).Around = world.Around := by
  ext scope outer
  simp [Around, frame?_set]

theorem builtin?_set (key : String) :
    (world.set target name value).builtin? scope key = world.builtin? scope key := by
  by_cases h : target = scope
  · simp only [builtin?, set, Array.getElem?_modify, h, if_true, Option.bind_map]
    rfl
  · simp [builtin?, set, Array.getElem?_modify, h]

theorem Forest.set (hforest : world.Forest) : (world.set target name value).Forest := by
  intro scope outer haround
  rw [around_set] at haround
  exact hforest scope outer haround

theorem bound?_set_of_key_ne {key : String} (hkey : key ≠ name) (other : Nat) :
    (world.set target name value).bound? key other = world.bound? key other := by
  by_cases h : target = other
  · subst h
    by_cases hlt : target < world.scopes.size
    · rw [bound?_set_self value key hlt, if_neg (Ne.symm hkey)]
    · have hsize := Nat.le_of_not_lt hlt
      rw [bound?_eq_none_of_size_le hsize, bound?_eq_none_of_size_le]
      rwa [size_set]
  · exact bound?_set_of_ne value key h

/-- What is known of other names does not change. -/
theorem Forest.get?_set_of_key_ne (hforest : world.Forest) {key : String} (hkey : key ≠ name) :
    (world.set target name value).get? scope key = world.get? scope key := by
  have hbound : (world.set target name value).bound? key = world.bound? key :=
    funext (bound?_set_of_key_ne hkey)
  have hnearest : (world.set target name value).Nearest key = world.Nearest key := by
    ext scope holder
    rw [Nearest, Nearest, Reaches, Reaches, hbound, around_set]
  have hholder : (world.set target name value).holder? scope key = world.holder? scope key := by
    ext holder
    rw [hforest.set.holder?_eq_some_iff, hforest.holder?_eq_some_iff, hnearest]
  rw [get?, get?, hholder, hbound, builtin?_set]

/-- Once a name is set in a scope, that scope is the nearest holder from all that come to it past no
other. -/
theorem Forest.holder?_set_of_reaches (hforest : world.Forest)
    (htarget : target < world.scopes.size) (h : world.Reaches name scope target) :
    (world.set target name value).holder? scope name = some target := by
  have hheld : ((world.set target name value).bound? name target).isSome := by
    simp [bound?_set_self value name htarget]
  induction h using Relation.ReflTransGen.head_induction_on with
  | refl => exact holder?_of_bound hheld
  | @head scope outer hstep _ ih =>
      by_cases heq : target = scope
      · subst heq
        exact holder?_of_bound hheld
      · have hfree : (world.set target name value).bound? name scope = none := by
          rw [bound?_set_of_ne value name heq]
          exact hstep.1
        have haround : (world.set target name value).Around scope outer := by
          rw [around_set]
          exact hstep.2
        rw [holder?_of_around hforest.set hfree haround, ih]

/-- From any other scope the nearest holder is the same as before. -/
theorem Forest.holder?_set_of_not_reaches (hforest : world.Forest)
    (h : ¬world.Reaches name scope target) :
    (world.set target name value).holder? scope name = world.holder? scope name := by
  have hsame {scope : Nat} (h : ¬world.Reaches name scope target) :
      (world.set target name value).bound? name scope = world.bound? name scope := by
    apply bound?_set_of_ne
    rintro rfl
    exact h .refl
  induction scope using hforest.induction name with
  | held scope hheld =>
      rw [holder?_of_bound hheld, holder?_of_bound (by rwa [hsame h])]
  | around scope outer hfree haround ih =>
      have houter : ¬world.Reaches name outer target := fun hreaches =>
        h (hreaches.outward hfree haround)
      rw [holder?_of_around hforest hfree haround, ← ih houter]
      exact holder?_of_around hforest.set (by rwa [hsame h]) (by rwa [around_set])
  | ended scope hfree hended =>
      rw [holder?_of_not_around hfree hended]
      exact holder?_of_not_around (by rwa [hsame h]) (by rwa [around_set])

/-- A name that is set in a scope has its new value for all that come to the scope past no other
holder. -/
theorem Forest.seenFrom_set (hforest : world.Forest) (htarget : target < world.scopes.size) :
    SeenFrom (world.Reaches name · target) name value world (world.set target name value) := by
  intro scope key
  constructor
  · rintro ⟨rfl, hreaches⟩
    rw [get?, hforest.holder?_set_of_reaches htarget hreaches]
    simp [bound?_set_self value key htarget]
  · intro hnot
    by_cases hkey : key = name
    · subst hkey
      have hreaches : ¬world.Reaches key scope target := fun h => hnot ⟨rfl, h⟩
      rw [get?, get?, hforest.holder?_set_of_not_reaches hreaches]
      cases hholder : world.holder? scope key with
      | none => exact builtin?_set key
      | some holder =>
          have hnearest := (hforest.holder?_eq_some_iff scope).mp hholder
          apply bound?_set_of_ne
          rintro rfl
          exact hreaches hnearest.1
    · exact hforest.get?_set_of_key_ne hkey

/-! ## Assigning and counting up -/

theorem Forest.assign_eq_true_iff (hforest : world.Forest) :
    (world.assign scope name value).1 = true ↔ ∃ holder, world.Nearest name scope holder := by
  simp only [← hforest.holder?_eq_some_iff, assign]
  cases world.holder? scope name with
  | none => simp
  | some holder => simp

theorem Forest.assign_of_nearest (hforest : world.Forest) {holder : Nat}
    (h : world.Nearest name scope holder) :
    world.assign scope name value = (true, world.set holder name value) := by
  rw [assign, (hforest.holder?_eq_some_iff scope).mpr h]

theorem Nearest.lt_size {holder : Nat} (h : world.Nearest name scope holder) :
    holder < world.scopes.size := by
  obtain ⟨held, hheld⟩ := Option.isSome_iff_exists.mp h.2
  exact lt_size_of_bound hheld

theorem Forest.nearest_unique (hforest : world.Forest) {holder other : Nat}
    (h : world.Nearest name scope holder) (h' : world.Nearest name scope other) :
    other = holder := by
  rw [← hforest.holder?_eq_some_iff] at h h'
  rw [h] at h'
  exact Option.some.inj h'.symm

/-- What is assigned to a name is seen from the scopes that have the same nearest holder. -/
theorem Forest.seenFrom_assign (hforest : world.Forest)
    (h : (world.assign scope name value).1 = true) :
    SeenFrom
      (fun other => ∃ holder, world.Nearest name scope holder ∧ world.Nearest name other holder)
      name value world (world.assign scope name value).2 := by
  obtain ⟨holder, hnearest⟩ := hforest.assign_eq_true_iff.mp h
  have hsame (other : Nat) :
      (∃ holder, world.Nearest name scope holder ∧ world.Nearest name other holder) ↔
        world.Reaches name other holder := by
    constructor
    · rintro ⟨shared, hshared, hother⟩
      obtain rfl := hforest.nearest_unique hnearest hshared
      exact hother.1
    · exact fun hreaches => ⟨holder, hnearest, hreaches, hnearest.2⟩
  rw [hforest.assign_of_nearest hnearest]
  simp only [hsame]
  exact hforest.seenFrom_set hnearest.lt_size

end

end World

namespace Eval

open World

variable {world after : World} {scope : Nat} {new : Value}

/-- Counting up is reading an integer and assigning the next. -/
theorem run_increment_iff {inner : Evaluator} {name : String} :
    (increment scope name).run inner world = ⟨some (.ok new), after⟩ ↔
      ∃ number, world.get? scope name = some (.integer number) ∧
        new = .integer (wrap (number + 1)) ∧ (world.assign scope name new).2 = after := by
  have hlook : (Action.perform (.look scope name)).run inner world =
      ⟨some (.ok (world.get? scope name)), world⟩ := rfl
  constructor
  · intro h
    have hread := (bind_of_ok hlook _).symm.trans h
    cases hget : world.get? scope name with
    | none =>
        rw [hget] at hread
        cases hread
    | some old =>
        rw [hget] at hread
        cases old with
        | integer number =>
            cases hread
            exact ⟨number, rfl, rfl, rfl⟩
        | _ => cases hread
  · rintro ⟨number, hget, rfl, rfl⟩
    refine (bind_of_ok hlook _).trans ?_
    rw [hget]
    rfl

/-- A name that counts up is held by a scope on the way outward, and its binding there is all that
changes. -/
theorem increment_of_nearest (hforest : world.Forest) {name : String} {number : Int}
    (hget : world.get? scope name = some (.integer number))
    (hafter : (world.assign scope name new).2 = after) :
    ∃ holder, world.Nearest name scope holder ∧
      world.bound? name holder = some (.integer number) ∧
      world.assign scope name new = (true, after) ∧
      ∀ other key, after.bound? key other =
        if other = holder ∧ key = name then some new else world.bound? key other := by
  obtain ⟨holder, hholder, hbound⟩ := exists_holder_of_integer hget
  have hnearest := (hforest.holder?_eq_some_iff scope).mp hholder
  have hassign : world.assign scope name new = (true, world.set holder name new) :=
    hforest.assign_of_nearest hnearest
  obtain rfl : world.set holder name new = after := by rw [← hafter, hassign]
  refine ⟨holder, hnearest, hbound, hassign, ?_⟩
  intro other key
  by_cases hother : other = holder
  · subst hother
    rw [bound?_set_self new key hnearest.lt_size]
    simp [eq_comm]
  · simp [hother, bound?_set_of_ne new key (Ne.symm hother)]

end Eval

/-- In a forest of scopes, assigning to a name succeeds if and only if a scope on the way outward
holds it, and is then seen from the scopes with the same nearest holder; otherwise nothing changes.
Setting a name in a scope is seen from those that come to the scope past no other holder. Counting
up succeeds if and only if the name is read as an integer, and then it is assigned where it was
read, and no other binding changes. -/
theorem World.updates_are_seen_on_the_way_outward {world : World} (hforest : world.Forest)
    (scope : Nat) (hscope : scope < world.scopes.size) (name : String) (value : Value) :
    ((world.assign scope name value).1 = true ↔
      ∃ number, Relation.ReflTransGen world.Around scope number ∧
        (world.bound? name number).isSome) ∧
    ((world.assign scope name value).1 = true →
      SeenFrom
        (fun other => ∃ holder, world.Nearest name scope holder ∧ world.Nearest name other holder)
        name value world (world.assign scope name value).2) ∧
    ((world.assign scope name value).1 = false → (world.assign scope name value).2 = world) ∧
    SeenFrom (world.Reaches name · scope) name value world (world.set scope name value) ∧
    ∀ maxTurns depth token (target : Name) new after,
      Eval.eval maxTurns (depth + 1) scope (.increment token target) world =
          ⟨some (.ok new), after⟩ ↔
        ∃ number holder, world.get? scope target.text = some (.integer number) ∧
          new = .integer (wrap (number + 1)) ∧ world.Nearest target.text scope holder ∧
          world.bound? target.text holder = some (.integer number) ∧
          world.assign scope target.text new = (true, after) ∧
          ∀ other key, after.bound? key other =
            if other = holder ∧ key = target.text then some new else world.bound? key other := by
  refine ⟨?_, hforest.seenFrom_assign, ?_, hforest.seenFrom_set hscope, ?_⟩
  · rw [hforest.assign_eq_true_iff, exists_nearest_iff]
  · intro hfalse
    rw [assign] at hfalse ⊢
    split at hfalse
    · cases hfalse
    · rfl
  · intro maxTurns depth token target new after
    refine Eval.run_increment_iff.trans ?_
    constructor
    · rintro ⟨number, hget, hnew, hafter⟩
      obtain ⟨holder, hchanges⟩ := Eval.increment_of_nearest hforest hget hafter
      exact ⟨number, holder, hget, hnew, hchanges⟩
    · rintro ⟨number, _, hget, hnew, _, _, hassign, _⟩
      exact ⟨number, hget, hnew, by rw [hassign]⟩

/-- What one of two functions assigns to a variable that they share, the other one sees. -/
theorem World.assigned_value_is_seen_from_a_sibling :
    let world := (((initial.set 0 "x" (.integer 1)).enclose 0).2.enclose 0).2
    world.Forest ∧ 1 < world.scopes.size ∧ (world.assign 1 "x" (.integer 2)).1 = true ∧
      (world.assign 1 "x" (.integer 2)).2.get? 2 "x" = some (.integer 2) := by
  intro world
  have hset : Eval.wellScoped.May initial (.set 0 "x" (.integer 1)) :=
    ⟨by decide, List.forall_mem_nil _⟩
  have hopen : Eval.wellScoped.May (initial.set 0 "x" (.integer 1)) (.enclose 0) :=
    show 0 < (initial.set 0 "x" (.integer 1)).scopes.size by decide
  have hagain : Eval.wellScoped.May ((initial.set 0 "x" (.integer 1)).enclose 0).2 (.enclose 0) :=
    show 0 < ((initial.set 0 "x" (.integer 1)).enclose 0).2.scopes.size by decide
  have hinitial := Eval.wellScoped_perform (wellScoped_empty.root Builtin.all) hset
  have hforest : world.Forest :=
    (Eval.wellScoped_perform (Eval.wellScoped_perform hinitial hopen) hagain).forest
  have hsize : 1 < world.scopes.size := by decide
  obtain ⟨hfound, hassign, -⟩ :=
    updates_are_seen_on_the_way_outward hforest 1 hsize "x" (.integer 2)
  have hown : world.Nearest "x" 1 0 := ⟨.head ⟨rfl, _, rfl⟩ .refl, rfl⟩
  have hother : world.Nearest "x" 2 0 := ⟨.head ⟨rfl, _, rfl⟩ .refl, rfl⟩
  have htrue := hfound.mpr ⟨0, .head ⟨_, rfl⟩ .refl, rfl⟩
  exact ⟨hforest, hsize, htrue, (hassign htrue 2 "x").1 ⟨rfl, 0, hown, hother⟩⟩

end Monkey
