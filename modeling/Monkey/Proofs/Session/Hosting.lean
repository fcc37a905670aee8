import Mathlib.Logic.Relation
import Monkey.Proofs.Eval.Errors
import Monkey.Proofs.Eval.ScopeGraph

/-!
# Scopes in the hands of a host

A host makes roots and scopes inside others, binds and assigns names, and has texts run, in any
order. Whatever it does, the world stays well scoped and no scope is ever moved: evaluation does
nothing that a careful host could not do too. So the way outward from each scope, once it is there,
is the same forever.
-/
namespace Monkey.Session

open Eval World

/-- What a host can do with the scopes and the functions that are there. -/
inductive Act (world : World) : World → Prop where
  | root (builtins : List Builtin) : Act world (world.root builtins).2
  | enclose {outer : Nat} (houter : outer < world.scopes.size) : Act world (world.enclose outer).2
  | set {scope : Nat} {value : Value} (name : String) (hscope : scope < world.scopes.size)
      (hvalue : value.CapturesBelow world.scopes.size) : Act world (world.set scope name value)
  | assign {scope : Nat} {value : Value} (name : String) (hscope : scope < world.scopes.size)
      (hvalue : value.CapturesBelow world.scopes.size) :
      Act world (world.assign scope name value).2
  | run {scope : Nat} (limits : Limits) (text : String) (hscope : scope < world.scopes.size) :
      Act world (run limits scope text world).2
  /-- A tree is evaluated, and the world is that after some of its operations. -/
  | evaluate {scope : Nat} (limits : Limits) (node : Node) (count : Nat)
      (hscope : scope < world.scopes.size) :
      Act world
        (replay ((history limits.turns limits.depth scope node world).take count) world)

def Reaches : World → World → Prop :=
  Relation.ReflTransGen Act

/-- The world is well scoped, with all the scopes of the one before in their places. -/
structure Preserves (before after : World) : Prop where
  holds : after.WellScoped
  size : before.scopes.size ≤ after.scopes.size
  frame : ∀ scope < before.scopes.size, after.frame? scope = before.frame? scope

namespace Preserves

variable {world middle after : World}

theorem refl (h : world.WellScoped) : Preserves world world :=
  ⟨h, Nat.le_refl _, fun _ _ => rfl⟩

theorem trans (h : Preserves world middle) (h' : Preserves middle after) :
    Preserves world after := by
  refine ⟨h'.holds, Nat.le_trans h.size h'.size, fun scope hscope => ?_⟩
  rw [h'.frame scope (Nat.lt_of_lt_of_le hscope h.size), h.frame scope hscope]

theorem perform {operation : Operation} (h : world.WellScoped)
    (hmay : wellScoped.May world operation) : Preserves world (operation.perform world).2 where
  holds := wellScoped_perform h hmay
  size := size_le_perform operation world
  frame _ hscope := frame?_perform hscope operation

theorem replay {operations : List Operation} (h : world.WellScoped)
    (hpermits : wellScoped.Permits operations world) :
    Preserves world (replay operations world) := by
  induction operations generalizing world with
  | nil => exact .refl h
  | cons operation rest ih =>
      have hstep := perform h hpermits.1
      exact hstep.trans (ih hstep.holds hpermits.2)

theorem root (h : world.WellScoped) (builtins : List Builtin) :
    Preserves world (world.root builtins).2 where
  holds := h.root builtins
  size := by simp [World.root]
  frame _ hscope := frame?_root hscope builtins

end Preserves

theorem Act.preserves {world after : World} (h : Act world after) (hworld : world.WellScoped) :
    Preserves world after := by
  cases h with
  | root builtins => exact .root hworld builtins
  | @enclose outer houter =>
      have hmay : wellScoped.May world (.enclose outer) := houter
      exact .perform hworld hmay
  | @set scope value name hscope hvalue =>
      have hmay : wellScoped.May world (.set scope name value) := ⟨hscope, hvalue⟩
      exact .perform hworld hmay
  | @assign scope value name hscope hvalue =>
      have hmay : wellScoped.May world (.assign scope name value) := ⟨hscope, hvalue⟩
      exact .perform hworld hmay
  | @run scope limits text hscope =>
      by_cases hclean : (Parse.source text).isClean
      · have hpasses := eval_passes lawful_wellScoped limits.turns limits.depth
          (Parse.source text).program hworld hscope
        rw [(run_eq_of_isClean hclean).1, eval_world_eq_replay]
        exact .replay hworld hpasses.permits
      · rw [Session.run, if_neg hclean]
        exact .refl hworld
  | @evaluate scope limits node count hscope =>
      have hpasses := eval_passes lawful_wellScoped limits.turns limits.depth node hworld hscope
      exact .replay hworld (hpasses.permits.take count)

theorem Reaches.preserves {world after : World} (h : Reaches world after)
    (hworld : world.WellScoped) : Preserves world after := by
  induction h with
  | refl => exact .refl hworld
  | tail _ hact ih => exact ih.trans (hact.preserves ih.holds)

/-! ## What a host gets from a world it may put there again -/

section
variable {world : World} {scope : Nat} {value : Value} (h : Reaches .empty world)
include h

theorem Reaches.capturesBelow_of_get? {name : String}
    (hvalue : world.get? scope name = some value) :
    value.CapturesBelow world.scopes.size :=
  (h.preserves wellScoped_empty).holds.captured.good_of_get? (fun _ => List.forall_mem_nil _) hvalue

theorem Reaches.capturesBelow_of_run {limits : Limits} {text : String} {quiet : Bool}
    (hscope : scope < world.scopes.size)
    (hvalue : (run limits scope text world).1 = .finished value quiet) :
    value.CapturesBelow (run limits scope text world).2.scopes.size := by
  have hworld := (h.preserves wellScoped_empty).holds
  obtain ⟨hclean, houtcome⟩ := outcome_of_finished hvalue
  have hpasses := eval_passes lawful_wellScoped limits.turns limits.depth
    (Parse.source text).program hworld hscope
  rw [(run_eq_of_isClean hclean).1, eval_world_eq_replay]
  exact hpasses.good_of_outcome (fun _ => List.forall_mem_nil _) houtcome

end

/-- In every world that a host reaches from roots, the scope around a scope is an older one and
stays the same in all worlds to come, and every function that is bound, by itself or inside another
value, was made in a scope that is there. From each scope exactly one way leads outward, and it ends
at a root, whose builtins all scopes on it share. A name has the value of its nearest binding on
this way, or else of a builtin of the root, and what is assigned to it goes to that binding. -/
theorem scopes_point_outward {world : World} (h : Reaches .empty world) :
    (∀ scope outer builtins, world.frame? scope = some (some outer, builtins) →
      outer < scope) ∧
    (∀ after, Reaches world after → ∀ scope < world.scopes.size,
      after.frame? scope = world.frame? scope) ∧
    (∀ scope name value, world.bound? name scope = some value →
      ∀ home ∈ value.captured, home < world.scopes.size) ∧
    ∀ scope < world.scopes.size, ∃ path root, world.Outward scope path root ∧
      (∀ other last, world.Outward scope other last → other = path ∧ last = root) ∧
      (∀ number ∈ path, (world.frame? number).map (·.2) = (world.frame? root).map (·.2)) ∧
      (∀ name, world.get? scope name =
        (path.findSome? (world.bound? name)).or (world.builtin? root name)) ∧
      ∀ name value, world.assign scope name value =
        (path.find? fun number => (world.bound? name number).isSome).elim (false, world)
          fun number => (true, world.set number name value) := by
  have hworld := (h.preserves wellScoped_empty).holds
  refine ⟨fun scope outer builtins hframe => (hworld.outer scope outer builtins hframe).1, ?_,
    hworld.captured, ?_⟩
  · intro after hafter
    exact (hafter.preserves hworld).frame
  · intro scope hscope
    obtain ⟨path, root, hpath⟩ := hworld.exists_outward hscope
    obtain ⟨⟨above, builtins⟩, hframe⟩ := exists_frame? hscope
    have hshared := hworld.frame?_of_outward hpath hframe
    refine ⟨path, root, hpath, fun other last hother => hpath.unique hother, ?_,
      hworld.get?_of_outward hpath, hworld.assign_of_outward hpath⟩
    intro number hnumber
    obtain ⟨outer, hnumber'⟩ := hshared number (List.mem_cons_of_mem _ hnumber)
    obtain ⟨last, hroot⟩ := hshared root List.mem_cons_self
    simp [hnumber', hroot]

/-- A counter was made in the scope of a call, and called once. -/
def counted : World :=
  (run ⟨20, 9⟩ 0 "let make = fn(n) \x7b fn() \x7b n++; n \x7d \x7d; make(1)();" .initial).2

/-- The host opens a scope inside that of the counter, and keeps a function in it. -/
def sheltered : World :=
  (counted.enclose 1).2.set 3 "kept" (.array 9 [.function 8 [] .hole 1])

/-- The host sets the counter from there. -/
def hosted : World :=
  (sheltered.assign 3 "n" (.integer 7)).2

theorem scopes_point_outward_hosted :
    Reaches .empty hosted ∧ hosted.Outward 3 [3, 1, 0] 0 ∧
      ∀ name, hosted.get? 3 name =
        ([3, 1, 0].findSome? (hosted.bound? name)).or (hosted.builtin? 0 name) := by
  have hcounted : counted.scopes.size = 3 ∧ counted.frame? 0 = some (none, Builtin.all) ∧
      counted.frame? 1 = some (some 0, Builtin.all) := by decide +kernel
  obtain ⟨hsize, hroot, hmaker⟩ := hcounted
  have hopened : (counted.enclose 1).2.scopes.size = 4 := by rw [size_enclose, hsize]
  have hsheltered : sheltered.scopes.size = 4 := by rw [sheltered, size_set, hopened]
  have hreach : Reaches .empty hosted := by
    have hinitial : Reaches .empty .initial := .single (.root Builtin.all)
    have hran : Reaches .empty counted := hinitial.tail (.run ⟨20, 9⟩ _ (by decide))
    have hchild : Reaches .empty (counted.enclose 1).2 := hran.tail (.enclose (by omega))
    have hset : Act (counted.enclose 1).2 sheltered :=
      .set "kept" (by omega) (by rw [hopened]; decide)
    have hassign : Act sheltered hosted := .assign "n" (by omega) (List.forall_mem_nil _)
    exact (hchild.tail hset).tail hassign
  have hpath : hosted.Outward 3 [3, 1, 0] 0 := by
    have hframe (scope : Nat) : hosted.frame? scope = (counted.enclose 1).2.frame? scope := by
      rw [hosted, frame?_assign, sheltered, frame?_set]
    have hchild := frame?_enclose_self hmaker
    rw [hsize, ← hframe] at hchild
    rw [← frame?_enclose (by omega) 1, ← hframe] at hroot hmaker
    exact .step hchild (.step hmaker (.root hroot))
  obtain ⟨_, _, _, hways⟩ := scopes_point_outward hreach
  obtain ⟨path, root, _, hunique, _, hget, _⟩ := hways 3 hpath.lt_size
  obtain ⟨rfl, rfl⟩ := hunique _ _ hpath
  exact ⟨hreach, hpath, hget⟩

/-- The counter, which the call had left at two, is seen from there and not from the root. -/
example : (hosted.get? 3 "n").map (·.display) = some "7" ∧ (hosted.get? 0 "n").isNone := by
  decide +kernel

end Monkey.Session
