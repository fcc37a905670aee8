import Mathlib.Data.List.DropRight
import Monkey.Shell.Prompt

/-!
# Entries without effect

What an entry comes to depends on the programs that were entered since the last reset and on nothing
else: interrupts, blank lines, texts with complaints and the other commands leave the scopes of the
shell as they are. So a session gives for each program what a new session gives that was told only
those (`standing`), even where some of them ended in an error.
-/
namespace Monkey

namespace Shell

/-! ## Kinds of entries -/

/-- Whether an entry is source text, and without complaints. -/
def isProgram : Option String → Bool
  | none => false
  | some line =>
      Text.strip (tidy line) != "" && (request? (tidy line)).isNone &&
        (Parse.source (tidy line)).isClean

def Request.isReset : Request → Bool
  | .known .reset _ => true
  | _ => false

def isReset : Option String → Bool
  | none => false
  | some line => (request? (tidy line)).any (·.isReset)

/-- The programs since the last reset. -/
def standing (entries : List (Option String)) : List (Option String) :=
  (entries.rtakeWhile (!isReset ·)).filter isProgram

theorem standing_concat_of_isReset {entry : Option String} (h : isReset entry)
    (entries : List (Option String)) : standing (entries ++ [entry]) = [] := by
  rw [standing, List.rtakeWhile_concat_neg _ _ _ (by simp [h])]
  rfl

theorem standing_concat {entry : Option String} (h : isReset entry = false)
    (entries : List (Option String)) :
    standing (entries ++ [entry]) = standing entries ++ [entry].filter isProgram := by
  rw [standing, List.rtakeWhile_concat_pos _ _ _ (by simp [h]), List.filter_append]
  rfl

/-! ## One entry -/

/-- The shell behind an entry that it is not left at. -/
def next? (shell : Shell) : Option String → Option Shell
  | none => some shell
  | some line =>
      match (shell.handle line).2 with
      | .goesOn after => some after
      | .leaves _ => none

/-- What is written while an entry is handled. -/
def answer (shell : Shell) : Option String → Turn
  | none => ⟨"", ""⟩
  | some line => (shell.handle line).1

theorem handle_of_next? {shell after : Shell} {line : String}
    (h : shell.next? (some line) = some after) :
    shell.handle line = (shell.answer (some line), .goesOn after) := by
  rcases hhandle : shell.handle line with ⟨turn, next | code⟩
  · rw [next?, hhandle] at h
    rw [answer, hhandle, Option.some.inj h]
  · rw [next?, hhandle] at h
    cases h

section
variable {line : String} (shell : Shell)

theorem handle_of_blank (h : Text.strip (tidy line) = "") :
    shell.handle line = (⟨"", ""⟩, .goesOn shell) := by
  rw [handle, if_pos h]

theorem request?_of_blank {text : String} (h : Text.strip text = "") : request? text = none := by
  rw [request?, h]
  rfl

theorem handle_of_request {request : Request} (h : request? (tidy line) = some request) :
    shell.handle line = ((shell.execute request).1, .goesOn (shell.execute request).2) := by
  have hblank : Text.strip (tidy line) ≠ "" := by
    intro hblank
    rw [request?_of_blank hblank] at h
    cases h
  rw [handle, if_neg hblank, h]

theorem handle_of_source (hblank : Text.strip (tidy line) ≠ "")
    (hrequest : request? (tidy line) = none) :
    shell.handle line = shell.runSource (tidy line) := by
  rw [handle, if_neg hblank, hrequest]

theorem handle_of_isProgram (h : isProgram (some line)) :
    shell.handle line = shell.runSource (tidy line) := by
  obtain ⟨⟨hblank, hrequest⟩, _⟩ : (Text.strip (tidy line) ≠ "" ∧ request? (tidy line) = none) ∧
      (Parse.source (tidy line)).isClean := by simpa [isProgram] using h
  exact shell.handle_of_source hblank hrequest

/-- A text with complaints is not run, but the output so far is taken. -/
theorem runSource_of_rejected {text : String} (h : ¬ (Parse.source text).isClean) :
    (shell.runSource text).2 = .goesOn { shell with world := shell.world.flush.2 } := by
  have hrun : Session.run shell.limits shell.scope text shell.world =
      (.rejected (Parse.source text).complaints, shell.world) := by rw [Session.run, if_neg h]
  rw [runSource, hrun]

end

theorem limits_of_runSource {shell after : Shell} {text : String}
    (h : (shell.runSource text).2 = .goesOn after) : after.limits = shell.limits := by
  rcases hresult : Session.run shell.limits shell.scope text shell.world with ⟨verdict, world⟩
  simp only [runSource, hresult] at h
  cases verdict with
  | exhausted => cases h
  | rejected _ | finished _ _ => rw [← Next.goesOn.inj h]

/-- The second shell is the first, but for variables that set no limits. -/
structure Rests (shell after : Shell) : Prop where
  limits : after.limits = shell.limits
  world : after.world = shell.world
  scope : after.scope = shell.scope

theorem Rests.refl (shell : Shell) : shell.Rests shell := ⟨rfl, rfl, rfl⟩

theorem rests_setTrace (shell : Shell) (enabled : Bool) : shell.Rests (shell.setTrace enabled).2 :=
  ⟨rfl, rfl, rfl⟩

theorem execute_of_isReset {request : Request} (h : request.isReset) (shell : Shell) :
    (shell.execute request).2 = { shell with world := .initial, scope := 0 } := by
  match request, h with
  | .known .reset _, _ => rfl

/-- A command other than a reset changes variables at most, and none that sets limits. -/
theorem rests_execute {request : Request} (h : request.isReset = false) (shell : Shell) :
    shell.Rests (shell.execute request).2 := by
  match request, h with
  | .known .clear _, _ | .known .help _, _ | .unknown _, _ => exact .refl shell
  | .known .trace argument, _ =>
      simp only [execute]
      split
      · exact shell.rests_setTrace _
      · split
        · exact shell.rests_setTrace _
        · exact .refl shell

/-- What an entry can do to a shell whose output was taken. -/
theorem next?_cases {shell after : Shell} {entry : Option String}
    (houtput : shell.world.output = "") (h : shell.next? entry = some after) :
    (isReset entry ∧ after = { shell with world := .initial, scope := 0 }) ∨
    (isReset entry = false ∧ isProgram entry ∧ after.limits = shell.limits) ∨
    (isReset entry = false ∧ isProgram entry = false ∧ shell.Rests after) := by
  cases entry with
  | none =>
      obtain rfl : shell = after := Option.some.inj h
      exact .inr (.inr ⟨rfl, rfl, .refl shell⟩)
  | some line =>
      have hnext : (shell.handle line).2 = .goesOn after := by rw [handle_of_next? h]
      cases hrequest : request? (tidy line) with
      | some request =>
          have hprogram : isProgram (some line) = false := by simp [isProgram, hrequest]
          have hsame : isReset (some line) = request.isReset := by simp [isReset, hrequest]
          rw [shell.handle_of_request hrequest] at hnext
          obtain rfl := Next.goesOn.inj hnext
          cases hreset : request.isReset with
          | true => exact .inl ⟨hsame.trans hreset, execute_of_isReset hreset shell⟩
          | false => exact .inr (.inr ⟨hsame.trans hreset, hprogram, rests_execute hreset shell⟩)
      | none =>
          have hreset : isReset (some line) = false := by simp [isReset, hrequest]
          by_cases hblank : Text.strip (tidy line) = ""
          · rw [shell.handle_of_blank hblank] at hnext
            obtain rfl := Next.goesOn.inj hnext
            exact .inr (.inr ⟨hreset, by simp [isProgram, hblank], .refl shell⟩)
          · rw [shell.handle_of_source hblank hrequest] at hnext
            by_cases hclean : (Parse.source (tidy line)).isClean
            · have hprogram : isProgram (some line) := by
                simp [isProgram, hblank, hrequest, hclean]
              exact .inr (.inl ⟨hreset, hprogram, limits_of_runSource hnext⟩)
            · have hflush : shell.world.flush.2 = shell.world := by simp [World.flush, ← houtput]
              rw [shell.runSource_of_rejected hclean, hflush] at hnext
              obtain rfl := Next.goesOn.inj hnext
              exact .inr (.inr ⟨hreset, by simp [isProgram, hclean], .refl shell⟩)

/-! ## Shells that run programs alike -/

/-- The shells differ in variables that set no limits, and the output so far was taken. -/
structure Alike (one other : Shell) : Prop where
  world : one.world = other.world
  scope : one.scope = other.scope
  limits : one.limits = other.limits
  output : one.world.output = ""

section
variable {one other after : Shell} {entry : Option String}

theorem Alike.runSource (h : Alike one other) {text : String} {turn : Turn}
    (hrun : one.runSource text = (turn, .goesOn after)) :
    ∃ after', other.runSource text = (turn, .goesOn after') ∧ Alike after after' := by
  -- the verdict and the world behind it are those of both
  rcases hresult : Session.run one.limits one.scope text one.world with ⟨verdict, world⟩
  have hresult' : Session.run other.limits other.scope text other.world = (verdict, world) := by
    rw [← h.world, ← h.scope, ← h.limits, hresult]
  simp only [Shell.runSource, hresult, hresult'] at hrun ⊢
  cases verdict with
  | exhausted => simp at hrun
  | rejected _ | finished _ _ =>
      obtain ⟨rfl, hafter⟩ := Prod.mk.inj hrun
      obtain rfl := Next.goesOn.inj hafter
      exact ⟨_, rfl, rfl, h.scope, h.limits, rfl⟩

/-- Shells that are alike give the same answer to a program, and are alike behind it. -/
theorem Alike.program (h : Alike one other) (hprogram : isProgram entry)
    (hnext : one.next? entry = some after) :
    one.answer entry = other.answer entry ∧
      ∃ after', other.next? entry = some after' ∧ Alike after after' := by
  cases entry with
  | none => cases hprogram
  | some line =>
      have hrun := handle_of_next? hnext
      rw [one.handle_of_isProgram hprogram] at hrun
      obtain ⟨after', hother, halike⟩ := h.runSource hrun
      rw [← other.handle_of_isProgram hprogram] at hother
      exact ⟨by simp [answer, hother], after', by simp [next?, hother], halike⟩

end

/-! ## Sessions -/

/-- The shell behind entries, if none of them left it. -/
def after? (shell : Shell) (entries : List (Option String)) : Option Shell :=
  entries.foldlM next? shell

theorem after?_concat (shell : Shell) (entries : List (Option String)) (entry : Option String) :
    shell.after? (entries ++ [entry]) = (shell.after? entries).bind (·.next? entry) := by
  simp [after?, List.foldlM_append]

theorem after?_cons (shell : Shell) (entry : Option String) (entries : List (Option String)) :
    shell.after? (entry :: entries) = (shell.next? entry).bind (·.after? entries) :=
  List.foldlM_cons

section
variable {env : Variables} {limits : Eval.Limits} (applied : Settings.limits env = .ok limits)

/-- The standing programs alone lead to a shell that is like the one behind all entries. -/
theorem exists_alike_of_after? {entries : List (Option String)} {shell : Shell}
    (h : (start applied).after? entries = some shell) :
    ∃ other, (start applied).after? (standing entries) = some other ∧ Alike shell other ∧
      shell.limits = limits := by
  induction entries using List.reverseRecOn generalizing shell with
  | nil =>
      obtain rfl : start applied = shell := Option.some.inj h
      exact ⟨start applied, rfl, ⟨rfl, rfl, rfl, rfl⟩, rfl⟩
  | append_singleton entries entry ih =>
      rw [after?_concat] at h
      obtain ⟨middle, hmiddle, hnext⟩ := Option.bind_eq_some_iff.mp h
      obtain ⟨other, hother, halike, hlimits⟩ := ih hmiddle
      obtain ⟨hreset, rfl⟩ | ⟨hreset, hprogram, hkept⟩ | ⟨hreset, hprogram, hrests⟩ :=
        next?_cases halike.output hnext
      · -- a reset leaves the variables alone, as a new shell has those of the session
        rw [standing_concat_of_isReset hreset]
        exact ⟨start applied, rfl, ⟨rfl, rfl, hlimits, rfl⟩, hlimits⟩
      · obtain ⟨_, after, hafter, hlike⟩ := halike.program hprogram hnext
        rw [standing_concat hreset]
        refine ⟨after, ?_, hlike, hkept.trans hlimits⟩
        simp [hprogram, after?_concat, hother, hafter]
      · rw [standing_concat hreset]
        refine ⟨other, by simpa [hprogram] using hother, ?_, hrests.limits.trans hlimits⟩
        exact ⟨hrests.world.trans halike.world, hrests.scope.trans halike.scope,
          hrests.limits.trans halike.limits, by rw [hrests.world, halike.output]⟩

end

/-! ## What is printed -/

section
variable {shell after : Shell} {entry : Option String}

theorem steps_cons_of_next? (h : shell.next? entry = some after) (rest : List (Option String)) :
    shell.steps (entry :: rest) =
      (⟨shell.answer entry, after.traceEnabled⟩ :: (after.steps rest).1, (after.steps rest).2) := by
  cases entry with
  | none =>
      obtain rfl : shell = after := Option.some.inj h
      rfl
  | some line => simp [steps, handle_of_next? h]

theorem exists_next?_of_steps {rest : List (Option String)}
    (h : (shell.steps (entry :: rest)).2 = none) : ∃ after, shell.next? entry = some after := by
  cases entry with
  | none => exact ⟨shell, rfl⟩
  | some line =>
      rcases hhandle : shell.handle line with ⟨turn, next | code⟩
      · exact ⟨next, by simp [next?, hhandle]⟩
      · simp [steps, hhandle] at h

end

/-- Behind entries that did not leave the shell come the steps from there on. -/
theorem steps_of_after? {shell middle : Shell} {front : List (Option String)}
    (h : shell.after? front = some middle) (rest : List (Option String)) :
    ∃ firsts, firsts.length = front.length ∧
      shell.steps (front ++ rest) = (firsts ++ (middle.steps rest).1, (middle.steps rest).2) := by
  induction front generalizing shell with
  | nil =>
      obtain rfl : shell = middle := Option.some.inj h
      exact ⟨[], rfl, rfl⟩
  | cons entry front ih =>
      rw [after?_cons] at h
      obtain ⟨after, hnext, hafter⟩ := Option.bind_eq_some_iff.mp h
      obtain ⟨firsts, hlength, hsteps⟩ := ih hafter
      refine ⟨⟨shell.answer entry, after.traceEnabled⟩ :: firsts, by simp [hlength], ?_⟩
      rw [List.cons_append, steps_cons_of_next? hnext, hsteps]
      rfl

theorem exists_after?_of_steps {shell : Shell} {front rest : List (Option String)}
    (h : (shell.steps (front ++ rest)).2 = none) : ∃ middle, shell.after? front = some middle := by
  induction front generalizing shell with
  | nil => exact ⟨shell, rfl⟩
  | cons entry front ih =>
      obtain ⟨after, hnext⟩ := exists_next?_of_steps h
      rw [List.cons_append, steps_cons_of_next? hnext] at h
      obtain ⟨middle, hmiddle⟩ := ih h
      exact ⟨middle, by simp [after?_cons, hnext, hmiddle]⟩

/-! ## From the start -/

section
variable {env : Variables} {limits : Eval.Limits}

theorem session_of_limits (applied : Settings.limits env = .ok limits)
    (entries : List (Option String)) :
    session env entries =
      (⟨⟨banner, ""⟩, (start applied).traceEnabled⟩ :: ((start applied).steps entries).1,
        ((start applied).steps entries).2.map .left) := by
  rw [session, start?_of_limits applied]

/-- There is a shell behind entries only if there is one before them. -/
theorem exists_limits_of_session {entries : List (Option String)}
    (h : (session env entries).2 = none) : ∃ limits, Settings.limits env = .ok limits := by
  cases hlimits : Settings.limits env with
  | ok limits => exact ⟨limits, rfl⟩
  | error fault =>
      rw [session, start?_of_refused hlimits] at h
      cases h

end

/-- What a session prints for the entry behind this many others. -/
def printed? (env : Variables) (entries : List (Option String)) (count : Nat) : Option Turn :=
  (session env entries).1[count + 1]?.map (·.turn)

/-- The world that entries leave behind, and the scope that the next one would be run in. -/
def left? (env : Variables) (entries : List (Option String)) : Option (World × Nat) :=
  do
    let first ← (start? env).toOption
    let shell ← first.after? entries
    return (shell.world, shell.scope)

section
variable {env : Variables} {limits : Eval.Limits} (applied : Settings.limits env = .ok limits)

theorem printed?_of_after? {front : List (Option String)} {entry : Option String}
    {middle after : Shell} (hmiddle : (start applied).after? front = some middle)
    (hnext : middle.next? entry = some after) (rest : List (Option String)) :
    printed? env (front ++ entry :: rest) front.length = some (middle.answer entry) := by
  obtain ⟨firsts, hlength, hsteps⟩ := steps_of_after? hmiddle (entry :: rest)
  rw [steps_cons_of_next? hnext] at hsteps
  simp [printed?, session_of_limits applied, hsteps, ← hlength]

theorem left?_of_after? {entries : List (Option String)} {after : Shell}
    (h : (start applied).after? entries = some after) :
    left? env entries = some (after.world, after.scope) := by
  simp [left?, start?_of_limits applied, Except.toOption, h]

end

/-- In a session that is never left, each program has the same text printed for it, and leaves the
same bindings, as in a new session that is given the programs since the last reset and it. -/
theorem program_alone_with_standing {env : Variables} {front back : List (Option String)}
    {line : String} (hends : (session env (front ++ some line :: back)).2 = none)
    (hprogram : isProgram (some line)) :
    let own := standing front ++ [some line]
    (session env own).2 = none ∧
      (∃ turn, printed? env (front ++ some line :: back) front.length = some turn ∧
        printed? env own (standing front).length = some turn) ∧
      ∃ left, left? env (front ++ [some line]) = some left ∧ left? env own = some left := by
  intro own
  obtain ⟨limits, applied⟩ := exists_limits_of_session hends
  have hsplit : front ++ some line :: back = (front ++ [some line]) ++ back := by simp
  rw [session_of_limits applied, hsplit] at hends
  obtain ⟨after, hafter⟩ : ∃ after, (start applied).after? (front ++ [some line]) = some after :=
    exists_after?_of_steps (Option.map_eq_none_iff.mp hends)
  have hconcat := hafter
  rw [after?_concat] at hconcat
  obtain ⟨middle, hmiddle, hnext⟩ := Option.bind_eq_some_iff.mp hconcat
  obtain ⟨other, hother, halike, _⟩ := exists_alike_of_after? applied hmiddle
  obtain ⟨hanswer, after', hnext', halike'⟩ := halike.program hprogram hnext
  have hafter' : (start applied).after? own = some after' := by
    rw [after?_concat, hother, Option.bind_some, hnext']
  have hends' : (session env own).2 = none := by
    obtain ⟨firsts, _, hsteps⟩ := steps_of_after? hafter' []
    rw [List.append_nil] at hsteps
    rw [session_of_limits applied, hsteps]
    rfl
  refine ⟨hends', ⟨middle.answer (some line), ?_, ?_⟩, (after.world, after.scope), ?_, ?_⟩
  · exact printed?_of_after? applied hmiddle hnext back
  · rw [hanswer]
    exact printed?_of_after? applied hother hnext' []
  · exact left?_of_after? applied hafter
  · rw [left?_of_after? applied hafter', halike'.world, halike'.scope]

/-- A session with a reset, a program that fails behind an effect of its own, and entries of every
kind between. -/
def mixedEntries : List (Option String) :=
  [some "let a = 1;", some " /reset now", none, some "let b = [2]; b[\"k\"];", some "let c = ;",
    some "  ", some "/py-traceback on", some "/nope"]

theorem program_alone_with_standing_mixed :
    standing mixedEntries = [some "let b = [2]; b[\"k\"];"] ∧
    ∃ turn, printed? [] (mixedEntries ++ [some "puts(b);"]) 8 = some turn ∧
      printed? [] [some "let b = [2]; b[\"k\"];", some "puts(b);"] 1 = some turn := by
  have hstanding : standing mixedEntries = [some "let b = [2]; b[\"k\"];"] := by decide +kernel
  have hends : (session [] (mixedEntries ++ some "puts(b);" :: [])).2 = none := by decide +kernel
  have halone := program_alone_with_standing hends (by decide +kernel)
  rw [hstanding] at halone
  exact ⟨hstanding, halone.2.1⟩

end Shell

end Monkey
