import ScriptSemantics.Proofs.ProgramRoots
import ScriptSemantics.Proofs.ResemblingConstructs

/-!
# Recording frames when an error is made

An error gets its backtrace when it leaves the frame in which it was made, and not earlier.  A
second evaluator records the live frames at once, when an error is made.  Both do the same, so
nothing that runs while an error is on its way changes its backtrace.

## Main Definitions

* `Work.runPromptly` — do the work and record the frames in every error that it makes
* `Task.unrecordedWork` — the work of a task without the recording on the way out of a frame
* `Program.performPromptly`, `Program.evaluatePromptly` — perform tasks and evaluate programs this
  way
* `LateErrors` — an error in a run that records late and in one that records at once

## Main Results

* `Program.agrees` — tasks end in the same way, up to frames that are not recorded yet
* `Program.backtrace_is_raise_site` — programs end in the same way, and their errors carry the
  frames down to that of the program

## Design Notes

Between two tasks nothing is run, so an error without recorded frames was made since the work got
its machine back from the last task, or since it began.  It also ends the work: the errors that
cleanups follow are those of tasks.  An activation makes errors before its frame is pushed, when
arguments do not fit or the frame is refused, but none between the push and its first task.
-/

namespace ScriptSemantics

/-! ### Evaluation that records at once -/

/-- Record frames in an error that carries none. -/
def Exit.mark (trace : Backtrace) : Exit → Exit
  | error { cause, backtrace := none } => error { cause, backtrace := some trace }
  | e => e

/-- Do the work and record the frames in every error that it makes: those that were live on the
machine `since`, on which it last got control. -/
def Work.runPromptly {α : Type} (names : NameTable) (perform : Task → Eval Value) :
    Work α → Machine → Option (Ending α × Machine)
  | done ending machine, since =>
    some (ending.mapError (Exit.mark (since.calls.capture names)), machine)
  | stuck, _ => none
  | ask task machine resume, _ =>
    match perform task machine with
    | some (ending, machine) => runPromptly names perform (resume ending machine) machine
    | none => none

open ScriptSemantics.Comp in
/-- The work of a task, where errors leave a frame as they are. -/
def Task.unrecordedWork (program : Program) (fuel : Nat) : Task → Comp Value
  | .node id => Task.work program fuel (.node id)
  | .store site name value => Task.work program fuel (.store site name value)
  | .program root id => fun machine =>
    match machine.calls.push { id, kind := .top, name := .empty } with
    | .error cause => fail cause machine
    | .ok calls =>
      bracket (·.declareOwned root) (·.mapCalls CallStack.pop)
        (mapEnding (fun _ => topEnding id) (eval root)) { machine with calls }
  | .method callee id given block => do
    let plan ← ofExcept (BindPlan.make program.names callee.params .strict given)
    mapEnding (fun _ ending => catchBreak id (catchReturn id ending)) <|
      withFrame { id, kind := .method, name := callee.name, block } none do
        modify (·.declareOwned callee.root)
        bindParams block plan
        eval callee.body
  | .closure proc id given block => do
    match ← gets (·.closures.get? proc) with
    | some callee =>
      let plan ← ofExcept
        (BindPlan.make program.names callee.params (.ofLambda callee.isLambda) given)
      mapEnding (fun _ => catchClosure callee id) <|
        withFrame (closureFrame callee id) (some callee.captured) do
          modify (·.declareOwned callee.literal)
          bindParams block plan
          runBody callee.body fuel
    | none => fail (.invalidProgram "unknown closure")
  | .loop block id =>
    mapEnding (fun _ => catchBreak id) <|
      withFrame { id, kind := .builtin, name := .loop } none <| repeatBlock block fuel

namespace Program

/-- Perform a task, recording frames when an error is made. -/
def performPromptly (program : Program) : Nat → Task → Eval Value
  | 0, _, _ => none
  | fuel + 1, task, machine =>
    (task.unrecordedWork program fuel machine).runPromptly program.names
      (program.performPromptly fuel) machine

/-- Resolve and run a program, recording frames when an error is made. -/
def evaluatePromptly (program : Program) (fuel : Nat) (root : NodeId) : Eval Value := fun machine =>
  match resolve program.nodes root machine.env.topBindings.keys with
  | .error fault => some (.error (.error { cause := .invalidProgram fault.message }), machine)
  | .ok resolution =>
    let (id, machine) := { machine with resolution }.allocateFrame
    program.performPromptly fuel (.program root id) machine

end Program

/-! ### Errors in two runs -/

theorem CallStack.capture_pop {names : NameTable} {stack : CallStack} {label : String}
    {live : List String} (h : stack.capture names = ⟨label :: live⟩) :
    stack.pop.capture names = ⟨live⟩ := by
  rw [capture, pop, List.map_tail]
  exact congrArg (fun trace => (⟨trace.frames.tail⟩ : Backtrace)) h

/-- An error in a run that records frames late and the same error in a run that records them at
once, while frames with these labels are live. -/
inductive LateErrors (makes : Prop) (live : List String) : EvalError → EvalError → Prop
  /-- The work has made the error itself, if it makes errors. -/
  | made (h : makes) (cause : ErrorCause) : LateErrors makes live { cause } { cause }
  /-- Only one run has recorded the frames. -/
  | pending (cause : ErrorCause) :
      LateErrors makes live { cause } { cause, backtrace := some ⟨live⟩ }
  /-- The error was made in a frame that it has left. -/
  | recorded (cause : ErrorCause) (inner : List String) :
      LateErrors makes live { cause, backtrace := some ⟨inner ++ live⟩ }
        { cause, backtrace := some ⟨inner ++ live⟩ }

/-- The error that an ending is. -/
def Ending.error? : Ending Value → Option EvalError
  | .error (.error error) => some error
  | _ => none

theorem Ending.eq_of_error? {ending : Ending Value} {error : EvalError}
    (h : ending.error? = some error) : ending = .error (.error error) := by
  unfold error? at h
  split at h <;> cases h
  rfl

/-- An error that a program or a task ends in carries the labels of these frames, below others. -/
def Carries {α : Type} (live : List String) (ending : Ending α) : Prop :=
  ∀ error, ending = .error (.error error) → ∃ inner, error.backtrace = some ⟨inner ++ live⟩

/-- What carries the labels of some frames carries those of the outer ones. -/
theorem Carries.of_cons {α : Type} {label : String} {live : List String} {ending : Ending α}
    (h : Carries (label :: live) ending) : Carries live ending := by
  intro error herror
  obtain ⟨inner, hinner⟩ := h error herror
  exact ⟨inner ++ [label], by rw [hinner, List.append_assoc, List.singleton_append]⟩

namespace Resemblance

/-- A run that records frames late and one that records them at once, while frames with these labels
are live. -/
def late (names : NameTable) (makes : Prop) (live : List String) : Resemblance where
  machines m m' := m' = m ∧ m.calls.capture names = ⟨live⟩
  errors := LateErrors makes live

variable {names : NameTable} {makes : Prop} {live : List String}

theorem steady_late : (late names makes live).Steady where
  limits {m _} h := ⟨m.calls.limit, h.1⟩
  operate h plain := ⟨congrArg _ h.1, (plain.labels names _).trans h.2⟩

theorem lawful_late : (late names True live).Lawful where
  toSteady := steady_late
  cause h := by cases h <;> rfl
  made := .made trivial

variable {α : Type} {ending ending' : Ending α}

theorem Endings.late_mono (h : (late names False live).Endings ending ending') :
    (late names makes live).Endings ending ending' := by
  cases h with
  | ok a => exact .ok a
  | exit h => exact .exit h
  | error h =>
    cases h with
    | made h => exact h.elim
    | pending cause => exact .error (.pending cause)
    | recorded cause inner => exact .error (.recorded cause inner)

/-- The errors that were just made are marked. -/
theorem Endings.mark (h : (late names True live).Endings ending ending') :
    (late names False live).Endings ending (ending'.mapError (Exit.mark ⟨live⟩)) := by
  cases h with
  | ok a => exact .ok a
  | @exit e h =>
    cases e with
    | error => cases h
    | returnTo | breakTo | next | redo => exact .exit rfl
  | error h =>
    cases h with
    | made h cause => exact .error (.pending cause)
    | pending cause => exact .error (.pending cause)
    | recorded cause inner => exact .error (.recorded cause inner)

/-- There is nothing to mark where the work makes no errors itself. -/
theorem Endings.mapError_mark (h : (late names False live).Endings ending ending')
    (trace : Backtrace) : ending'.mapError (Exit.mark trace) = ending' := by
  cases h with
  | ok a => rfl
  | @exit e h =>
    cases e with
    | error => cases h
    | returnTo | breakTo | next | redo => rfl
  | error h =>
    cases h with
    | made h => exact h.elim
    | pending | recorded => rfl

/-- On the way out of a frame, the run that records late catches up. -/
theorem Endings.recordFrames (h : (late names False live).Endings ending ending') {m : Machine}
    (hlive : m.calls.capture names = ⟨live⟩) :
    Comp.recordFrames names m ending = ending' ∧ Carries live ending' := by
  cases h with
  | ok a => exact ⟨rfl, nofun⟩
  | @exit e h =>
    cases e with
    | error => cases h
    | returnTo | breakTo | next | redo => exact ⟨rfl, nofun⟩
  | error h =>
    cases h with
    | made h => exact h.elim
    | pending cause =>
      refine ⟨?_, fun error heq => ?_⟩
      · rw [Comp.recordFrames, EvalError.withBacktrace, hlive]
      · cases heq
        exact ⟨[], rfl⟩
    | recorded cause inner =>
      refine ⟨rfl, fun error heq => ?_⟩
      cases heq
      exact ⟨inner, rfl⟩

end Resemblance

/-- An error that was recorded further inside is the same in both runs. -/
theorem Carries.endings {α : Type} {names : NameTable} {makes : Prop} {live : List String}
    {ending : Ending α} (h : Carries live ending) :
    (Resemblance.late names makes live).Endings ending ending := by
  cases ending with
  | ok a => exact .ok a
  | error e =>
    cases e with
    | error error =>
      obtain ⟨cause, backtrace⟩ := error
      obtain ⟨inner, rfl⟩ := h _ rfl
      exact .error (.recorded cause inner)
    | returnTo | breakTo | next | redo => exact .exit rfl

/-! ### Runs -/

theorem Work.andThen_assoc {α β γ : Type} (w : Work α) (f : Ending α → Machine → Work β)
    (g : Ending β → Machine → Work γ) :
    (w.andThen f).andThen g = w.andThen fun ending m => (f ending m).andThen g := by
  induction w with
  | done | stuck => rfl
  | ask task m resume ih => exact congrArg (ask task m) (funext fun e => funext fun m => ih e m)

/-- The result of a task, without and with frames recorded at once: no result, or ends and machines
that correspond to each other. -/
def Late (names : NameTable) (live : List String) :
    Option (Ending Value × Machine) → Option (Ending Value × Machine) → Prop :=
  Option.Rel fun result result' =>
    (Resemblance.late names False live).Ends result.1 result.2 result'.1 result'.2

namespace Program

/-- With this much fuel, tasks end in the same way whether frames are recorded late or at once, up
to frames that are not recorded yet. -/
def Agrees (program : Program) (fuel : Nat) : Prop :=
  ∀ task m live, m.calls.capture program.names = ⟨live⟩ →
    Late program.names live (program.perform fuel task m) (program.performPromptly fuel task m)

end Program

/-- Work that resembles other work, and what this does when its errors are marked with the frames
that were live where it began or got control. -/
theorem Work.Resembles.rel_run {program : Program} {fuel : Nat} {makes : Prop} {live : List String}
    {post result : Ending Value → Machine → Ending Value → Machine → Prop} {w w' : Work Value}
    (h : w.Resembles (.late program.names makes live) post w') (agrees : program.Agrees fuel)
    (since : Machine)
    (marked : ∀ trace, trace = since.calls.capture program.names ∨ trace = ⟨live⟩ →
      ∀ ending m ending' m', post ending m ending' m' →
        result ending m (ending'.mapError (Exit.mark trace)) m') :
    Option.Rel (fun r r' => result r.1 r.2 r'.1 r'.2) (w.run (program.perform fuel))
      (w'.runPromptly program.names (program.performPromptly fuel) since) := by
  induction h generalizing since with
  | done h => exact .some (marked _ (.inl rfl) _ _ _ _ h)
  | stuck => exact .none
  | @ask task m m' resume resume' machines next ih =>
    obtain ⟨rfl, hlive⟩ := machines
    have same := agrees task m' live hlive
    rw [run, runPromptly]
    generalize program.perform fuel task m' = r, program.performPromptly fuel task m' = r' at same ⊢
    cases same with
    | none => exact .none
    | @some r r' ends =>
      obtain ⟨ending, m₁⟩ := r
      obtain ⟨ending', m₁'⟩ := r'
      obtain ⟨hmachine, hlive₁⟩ : m₁' = m₁ ∧ m₁.calls.capture program.names = ⟨live⟩ :=
        ends.machines
      have hlive' : m₁'.calls.capture program.names = ⟨live⟩ := hmachine ▸ hlive₁
      refine ih ending m₁ ending' m₁' ⟨ends.endings.late_mono, ends.machines⟩ m₁' fun trace h => ?_
      exact marked trace (.inr (h.elim (·.trans hlive') id))

namespace Program

variable {program : Program} {fuel : Nat} {live : List String} {m : Machine}

/-- An error that some work ends in at once is marked at once. -/
theorem late_refused (hlive : m.calls.capture program.names = ⟨live⟩) (cause : ErrorCause) :
    Late program.names live (some (.error (.error { cause }), m))
      ((Work.done (.error (.error { cause })) m).runPromptly program.names
        (program.performPromptly fuel) m) := by
  rw [Work.runPromptly, hlive]
  exact .some ⟨.error (.pending cause), rfl, hlive⟩

/-- An activation ends in the same way whether the frames are recorded when it is left, or when an
error is made in it. -/
theorem Agrees.late_activation (agrees : program.Agrees fuel) {x : Comp Value}
    {catching : Ending Value → Ending Value} (frame : Frame) (parent : Option ScopeId)
    (spares : ∀ error, catching (.error (.error error)) = .error (.error error))
    (absorbs : ∀ ending ending', (Resemblance.late program.names False live).Endings ending ending' →
      (Resemblance.late program.names False live).Endings (catching ending) (catching ending'))
    (hx : ∀ live, (Resemblance.late program.names False live).Pairs x x)
    (hlive : m.calls.capture program.names = ⟨live⟩) :
    Late program.names live
      ((Comp.mapEnding (fun _ => catching) (Comp.inFrame program.names frame parent x) m).run
        (program.perform fuel))
      ((Comp.mapEnding (fun _ => catching) (Comp.withFrame frame parent x) m).runPromptly
        program.names (program.performPromptly fuel) m) := by
  rw [Comp.inFrame, Comp.mapEnding, Comp.mapEnding, Comp.withFrame, Comp.withFrame]
  cases hpush : m.calls.push frame with
  | error cause =>
    have refused : ∀ m, (Comp.fail cause m).andThen
        (fun ending m => .done (catching ending) m) = .done (.error (.error { cause })) m :=
      fun m => congrArg (Work.done · m) (spares { cause })
    dsimp only
    rw [refused]
    exact late_refused hlive cause
  | ok calls =>
    -- inside, the label of the new frame comes before the live ones
    have inside : (m.activate calls parent).calls.capture program.names =
        ⟨frame.label program.names :: live⟩ := by
      rw [Machine.activate, CallStack.push_eq hpush]
      exact congrArg (fun trace => (⟨_ :: trace.frames⟩ : Backtrace)) hlive
    -- an error that is late inside is late outside, with the frame recorded
    have left : ∀ ending m₁ ending' m₁',
        (Resemblance.late program.names False (frame.label program.names :: live)).Ends
          ending m₁ ending' m₁' →
        (Resemblance.late program.names False live).Ends
          (catching (Comp.recordFrames program.names m₁ ending)) m₁.deactivate
          (catching ending') m₁'.deactivate := by
      rintro ending m₁ ending' _ ⟨endings, rfl, hin⟩
      obtain ⟨recorded, carries⟩ := endings.recordFrames hin
      rw [recorded]
      exact ⟨absorbs _ _ carries.of_cons.endings, rfl,
        CallStack.capture_pop hin⟩
    dsimp only [Comp.bracket, Comp.mapEnding]
    rw [Work.andThen_assoc, Work.andThen_assoc, Work.andThen_assoc]
    refine Work.Resembles.rel_run (hx _ (m.activate calls parent) _ ⟨rfl, inside⟩ |>.andThen
      fun ending m₁ ending' m₁' ends => .done (left ending m₁ ending' m₁' ends)) agrees m ?_
    rintro trace - ending m₁ ending' m₁' ends
    rw [ends.endings.mapError_mark]
    exact ends

/-- The machine on which the root of a program is evaluated whose frame is taken. -/
def startOn (m : Machine) (calls : CallStack) (root : NodeId) : Machine :=
  { m with calls }.declareOwned root

/-- A program whose frame is taken is performed by evaluating its root. -/
theorem perform_program {root : NodeId} {id : FrameId} {calls : CallStack}
    (hpush : m.calls.push { id, kind := .top, name := .empty } = .ok calls) :
    program.perform (fuel + 1) (.program root id) m =
        (program.perform fuel (.node root) (startOn m calls root)).map (program.close id) ∧
      program.performPromptly (fuel + 1) (.program root id) m =
        (program.performPromptly fuel (.node root) (startOn m calls root)).map fun result =>
          ((Comp.topEnding id result.1).mapError
            (Exit.mark (result.2.calls.capture program.names)), result.2.mapCalls .pop) := by
  constructor
  · rw [perform, Task.work, Comp.runProgram, hpush]
    change Work.run _ (.ask (.node root) (startOn m calls root) _) = _
    rw [Work.run]
    cases program.perform fuel (.node root) (startOn m calls root) <;> rfl
  · rw [performPromptly, Task.unrecordedWork]
    dsimp only
    rw [hpush]
    change Work.runPromptly _ _ (.ask (.node root) (startOn m calls root) _) _ = _
    rw [Work.runPromptly]
    cases program.performPromptly fuel (.node root) (startOn m calls root) <;> rfl

/-- A program whose frame is taken ends in the same way whether frames are recorded when its root
has ended, or when an error is made; and its errors carry the frames down to that of the program. -/
theorem Agrees.program_eq (agrees : program.Agrees fuel) (root : NodeId) {id : FrameId}
    {calls : CallStack} (hpush : m.calls.push { id, kind := .top, name := .empty } = .ok calls)
    (hlive : m.calls.capture program.names = ⟨live⟩) :
    program.perform (fuel + 1) (.program root id) m =
        program.performPromptly (fuel + 1) (.program root id) m ∧
      ∀ ending m', program.perform (fuel + 1) (.program root id) m = some (ending, m') →
        Carries ("<main>" :: live) ending ∧ m'.calls.capture program.names = ⟨live⟩ := by
  have inside : (startOn m calls root).calls.capture program.names = ⟨"<main>" :: live⟩ := by
    rw [startOn, Machine.declareOwned, CallStack.push_eq hpush]
    exact congrArg (fun trace => (⟨_ :: trace.frames⟩ : Backtrace)) hlive
  obtain ⟨hperform, hprompt⟩ := @perform_program program fuel m root id calls hpush
  rw [hperform, hprompt]
  have same := agrees (.node root) _ _ inside
  generalize program.perform fuel (.node root) (startOn m calls root) = r,
    program.performPromptly fuel (.node root) (startOn m calls root) = r' at same ⊢
  cases same with
  | none => exact ⟨rfl, nofun⟩
  | @some r r' ends =>
    obtain ⟨ending, m₁⟩ := r
    obtain ⟨ending', m₁'⟩ := r'
    obtain ⟨endings, hmachine, hin⟩ := ends
    cases hmachine
    have marked := (endings.late_mono.topEnding Resemblance.lawful_late id).mark
    obtain ⟨recorded, carries⟩ := marked.recordFrames hin
    refine ⟨?_, ?_⟩
    · rw [Option.map_some, Option.map_some, close, recorded, hin]
    · rintro _ _ ⟨⟩
      rw [recorded]
      exact ⟨carries, CallStack.capture_pop hin⟩

namespace Agrees

/-- The errors of a node are marked with the frames that are live there, before and after it. -/
theorem late_node (agrees : program.Agrees fuel) (id : NodeId)
    (hlive : m.calls.capture program.names = ⟨live⟩) :
    Late program.names live (program.perform (fuel + 1) (.node id) m)
      (program.performPromptly (fuel + 1) (.node id) m) := by
  rw [perform, performPromptly, Task.unrecordedWork, Task.work]
  cases program.nodes.node? id with
  | none => exact late_refused hlive _
  | some n =>
    have lawful : (Resemblance.late program.names True live).Lawful := Resemblance.lawful_late
    refine (lawful.pairs_node fuel id n m m ⟨rfl, hlive⟩).rel_run agrees m ?_
    rintro trace htrace ending m₁ ending' m₁' ends
    have same : trace = ⟨live⟩ := by
      rcases htrace with rfl | rfl
      · exact hlive
      · rfl
    rw [same]
    exact ⟨ends.endings.mark, ends.machines⟩

theorem late_program (agrees : program.Agrees fuel) (root : NodeId) (id : FrameId)
    (hlive : m.calls.capture program.names = ⟨live⟩) :
    Late program.names live (program.perform (fuel + 1) (.program root id) m)
      (program.performPromptly (fuel + 1) (.program root id) m) := by
  cases hpush : m.calls.push { id, kind := .top, name := .empty } with
  | error cause =>
    rw [perform, performPromptly, Task.work, Task.unrecordedWork, Comp.runProgram]
    dsimp only
    rw [hpush]
    exact late_refused hlive cause
  | ok calls =>
    obtain ⟨same, ends⟩ := agrees.program_eq root hpush hlive
    rw [← same]
    cases hperform : program.perform (fuel + 1) (.program root id) m with
    | none => exact .none
    | some result =>
      obtain ⟨carries, hcapture⟩ := ends result.1 result.2 hperform
      exact .some ⟨carries.of_cons.endings, rfl, hcapture⟩

theorem late_method (agrees : program.Agrees fuel) (callee : Method) (id : FrameId)
    (given : CallArgs) (block : Option ProcId) (hlive : m.calls.capture program.names = ⟨live⟩) :
    Late program.names live (program.perform (fuel + 1) (.method callee id given block) m)
      (program.performPromptly (fuel + 1) (.method callee id given block) m) := by
  rw [perform, performPromptly, Task.work, Task.unrecordedWork, Comp.runMethod]
  cases BindPlan.make program.names callee.params .strict given with
  | error cause => exact late_refused hlive cause
  | ok plan =>
    exact agrees.late_activation _ _ (fun _ => rfl) (fun _ _ h => (h.catchReturn id).catchBreak id)
      (fun _ => Resemblance.steady_late.pairs_body (.eval _)) hlive

theorem late_closure (agrees : program.Agrees fuel) (proc : ProcId) (id : FrameId)
    (given : CallArgs) (block : Option ProcId) (hlive : m.calls.capture program.names = ⟨live⟩) :
    Late program.names live (program.perform (fuel + 1) (.closure proc id given block) m)
      (program.performPromptly (fuel + 1) (.closure proc id given block) m) := by
  rw [perform, performPromptly, Task.work, Task.unrecordedWork, Comp.runProc, Comp.gets_bind,
    Comp.gets_bind]
  cases m.closures.get? proc with
  | none => exact late_refused hlive _
  | some callee =>
    dsimp only
    rw [Comp.runClosure]
    cases BindPlan.make program.names callee.params (.ofLambda callee.isLambda) given with
    | error cause => exact late_refused hlive cause
    | ok plan =>
      have spares : ∀ error, Comp.catchClosure callee id (.error (.error error)) =
          .error (.error error) := by
        intro error
        rw [Comp.catchClosure]
        split <;> rfl
      exact agrees.late_activation _ _ spares (fun _ _ h => h.catchClosure callee id)
        (fun _ => Resemblance.steady_late.pairs_body (Resemblance.pairs_runBody _ _)) hlive

end Agrees

/-- Tasks end in the same way whether frames are recorded late or at once, up to frames that are not
recorded yet. -/
theorem agrees (program : Program) (fuel : Nat) : program.Agrees fuel := by
  induction fuel with
  | zero => exact fun _ _ _ _ => .none
  | succ fuel ih =>
    intro task m live hlive
    cases task with
    | node id => exact ih.late_node id hlive
    | store site name value => exact .some ⟨.ok value, rfl, hlive⟩
    | program root id => exact ih.late_program root id hlive
    | method callee id given block => exact ih.late_method callee id given block hlive
    | closure proc id given block => exact ih.late_closure proc id given block hlive
    | loop block id =>
      exact ih.late_activation _ _ (fun _ => rfl) (fun _ _ h => h.catchBreak id)
        (fun _ => Resemblance.steady_late.pairs_repeatBlock block fuel) hlive

/-- An error that a started program ends in carries the frames down to that of the program. -/
theorem carries_of_evaluateWith {root : NodeId} {res : Resolution} {ending : Ending Value}
    {m' : Machine} (resolved : resolve program.nodes root m.env.topBindings.keys = .ok res)
    (room : m.calls.HasRoom) (h : program.evaluateWith fuel root m = some (ending, m')) :
    Carries ("<main>" :: m.calls.frames.map (·.label program.names)) ending := by
  rw [evaluateWith, resolved] at h
  cases fuel with
  | zero => cases h
  | succ fuel =>
    have taken := @Machine.push_prepared m res room
    exact (((agrees program fuel).program_eq root taken rfl).2 ending m' h).1

/-- The backtrace of an error that a program ends in is made of the frames that are live when the
error is made, from the innermost one down to that of the program and those below it: to record
these frames at once makes no difference, whatever is run while the error is on its way. -/
theorem backtrace_is_raise_site (program : Program) (fuel : Nat) (root : NodeId) {m : Machine}
    {res : Resolution} (resolved : resolve program.nodes root m.env.topBindings.keys = .ok res)
    (room : m.calls.HasRoom) :
    program.evaluateWith fuel root m = program.evaluatePromptly fuel root m ∧
      ∀ error m', program.evaluateWith fuel root m = some (.error (.error error), m') →
        ∃ inner, error.backtrace =
          some ⟨inner ++ "<main>" :: m.calls.frames.map (·.label program.names)⟩ := by
  refine ⟨?_, fun error m' h => carries_of_evaluateWith resolved room h error rfl⟩
  rw [evaluateWith, evaluatePromptly, resolved]
  cases fuel with
  | zero => rfl
  | succ fuel =>
    have taken := @Machine.push_prepared m res room
    exact ((agrees program fuel).program_eq root taken rfl).1

/-- The program `def mend; begin; raise 1; rescue; end; end; def run; begin; yield; ensure; mend;
end; end; run { raise }`. -/
def mending : Program where
  names := ⟨("" :: NameTable.reserved ++ ["mend", "run"]).toArray⟩
  nodes := ⟨#[.int 1, .raise (some ⟨0⟩), .nil, .begin ⟨1⟩ [⟨[], none, ⟨2⟩⟩] none none,
    .define ⟨34⟩ [] ⟨3⟩, .yield [], .call ⟨34⟩ [] none, .begin ⟨5⟩ [] none (some ⟨6⟩),
    .define ⟨35⟩ [] ⟨7⟩, .raise none, .block [] ⟨9⟩, .call ⟨35⟩ [] (some (.literal ⟨10⟩)),
    .seq [⟨4⟩, ⟨8⟩, ⟨11⟩]]⟩

/-- An error in a block passes a cleanup that calls a method, in which another error is raised and
rescued. -/
theorem mending_backtrace :
    ∃ res m', resolve mending.nodes ⟨12⟩ (Machine.initial .unlimited []).env.topBindings.keys =
        .ok res ∧
      (Machine.initial .unlimited []).calls.HasRoom ∧
      mending.evaluatePromptly 14 ⟨12⟩ (.initial .unlimited []) =
        some (.error (.error ⟨.raised "unhandled exception", some ⟨["block", "run", "<main>"]⟩⟩),
          m') := by
  have room : (Machine.initial .unlimited []).calls.HasRoom := nofun
  have accepted : (resolve mending.nodes ⟨12⟩
      (Machine.initial .unlimited []).env.topBindings.keys).isOk = true := by decide +kernel
  have run : (mending.evaluateWith 14 ⟨12⟩ (.initial .unlimited [])).bind (·.1.error?) =
      some ⟨.raised "unhandled exception", some ⟨["block", "run", "<main>"]⟩⟩ := by decide +kernel
  obtain ⟨⟨ending, m'⟩, heval, herror⟩ := Option.bind_eq_some_iff.mp run
  obtain rfl := Ending.eq_of_error? herror
  cases resolved : resolve mending.nodes ⟨12⟩
      (Machine.initial .unlimited []).env.topBindings.keys with
  | error fault =>
    rw [resolved] at accepted
    cases accepted
  | ok res =>
    obtain ⟨same, -⟩ := backtrace_is_raise_site mending 14 ⟨12⟩ resolved room
    exact ⟨res, m', rfl, room, same.symm.trans heval⟩

end Program

end ScriptSemantics
