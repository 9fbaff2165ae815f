import ScriptSemantics.Proofs.Balance
import ScriptSemantics.Proofs.PromptRecording

/-!
# Programs that end in errors

Which errors of programs carry a backtrace.  Every error of a program that was started does,
whatever it was made from.  An error that keeps a program from being started carries none.

## Main Definitions

* `Program.Starts` — a program is accepted and its frame is taken

## Main Results

* `Program.started_errors_have_backtraces` — errors carry a backtrace down to the frame of the
  program if the program was started, and no backtrace at all if it was not
-/

namespace ScriptSemantics

namespace Program

variable {program : Program} {fuel : Nat} {root : NodeId} {m m' : Machine} {res : Resolution}

/-- The program under a root is accepted and its frame is taken. -/
def Starts (program : Program) (root : NodeId) (m : Machine) : Prop :=
  (∃ res, resolve program.nodes root m.env.topBindings.keys = .ok res) ∧ m.calls.HasRoom

/-- A program whose frame is refused is not run, and nothing is recorded. -/
theorem evaluateWith_refused (fuel : Nat)
    (resolved : resolve program.nodes root m.env.topBindings.keys = .ok res)
    (full : ¬ m.calls.HasRoom) :
    ∃ cause, program.evaluateWith (fuel + 1) root m =
      some (.error (.error { cause }), m.prepared res) := by
  rw [evaluateWith, resolved]
  cases hpush : (m.prepared res).calls.push
      { id := ⟨m.calls.nextId⟩, kind := .top, name := .empty } with
  | ok calls => exact absurd (CallStack.hasRoom_of_push hpush) full
  | error cause =>
    refine ⟨cause, ?_⟩
    change ((Task.program root ⟨m.calls.nextId⟩).work program fuel (m.prepared res)).run _ = _
    rw [Task.work, Comp.runProgram, hpush]
    rfl

/-- A program that is not started ends in an error without a backtrace. -/
theorem backtrace_of_not_starts {e : Exit} (unstarted : ¬ program.Starts root m)
    (h : program.evaluateWith fuel root m = some (.error e, m')) :
    ∃ cause, e = .error { cause } := by
  cases resolved : resolve program.nodes root m.env.topBindings.keys with
  | error fault =>
    rw [evaluateWith, resolved] at h
    cases h
    exact ⟨_, rfl⟩
  | ok res =>
    cases fuel with
    | zero =>
      rw [evaluateWith, resolved] at h
      cases h
    | succ fuel =>
      have full : ¬ m.calls.HasRoom := fun room => unstarted ⟨⟨res, resolved⟩, room⟩
      obtain ⟨cause, hcause⟩ := evaluateWith_refused fuel resolved full
      rw [hcause] at h
      cases h
      exact ⟨cause, rfl⟩

/-- A program that is started ends in errors that carry a backtrace down to its frame. -/
theorem backtrace_of_starts {e : Exit} (starts : program.Starts root m)
    (h : program.evaluateWith fuel root m = some (.error e, m')) :
    ∃ error inner, e = .error error ∧ error.backtrace =
      some ⟨inner ++ "<main>" :: m.calls.frames.map (·.label program.names)⟩ := by
  obtain ⟨⟨res, resolved⟩, room⟩ := starts
  have carries := carries_of_evaluateWith resolved room h
  cases fuel with
  | zero =>
    rw [evaluateWith, resolved] at h
    cases h
  | succ fuel =>
    rw [evaluateWith_opened resolved room, Option.map_eq_some_iff] at h
    obtain ⟨⟨ending, m₁⟩, -, hclose⟩ := h
    obtain ⟨error, rfl⟩ := Ledger.error_of_topEnding (congrArg Prod.fst hclose)
    obtain ⟨inner, hinner⟩ := carries error rfl
    exact ⟨error, inner, rfl, hinner⟩

/-- Where nothing runs, a program fails with an error.  The error carries a backtrace, with the
frame of the program as its outermost entry, if the program was accepted and its frame taken, and it
carries none otherwise. -/
theorem started_errors_have_backtraces (program : Program) (fuel : Nat) (root : NodeId)
    {m m' : Machine} {e : Exit} (idle : m.IsIdle)
    (h : program.evaluateWith fuel root m = some (.error e, m')) :
    ∃ error, e = .error error ∧
      (program.Starts root m → ∃ trace, error.backtrace = some trace ∧
        trace.frames.getLast? = some "<main>") ∧
      (¬ program.Starts root m → error.backtrace = none) := by
  by_cases starts : program.Starts root m
  · obtain ⟨error, inner, rfl, hinner⟩ := backtrace_of_starts starts h
    refine ⟨error, rfl, fun _ => ⟨_, hinner, ?_⟩, absurd starts⟩
    rw [idle.frames]
    exact List.getLast?_concat
  · obtain ⟨cause, rfl⟩ := backtrace_of_not_starts starts h
    exact ⟨_, rfl, fun h => absurd h starts, fun _ => rfl⟩

/-- The program `lambda { |a = (next 5)| 1 }.call`, where `a` is the first name that is not
reserved. -/
def answeringEarly : Program where
  names := .initial
  nodes := ⟨#[.int 5, .nextWith (some ⟨0⟩), .int 1, .lambda [⟨⟨34⟩, .optional ⟨1⟩⟩] ⟨2⟩,
    .callValue ⟨3⟩ [] none]⟩

/-- A `next` that nothing answers to becomes an error of the program, which carries a backtrace. -/
theorem answeringEarly_has_backtrace :
    (Machine.initial .unlimited []).IsIdle ∧
    answeringEarly.Starts ⟨4⟩ (.initial .unlimited []) ∧
    ∃ error m', answeringEarly.evaluateWith 8 ⟨4⟩ (.initial .unlimited []) =
        some (.error (.error error), m') ∧
      error.cause = .invalidControlTransfer .next "unexpected next" ∧
      ∃ trace, error.backtrace = some trace ∧ trace.frames.getLast? = some "<main>" := by
  have idle : (Machine.initial .unlimited []).IsIdle := ⟨rfl, rfl⟩
  have accepted : (resolve answeringEarly.nodes ⟨4⟩
      (Machine.initial .unlimited []).env.topBindings.keys).isOk = true := by decide +kernel
  have starts : answeringEarly.Starts ⟨4⟩ (.initial .unlimited []) := by
    refine ⟨?_, nofun⟩
    cases resolved : resolve answeringEarly.nodes ⟨4⟩
        (Machine.initial .unlimited []).env.topBindings.keys with
    | error fault =>
      rw [resolved] at accepted
      cases accepted
    | ok res => exact ⟨res, rfl⟩
  have run : ((answeringEarly.evaluateWith 8 ⟨4⟩ (.initial .unlimited [])).bind (·.1.error?)).map
      (·.cause) = some (.invalidControlTransfer .next "unexpected next") := by decide +kernel
  obtain ⟨error, hrun, hcause⟩ := Option.map_eq_some_iff.mp run
  obtain ⟨⟨ending, m'⟩, heval, herror⟩ := Option.bind_eq_some_iff.mp hrun
  obtain rfl := Ending.eq_of_error? herror
  obtain ⟨other, hother, carries, -⟩ := started_errors_have_backtraces _ _ _ idle heval
  cases hother
  exact ⟨idle, starts, error, m', heval, hcause, carries starts⟩

/-- The nodes `nil` and `def m(a, a); end`, where `m` and `a` are the first names that are not
reserved. -/
def repeatedParam : Program where
  names := .initial
  nodes := ⟨#[.nil, .define ⟨34⟩ [⟨⟨35⟩, .required⟩, ⟨⟨35⟩, .required⟩] ⟨0⟩]⟩

/-- The errors of a program that is rejected, and of one whose frame is refused, carry no backtrace,
although nothing runs on the machine before. -/
theorem unstarted_lacks_backtrace :
    (∃ error m', (Machine.initial .unlimited []).IsIdle ∧
      repeatedParam.evaluateWith 5 ⟨1⟩ (.initial .unlimited []) =
        some (.error (.error error), m') ∧ error.backtrace = none) ∧
    ∃ error m', (Machine.initial (.budgeted 0) []).IsIdle ∧
      repeatedParam.evaluateWith 5 ⟨0⟩ (.initial (.budgeted 0) []) =
        some (.error (.error error), m') ∧ error.backtrace = none :=
  ⟨⟨_, _, ⟨rfl, rfl⟩, rfl, rfl⟩, _, _, ⟨rfl, rfl⟩, rfl, rfl⟩

end Program

end ScriptSemantics
