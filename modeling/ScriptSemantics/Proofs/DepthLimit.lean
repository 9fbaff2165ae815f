import ScriptSemantics.Proofs.Growth
import ScriptSemantics.Proofs.LimitBlindness

/-!
# The depth limit only cuts runs off

Under a depth limit no state of a run has more frames than the limit.  A run in which no frame is
refused goes the same way under every larger limit and without any.

## Main Definitions

* `Machine.Within` — a machine that has a limit and keeps it
* `Event.Refuses` — a task is entered whose frame the stack refuses

## Main Results

* `Program.depth_limit_only_cuts_off` — the limit is kept, and where it refuses nothing it does not
  matter

## Design Notes

The bound is a regime of its own, in which a machine may only grow.  The two runs are compared task
by task, in as far as the first one asks for them.
-/

namespace ScriptSemantics

variable {program : Program} {n : Nat} {m m' : Machine}

/-! ### Keeping the limit -/

/-- A machine has a limit and keeps it. -/
structure Machine.Within (n : Nat) (m : Machine) : Prop where
  limit : m.calls.limit = some n
  depth : m.calls.depth ≤ n

namespace Machine.Within

/-- The limit is kept as long as the number of frames is the same. -/
theorem of_frames (h : m.Within n) (limit : m'.calls.limit = m.calls.limit)
    (frames : m'.calls.frames.length = m.calls.frames.length) : m'.Within n :=
  ⟨limit.trans h.limit, Nat.le_trans (Nat.le_of_eq frames) h.depth⟩

theorem grows (h : m.Within n) (grows : m.Grows m') : m'.Within n :=
  h.of_frames grows.limit (by rw [grows.frames])

/-- A frame is taken only where there is room for it. -/
theorem push (h : m.Within n) {frame : Frame} {calls : CallStack}
    (hpush : m.calls.push frame = .ok calls) : calls.limit = some n ∧ calls.depth ≤ n := by
  have room := CallStack.hasRoom_of_push hpush n h.limit
  rw [CallStack.push_eq hpush]
  exact ⟨h.limit, room⟩

theorem beginLoop (h : m.Within n) : (m.mapCalls .beginLoop).Within n := by
  refine h.of_frames CallStack.beginLoop_limit ?_
  show (m.calls.modifyCurrent _).frames.length = _
  rw [CallStack.modifyCurrent]
  split
  · rfl
  next hframes =>
    rw [hframes]
    rfl

end Machine.Within

namespace DepthLimit

/-- A machine that keeps its limit may only grow. -/
def regime (n : Nat) : Regime Unit where
  note _ _ _ := ()
  ready _ m := m.Within n
  here _ _ m := m.Within n
  stores _ _ _ m := m.Within n
  inside _ _ m := m.Within n
  reserved _ id m := id.index < m.calls.nextId
  start _ _ _ m := m.Within n
  finish _ m _ _ m' := m.Grows m'
  step _ _ m _ m' := m.Grows m'
  exits _ _ := True
  crosses _ := True

theorem steps : (regime n).Steps where
  refl _ := .refl _
  trans := .trans
  mono _ h := h
  nextId_le h := h.nextId
  ready hstep h := h.grows hstep
  here hstep h := h.grows hstep
  inside hstep h := h.grows hstep
  reserved hstep _ hid := Nat.lt_of_lt_of_le hid hstep.nextId
  exits _ _ := trivial

theorem nodeLaws (program : Program) : (regime n).NodeLaws program where
  note := rfl
  noteStore := rfl
  ready h := h
  operand h _ _ := h
  target h _ _ := h
  store _ := .keep (Environment.sameShape_assignLocal _ _) rfl rfl (Nat.le_refl _) rfl
  define _ _ := .keep (.refl _) rfl rfl (Nat.le_refl _) rfl
  close _ _ _ _ _ := .keep (.refl _) rfl rfl (Nat.le_refl _) rfl
  addLambda _ := .addLambda _ _
  allocate _ := ⟨.keep (.refl _) rfl rfl (Nat.le_succ _) rfl, Nat.lt_succ_self _⟩
  enterScope h := h.of_frames rfl rfl
  leaveScope _ hstep := ⟨Machine.Grows.leaveTransparent hstep, fun _ _ => trivial⟩
  beginLoop h := h.beginLoop
  endLoop _ hstep := ⟨Machine.Grows.endLoop hstep, fun _ _ _ => trivial⟩

theorem exitLaws : (regime n).ExitLaws where
  error := trivial
  returnTo _ _ _ := trivial
  breakLoop _ _ _ := trivial
  breakLambda _ _ _ := trivial
  breakBlock _ _ _ _ _ := trivial
  next _ _ := trivial
  redo _ _ := trivial

theorem activationLaws : (regime n).ActivationLaws where
  reserved h := h
  note _ _ := .refl _
  enterLoop hpre opens hpush :=
    have taken := (Regime.ready_of_opens hpre opens).1.push hpush
    ⟨taken.1, taken.2⟩
  enterCode hpre opens hpush :=
    have taken := (Regime.ready_of_opens hpre opens).1.push hpush
    ⟨.keep (Environment.sameShape_declareAll _ _) rfl rfl (Nat.le_refl _) rfl, taken.1, taken.2⟩
  operand h _ := h
  define _ _ _ := .keep (Environment.sameShape_define _ _) rfl rfl (Nat.le_refl _) rfl
  leave _ _ hpush _ hstep :=
    ⟨Machine.Grows.deactivate hpush hstep, fun _ _ _ => ⟨trivial, trivial⟩⟩
  crosses := trivial

theorem programLaws (program : Program) : (regime n).ProgramLaws program where
  refuse _ _ := .refl _
  enter h hpush :=
    have taken := Machine.Within.push h hpush
    ⟨taken.1, taken.2⟩
  leave _ hpush hstep _ := Machine.Grows.leaveProgram hpush hstep

/-- The operations of the machine keep its limit. -/
theorem lawful (program : Program) : (regime n).Lawful program where
  steps := steps
  nodes := nodeLaws program
  starts := exitLaws
  activations := activationLaws
  programs := programLaws program

theorem within_of_pre {task : Task} (h : (regime n).contract.pre () task m) : m.Within n := by
  cases task with
  | node | store | program => exact h
  | method | closure | loop => exact h.1

theorem grows_of_post {task : Task} {ending : Ending Value}
    (h : (regime n).contract.post () task m () ending m') : m.Grows m' := by
  cases task with
  | program => exact h
  | node | store | method | closure | loop => exact h.1

/-- The limit is kept at every event of a task. -/
theorem within_of_mem_record {fuel : Nat} {task : Task} {event : Event}
    (hpre : (regime n).contract.pre () task m) (h : event ∈ program.record fuel task m) :
    event.machine.Within n := by
  obtain ⟨i, hi⟩ := List.getElem?_of_mem h
  have allows := ((lawful program).kept.admits_record task hpre).allows hi
  cases event with
  | enter task m => exact within_of_pre allows
  | leave task ending m =>
    obtain ⟨_, m₀, hpre, hpost⟩ := allows
    exact (within_of_pre hpre).grows (grows_of_post hpost)

end DepthLimit

/-! ### Refused frames -/

/-- A task is entered whose frame the stack refuses. -/
def Event.Refuses (program : Program) : Event → Prop
  | enter task m =>
    ∃ frame cause, task.pushed? program m = some frame ∧ m.calls.push frame = .error cause
  | leave .. => False

instance Event.decidableRefuses (program : Program) : DecidablePred (Event.Refuses program)
  | .enter task m =>
    decidable_of_iff (∃ frame ∈ task.pushed? program m, (m.calls.push frame).isOk = false) <| by
      refine exists_congr fun frame => ?_
      cases m.calls.push frame <;> simp [Except.isOk, Except.toBool]
  | .leave .. => inferInstanceAs (Decidable False)

namespace Task

variable {task : Task} {larger : Option Nat}

/-- A frame that is not refused is taken under every larger limit. -/
theorem takes_of_not_refuses (within : m.Within n) (larger_le : ∀ k ∈ larger, n ≤ k)
    (quiet : ¬ (Event.enter task m).Refuses program) {frame : Frame}
    (hframe : task.pushed? program m = some frame) : Comp.Takes larger m frame := by
  cases hpush : m.calls.push frame with
  | error cause => exact absurd ⟨frame, cause, hframe, hpush⟩ quiet
  | ok calls => exact ⟨calls, hpush, CallStack.push_withLimit within.limit larger_le hpush⟩

end Task

namespace Program

variable {task : Task} {larger : Option Nat}

/-! ### Runs under a larger limit -/

/-- A task has the same events under another limit, and ends in the same way. -/
structure SameUnder (program : Program) (fuel : Nat) (larger : Option Nat) (task : Task)
    (m : Machine) : Prop where
  perform : program.perform fuel task (m.withLimit larger) =
    (program.perform fuel task m).map (Prod.map id (·.withLimit larger))
  record : program.record fuel task (m.withLimit larger) =
    (program.record fuel task m).map (·.withLimit larger)

/-- Work is the same under another limit when the tasks that it asks for are. -/
theorem same_of_relimited {fuel : Nat} {w w' : Work Value}
    {post : Unit → Ending Value → Machine → Prop}
    (tasks : ∀ task m, (DepthLimit.regime n).contract.pre () task m →
      (∀ event ∈ program.record fuel task m, ¬ event.Refuses program) →
      program.SameUnder fuel larger task m)
    (relimited : w.Relimited larger w')
    (meets : w.Meets (DepthLimit.regime n).contract post ())
    (quiet : ∀ event ∈ w.events (program.perform fuel) (program.record fuel),
      ¬ event.Refuses program) :
    w'.run (program.perform fuel) =
        (w.run (program.perform fuel)).map (Prod.map id (·.withLimit larger)) ∧
      w'.events (program.perform fuel) (program.record fuel) =
        (w.events (program.perform fuel) (program.record fuel)).map (·.withLimit larger) := by
  induction relimited with
  | done ending m => exact ⟨rfl, rfl⟩
  | stuck => exact ⟨rfl, rfl⟩
  | ask task m next ih =>
    obtain ⟨hpre, hresume⟩ := meets
    rw [Work.events, List.forall_mem_append] at quiet
    obtain ⟨hperform, hrecord⟩ := tasks task m hpre quiet.1
    cases hrun : program.perform fuel task m with
    | none =>
      rw [hrun] at hperform
      simp [Work.run, Work.events, hrun, hperform, hrecord]
    | some result =>
      obtain ⟨ending, m'⟩ := result
      have hpost := (DepthLimit.lawful program).kept.post_of_perform task hpre hrun
      rw [hrun] at hperform quiet
      obtain ⟨hrun', hevents'⟩ := ih ending m' (hresume () ending m' hpost) quiet.2
      simp [Work.run, Work.events, hrun, hperform, hrecord, hrun', hevents']

/-- A run in which no frame is refused is the same under every larger limit. -/
theorem sameUnder_of_quiet (larger_le : ∀ k ∈ larger, n ≤ k) {fuel : Nat}
    (hpre : (DepthLimit.regime n).contract.pre () task m)
    (quiet : ∀ event ∈ program.record fuel task m, ¬ event.Refuses program) :
    program.SameUnder fuel larger task m := by
  induction fuel generalizing task m with
  | zero => exact ⟨rfl, rfl⟩
  | succ fuel ih =>
    rw [record, List.forall_mem_cons, List.forall_mem_append] at quiet
    obtain ⟨entered, inside, -⟩ := quiet
    have within := DepthLimit.within_of_pre hpre
    have relimited := task.relimited_work fuel fun frame hframe =>
      Task.takes_of_not_refuses within larger_le entered hframe
    obtain ⟨hrun, hevents⟩ := same_of_relimited (fun task m => ih) relimited
      ((DepthLimit.lawful program).kept fuel () task m hpre) inside
    have hperform : program.perform (fuel + 1) task (m.withLimit larger) =
        (program.perform (fuel + 1) task m).map (Prod.map id (·.withLimit larger)) := hrun
    refine ⟨hperform, ?_⟩
    rw [record, record, hevents, hperform, List.map_cons, List.map_append]
    cases program.perform (fuel + 1) task m <;> rfl

/-- Under a depth limit no state of a run has more frames than the limit.  If no frame is refused,
the same run under every larger limit, or under none, ends in the same way and leaves the same
machine. -/
theorem depth_limit_only_cuts_off (program : Program) (fuel : Nat) (root : NodeId)
    (limit : m.calls.limit = some n) (depth : m.calls.depth ≤ n) :
    (∀ event ∈ program.evaluation fuel root m, event.machine.calls.depth ≤ n) ∧
    ((∀ event ∈ program.evaluation fuel root m, ¬ event.Refuses program) →
      ∀ larger : Option Nat, (∀ k ∈ larger, n ≤ k) →
        program.evaluateWith fuel root (m.withLimit larger) =
            (program.evaluateWith fuel root m).map (Prod.map id (·.withLimit larger)) ∧
          program.evaluation fuel root (m.withLimit larger) =
            (program.evaluation fuel root m).map (·.withLimit larger)) := by
  rw [evaluation, evaluateWith]
  cases hresolve : resolve program.nodes root m.env.topBindings.keys with
  | error fault =>
    refine ⟨by simp, fun _ larger _ => ?_⟩
    have bindings : resolve program.nodes root (m.withLimit larger).env.topBindings.keys = _ :=
      hresolve
    rw [evaluation, evaluateWith, bindings]
    exact ⟨rfl, rfl⟩
  | ok resolution =>
    have hpre : (DepthLimit.regime n).contract.pre () (.program root ⟨m.calls.nextId⟩)
        (m.prepared resolution) := ⟨limit, depth⟩
    refine ⟨?_, fun quiet larger larger_le => ?_⟩
    · intro event hevent
      exact (DepthLimit.within_of_mem_record hpre hevent).depth
    · have bindings : resolve program.nodes root (m.withLimit larger).env.topBindings.keys = _ :=
        hresolve
      rw [evaluation, evaluateWith, bindings]
      have same := sameUnder_of_quiet larger_le hpre quiet
      exact ⟨same.perform, same.record⟩

/-- The program `def m; 1; end; m`, where `m` is the first name that is not reserved. -/
def shallow : Program where
  names := .initial
  nodes := ⟨#[.int 1, .define ⟨34⟩ [] ⟨0⟩, .call ⟨34⟩ [] none, .seq [⟨1⟩, ⟨2⟩]]⟩

/-- A program with one call needs two frames, and does the same without a limit. -/
theorem shallow_needs_two_frames :
    (∀ event ∈ shallow.evaluation 8 ⟨3⟩ (.initial (.budgeted 2) []),
      event.machine.calls.depth ≤ 2) ∧
    (∀ event ∈ shallow.evaluation 8 ⟨3⟩ (.initial (.budgeted 2) []), ¬ event.Refuses shallow) ∧
    shallow.evaluateWith 8 ⟨3⟩ (.initial .unlimited []) =
      (shallow.evaluateWith 8 ⟨3⟩ (.initial (.budgeted 2) [])).map
        (Prod.map id (·.withLimit none)) ∧
    ∃ m', shallow.evaluateWith 8 ⟨3⟩ (.initial .unlimited []) = some (.ok (.int 1), m') := by
  obtain ⟨depth, same⟩ := depth_limit_only_cuts_off (m := .initial (.budgeted 2) []) shallow 8 ⟨3⟩
    rfl (by decide)
  have quiet : ∀ event ∈ shallow.evaluation 8 ⟨3⟩ (.initial (.budgeted 2) []),
      ¬ event.Refuses shallow := by decide +kernel
  exact ⟨depth, quiet, (same quiet none (by simp)).1, _, rfl⟩

end Program

end ScriptSemantics
