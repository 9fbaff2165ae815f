import ScriptSemantics.Proofs.Contract
import ScriptSemantics.Proofs.Iteration

/-!
# Confinement of `next` and `redo`

Unless one leaks, a `next` or `redo` stays in its activation: a loop of the activation takes it, or
the activation is a closure and ends with its value or runs its body again.

## Main Definitions

* `Confinement.contract` — a task ends in a `next` or `redo` only when one leaks from it, or some
  task was entered that leaks
* `Program.IsTight` — no task is entered that leaks
* `Passage.inMethod` — the passage of a `next` or `redo` in the activation of a method
* `Passage.inClosure` — the passage of a `next` in the activation of a closure, outside of any loop

## Main Results

* `Program.node_of_leave` — in a tight run a `next` or `redo` leaves nodes only
* `Program.journey_inMethod`, `Program.journey_inClosure` — the way that it goes from there
-/

namespace ScriptSemantics

/-! ### The contract -/

namespace Confinement

variable {program : Program}

/-- The observer notes whether some task was entered that leaks. -/
def contract (program : Program) : Contract Prop where
  note leaking task m := leaking ∨ task.Leaks program m
  pre _ task _ := ¬ task.IsProgram
  post leaking task m leaking' ending m' :=
    (leaking ∨ task.Leaks program m → leaking') ∧ m'.calls.frames = m.calls.frames ∧
      ∀ e, ending = .error e → e.IsIteration → leaking' ∨ task.Emits program m

/-- Where an exit is accounted for, the work that lets it out keeps the contract. -/
theorem meets_of_letsOut {w : Work Value} {cleanup : NodeId → Prop} {S : Setting} {outer : List Frame}
    {Q : Exit → Ending Value → Prop} {seen : Exit → Prop} {leaking cause : Prop}
    (hlets : w.LetsOut (.iteration program) cleanup S outer Q seen)
    (starts : ∀ e, e.IsIteration → S.starts e → cause)
    (operands : ∀ child ∈ S.operands, program.nodes.Leaks (Frame.iterating S.frames) child → cause)
    (known : ∀ e, e.IsIteration → seen e → leaking ∨ cause) :
    w.Meets (contract program) (fun leaking' ending m' =>
      (leaking → leaking') ∧ m'.calls.frames = outer ∧
        ∀ e, ending = .error e → e.IsIteration → leaking' ∨ cause) leaking := by
  induction w generalizing seen leaking with
  | done ending m =>
    refine ⟨id, hlets.1, fun e he hi => ?_⟩
    obtain hseen | hstarts := hlets.2 e he hi
    · exact known e hi hseen
    · exact .inr (starts e hi hstarts)
  | stuck => trivial
  | ask task m resume ih =>
    obtain ⟨hprogram, hframes, hresume⟩ := hlets
    refine ⟨hprogram, fun leaking' ending m' ⟨hmono, hframes', hexits⟩ => ?_⟩
    have hrest := (hresume m' (hframes'.trans hframes)).2 ending
    refine (ih ending m' hrest fun e hi hseen => ?_).mono fun leaking'' _ _ ⟨hmono', hend⟩ =>
      ⟨fun h => hmono' (hmono (.inl h)), hend⟩
    obtain hseen | ⟨hrelays, heq⟩ := hseen
    · exact (known e hi hseen).imp_left fun h => hmono (.inl h)
    · refine (hexits e heq hi).imp_right fun hemits => ?_
      cases task with
      | node id => exact operands id (hrelays id rfl) (hframes ▸ hemits)
      | _ => cases hemits

theorem kept (program : Program) : (contract program).Kept program := by
  intro fuel leaking task m hprogram
  obtain ⟨S, accounts, hlets⟩ := Passage.accounted program task fuel m hprogram
  refine (meets_of_letsOut (hlets fun _ => False) (fun e hi h => .inl (accounts.starts e hi h))
    accounts.operands fun _ _ h => h.elim).mono ?_
  rintro leaking' ending m' ⟨hmono, hframes, hexits⟩
  refine ⟨hmono, hframes, fun e he hi => ?_⟩
  obtain h | h | h := hexits e he hi
  · exact .inl h
  · exact .inr h
  · exact .inl (hmono (.inr h))

end Confinement

/-- No task is entered that leaks. -/
def Program.IsTight (program : Program) (events : List Event) : Prop :=
  ∀ task m, .enter task m ∈ events → ¬ task.Leaks program m

/-- The activation that is entered, if any. -/
def Event.opened? : Event → Option FrameId
  | enter task _ => task.activation?
  | leave .. => none

namespace Program.IsTight

variable {program : Program} {events : List Event}

/-- Only activations leak. -/
theorem of_opened (first : Task) (m : Machine) (h : ¬ first.Leaks program m)
    (quiet : events.filterMap Event.opened? = []) : program.IsTight (.enter first m :: events) := by
  intro task m' hmem leaks
  obtain hhead | htail := List.mem_cons.mp hmem
  · cases hhead
    exact h leaks
  · have hopened := List.filterMap_eq_nil_iff.mp quiet _ htail
    cases task with
    | method | closure => cases hopened
    | _ => cases leaks

theorem take (h : program.IsTight events) (i : Nat) : program.IsTight (events.take i) :=
  fun task m hmem => h task m (List.mem_of_mem_take hmem)

/-- Nothing is noted where no task is entered that leaks. -/
theorem not_observe {leaking : Prop} (h : program.IsTight events) (hg : ¬ leaking) :
    ¬ (Confinement.contract program).observe leaking events := by
  induction events generalizing leaking with
  | nil => exact hg
  | cons event rest ih =>
    have hrest : program.IsTight rest := fun task m hmem => h task m (List.mem_cons_of_mem _ hmem)
    cases event with
    | enter task m =>
      refine ih hrest fun hnoted => ?_
      exact hnoted.elim hg (h task m List.mem_cons_self)
    | leave => exact ih hrest hg

end Program.IsTight

theorem Comp.run_eval_bind {β : Type} (perform : Task → Eval Value) (id : NodeId)
    (f : Value → Comp β) (m : Machine) :
    ((Comp.eval id >>= f) m).run perform =
      match perform (.node id) m with
      | some (.ok v, m₁) => (f v m₁).run perform
      | some (.error e, m₁) => some (.error e, m₁)
      | none => none := by
  change Work.run perform (.ask (.node id) m _) = _
  rw [Work.run]
  cases perform (.node id) m with
  | none => rfl
  | some result =>
    obtain ⟨ending, m₁⟩ := result
    cases ending <;> rfl

/-- Without a loop and outside of a closure there is nothing to act on. -/
theorem Comp.ifIterating_outside {e : Exit} {cause : ErrorCause} {m : Machine}
    (outside : Frame.iterating m.calls.frames = false) :
    (do if ← Comp.isIterating then Comp.exit e else Comp.fail cause : Comp Value) m =
      .done (.error (.error { cause })) m := by
  show (if Frame.iterating m.calls.frames = true then Comp.exit e else Comp.fail cause :
    Comp Value) m = _
  rw [outside]
  rfl

/-! ### Passages -/

/-- The frame without the note of the loops that are running in it. -/
def Frame.withoutLoops (frame : Frame) : Frame :=
  { frame with loopDepth := 0 }

/-- The same activation, whatever loops are running in it. -/
def Frame.SameActivation (frames frames' : List Frame) : Prop :=
  frames'.tail = frames.tail ∧ frames'.head?.map withoutLoops = frames.head?.map withoutLoops

/-- What a task makes of a `next` in the activation of a closure, outside of any loop, with the
frames before and after. -/
inductive Task.Answers : Task → Exit → List Frame → Ending Value → List Frame → Prop
  /-- A node hands it on. -/
  | node (id : NodeId) (e : Exit) (frames : List Frame) :
    Answers (.node id) e frames (.error e) frames
  /-- The closure that the activation belongs to has the value of the `next`. -/
  | closure (proc : ProcId) (id : FrameId) (given : CallArgs) (block : Option ProcId)
      (closure : Closure) (value : Value) (frames : List Frame) :
    Answers (.closure proc id given block) (.next value) (Comp.closureFrame closure id :: frames)
      (.ok value) frames

namespace Passage

/-- The passage of `next` and `redo` in the activation of a method: the nodes around hand them on,
in the same activation, until a running loop of this activation takes them. -/
def inMethod (program : Program) : Passage program where
  exits := Exit.IsIteration
  turns task e frames ending frames' :=
    (∃ id, task = .node id) ∧ ending = .error e ∧ Frame.SameActivation frames frames'
  resumes := program.Reiterates
  exits_error _ h := h

/-- The passage of a `next` in the activation of a closure, outside of any loop: the nodes around
hand it on until the closure has its value. -/
def inClosure (program : Program) : Passage program where
  exits e := ∃ value, e = .next value
  turns := Task.Answers
  resumes _ _ _ := False
  exits_error := nofun

/-- The innermost frame is that of a method. -/
def OnMethod (frames : List Frame) : Prop :=
  ∃ frame, frames.head? = some frame ∧ frame.kind = .method

/-- No loop is running in the innermost frame. -/
def OutsideLoops (frames : List Frame) : Prop :=
  ∃ frame, frames.head? = some frame ∧ frame.loopDepth = 0

theorem sameActivation_of_beginLoop (stack : CallStack) :
    Frame.SameActivation stack.beginLoop.frames stack.frames := by
  rw [Frame.SameActivation]
  cases hframes : stack.frames with
  | nil => simp [CallStack.beginLoop, CallStack.modifyCurrent, hframes]
  | cons frame rest => simp [CallStack.beginLoop_frames hframes, Frame.withoutLoops]

theorem OnMethod.of_sameActivation {frames frames' : List Frame} (h : OnMethod frames)
    (same : Frame.SameActivation frames frames') : OnMethod frames' := by
  obtain ⟨frame, hframe, hkind⟩ := h
  obtain ⟨-, hhead⟩ := same
  rw [hframe, Option.map_some, Option.map_eq_some_iff] at hhead
  obtain ⟨frame', hframe', heq⟩ := hhead
  have sameKind : frame'.withoutLoops.kind = frame.withoutLoops.kind := congrArg Frame.kind heq
  exact ⟨frame', hframe', sameKind.trans hkind⟩

theorem not_onMethod_closureFrame (closure : Closure) (id : FrameId) (rest : List Frame) :
    ¬ OnMethod (Comp.closureFrame closure id :: rest) := by
  rintro ⟨frame, hframe, hkind⟩
  cases hframe
  rw [Comp.closureFrame] at hkind
  split at hkind <;> cases hkind

variable {program : Program} {task : Task} {e : Exit} {frames frames' : List Frame}
  {ending : Ending Value}

/-- In a method nodes hand a `next` or `redo` on, as long as it does not leave the activation. -/
theorem turns_inMethod (h : task.Forwards program e frames ending frames')
    (noActivation : ending = .error e → ∃ id, task = .node id) (onMethod : OnMethod frames) :
    (inMethod program).turns task e frames ending frames' ∧
      (ending = .error e → OnMethod frames') := by
  cases h with
  | node id => exact ⟨⟨⟨id, rfl⟩, rfl, rfl, rfl⟩, fun _ => onMethod⟩
  | @condition id _ _ _ _ _ _ stack =>
    have same := sameActivation_of_beginLoop stack
    exact ⟨⟨⟨id, rfl⟩, rfl, same⟩, fun _ => onMethod.of_sameActivation same⟩
  | answer => exact absurd onMethod (not_onMethod_closureFrame _ _ _)
  | activation runs =>
    obtain ⟨id, rfl⟩ := noActivation rfl
    cases runs

theorem resumes_inMethod {id : NodeId} {m : Machine} (onMethod : OnMethod m.calls.frames)
    (h : program.Resumes e id m) : (inMethod program).resumes e id m := by
  cases h with
  | loop reiterates => exact reiterates
  | @closureBody closure id _ current =>
    obtain ⟨frame, hframe, hkind⟩ := onMethod
    obtain rfl := Option.some.inj (hframe.symm.trans current)
    exact absurd ⟨_, rfl, hkind⟩ (not_onMethod_closureFrame closure id [])

/-- Outside of any loop nodes hand a `next` on until the closure has its value, as long as it does
not leave the activation. -/
theorem turns_inClosure (h : task.Forwards program e frames ending frames')
    (noActivation : ending = .error e → ∃ id, task = .node id) (outside : OutsideLoops frames) :
    (inClosure program).turns task e frames ending frames' ∧
      (ending = .error e → OutsideLoops frames') := by
  cases h with
  | node id => exact ⟨.node id e frames, fun _ => outside⟩
  | condition =>
    obtain ⟨frame, hframe, noLoop⟩ := outside
    exact absurd noLoop (Nat.ne_of_gt (Comp.inLoop_of_beginLoop hframe))
  | answer proc id given block closure value => exact ⟨.closure .., nofun⟩
  | activation runs =>
    obtain ⟨id, rfl⟩ := noActivation rfl
    cases runs

theorem resumes_inClosure {value : Value} {id : NodeId} {m : Machine}
    (outside : OutsideLoops m.calls.frames) : ¬ program.Resumes (.next value) id m := by
  rintro (⟨⟨_, _, inLoop⟩⟩)
  obtain ⟨frame, hframe, noLoop⟩ := outside
  exact absurd noLoop (Nat.ne_of_gt (inLoop frame hframe))

end Passage

namespace Program

variable {program : Program} {fuel : Nat} {task : Task} {m : Machine}

/-! ### Runs -/

/-- In a tight run, a `next` or `redo` leaves nodes only. -/
theorem node_of_leave (hprogram : ¬ task.IsProgram)
    (tight : program.IsTight (program.record fuel task m)) {i : Nat} {left : Task} {e : Exit}
    {m' : Machine} (hleave : (program.record fuel task m)[i]? = some (.leave left (.error e) m'))
    (he : e.IsIteration) : ∃ id, left = .node id := by
  have admits : (Confinement.contract program).Admits False (program.record fuel task m) :=
    (Confinement.kept program).admits_record task hprogram
  obtain ⟨_, m₀, _, _, _, hexits⟩ := admits.allows hleave
  -- nothing was noted before the event, so the task may emit the exit, and only nodes may
  have hemits := (hexits e rfl he).resolve_left ((tight.take i).not_observe id)
  cases left with
  | node id => exact ⟨id, rfl⟩
  | _ => cases hemits

/-- A `next` or `redo` that has left a task goes its way over the rest of a run. -/
theorem journey_of_leave (hprogram : ¬ task.IsProgram) {i : Nat} {left : Task} {e : Exit}
    {m' : Machine} (hleave : (program.record fuel task m)[i]? = some (.leave left (.error e) m'))
    (he : e.IsIteration) :
    (Passage.iteration program).Journey e m'.calls.frames
      ((program.record fuel task m).drop (i + 1)) := by
  have after : (Passage.iteration program).Continues [] (program.perform fuel task m) := by
    cases program.perform fuel task m with
    | none => rfl
    | some result => exact fun _ _ _ => .cut _
  have journey := ((Passage.kept_iteration program).travels_record fuel task m [] hprogram
    after).journey hleave he
  rw [List.append_nil] at journey
  exact journey

/-- In a tight run, only nodes are left by a `next` or `redo` after some moment. -/
theorem node_of_mem_drop (hprogram : ¬ task.IsProgram)
    (tight : program.IsTight (program.record fuel task m)) {i : Nat} {left : Task}
    {ending : Ending Value} {e : Exit} {m' : Machine}
    (hmem : .leave left ending m' ∈ (program.record fuel task m).drop i) (he : e.IsIteration)
    (hending : ending = .error e) : ∃ id, left = .node id := by
  subst hending
  obtain ⟨j, hj⟩ := List.mem_iff_getElem?.mp hmem
  rw [List.getElem?_drop] at hj
  exact node_of_leave hprogram tight hj he

/-- In a tight run, a `next` or `redo` stays in the activation of a method. -/
theorem journey_inMethod (hprogram : ¬ task.IsProgram)
    (tight : program.IsTight (program.record fuel task m)) {i : Nat} {left : Task} {e : Exit}
    {m' : Machine} (hleave : (program.record fuel task m)[i]? = some (.leave left (.error e) m'))
    (he : e.IsIteration) (onMethod : Passage.OnMethod m'.calls.frames) :
    (Passage.inMethod program).Journey e m'.calls.frames
      ((program.record fuel task m).drop (i + 1)) := by
  refine (journey_of_leave hprogram hleave he).map onMethod ?_ ?_
  · intro task frames ending m hmem onMethod turns
    exact Passage.turns_inMethod turns (node_of_mem_drop hprogram tight hmem he) onMethod
  · exact fun id m => Passage.resumes_inMethod

/-- In a tight run, a `next` outside of any loop gives the closure of its activation the value. -/
theorem journey_inClosure (hprogram : ¬ task.IsProgram)
    (tight : program.IsTight (program.record fuel task m)) {i : Nat} {left : Task} {value : Value}
    {m' : Machine}
    (hleave : (program.record fuel task m)[i]? = some (.leave left (.error (.next value)) m'))
    (outside : Passage.OutsideLoops m'.calls.frames) :
    (Passage.inClosure program).Journey (.next value) m'.calls.frames
      ((program.record fuel task m).drop (i + 1)) := by
  refine (journey_of_leave hprogram hleave trivial).map outside ?_ ?_
  · intro task frames ending m hmem outside turns
    exact Passage.turns_inClosure turns (node_of_mem_drop hprogram tight hmem trivial) outside
  · exact fun id m outside resumes => Passage.resumes_inClosure outside resumes

/-- A task that a tight run is left by ends in no `next` or `redo`, unless it is a node. -/
theorem not_iteration_of_perform {id : FrameId} (activation : task.activation? = some id)
    (hprogram : ¬ task.IsProgram) (tight : program.IsTight (program.record fuel task m)) {e : Exit}
    {m' : Machine} (h : program.perform fuel task m = some (.error e, m')) : ¬ e.IsIteration := by
  intro he
  have hlast := getLast?_record h
  rw [List.getLast?_eq_getElem?] at hlast
  obtain ⟨node, rfl⟩ := node_of_leave hprogram tight hlast he
  cases activation

/-- Without a loop and outside of a closure, `redo` fails. -/
theorem redo_outside {id : NodeId} {ending : Ending Value} {m' : Machine}
    (lookup : program.nodes.node? id = some .redo)
    (outside : Frame.iterating m.calls.frames = false)
    (h : program.perform fuel (.node id) m = some (ending, m')) :
    ending = .error (.error { cause := .invalidControlTransfer .redo "Invalid redo" }) := by
  cases fuel with
  | zero => cases h
  | succ fuel =>
    rw [perform, Task.work, lookup] at h
    change (Comp.redo m).run (program.perform fuel) = _ at h
    rw [Comp.redo, Comp.ifIterating_outside outside] at h
    cases h
    rfl

/-- Without a loop and outside of a closure, `next` fails, unless its operand does not have a
value. -/
theorem next_outside {id : NodeId} {value : Option NodeId} {ending : Ending Value} {m' : Machine}
    (lookup : program.nodes.node? id = some (.nextWith value))
    (outside : Frame.iterating m.calls.frames = false)
    (h : program.perform fuel (.node id) m = some (ending, m')) :
    ending = .error (.error { cause := .invalidControlTransfer .next "Invalid next" }) ∨
      ∃ operand e, value = some operand ∧ ending = .error e ∧
        program.perform (fuel - 1) (.node operand) m = some (.error e, m') := by
  cases fuel with
  | zero => cases h
  | succ fuel =>
    rw [perform, Task.work, lookup] at h
    cases value with
    | none =>
      change ((do if ← Comp.isIterating then Comp.exit (.next .nil) else Comp.fail _ : Comp Value)
        m).run (program.perform fuel) = _ at h
      rw [Comp.ifIterating_outside outside] at h
      cases h
      exact .inl rfl
    | some operand =>
      change ((Comp.eval operand >>= fun v => do
        if ← Comp.isIterating then Comp.exit (.next v) else Comp.fail _ : Comp Value) m).run
          (program.perform fuel) = _ at h
      rw [Comp.run_eval_bind] at h
      split at h
      next v m₁ heval =>
        have hnode : ¬ (Task.node operand).IsProgram := fun h => h
        have same := (Passage.kept_iteration program).frames_of_perform hnode heval
        rw [Comp.ifIterating_outside (same ▸ outside)] at h
        cases h
        exact .inl rfl
      next e m₁ heval =>
        cases h
        exact .inr ⟨operand, e, rfl, rfl, heval⟩
      next => cases h

end Program

end ScriptSemantics
