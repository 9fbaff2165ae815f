import ScriptSemantics.Proofs.Succession

/-!
# The passage of addressed exits

A `return` and a `break` are addressed to an activation or to a loop.  The tasks around hand such an
exit on until its addressee turns it into a value.  No other node is evaluated instead: only cleanup
parts run on the way.

## Main Definitions

* `Exit.IsAddressed`, `Task.Absorbs` — exits with an addressee, and the addressee
* `Task.Turns` — what a task makes of an addressed exit of one of its own tasks
* `Passage.addressed` — the passage of addressed exits
* `Passage.HandsOn` — the work of a task hands them on

## Main Results

* `Passage.handsOn_node`, `Passage.handsOn_method`, `Passage.handsOn_closure`, ... — one lemma for each
  kind of task
* `Passage.kept_addressed` — every task but a program hands addressed exits on, unless the task is
  the addressee
-/

namespace ScriptSemantics

/-- The exits that are addressed to an activation or to a loop. -/
def Exit.IsAddressed : Exit → Prop
  | returnTo _ _ | breakTo _ _ => True
  | _ => False

/-- The task is what an exit is addressed to, and turns it into a value. -/
inductive Task.Absorbs (program : Program) : Task → Exit → Value → Prop
  | returnTo {task : Task} {target : FrameId} (value : Value)
      (addressee : task.activation? = some target) :
    Absorbs program task (.returnTo target value) value
  | breakTo {task : Task} {target : FrameId} (value : Value)
      (addressee : task.activation? = some target) (noProgram : ¬ task.IsProgram) :
    Absorbs program task (.breakTo (.frame target) value) value
  | loop {id test body : NodeId} {kind : LoopKind} {bodyFirst : Bool} (value : Value)
      (addressee : program.nodes.node? id = some (.loop kind test body bodyFirst)) :
    Absorbs program (.node id) (.breakTo .loop value) value

namespace Task

variable {program : Program} {task : Task} {id : FrameId} {e : Exit}

/-- What a task makes of an exit of one of its own tasks: it hands the exit on, or it is the
addressee and has a value. -/
def Turns (program : Program) (task : Task) (e : Exit) (ending : Ending Value) : Prop :=
  ending = .error e ∨ ∃ value, task.Absorbs program e value ∧ ending = .ok value

theorem turns_catchReturn (addressee : task.activation? = some id) (e : Exit) :
    task.Turns program e (Comp.catchReturn id (.error e)) := by
  cases e with
  | returnTo target value =>
    rw [Comp.catchReturn]
    split
    next h => exact .inr ⟨value, .returnTo value (h ▸ addressee), rfl⟩
    next => exact .inl rfl
  | _ => exact .inl rfl

theorem turns_catchBreak (addressee : task.activation? = some id) (noProgram : ¬ task.IsProgram)
    {ending : Ending Value} (h : task.Turns program e ending) :
    task.Turns program e (Comp.catchBreak id ending) := by
  rcases h with rfl | ⟨value, habsorbs, rfl⟩
  · cases e with
    | breakTo target value =>
      cases target with
      | loop => exact .inl rfl
      | frame target =>
        rw [Comp.catchBreak]
        split
        next h => exact .inr ⟨value, .breakTo value (h ▸ addressee) noProgram, rfl⟩
        next => exact .inl rfl
    | _ => exact .inl rfl
  · exact .inr ⟨value, habsorbs, rfl⟩

theorem turns_catchClosure (addressee : task.activation? = some id) (noProgram : ¬ task.IsProgram)
    (closure : Closure) (e : Exit) : task.Turns program e (Comp.catchClosure closure id (.error e)) := by
  refine turns_catchBreak addressee noProgram ?_
  split
  · exact turns_catchReturn addressee e
  · exact .inl rfl

end Task

/-- The passage of exits with an addressee. -/
def Passage.addressed (program : Program) : Passage program where
  exits := Exit.IsAddressed
  turns task e _ ending _ := task.Turns program e ending
  resumes _ _ _ := False
  exits_error _ h := h

namespace Comp

variable {program : Program} {S : Setting}

/-- What a loop makes of an exit of its condition or body. -/
def LoopTurns (e : Exit) (ending : Ending Value) : Prop :=
  ending = .error e ∨ ∃ value, e = .breakTo .loop value ∧ ending = .ok value

theorem afterTest_addressed {kind : LoopKind} {test body : NodeId} {e : Exit} {m : Machine}
    (he : e.IsAddressed) :
    (LoopStep.afterTest kind (.error e)).Carries (.addressed program) test body e (LoopTurns e) m := by
  cases e with
  | breakTo target value =>
    cases target with
    | loop => exact .inr ⟨value, rfl, rfl⟩
    | frame target => exact .inl rfl
  | returnTo => exact .inl rfl
  | _ => cases he

theorem afterBody_addressed {test body : NodeId} {e : Exit} {m : Machine} (he : e.IsAddressed) :
    (LoopStep.afterBody (.error e)).Carries (.addressed program) test body e (LoopTurns e) m := by
  cases e with
  | breakTo target value =>
    cases target with
    | loop => exact .inr ⟨value, rfl, rfl⟩
    | frame target => exact .inl rfl
  | returnTo => exact .inl rfl
  | _ => cases he

theorem lets_runBody_addressed {body : NodeId} (h : body ∈ S.operands) (fuel : Nat) :
    Lets (.addressed program) S (runBody body fuel) := by
  induction fuel generalizing S with
  | zero => exact fun _ _ _ => trivial
  | succ fuel ih =>
    refine fun m seen hm => letsOut_attempt (.eval h) hm (fun e m he hframes => ?_)
      fun ending m seen hframes => ?_
    · cases e with
      | returnTo | breakTo => exact ⟨hframes, rfl⟩
      | _ => cases he
    · split
      · exact ih (S := S.after _) h m seen hframes
      · exact ⟨hframes, nofun⟩
      · exact Lets.settle (S := S.after ending) (fun _ he _ => .inr he) m seen hframes

end Comp

namespace Passage

/-- The work of a task hands addressed exits on, unless the task is the addressee. -/
def HandsOn (program : Program) (task : Task) (fuel : Nat) (m : Machine) : Prop :=
  ∃ S : Setting, ∀ seen, (task.work program fuel m).LetsOut (addressed program)
    (task.HasCleanup program) S m.calls.frames (fun e ending => task.Turns program e ending) seen

theorem handsOn_node (program : Program) (id : NodeId) (fuel : Nat) (m : Machine) :
    HandsOn program (.node id) fuel m := by
  rw [HandsOn, Task.work]
  cases hnode : program.nodes.node? id with
  | none => exact ⟨⟨[], [], fun _ => False⟩, fun seen => Comp.letsOut_fail _ m seen⟩
  | some n =>
    -- a loop runs in a frame of its own making, with the note that it is running
    by_cases hloop : ∃ kind test body bodyFirst, n = .loop kind test body bodyFirst
    · obtain ⟨kind, test, body, bodyFirst, rfl⟩ := hloop
      refine ⟨⟨m.calls.beginLoop.frames, [test, body], fun _ => False⟩, fun seen => ?_⟩
      refine (Comp.letsOut_loop (fun e m he _ => Comp.afterTest_addressed he)
        (fun e m he _ => Comp.afterBody_addressed he) List.mem_cons_self
        (fun _ _ _ => List.mem_cons_of_mem _ List.mem_cons_self) fuel bodyFirst rfl).ofNoCleanup ?_
      rintro e ending - (rfl | ⟨value, rfl, rfl⟩)
      · exact .inl rfl
      · exact .inr ⟨value, .loop value hnode, rfl⟩
    · refine ⟨⟨m.calls.frames, n.operands, n.Starts m.calls.frames⟩, fun seen => ?_⟩
      refine (Comp.letsOut_node fuel hnode (fun kind test body bodyFirst h =>
        hloop ⟨kind, test, body, bodyFirst, h⟩) (fun _ h => h) (fun _ h => h) rfl).mono ?_ ?_
      · exact fun cleanup h => ⟨id, rfl, h⟩
      · exact fun e ending _ h => .inl h

theorem handsOn_method (program : Program) (callee : Method) (id : FrameId) (given : CallArgs)
    (block : Option ProcId) (fuel : Nat) (m : Machine) :
    HandsOn program (.method callee id given block) fuel m := by
  have noProgram : ¬ (Task.method callee id given block).IsProgram := not_false
  refine ⟨⟨{ id, kind := .method, name := callee.name, block } :: m.calls.frames,
    (Code.ofMethod callee).operands, fun _ => False⟩, fun seen => ?_⟩
  refine (Comp.letsOut_runMethod rfl (fun _ h => h)).ofNoCleanup ?_
  rintro e ending - rfl
  exact Task.turns_catchBreak rfl noProgram (Task.turns_catchReturn rfl e)

theorem handsOn_closure (program : Program) (proc : ProcId) (id : FrameId) (given : CallArgs)
    (block : Option ProcId) (fuel : Nat) (m : Machine) :
    HandsOn program (.closure proc id given block) fuel m := by
  have noProgram : ¬ (Task.closure proc id given block).IsProgram := not_false
  rw [HandsOn, Task.work, Comp.runProc, Comp.gets_bind]
  cases m.closures.get? proc with
  | none => exact ⟨⟨[], [], fun _ => False⟩, fun seen => Comp.letsOut_fail _ m seen⟩
  | some closure =>
    let S : Setting := ⟨Comp.closureFrame closure id :: m.calls.frames,
      (Code.ofClosure closure).operands, fun _ => False⟩
    have hbody : closure.body ∈ S.operands := List.mem_append_right _ List.mem_cons_self
    refine ⟨S, fun seen => (Comp.letsOut_runClosure (Q := Exit.Passed) rfl
      (List.subset_append_left _ _) (fun _ => rfl)
      (Comp.lets_runBody_addressed hbody fuel)).ofNoCleanup ?_⟩
    -- the frames are recorded in errors only, before the closure catches anything
    rintro e ending he ⟨result, m', rfl, rfl⟩
    rw [Comp.recordFrames_of_exits he]
    exact Task.turns_catchClosure rfl noProgram closure e

theorem handsOn_builtin (program : Program) (block : ProcId) (id : FrameId) (fuel : Nat)
    (m : Machine) : HandsOn program (.loop block id) fuel m := by
  have noProgram : ¬ (Task.loop block id).IsProgram := not_false
  refine ⟨⟨{ id, kind := .builtin, name := .loop } :: m.calls.frames, [], fun _ => False⟩,
    fun seen => (Comp.letsOut_runLoop rfl).ofNoCleanup ?_⟩
  rintro e ending - rfl
  exact Task.turns_catchBreak rfl noProgram (.inl rfl)

/-- The work of every task but a program hands addressed exits on, unless the task is the
addressee. -/
theorem kept_addressed (program : Program) : (addressed program).Kept := by
  intro task fuel m hprogram
  cases task with
  | node id => exact handsOn_node program id fuel m
  | store => exact ⟨⟨[], [], fun _ => False⟩, fun seen => Comp.letsOut_ok _ rfl seen⟩
  | program root id => exact absurd trivial hprogram
  | method callee id given block => exact handsOn_method program callee id given block fuel m
  | closure proc id given block => exact handsOn_closure program proc id given block fuel m
  | loop block id => exact handsOn_builtin program block id fuel m

end Passage

end ScriptSemantics
