import ScriptSemantics.Proofs.Trace

/-!
# Runs of computations

A run of a computation is a run of its first part and, unless that ends in an exit, a run of the
rest.  With more fuel, a run that has a result has the same one.

## Main Definitions

* `Comp.continued` — what a computation goes on with when its first part has ended
* `Work.Extends` — work that does the same and may go on where other work is stuck

## Main Results

* `Comp.run_bind` — the run of a sequence
* `Task.extends_work` — with more fuel, the work of a task is stuck later at most
* `Program.perform_mono` — more fuel never changes a result
-/

namespace ScriptSemantics

/-- How a pure operation ends. -/
def Ending.ofExcept {α : Type} : Except ErrorCause α → Ending α :=
  Except.mapError fun cause => .error { cause }

/-! ### Sequences -/

/-- Work that goes on after other work runs after it. -/
theorem Work.run_andThen {α β : Type} (perform : Task → Eval Value) (w : Work α)
    (next : Ending α → Machine → Work β) :
    (w.andThen next).run perform =
      (w.run perform).bind fun result => (next result.1 result.2).run perform := by
  induction w with
  | done | stuck => rfl
  | ask task m resume ih =>
    rw [ask_andThen, run, run]
    cases perform task m with
    | none => rfl
    | some result => exact ih result.1 result.2

namespace Comp

variable {α β : Type} {perform : Task → Eval Value}

/-- What a computation goes on with when its first part has ended. -/
def continued (perform : Task → Eval Value) (f : α → Comp β) :
    Ending α × Machine → Option (Ending β × Machine)
  | (.ok a, m) => (f a m).run perform
  | (.error e, m) => some (.error e, m)

/-- A computation runs on with the value of the one before, and not after an exit. -/
theorem run_bind (x : Comp α) (f : α → Comp β) (m : Machine) :
    ((x >>= f) m).run perform = ((x m).run perform).bind (continued perform f) := by
  refine (Work.run_andThen perform _ _).trans (congrArg _ (funext fun result => ?_))
  obtain ⟨_ | _, _⟩ := result <;> rfl

theorem run_perform (task : Task) (m : Machine) :
    (Comp.perform task m).run perform = perform task m := by
  rw [Comp.perform, Work.run]
  cases perform task m <;> rfl

/-- An operand is performed as a task. -/
theorem run_eval (id : NodeId) (m : Machine) :
    (eval id m).run perform = perform (.node id) m :=
  run_perform _ m

theorem ofExcept_eq (x : Except ErrorCause α) : ofExcept x = settle (.ofExcept x) := by
  cases x <;> rfl

end Comp

/-- The events of the first task are among those of the work. -/
theorem Work.record_subset_events {α : Type} {perform : Task → Eval Value}
    {record : Task → Machine → List Event} {task : Task} {m : Machine}
    {resume : Ending Value → Machine → Work α} :
    record task m ⊆ (ask task m resume).events perform record := by
  rw [events]
  exact List.subset_append_left _ _

/-! ### More fuel -/

/-- Work that does the same and may go on where other work is stuck. -/
inductive Work.Extends {α : Type} : Work α → Work α → Prop
  | stuck (w : Work α) : Extends .stuck w
  | done (ending : Ending α) (m : Machine) : Extends (.done ending m) (.done ending m)
  | ask {task : Task} {m : Machine} {resume resume' : Ending Value → Machine → Work α}
    (h : ∀ ending m, Extends (resume ending m) (resume' ending m)) :
    Extends (.ask task m resume) (.ask task m resume')

namespace Work.Extends

variable {α β : Type} {w w' : Work α}

theorem refl (w : Work α) : w.Extends w := by
  induction w with
  | done ending m => exact .done ending m
  | stuck => exact .stuck _
  | ask task m resume ih => exact .ask ih

/-- Work is extended part by part. -/
theorem andThen {next next' : Ending α → Machine → Work β} (h : w.Extends w')
    (hnext : ∀ ending m, (next ending m).Extends (next' ending m)) :
    (w.andThen next).Extends (w'.andThen next') := by
  induction h with
  | stuck => exact .stuck _
  | done ending m => exact hnext ending m
  | ask _ ih => exact .ask ih

/-- A result stays when every task of the run keeps its result.  Such a task has its events among
those of both runs. -/
theorem run_eq_some {perform perform' : Task → Eval Value} (h : w.Extends w')
    (record : Task → Machine → List Event)
    (tasks : ∀ task m result, record task m ⊆ w.events perform record →
      record task m ⊆ w'.events perform' record → perform task m = some result →
      perform' task m = some result)
    {result : Ending α × Machine} (hrun : w.run perform = some result) :
    w'.run perform' = some result := by
  induction h with
  | stuck => cases hrun
  | done => exact hrun
  | @ask task m resume resume' _ ih =>
    rw [Work.run] at hrun ⊢
    cases hperform : perform task m with
    | none =>
      rw [hperform] at hrun
      cases hrun
    | some inner =>
      have hperform' : perform' task m = some inner :=
        tasks task m inner record_subset_events record_subset_events hperform
      rw [hperform] at hrun
      rw [Work.events, Work.events, hperform, hperform'] at tasks
      rw [hperform']
      refine ih _ _ (fun task m result sub sub' => tasks task m result ?_ ?_) hrun
      · exact fun _ hevent => List.mem_append_right _ (sub hevent)
      · exact fun _ hevent => List.mem_append_right _ (sub' hevent)

end Work.Extends

namespace Comp

variable {α β : Type} {x x' : Comp α} {fuel fuel' : Nat}

/-- The work of a computation is stuck later at most. -/
def Extends (x x' : Comp α) : Prop :=
  ∀ m, (x m).Extends (x' m)

namespace Extends

theorem refl (x : Comp α) : x.Extends x :=
  fun m => .refl (x m)

/-- Whatever comes in place of a lack of fuel extends it. -/
theorem outOfFuel (x : Comp α) : Comp.outOfFuel.Extends x :=
  fun _ => .stuck _

theorem bind {f f' : α → Comp β} (hx : x.Extends x') (hf : ∀ a, (f a).Extends (f' a)) :
    (x >>= f).Extends (x' >>= f') := fun m =>
  (hx m).andThen fun ending m => by
    cases ending with
    | ok a => exact hf a m
    | error e => exact .refl _

theorem mapEnding (f : Machine → Ending α → Ending β) (hx : x.Extends x') :
    (Comp.mapEnding f x).Extends (Comp.mapEnding f x') :=
  fun m => (hx m).andThen fun _ _ => .refl _

theorem bracket (before after : Machine → Machine) (hx : x.Extends x') :
    (Comp.bracket before after x).Extends (Comp.bracket before after x') :=
  fun m => (hx (before m)).andThen fun _ _ => .refl _

theorem inFrame (names : NameTable) (frame : Frame) (parent : Option ScopeId) (hx : x.Extends x') :
    (Comp.inFrame names frame parent x).Extends (Comp.inFrame names frame parent x') := by
  intro m
  rw [Comp.inFrame, Comp.inFrame, withFrame, withFrame]
  cases m.calls.push frame with
  | error cause => exact .refl _
  | ok calls => exact (hx.mapEnding _).bracket _ _ m

end Extends

/-! ### Recursions on fuel -/

/-- A loop with more fuel goes on where the other one stops. -/
theorem extends_loopFrom (kind : LoopKind) (test body : NodeId) (h : fuel ≤ fuel')
    (step : LoopStep) :
    (loopFrom kind test body fuel step).Extends (loopFrom kind test body fuel' step) := by
  induction fuel generalizing fuel' step with
  | zero => exact .outOfFuel _
  | succ fuel ih =>
    obtain ⟨fuel', rfl⟩ : ∃ k, fuel' = k + 1 := ⟨fuel' - 1, by omega⟩
    have again := fun step => ih (Nat.le_of_succ_le_succ h) step
    cases step with
    | stop | leave => exact .refl _
    | test | body => exact .bind (.refl _) fun _ => again _

/-- A body with more fuel is run again where the other one stops. -/
theorem extends_runBody (body : NodeId) (h : fuel ≤ fuel') :
    (runBody body fuel).Extends (runBody body fuel') := by
  induction fuel generalizing fuel' with
  | zero => exact .outOfFuel _
  | succ fuel ih =>
    obtain ⟨fuel', rfl⟩ : ∃ k, fuel' = k + 1 := ⟨fuel' - 1, by omega⟩
    refine .bind (.refl _) fun ending => ?_
    rcases ending with e | value
    · cases e with
      | redo => exact ih (Nat.le_of_succ_le_succ h)
      | _ => exact .refl _
    · exact .refl _

/-- A built-in loop with more fuel goes on where the other one stops. -/
theorem extends_repeatBlock (block : ProcId) (h : fuel ≤ fuel') :
    (repeatBlock block fuel).Extends (repeatBlock block fuel') := by
  induction fuel generalizing fuel' with
  | zero => exact .outOfFuel _
  | succ fuel ih =>
    obtain ⟨fuel', rfl⟩ : ∃ k, fuel' = k + 1 := ⟨fuel' - 1, by omega⟩
    exact .bind (.refl _) fun _ => .bind (.refl _) fun _ => ih (Nat.le_of_succ_le_succ h)

/-- A node with more fuel does what it does with less, and maybe goes on. -/
theorem extends_node (program : Program) (h : fuel ≤ fuel') (id : NodeId) (n : Node) :
    (node program fuel id n).Extends (node program fuel' id n) := by
  cases n with
  | loop kind test body bodyFirst =>
    exact ((extends_loopFrom kind test body h _).bracket _ _).bracket _ _
  | _ => exact .refl _

/-- So does a call of a closure. -/
theorem extends_runProc (names : NameTable) (h : fuel ≤ fuel') (proc : ProcId) (id : FrameId)
    (given : CallArgs) (block : Option ProcId) :
    (runProc names fuel proc id given block).Extends (runProc names fuel' proc id given block) := by
  refine .bind (.refl _) fun closure => ?_
  cases closure with
  | none => exact .refl _
  | some closure =>
    refine .bind (.refl _) fun plan => .mapEnding _ (.inFrame _ _ _ ?_)
    exact .bind (.refl _) fun _ => .bind (.refl _) fun _ => extends_runBody closure.body h

end Comp

/-- With more fuel, the work of a task is stuck later at most. -/
theorem Task.extends_work (program : Program) {fuel fuel' : Nat} (h : fuel ≤ fuel') (task : Task) :
    Comp.Extends (task.work program fuel) (task.work program fuel') := by
  cases task with
  | node id =>
    rw [Task.work, Task.work]
    cases program.nodes.node? id with
    | none => exact .refl _
    | some n => exact Comp.extends_node program h id n
  | store | program | method => exact .refl _
  | closure proc id given block => exact Comp.extends_runProc program.names h proc id given block
  | loop block id =>
    exact .mapEnding _ (.inFrame _ _ _ (Comp.extends_repeatBlock block h))

/-- More fuel never changes a result. -/
theorem Program.perform_mono (program : Program) {fuel fuel' : Nat} (h : fuel ≤ fuel') {task : Task}
    {m : Machine} {result : Ending Value × Machine}
    (hperform : program.perform fuel task m = some result) :
    program.perform fuel' task m = some result := by
  induction fuel generalizing fuel' task m result with
  | zero => cases hperform
  | succ fuel ih =>
    obtain ⟨fuel', rfl⟩ : ∃ k, fuel' = k + 1 := ⟨fuel' - 1, by omega⟩
    have hle := Nat.le_of_succ_le_succ h
    rw [perform] at hperform ⊢
    exact (task.extends_work program hle m).run_eq_some (program.record fuel)
      (fun _ _ _ _ _ hinner => ih hle hinner) hperform

end ScriptSemantics
