import ScriptSemantics.Proofs.AllottedConstructs

/-!
# Tasks and identities

The work of every task brings nothing into reach that was not, and runs activations only under
identities that it kept for them.

## Main Definitions

* `Task.RunsOn` — the frames on which a task has other tasks performed

## Main Results

* `Comp.allots_inFrame` — what is done inside a frame
* `Task.allots_work` — the work of every task
-/

namespace ScriptSemantics

/-- The frames on which a task has other tasks performed: those that it was performed on and, if it
is an activation, its own. -/
inductive Task.RunsOn (m : Machine) (task : Task) : List Frame → Prop
  | here : RunsOn m task m.cores
  | inside (frame : Frame) (own : task.activation? = some frame.id) :
    RunsOn m task (frame.core :: m.cores)

/-! ### Endings -/

section Endings

variable {P : ProcId → Prop} {ending : Ending Value}

theorem Ending.Within.catchReturn (h : ending.Within (Value.Within P) P) (id : FrameId) :
    (Comp.catchReturn id ending).Within (Value.Within P) P := by
  unfold Comp.catchReturn
  split
  · split <;> exact h
  · exact h

theorem Ending.Within.catchBreak (h : ending.Within (Value.Within P) P) (id : FrameId) :
    (Comp.catchBreak id ending).Within (Value.Within P) P := by
  unfold Comp.catchBreak
  split
  · split <;> exact h
  · exact h

theorem Ending.Within.catchClosure (h : ending.Within (Value.Within P) P) (closure : Closure)
    (id : FrameId) : (Comp.catchClosure closure id ending).Within (Value.Within P) P := by
  unfold Comp.catchClosure
  split
  · exact (h.catchReturn id).catchBreak id
  · exact h.catchBreak id

theorem Ending.Within.topEnding (h : ending.Within (Value.Within P) P) (id : FrameId) :
    (Comp.topEnding id ending).Within (Value.Within P) P := by
  have caught := h.catchReturn id
  unfold Comp.topEnding
  split
  next heq =>
    rw [heq] at caught
    exact caught
  next => trivial

theorem Ending.Within.recordFrames (h : ending.Within (Value.Within P) P) (names : NameTable)
    (m : Machine) : (Comp.recordFrames names m ending).Within (Value.Within P) P := by
  unfold Comp.recordFrames
  split
  · trivial
  · exact h

end Endings

namespace Comp

variable {Q : FrameId → Prop} {m₀ m : Machine} {a : Allotment} {fuel : Nat}

/-! ### Bodies -/

theorem allots_bindParams {block : Option ProcId} {plan : BindPlan}
    (known : ∀ proc, block = some proc → m₀.Knows Q proc)
    (within : ∀ planned ∈ plan, planned.binding.Within (m₀.Knows Q)) :
    (bindParams block plan).Allots Q m₀ (fun _ _ => True) := by
  induction plan generalizing m₀ with
  | nil => exact .pure fun _ _ => trivial
  | cons param rest ih =>
    obtain ⟨name, received⟩ := param
    have hreceived : (binding block received).Allots Q m₀ (Covered Q) := by
      have hwithin := within _ List.mem_cons_self
      cases received with
      | value value => exact .value hwithin
      | fallback expr => exact .eval expr
      | block =>
        refine .value ?_
        cases block with
        | none => exact Value.within_nil
        | some proc => exact Value.within_proc.mpr (known proc rfl)
    have defined : ∀ m value, Covered Q m value →
        (defineParam name value).Allots Q m (fun _ _ => True) := by
      intro m value hvalue
      rw [defineParam]
      split
      · exact .pure fun _ _ => trivial
      · exact .modify fun m' later guards =>
          .of_guards (guards.define name (hvalue.mono later)) rfl rfl
    refine .bind hreceived fun m₁ value later₁ hvalue => ?_
    refine .bind (defined m₁ value hvalue) fun m₂ _ later₂ _ => ih ?_ fun planned hplanned => ?_
    · exact fun proc hproc => (known proc hproc).mono (later₁.trans later₂)
    · exact (within planned (List.mem_cons_of_mem _ hplanned)).mono
        fun _ => Machine.Knows.mono (later₁.trans later₂)

/-- The code of a callable, when what follows the parameters is as wanted. -/
theorem allots_code (root : NodeId) {block : Option ProcId} {plan : BindPlan} {x : Comp Value}
    (known : ∀ proc, block = some proc → m₀.Knows Q proc)
    (within : ∀ planned ∈ plan, planned.binding.Within (m₀.Knows Q))
    (hx : ∀ m, x.Allots Q m (Covered Q)) :
    (modify (·.declareOwned root) >>= fun _ => bindParams block plan >>= fun _ => x).Allots Q m₀
      (Covered Q) := by
  have declared : (modify (·.declareOwned root)).Allots Q m₀ (fun _ _ => True) :=
    .modify fun _ _ guards => .of_guards (guards.declareOwned root) rfl rfl
  refine .bind declared fun m _ later _ => .bind (allots_bindParams ?_ ?_) fun m' _ _ _ => hx m'
  · exact fun proc hproc => (known proc hproc).mono later
  · exact fun planned hplanned => (within planned hplanned).mono fun _ => Machine.Knows.mono later

theorem allots_runBody (body : NodeId) : (runBody body fuel).Allots Q m₀ (Covered Q) := by
  induction fuel generalizing m₀ with
  | zero => exact .outOfFuel
  | succ fuel ih =>
    refine .attempt_bind (.eval body) fun m ending _ known => ?_
    rcases ending with e | value
    · cases e with
      | redo => exact ih
      | next value => exact .value known
      | _ => exact .settle _ fun _ later => known.mono later
    · exact .settle _ fun _ later => known.mono later

/-- Each round runs under an identity of its own. -/
theorem allots_repeatBlock {block : ProcId} (known : m₀.Knows Q block) :
    (repeatBlock block fuel).Allots Q m₀ (Covered Q) := by
  induction fuel generalizing m₀ with
  | zero => exact .outOfFuel
  | succ fuel ih =>
    refine .allocate_bind fun m id later _ => .bind_allots (.perform rfl fun m' later' hid => ?_)
      fun m' _ later' _ => ih (known.mono (later.trans later'))
    exact .closure hid (known.mono (later.trans later')) CallArgs.within_empty fun _ h => by cases h

/-! ### Activations -/

/-- What ended well inside a frame has ended well outside of it, when the frame is left. -/
theorem AllottedEnd.outside {m₁ m' m'' : Machine} {frame : Frame} {ending ending' : Ending Value}
    (hend : AllottedEnd Q (Covered Q) m₁ a ending m') (entered : m.Before m₁)
    (cores : m₁.cores = frame.core :: m.cores) (left : m'.Before m'') (guards : m''.Guards Q)
    (popped : m''.cores = m'.cores.tail)
    (within : ending'.Within (Value.Within (m'.Knows Q)) (m'.Knows Q)) :
    AllottedEnd Q (Covered Q) m a ending' m'' where
  before := (entered.trans hend.before).trans left
  cores := by
    rw [popped, hend.cores, cores]
    rfl
  guards := guards
  fits := hend.fits.later left
  within := Ending.Within.mono within left

/-- What is done inside a frame brings nothing else into reach outside of it. -/
theorem allots_inFrame (guards : m.Guards Q) (fits : a.Fits Q m) (names : NameTable) {frame : Frame}
    (shows : m.Shows Q frame) (parent : Option ScopeId) {x : Comp Value}
    (hx : ∀ m', m.Before m' → x.Allots Q m' (Covered Q)) {catching : Ending Value → Ending Value}
    (catches : ∀ P ending, Ending.Within (Value.Within P) P ending →
      (catching ending).Within (Value.Within P) P) :
    (mapEnding (fun _ => catching) (inFrame names frame parent x) m).Allots Q
      (frame.core :: m.cores) (AllottedEnd Q (Covered Q) m) a := by
  refine Work.Allots.andThen ?_
  unfold inFrame withFrame
  cases hpush : m.calls.push frame with
  | error cause => exact ⟨.refl guards, fits, catches _ (.error (.error { cause })) trivial⟩
  | ok calls =>
    have hcalls := CallStack.push_eq hpush
    have entered : m.Before (m.activate calls parent) :=
      ⟨fun _ _ h => h, Nat.le_of_eq (by rw [hcalls]; rfl)⟩
    have cores : (m.activate calls parent).cores = frame.core :: m.cores := by
      simp [Machine.cores, Machine.activate, hcalls]
    have inner := hx _ entered _ a (.refl _) (guards.activate hpush shows parent)
      (fits.later entered)
    rw [cores] at inner
    refine Work.Allots.andThen (Work.Allots.andThen (inner.mono (fun _ h => h) ?_))
    intro a' ending m' hend
    exact hend.outside entered cores ⟨fun _ _ h => h, Nat.le_refl _⟩ hend.guards.deactivate
      (List.map_tail ..) (catches _ _ (hend.within.recordFrames names m'))

/-- The frame of a closure names what the closure does. -/
theorem shows_closureFrame (guards : m.Guards Q) {proc : ProcId} {closure : Closure} {id : FrameId}
    (given : m.Given Q id) (knows : m.Knows Q proc)
    (found : m.closures.get? proc = some closure) : m.Shows Q (closureFrame closure id) := by
  obtain ⟨_, hclosure, names⟩ := knows
  cases found.symm.trans hclosure
  have outer := guards.closures proc closure found
  rw [closureFrame]
  split
  · exact ⟨.of_none given rfl rfl, outer⟩
  · exact ⟨⟨given, names.home, names.breakTag⟩, outer⟩

/-- An activation whose arguments do not fit does not begin. -/
theorem allots_planned {task : Task} (frame : Frame) (guards : m.Guards Q) (fits : a.Fits Q m)
    (own : task.activation? = some frame.id) {plan : Except ErrorCause BindPlan}
    {f : BindPlan → Comp Value}
    (hf : ∀ planned, plan = .ok planned → (f planned m).Allots Q (frame.core :: m.cores)
      (AllottedEnd Q (Covered Q) m) a) :
    ∃ cores, task.RunsOn m cores ∧
      ((ofExcept plan >>= f) m).Allots Q cores (AllottedEnd Q (Covered Q) m) a := by
  refine ⟨_, .inside frame own, ?_⟩
  cases plan with
  | error cause => exact ⟨.refl guards, fits, trivial⟩
  | ok planned => exact hf planned rfl

theorem allots_runMethod (guards : m.Guards Q) (fits : a.Fits Q m) (names : NameTable)
    {callee : Method} {id : FrameId} {given : CallArgs} {block : Option ProcId}
    (carries : (Task.method callee id given block).Carries Q m) :
    ∃ cores, (Task.method callee id given block).RunsOn m cores ∧
      (runMethod names callee id given block m).Allots Q cores (AllottedEnd Q (Covered Q) m) a := by
  obtain ⟨within, known⟩ := CallArgs.forall_procs_append_iff.mp carries.procs
  have shows : m.Shows Q { id, kind := .method, name := callee.name, block } :=
    ⟨.of_none (carries.id id rfl) rfl rfl, known⟩
  refine allots_planned { id, kind := .method, name := callee.name, block } guards fits rfl
    fun plan hplan => ?_
  refine allots_inFrame guards fits names shows none (fun m' later => ?_) fun _ _ h =>
    (h.catchReturn id).catchBreak id
  refine allots_code callee.root ?_ ?_ fun _ => .eval callee.body
  · exact fun proc hproc => (known proc hproc).mono later
  · exact BindPlan.within_make (within.mono fun _ => Machine.Knows.mono later) hplan

theorem allots_runClosure (guards : m.Guards Q) (fits : a.Fits Q m) (names : NameTable)
    {proc : ProcId} {closure : Closure} {id : FrameId} {given : CallArgs} {block : Option ProcId}
    (carries : (Task.closure proc id given block).Carries Q m)
    (found : m.closures.get? proc = some closure) :
    ∃ cores, (Task.closure proc id given block).RunsOn m cores ∧
      (runClosure names fuel closure id given block m).Allots Q cores
        (AllottedEnd Q (Covered Q) m) a := by
  obtain ⟨knows, passed⟩ := List.forall_mem_cons.mp carries.procs
  obtain ⟨within, known⟩ := CallArgs.forall_procs_append_iff.mp passed
  have shows := shows_closureFrame guards (carries.id id rfl) knows found
  have own : (Task.closure proc id given block).activation? =
      some (closureFrame closure id).id := by
    rw [Regime.closureFrame_id]
    rfl
  refine allots_planned _ guards fits own fun plan hplan => ?_
  refine allots_inFrame guards fits names shows _ (fun m' later => ?_) fun _ _ h =>
    h.catchClosure closure id
  refine allots_code closure.literal ?_ ?_ fun _ => allots_runBody closure.body
  · exact fun proc hproc => (known proc hproc).mono later
  · exact BindPlan.within_make (within.mono fun _ => Machine.Knows.mono later) hplan

theorem allots_runProc (guards : m.Guards Q) (fits : a.Fits Q m) (names : NameTable)
    {proc : ProcId} {id : FrameId} {given : CallArgs} {block : Option ProcId}
    (carries : (Task.closure proc id given block).Carries Q m) :
    ∃ cores, (Task.closure proc id given block).RunsOn m cores ∧
      (runProc names fuel proc id given block m).Allots Q cores
        (AllottedEnd Q (Covered Q) m) a := by
  rw [runProc, gets_bind]
  cases found : m.closures.get? proc with
  | some closure => exact allots_runClosure guards fits names carries found
  | none => exact ⟨_, .here, .refl guards, fits, trivial⟩

theorem allots_runLoop (guards : m.Guards Q) (fits : a.Fits Q m) (names : NameTable)
    {block : ProcId} {id : FrameId} (carries : (Task.loop block id).Carries Q m) :
    ∃ cores, (Task.loop block id).RunsOn m cores ∧
      (runLoop names fuel block id m).Allots Q cores (AllottedEnd Q (Covered Q) m) a := by
  have known : m.Knows Q block := carries.procs block List.mem_cons_self
  have shows : m.Shows Q { id, kind := .builtin, name := .loop } :=
    ⟨.of_none (carries.id id rfl) rfl rfl, fun _ h => by cases h⟩
  refine ⟨_, .inside _ rfl, allots_inFrame guards fits names shows none (fun m' later => ?_)
    fun _ _ h => h.catchBreak id⟩
  exact allots_repeatBlock (known.mono later)

theorem allots_runProgram (guards : m.Guards Q) (fits : a.Fits Q m) (names : NameTable)
    {root : NodeId} {id : FrameId} (carries : (Task.program root id).Carries Q m) :
    ∃ cores, (Task.program root id).RunsOn m cores ∧
      (runProgram names root id m).Allots Q cores (AllottedEnd Q (Covered Q) m) a := by
  have shows : m.Shows Q { id, kind := .top, name := .empty } :=
    ⟨.of_none (carries.id id rfl) rfl rfl, fun _ h => by cases h⟩
  refine ⟨_, .inside { id, kind := .top, name := .empty } rfl, ?_⟩
  rw [runProgram]
  cases hpush : m.calls.push { id, kind := .top, name := .empty } with
  | error cause => exact ⟨.refl guards, fits, trivial⟩
  | ok calls =>
    have hcalls := CallStack.push_eq hpush
    have entered : m.Before ({ m with calls }.declareOwned root) :=
      ⟨fun _ _ h => h, Nat.le_of_eq (by rw [hcalls]; rfl)⟩
    have cores : ({ m with calls }.declareOwned root).cores =
        Frame.core { id, kind := .top, name := .empty } :: m.cores := by
      simp [Machine.cores, Machine.declareOwned, Machine.mapEnv, hcalls]
    have inner := Allots.eval root _ a entered ((guards.push hpush shows).declareOwned root)
      (fits.later entered)
    rw [cores] at inner
    refine Work.Allots.andThen (Work.Allots.andThen (inner.mono (fun _ h => h) ?_))
    intro a' ending m' hend
    exact hend.outside entered cores ⟨fun _ _ h => h, Nat.le_refl _⟩ hend.guards.pop
      (List.map_tail ..) ((hend.within.topEnding id).recordFrames names m')

end Comp

/-- The work of every task brings nothing into reach that was not, and runs activations only under
identities that it kept for them. -/
theorem Task.allots_work (program : Program) (fuel : Nat) (task : Task) {Q : FrameId → Prop}
    {m : Machine} {a : Allotment} (guards : m.Guards Q) (carries : task.Carries Q m)
    (fits : a.Fits Q m) :
    ∃ cores, task.RunsOn m cores ∧ (task.work program fuel m).Allots Q cores
      (Comp.AllottedEnd Q (Covered Q) m) a := by
  cases task with
  | node id =>
    refine ⟨_, .here, ?_⟩
    rw [Task.work]
    cases program.nodes.node? id with
    | some node => exact Comp.allots_node program fuel id node m a (.refl m) guards fits
    | none => exact Comp.Allots.fail _ m a (.refl m) guards fits
  | store site name value =>
    exact ⟨_, .here, .of_guards (guards.assignLocal name carries.procs) rfl rfl,
      fits.later ⟨fun _ _ h => h, Nat.le_refl _⟩, carries.procs⟩
  | program root id => exact Comp.allots_runProgram guards fits program.names carries
  | method callee id given block => exact Comp.allots_runMethod guards fits program.names carries
  | closure proc id given block => exact Comp.allots_runProc guards fits program.names carries
  | loop block id => exact Comp.allots_runLoop guards fits program.names carries

end ScriptSemantics
