import ScriptSemantics.Proofs.Constructs

/-!
# Activations under a regime

Programs, methods, closures and the looping builtin run in activations of their own.  Each of them
keeps the contract of a lawful regime, and with the nodes this is every task.

## Main Results

* `Regime.Lawful.kept` — the work of every task keeps the contract of a lawful regime
-/

namespace ScriptSemantics.Regime

variable {γ : Type} {R : Regime γ} {n : Nat} {P : γ → Machine → Prop} {program : Program}

/-! ### What activations absorb -/

/-- A catching function hands on only exits that a frame does not absorb, as they are. -/
def Catches (frame : Frame) (catching : Ending Value → Ending Value) : Prop :=
  ∀ ending e, catching ending = .error e → ending = .error e ∧ frame.Passes e

/-- An exit that comes through where breaks are caught is no break to this activation. -/
theorem catchBreak_error {id : FrameId} {ending : Ending Value} {e : Exit}
    (h : Comp.catchBreak id ending = .error e) :
    ending = .error e ∧ ∀ value, e ≠ .breakTo (.frame id) value := by
  rw [Comp.catchBreak.eq_def] at h
  split at h
  next target value =>
    split at h
    next => cases h
    next hne =>
      cases h
      refine ⟨rfl, fun value' heq => hne ?_⟩
      cases heq
      rfl
  next other =>
    subst h
    refine ⟨rfl, fun value heq => ?_⟩
    cases heq
    exact other id value rfl

/-- An exit that comes through where returns are caught is no return to this activation. -/
theorem catchReturn_error {id : FrameId} {ending : Ending Value} {e : Exit}
    (h : Comp.catchReturn id ending = .error e) :
    ending = .error e ∧ ∀ value, e ≠ .returnTo id value := by
  rw [Comp.catchReturn.eq_def] at h
  split at h
  next target value =>
    split at h
    next => cases h
    next hne =>
      cases h
      refine ⟨rfl, fun value' heq => hne ?_⟩
      cases heq
      rfl
  next other =>
    subst h
    refine ⟨rfl, fun value heq => ?_⟩
    cases heq
    exact other id value rfl

@[simp]
theorem closureFrame_id (closure : Closure) (id : FrameId) :
    (Comp.closureFrame closure id).id = id := by
  unfold Comp.closureFrame
  split <;> rfl

/-- An exit passes a frame if it does not address it, or the frame does not take it. -/
theorem passes_of_ne {frame : Frame} {e : Exit}
    (hbreak : ∀ value, e ≠ .breakTo (.frame frame.id) value)
    (hreturn : frame.kind = .block ∨ frame.kind = .builtin ∨
      ∀ value, e ≠ .returnTo frame.id value) :
    frame.Passes e := by
  cases e with
  | returnTo target value =>
    intro htarget
    subst htarget
    rcases hreturn with h | h | h
    · exact .inl h
    · exact .inr h
    · exact absurd rfl (h value)
  | breakTo target value =>
    cases target with
    | loop => trivial
    | frame target =>
      intro htarget
      subst htarget
      exact hbreak value rfl
  | _ => trivial

/-- A method takes returns and breaks to its activation, and lets other exits pass. -/
theorem catches_method {frame : Frame} :
    Catches frame fun ending => Comp.catchBreak frame.id (Comp.catchReturn frame.id ending) := by
  intro ending e h
  obtain ⟨h, hbreak⟩ := catchBreak_error h
  obtain ⟨h, hreturn⟩ := catchReturn_error h
  exact ⟨h, passes_of_ne hbreak (.inr (.inr hreturn))⟩

/-- A closure takes what is addressed to its frame, and lets other exits pass. -/
theorem catches_closure {closure : Closure} {id : FrameId} :
    Catches (Comp.closureFrame closure id) (Comp.catchClosure closure id) := by
  intro ending e h
  obtain ⟨h, hbreak⟩ := catchBreak_error h
  rw [← closureFrame_id closure id] at hbreak
  split at h
  next =>
    obtain ⟨h, hreturn⟩ := catchReturn_error h
    rw [← closureFrame_id closure id] at hreturn
    exact ⟨h, passes_of_ne hbreak (.inr (.inr hreturn))⟩
  next hlambda =>
    refine ⟨h, passes_of_ne hbreak (.inl ?_)⟩
    rw [Comp.closureFrame, if_neg hlambda]

/-- A built-in loop takes breaks to its activation. -/
theorem catches_loop {frame : Frame} (hkind : frame.kind = .builtin) :
    Catches frame (Comp.catchBreak frame.id) := by
  intro ending e h
  obtain ⟨h, hbreak⟩ := catchBreak_error h
  exact ⟨h, passes_of_ne hbreak (.inr (.inl hkind))⟩

/-- Recording frames changes errors only. -/
theorem allowsEnding_recordFrames (laws : R.Lawful program) {names : NameTable} {m m' : Machine}
    {ending : Ending Value} (h : R.AllowsEnding ending m') :
    R.AllowsEnding (Comp.recordFrames names m ending) m' := by
  rw [Comp.recordFrames.eq_def]
  split
  next => exact allowsEnding_error laws.starts.error
  next => exact h

/-! ### Going in and out -/

section Frames

variable (laws : R.Lawful program) {g : γ} {task : Task} {m : Machine} {frame : Frame}
  {parent : Option ScopeId} {code : Option Code}

/-- How an activation that was entered with the first notes and machine may end. -/
def Closes (R : Regime γ) (id : FrameId) (g : γ) (m : Machine) (g' : γ) (ending : Ending Value)
    (m' : Machine) : Prop :=
  R.step id.index g m g' m' ∧ R.AllowsEnding ending m' ∧ ∀ e, ending = .error e → R.crosses e

/-- After a task that opens an activation, the activation is closed. -/
theorem post_of_opens (opens : task.Opens m frame parent code) :
    R.contract.post g task m = R.Closes frame.id g m := by
  cases opens with
  | method | loop => rfl
  | closure proc id =>
    rw [closureFrame_id]
    rfl

/-- An activation is begun between operations, with an identity that was taken for it. -/
theorem ready_of_opens (hpre : R.contract.pre g task m) (opens : task.Opens m frame parent code) :
    R.ready g m ∧ R.reserved g frame.id m := by
  cases opens with
  | method => exact ⟨hpre.1, hpre.2.1⟩
  | closure => exact closureFrame_id .. ▸ hpre
  | loop => exact hpre

include laws

/-- The identity of an activation has been given out before. -/
theorem index_lt_of_opens (hpre : R.contract.pre g task m)
    (opens : task.Opens m frame parent code) : frame.id.index < m.calls.nextId :=
  laws.activations.reserved (ready_of_opens hpre opens).2

/-- Before its frame is pushed, an activation can only fail. -/
theorem closes_error (hpre : R.contract.pre g task m) (hne : ∀ root id, task ≠ .program root id)
    {id : FrameId} {ending : Ending Value}
    (error : ∀ e, ending = .error e → ∃ error, e = .error error) :
    R.Closes id g m (R.note g task m) ending m := by
  refine ⟨laws.activations.note hpre hne, fun e he => ?_, fun e he => ?_⟩
  · obtain ⟨error, rfl⟩ := error e he
    exact laws.starts.error
  · obtain ⟨error, rfl⟩ := error e he
    exact laws.activations.crosses

/-- An activation ends as it should when its body does. -/
theorem meets_inFrame (opens : task.Opens m frame parent code) (hpre : R.contract.pre g task m)
    {names : NameTable} {catching : Ending Value → Ending Value} (catches : Catches frame catching)
    {x : Comp Value}
    (body : ∀ calls, m.calls.push frame = .ok calls →
      (x (m.activate calls parent)).Meets R.contract
        (R.Ends (frame.id.index + 1) (R.note g task m) (m.activate calls parent))
        (R.note g task m)) :
    (Comp.mapEnding (fun _ => catching) (Comp.inFrame names frame parent x) m).Meets R.contract
      (R.Closes frame.id g m) (R.note g task m) := by
  refine Work.Meets.andThen ?_
  rw [Comp.inFrame, Comp.withFrame]
  cases hpush : m.calls.push frame with
  | error cause =>
    refine closes_error laws hpre opens.ne_program fun e he => ?_
    obtain ⟨hcause, -⟩ := catches _ e he
    cases hcause
    exact ⟨_, rfl⟩
  | ok calls =>
    refine Work.Meets.andThen (Work.Meets.andThen ((body calls hpush).mono ?_))
    intro g' ending m' hend
    obtain ⟨hstep, hexits⟩ :=
      laws.activations.leave hpre opens hpush (Nat.lt_succ_self _) hend.1
    have passed : ∀ e, catching (Comp.recordFrames names m' ending) = .error e →
        R.exits e m'.deactivate ∧ R.crosses e := by
      intro e he
      obtain ⟨hrecorded, hpasses⟩ := catches _ e he
      exact hexits e hpasses (allowsEnding_recordFrames laws hend.2 e hrecorded)
    exact ⟨hstep, fun e he => (passed e he).1, fun e he => (passed e he).2⟩

end Frames

/-! ### Bodies -/

section Bodies

variable (laws : R.Lawful program)

include laws

/-- The conditions inside of an activation stand as long as the steps are those of the regime. -/
theorem Stable.of_inside (code : Code) : R.Stable n (fun g m => R.inside g code m) where
  ready _ _ h := laws.nodes.ready
    (laws.activations.operand h (List.mem_append_right _ List.mem_cons_self))
  step := laws.steps.inside

/-- A parameter may be defined inside of its own activation. -/
theorem runs_defineParam {code : Code} {name : Name} {value : Value}
    (hname : name ∈ code.params.map Param.name) :
    R.Runs n (fun g m => R.inside g code m) (Comp.defineParam name value) := by
  rw [Comp.defineParam]
  split
  next => exact Runs.pure laws (Stable.of_inside (n := n) laws code).ready _
  next hempty =>
    exact Runs.modify fun g m h => laws.activations.define h hname (Bool.eq_false_iff.mpr hempty)

/-- The parameters of an activation are bound, with fallbacks that are parts of its code. -/
theorem runs_bindParams {code : Code} {block : Option ProcId} {plan : BindPlan}
    (hplan : plan.DrawnFrom code.params) :
    R.Runs n (fun g m => R.inside g code m) (Comp.bindParams block plan) := by
  have stable : R.Stable n (fun g m => R.inside g code m) := .of_inside laws code
  induction plan with
  | nil => exact Runs.pure laws stable.ready _
  | cons param rest ih =>
    have hrest : BindPlan.DrawnFrom code.params rest :=
      ⟨fun p hp => hplan.names p (List.mem_cons_of_mem _ hp),
        fun p hp => hplan.fallbacks p (List.mem_cons_of_mem _ hp)⟩
    have received : R.Runs n (fun g m => R.inside g code m)
        (Comp.binding block param.binding) := by
      cases hbinding : param.binding with
      | value value => exact Runs.pure laws stable.ready _
      | block => exact Runs.pure laws stable.ready _
      | fallback expr =>
        refine Runs.eval laws.steps fun g m h => laws.activations.operand h ?_
        exact List.mem_append_left _ (hplan.fallbacks param List.mem_cons_self expr hbinding)
    refine Runs.bind laws.steps stable received fun value => ?_
    exact Runs.bind laws.steps stable
      (runs_defineParam laws (hplan.names param List.mem_cons_self)) fun _ => ih hrest

/-- The body of an activation is run after the names that it owns are declared and its parameters
are bound. -/
theorem meets_body {g : γ} {task : Task} {m : Machine} {frame : Frame} {parent : Option ScopeId}
    {code : Code} (opens : task.Opens m frame parent (some code))
    (hpre : R.contract.pre g task m) {calls : CallStack} (hpush : m.calls.push frame = .ok calls)
    {plan : BindPlan} (hplan : plan.DrawnFrom code.params) {block : Option ProcId} {x : Comp Value}
    (hx : R.Runs (frame.id.index + 1) (fun g m => R.inside g code m) x) :
    ((do
      Comp.modify (·.declareOwned code.root)
      Comp.bindParams block plan
      x : Comp Value) (m.activate calls parent)).Meets R.contract
        (R.Ends (frame.id.index + 1) (R.note g task m) (m.activate calls parent))
        (R.note g task m) := by
  have stable : R.Stable (frame.id.index + 1) (fun g m => R.inside g code m) :=
    .of_inside laws code
  obtain ⟨hstep, hinside⟩ := laws.activations.enterCode (n := frame.id.index + 1) hpre opens hpush
  have hid : frame.id.index + 1 ≤ m.calls.nextId := index_lt_of_opens laws hpre opens
  have hnext : m.calls.nextId = calls.nextId := by rw [CallStack.push_eq hpush]
  refine ((Runs.bind laws.steps stable (runs_bindParams laws hplan) fun _ => hx)
    _ _ hinside (hnext ▸ hid)).mono fun g' ending m' hend => ?_
  exact ⟨laws.steps.trans hstep hend.1, hend.2⟩

/-- The body of a closure runs, again after each `redo`. -/
theorem runs_runBody {body : NodeId} {fuel : Nat} (stable : R.Stable n P)
    (here : ∀ g m, P g m → R.here g body m) : R.Runs n P (Comp.runBody body fuel) := by
  induction fuel with
  | zero => exact fun _ _ _ _ => trivial
  | succ fuel ih =>
    refine Runs.attempt_bind laws.steps stable (Runs.eval laws.steps here) fun ending => ?_
    have stable' := stable.andAllows laws.steps ending
    split
    · exact ih.weaken fun _ _ h => h.1
    · exact Runs.pure laws stable'.ready _
    · exact Runs.settle laws stable'.ready fun _ _ h => h.2

/-- A built-in loop calls its block until it is left by an exit. -/
theorem runs_repeatBlock {block : ProcId} {rounds : Nat} :
    R.Runs n R.ready (Comp.repeatBlock block rounds) := by
  have stable : R.Stable n R.ready := .of_ready laws.steps
  induction rounds with
  | zero => exact fun _ _ _ _ => trivial
  | succ rounds ih =>
    exact runs_allocate laws stable fun callId le =>
      Runs.bind_next laws.steps (fun hstep h => laws.steps.ready hstep h.1)
        (runs_perform_closure laws le) fun _ => ih

end Bodies

/-! ### Tasks -/

section Tasks

variable (laws : R.Lawful program) {g : γ} {m : Machine} {id : FrameId}

include laws

/-- A call of a method meets the contract of its task. -/
theorem meets_runMethod {callee : Method} {given : CallArgs} {block : Option ProcId}
    (hpre : R.contract.pre g (.method callee id given block) m) :
    (Comp.runMethod program.names callee id given block m).Meets R.contract
      (R.contract.post g (.method callee id given block) m)
      (R.note g (.method callee id given block) m) := by
  have opens := Task.Opens.method (m := m) callee id given block
  rw [post_of_opens opens, Comp.runMethod]
  cases hplan : BindPlan.make program.names callee.params .strict given with
  | error cause =>
    refine closes_error laws hpre opens.ne_program fun e he => ?_
    cases he
    exact ⟨_, rfl⟩
  | ok plan =>
    refine meets_inFrame laws opens hpre catches_method fun calls hpush => ?_
    refine meets_body laws opens hpre hpush (BindPlan.drawnFrom_make hplan) ?_
    refine Runs.eval laws.steps fun g m h => laws.activations.operand h ?_
    exact List.mem_append_right _ List.mem_cons_self

/-- A call of a closure meets the contract of its task. -/
theorem meets_runClosure {proc : ProcId} {fuel : Nat} {closure : Closure} {given : CallArgs}
    {block : Option ProcId} (found : m.closures.get? proc = some closure)
    (hpre : R.contract.pre g (.closure proc id given block) m) :
    (Comp.runClosure program.names fuel closure id given block m).Meets R.contract
      (R.contract.post g (.closure proc id given block) m)
      (R.note g (.closure proc id given block) m) := by
  have opens := Task.Opens.closure (m := m) proc id given block found
  rw [post_of_opens opens, Comp.runClosure]
  cases hplan : BindPlan.make program.names closure.params (.ofLambda closure.isLambda) given with
  | error cause =>
    refine closes_error laws hpre opens.ne_program fun e he => ?_
    cases he
    exact ⟨_, rfl⟩
  | ok plan =>
    refine meets_inFrame laws opens hpre catches_closure fun calls hpush => ?_
    refine meets_body laws opens hpre hpush (BindPlan.drawnFrom_make hplan) ?_
    refine runs_runBody laws (Stable.of_inside laws _) fun g m h => ?_
    exact laws.activations.operand h (List.mem_append_right _ List.mem_cons_self)

/-- So does a call of a closure that may be missing. -/
theorem meets_runProc {proc : ProcId} {fuel : Nat} {given : CallArgs} {block : Option ProcId}
    (hpre : R.contract.pre g (.closure proc id given block) m) :
    (Comp.runProc program.names fuel proc id given block m).Meets R.contract
      (R.contract.post g (.closure proc id given block) m)
      (R.note g (.closure proc id given block) m) := by
  cases found : m.closures.get? proc with
  | none =>
    rw [Comp.runProc, Comp.gets_bind, found]
    refine closes_error laws hpre nofun fun e he => ?_
    cases he
    exact ⟨_, rfl⟩
  | some closure =>
    rw [Comp.runProc, Comp.gets_bind, found]
    exact meets_runClosure laws found hpre

/-- A built-in loop meets the contract of its task. -/
theorem meets_runLoop {fuel : Nat} {block : ProcId}
    (hpre : R.contract.pre g (.loop block id) m) :
    (Comp.runLoop program.names fuel block id m).Meets R.contract
      (R.contract.post g (.loop block id) m) (R.note g (.loop block id) m) := by
  have opens := Task.Opens.loop (m := m) block id
  rw [post_of_opens opens]
  refine meets_inFrame laws opens hpre (catches_loop rfl) fun calls hpush => ?_
  have hid : id.index + 1 ≤ m.calls.nextId := index_lt_of_opens laws hpre opens
  have hnext : m.calls.nextId = calls.nextId := by rw [CallStack.push_eq hpush]
  exact runs_repeatBlock laws _ _ (laws.activations.enterLoop hpre opens hpush) (hnext ▸ hid)

/-- A program meets the contract of its task. -/
theorem meets_runProgram {root : NodeId} (hpre : R.start g root id m) :
    (Comp.runProgram program.names root id m).Meets R.contract
      (R.finish g m) (R.note g (.program root id) m) := by
  rw [Comp.runProgram]
  cases hpush : m.calls.push { id, kind := .top, name := .empty } with
  | error cause => exact laws.programs.refuse hpre hpush
  | ok calls =>
    have here := laws.programs.enter hpre hpush
    refine Work.Meets.andThen (Work.Meets.andThen ?_)
    refine (Runs.eval (n := 0) (P := fun g m => R.here g root m) laws.steps (fun _ _ h => h)
      _ _ here (Nat.zero_le _)).mono fun g' ending m' hend => ?_
    exact laws.programs.leave hpre hpush hend.1 hend.2

end Tasks

/-- The work of every task keeps the contract of a lawful regime. -/
theorem Lawful.kept (laws : R.Lawful program) : R.contract.Kept program := by
  intro fuel g task m hpre
  cases task with
  | node id =>
    have here : R.here g id m := hpre
    show (Task.work program fuel (.node id) m).Meets R.contract
      (R.Ends m.calls.nextId g m) (R.note g (.node id) m)
    rw [laws.nodes.note, Task.work]
    cases hnode : program.nodes.node? id with
    | none => exact ⟨laws.steps.refl (laws.nodes.ready here), allowsEnding_error laws.starts.error⟩
    | some node => exact runs_node laws hnode g m here (Nat.le_refl _)
  | store site name value =>
    have stores : R.stores g site name m := hpre
    show (Task.work program fuel (.store site name value) m).Meets R.contract
      (R.Ends m.calls.nextId g m) (R.note g (.store site name value) m)
    rw [laws.nodes.noteStore]
    exact ⟨laws.nodes.store stores, allowsEnding_ok⟩
  | program root id => exact meets_runProgram laws hpre
  | method callee id given block => exact meets_runMethod laws hpre
  | closure proc id given block => exact meets_runProc laws hpre
  | loop block id => exact meets_runLoop laws hpre

end ScriptSemantics.Regime
