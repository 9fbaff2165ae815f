import ScriptSemantics.Proofs.Activations
import ScriptSemantics.Proofs.Scopes
import ScriptSemantics.Proofs.Stack

/-!
# Growth of the machine

Whatever a task does and however it ends, it leaves every frame and every scope that it has gone
into, and notes the end of every loop.  All that stays of it are new scopes, bindings, closures,
methods and used-up frame identities.

## Main Definitions

* `Machine.Grows` — what no task changes, and what it only adds to

## Main Results

* `Program.grows_of_perform` — from any state of the machine, a task only lets it grow

## Design Notes

The conditions of this regime ask nothing of the states of a machine, so the result does not depend
on how a state was reached.  Frame identities are the exception: one that is set aside for a call
was given out before.
-/

namespace ScriptSemantics

/-- What no task changes, and what it only adds to. -/
structure Machine.Grows (m m' : Machine) : Prop where
  top : m'.env.top = m.env.top
  entered : m'.env.entered = m.env.entered
  frames : m'.calls.frames = m.calls.frames
  limit : m'.calls.limit = m.calls.limit
  resolution : m'.resolution = m.resolution
  nextId : m.calls.nextId ≤ m'.calls.nextId
  scopes : m.env.store.Extends m'.env.store

namespace Machine.Grows

variable {m m' m₁ m₂ m₃ : Machine}

theorem refl (m : Machine) : m.Grows m :=
  ⟨rfl, rfl, rfl, rfl, rfl, Nat.le_refl _, .refl _⟩

theorem trans (h : m₁.Grows m₂) (h' : m₂.Grows m₃) : m₁.Grows m₃ :=
  ⟨h'.top.trans h.top, h'.entered.trans h.entered, h'.frames.trans h.frames,
    h'.limit.trans h.limit, h'.resolution.trans h.resolution, Nat.le_trans h.nextId h'.nextId,
    h.scopes.trans h'.scopes⟩

/-- Nothing but bindings, closures, methods and the supply of identities is changed. -/
theorem keep (env : m.env.SameShape m'.env) (frames : m'.calls.frames = m.calls.frames)
    (limit : m'.calls.limit = m.calls.limit) (nextId : m.calls.nextId ≤ m'.calls.nextId)
    (resolution : m'.resolution = m.resolution) : m.Grows m' :=
  ⟨env.top, env.entered, frames, limit, resolution, nextId, .of_shape_eq env.shape⟩

/-- What is done inside a new scope is growth outside of it. -/
theorem leave {kind : ScopeKind} {parent : Option ScopeId} (h : m₁.Grows m')
    (entered : m₁.env = m.env.enter kind parent) (limit : m₁.calls.limit = m.calls.limit)
    (nextId : m.calls.nextId ≤ m₁.calls.nextId) (resolution : m₁.resolution = m.resolution)
    (left : m₂.env = m'.env.leave) (frames : m₂.calls.frames = m.calls.frames)
    (limit' : m₂.calls.limit = m'.calls.limit) (nextId' : m₂.calls.nextId = m'.calls.nextId)
    (resolution' : m₂.resolution = m'.resolution) : m.Grows m₂ where
  top := by
    rw [left]
    change m'.env.top = m.env.top
    rw [h.top, entered]
    rfl
  entered := by
    rw [left]
    change m'.env.entered.tail = m.env.entered
    rw [h.entered, entered]
    rfl
  frames := frames
  limit := by rw [limit', h.limit, limit]
  resolution := by rw [resolution', h.resolution, resolution]
  nextId := by
    rw [nextId']
    exact Nat.le_trans nextId h.nextId
  scopes := by
    have inner : m.env.store.Extends m₁.env.store := by
      rw [entered]
      exact ScopeStore.extends_add _ _ _
    refine (inner.trans h.scopes).trans (.of_shape_eq ?_)
    rw [left]
    rfl

/-- What is done inside a transparent scope is growth outside of it. -/
theorem leaveTransparent (h : (m.mapEnv .enterTransparent).Grows m') :
    m.Grows (m'.mapEnv .leave) :=
  h.leave rfl rfl (Nat.le_refl _) rfl rfl h.frames rfl rfl rfl

theorem addLambda (m : Machine) (proc : ProcId) : m.Grows (m.addLambda proc).2 := by
  rw [Machine.addLambda]
  exact .keep (.refl _) rfl rfl (Nat.le_refl _) rfl

/-- The end of a loop undoes the note of its beginning. -/
theorem endLoop (h : (m.mapCalls .beginLoop).Grows m') : m.Grows (m'.mapCalls .endLoop) where
  top := h.top
  entered := h.entered
  frames := CallStack.endLoop_frames h.frames
  limit := by
    change m'.calls.endLoop.limit = m.calls.limit
    rw [CallStack.endLoop_limit, h.limit]
    exact CallStack.beginLoop_limit
  resolution := h.resolution
  nextId := by
    change m.calls.nextId ≤ m'.calls.endLoop.nextId
    rw [CallStack.endLoop_nextId, ← CallStack.beginLoop_nextId]
    exact h.nextId
  scopes := h.scopes

/-- What is done in an activation is growth outside of it. -/
theorem deactivate {frame : Frame} {parent : Option ScopeId} {calls : CallStack}
    (hpush : m.calls.push frame = .ok calls) (h : (m.activate calls parent).Grows m') :
    m.Grows m'.deactivate := by
  have hcalls := CallStack.push_eq hpush
  refine h.leave rfl (by rw [hcalls]; rfl) (Nat.le_of_eq (by rw [hcalls]; rfl)) rfl rfl ?_ rfl rfl rfl
  change m'.calls.frames.tail = m.calls.frames
  rw [h.frames]
  change calls.frames.tail = m.calls.frames
  rw [hcalls]
  rfl

/-- What a program does in its frame is growth outside of it. -/
theorem leaveProgram {frame : Frame} {calls : CallStack} {root : NodeId}
    (hpush : m.calls.push frame = .ok calls)
    (h : ({ m with calls }.declareOwned root).Grows m') : m.Grows (m'.mapCalls .pop) := by
  have hcalls := CallStack.push_eq hpush
  have hdeclare := Environment.sameShape_declareAll m.env (m.resolution.ownedNames root)
  refine ⟨h.top.trans hdeclare.top, h.entered.trans hdeclare.entered, ?_, h.limit.trans ?_,
    h.resolution, ?_, ?_⟩
  · change m'.calls.frames.tail = m.calls.frames
    rw [h.frames]
    change calls.frames.tail = m.calls.frames
    rw [hcalls]
    rfl
  · change calls.limit = m.calls.limit
    rw [hcalls]
  · refine Nat.le_trans (Nat.le_of_eq ?_) h.nextId
    change m.calls.nextId = calls.nextId
    rw [hcalls]
  · exact (ScopeStore.Extends.of_shape_eq hdeclare.shape).trans h.scopes

end Machine.Grows

/-! ### The regime of growth -/

namespace Growth

/-- A machine may only grow. -/
def regime : Regime Unit where
  note _ _ _ := ()
  ready _ _ := True
  here _ _ _ := True
  stores _ _ _ _ := True
  inside _ _ _ := True
  reserved _ id m := id.index < m.calls.nextId
  start _ _ _ _ := True
  finish _ m _ _ m' := m.Grows m'
  step _ _ m _ m' := m.Grows m'
  exits _ _ := True
  crosses _ := True

theorem steps : regime.Steps where
  refl _ := .refl _
  trans := .trans
  mono _ h := h
  nextId_le h := h.nextId
  ready _ _ := trivial
  here _ _ := trivial
  inside _ _ := trivial
  reserved hstep _ hid := Nat.lt_of_lt_of_le hid hstep.nextId
  exits _ _ := trivial

theorem nodeLaws (program : Program) : regime.NodeLaws program where
  note := rfl
  noteStore := rfl
  ready _ := trivial
  operand _ _ _ := trivial
  target _ _ _ := trivial
  store _ := .keep (Environment.sameShape_assignLocal _ _) rfl rfl (Nat.le_refl _) rfl
  define _ _ := .keep (.refl _) rfl rfl (Nat.le_refl _) rfl
  close _ _ _ _ _ := .keep (.refl _) rfl rfl (Nat.le_refl _) rfl
  addLambda _ := .addLambda _ _
  allocate _ := ⟨.keep (.refl _) rfl rfl (Nat.le_succ _) rfl, Nat.lt_succ_self _⟩
  enterScope _ := trivial
  leaveScope {n g id m g' m'} _ hstep := by
    exact ⟨Machine.Grows.leaveTransparent hstep, fun _ _ => trivial⟩
  beginLoop _ := trivial
  endLoop _ hstep := ⟨Machine.Grows.endLoop hstep, fun _ _ _ => trivial⟩

theorem exitLaws : regime.ExitLaws where
  error := trivial
  returnTo _ _ _ := trivial
  breakLoop _ _ _ := trivial
  breakLambda _ _ _ := trivial
  breakBlock _ _ _ _ _ := trivial
  next _ _ := trivial
  redo _ _ := trivial

theorem activationLaws : regime.ActivationLaws where
  reserved h := h
  note _ _ := .refl _
  enterLoop _ _ _ := trivial
  enterCode _ _ _ :=
    ⟨.keep (Environment.sameShape_declareAll _ _) rfl rfl (Nat.le_refl _) rfl, trivial⟩
  operand _ _ := trivial
  define _ _ _ := .keep (Environment.sameShape_define _ _) rfl rfl (Nat.le_refl _) rfl
  leave _ _ hpush _ hstep :=
    ⟨Machine.Grows.deactivate hpush hstep, fun _ _ _ => ⟨trivial, trivial⟩⟩
  crosses := trivial

theorem programLaws (program : Program) : regime.ProgramLaws program where
  refuse _ _ := .refl _
  enter _ _ := trivial
  leave _ hpush hstep _ := Machine.Grows.leaveProgram hpush hstep

/-- The operations of the machine only let it grow. -/
theorem lawful (program : Program) : regime.Lawful program where
  steps := steps
  nodes := nodeLaws program
  starts := exitLaws
  activations := activationLaws
  programs := programLaws program

end Growth

namespace Program

variable {program : Program} {fuel : Nat} {m m' : Machine} {ending : Ending Value}

/-- A task that may be performed at all only lets the machine grow, however it ends. -/
theorem grows_of_perform (task : Task) (hpre : Growth.regime.contract.pre () task m)
    (h : program.perform fuel task m = some (ending, m')) : m.Grows m' := by
  have hpost := (Growth.lawful program).kept.post_of_perform task hpre h
  cases task with
  | program => exact hpost
  | node | store | method | closure | loop => exact hpost.1

/-- The evaluation of a node only lets the machine grow, however it ends. -/
theorem grows_of_eval {id : NodeId} (h : program.perform fuel (.node id) m = some (ending, m')) :
    m.Grows m' :=
  grows_of_perform (.node id) trivial h

end Program

end ScriptSemantics
