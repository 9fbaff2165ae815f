import ScriptSemantics.Proofs.MirroredWork

/-!
# Identities in reach

Which frame identities are in reach of the code: those of the frames, and those that frames and
closures name as the targets of exits, as far as the code can get at the closures.  No operation
brings an old identity back into reach.

## Main Definitions

* `Machine.Knows` — a closure that was made, and all of whose targets are of some kind
* `Machine.Exposes` — only identities of some kind are in reach
* `Machine.Guards` — the same, and new identities are of this kind
* `Task.Carries` — only such identities are in reach through what a task is given

## Main Results

* `Machine.Guards.makeClosure`, `Machine.Guards.activate`, ... — one lemma for each operation
* `Machine.Guards.avoids` — what is of another kind is out of reach

## Design Notes

A closure that was just made for a call is not in reach before the call.  So the closures in reach
are not those of the closure table, but those that occur in bindings, in frames and in other
closures.
-/

namespace ScriptSemantics

/-! ### Values -/

section Mono

variable {P P' : ProcId → Prop} (weaker : ∀ proc, P proc → P' proc)

include weaker

/-- What holds of the closures in a value may be weakened. -/
theorem Value.Within.mono {value : Value} (h : value.Within P) : value.Within P' :=
  fun proc hproc => weaker proc (h proc hproc)

/-- What holds of the closures in the value of an exit may be weakened. -/
theorem Exit.Within.mono {e : Exit} (h : e.Within P) : e.Within P' := by
  cases e with
  | returnTo | breakTo | next => exact Value.Within.mono weaker h
  | error | redo => trivial

/-- What holds of the closures in arguments may be weakened. -/
theorem CallArgs.Within.mono {args : CallArgs} (h : args.Within P) : args.Within P' where
  positional value hvalue := Value.Within.mono weaker (h.positional value hvalue)
  keywords pair hpair := Value.Within.mono weaker (h.keywords pair hpair)

theorem Binding.Within.mono {binding : Binding} (h : binding.Within P) : binding.Within P' := by
  cases binding with
  | value => exact Value.Within.mono weaker h
  | fallback | block => trivial

end Mono

/-- Only closures of some kind occur in an ending, and its value is as wanted. -/
def Ending.Within {α : Type} (good : α → Prop) (P : ProcId → Prop) : Ending α → Prop
  | .ok a => good a
  | .error e => e.Within P

/-! ### Targets -/

/-- All but one of some identities. -/
def AllBut (Q : FrameId → Prop) (id other : FrameId) : Prop :=
  Q other ∧ other ≠ id

/-- Closures and frames name the activations that their exits leave; these are of some kind. -/
structure Closure.Names (Q : FrameId → Prop) (closure : Closure) : Prop where
  home : ∀ id, closure.home = some id → Q id
  breakTag : ∀ id, closure.breakTag = some id → Q id

/-- The identities of a frame are of some kind. -/
structure Frame.Names (Q : FrameId → Prop) (frame : Frame) : Prop where
  id : Q frame.id
  home : ∀ id, frame.home = some id → Q id
  breakTag : ∀ id, frame.breakTag = some id → Q id

/-- What holds of the identities of a frame may be weakened. -/
theorem Frame.Names.mono {Q Q' : FrameId → Prop} {frame : Frame} (h : frame.Names Q)
    (weaker : ∀ id, Q id → Q' id) : frame.Names Q' :=
  ⟨weaker _ h.id, fun id hid => weaker id (h.home id hid),
    fun id hid => weaker id (h.breakTag id hid)⟩

/-- A frame that names no target. -/
theorem Frame.Names.of_none {Q : FrameId → Prop} {frame : Frame} (id : Q frame.id)
    (home : frame.home = none) (breakTag : frame.breakTag = none) : frame.Names Q where
  id := id
  home _ h := by
    rw [home] at h
    cases h
  breakTag _ h := by
    rw [breakTag] at h
    cases h

/-- A literal is at home in a frame or where the frame is at home itself. -/
theorem Frame.Names.homeForLiterals {Q : FrameId → Prop} {frame : Frame} (h : frame.Names Q)
    {id : FrameId} (hid : frame.homeForLiterals = some id) : Q id := by
  rw [Frame.homeForLiterals] at hid
  split at hid
  · cases hid
    exact h.id
  · cases hid
    exact h.id
  · exact h.home id hid
  · cases hid
  · cases hid

/-! ### Machines -/

namespace Machine

/-- Closures stay what they are, and identities are not given out again. -/
structure Before (m m' : Machine) : Prop where
  closures : ∀ proc closure, m.closures.get? proc = some closure →
    m'.closures.get? proc = some closure
  nextId : m.calls.nextId ≤ m'.calls.nextId

theorem Before.refl (m : Machine) : m.Before m :=
  ⟨fun _ _ h => h, Nat.le_refl _⟩

theorem Before.trans {m₁ m₂ m₃ : Machine} (h : m₁.Before m₂) (h' : m₂.Before m₃) : m₁.Before m₃ :=
  ⟨fun proc closure hproc => h'.closures proc closure (h.closures proc closure hproc),
    Nat.le_trans h.nextId h'.nextId⟩

/-- An identity of some kind that was given out. -/
def Given (Q : FrameId → Prop) (m : Machine) (id : FrameId) : Prop :=
  id.index < m.calls.nextId ∧ Q id

/-- An identity that was given out is not the next one. -/
theorem Given.ne_nextId {Q : FrameId → Prop} {m : Machine} {id : FrameId} (h : m.Given Q id) :
    id ≠ ⟨m.calls.nextId⟩ := by
  rintro rfl
  exact Nat.lt_irrefl _ h.1

/-- A closure that was made and whose targets are of some kind. -/
def Knows (Q : FrameId → Prop) (m : Machine) (proc : ProcId) : Prop :=
  ∃ closure, m.closures.get? proc = some closure ∧ closure.Names (m.Given Q)

/-- A frame with identities of some kind and a block that names such identities. -/
structure Shows (Q : FrameId → Prop) (m : Machine) (frame : Frame) : Prop where
  names : frame.Names (m.Given Q)
  block : ∀ proc, frame.block = some proc → m.Knows Q proc

/-- Only identities of some kind are in reach of the code. -/
structure Exposes (Q : FrameId → Prop) (m : Machine) : Prop where
  bindings : ∀ scope name value, m.env.store.binding? scope name = some value →
    value.Within (m.Knows Q)
  frames : ∀ frame ∈ m.calls.frames, m.Shows Q frame
  closures : ∀ proc closure, m.closures.get? proc = some closure →
    ∀ block, closure.outerBlock = some block → m.Knows Q block

/-- Only identities of some kind are in reach of the code, and those that are given out next are of
this kind as well. -/
structure Guards (Q : FrameId → Prop) (m : Machine) : Prop extends m.Exposes Q where
  supply : ∀ id : FrameId, m.calls.nextId ≤ id.index → Q id

variable {Q : FrameId → Prop} {m m' : Machine}

/-- What was given out stays given out. -/
theorem Given.mono (before : m.Before m') {id : FrameId} (h : m.Given Q id) : m'.Given Q id :=
  ⟨Nat.lt_of_lt_of_le h.1 before.nextId, h.2⟩

/-- A closure that was made stays known, with the same targets. -/
theorem Knows.mono (before : m.Before m') {proc : ProcId} (h : m.Knows Q proc) :
    m'.Knows Q proc := by
  obtain ⟨closure, hclosure, names⟩ := h
  exact ⟨closure, before.closures proc closure hclosure,
    fun id hid => (names.home id hid).mono before,
    fun id hid => (names.breakTag id hid).mono before⟩

/-- What a frame shows is still known later. -/
theorem Shows.mono (before : m.Before m') {frame : Frame} (h : m.Shows Q frame) :
    m'.Shows Q frame :=
  ⟨h.names.mono fun _ => Given.mono before, fun proc hproc => (h.block proc hproc).mono before⟩

/-- The loops of a frame name no identities. -/
theorem Shows.counting {frame : Frame} (h : m.Shows Q frame) (depth : Nat) :
    m.Shows Q { frame with loopDepth := depth } :=
  ⟨⟨h.names.id, h.names.home, h.names.breakTag⟩, h.block⟩

/-! ### Other kinds -/

section Weaken

variable {Q' : FrameId → Prop} (weaker : ∀ id, m.Given Q id → Q' id)

include weaker

/-- An identity that was given out may be of a wider kind. -/
theorem Given.weaken {id : FrameId} (h : m.Given Q id) : m.Given Q' id :=
  ⟨h.1, weaker id h⟩

/-- The targets of a known closure may be of a wider kind. -/
theorem Knows.weaken {proc : ProcId} (h : m.Knows Q proc) : m.Knows Q' proc := by
  obtain ⟨closure, hclosure, names⟩ := h
  exact ⟨closure, hclosure, fun id hid => (names.home id hid).weaken weaker,
    fun id hid => (names.breakTag id hid).weaken weaker⟩

/-- Where all identities that were given out are of some kind, only such are in reach. -/
theorem Exposes.weaken (h : m.Exposes Q) : m.Exposes Q' where
  bindings scope name value hvalue :=
    (h.bindings scope name value hvalue).mono fun _ => Knows.weaken weaker
  frames frame hframe :=
    have shows := h.frames frame hframe
    ⟨shows.names.mono fun _ => Given.weaken weaker,
      fun proc hproc => (shows.block proc hproc).weaken weaker⟩
  closures proc closure hclosure block hblock :=
    (h.closures proc closure hclosure block hblock).weaken weaker

end Weaken

/-- What is in reach may be of a wider kind. -/
theorem Guards.mono {Q' : FrameId → Prop} (h : m.Guards Q) (weaker : ∀ id, Q id → Q' id) :
    m.Guards Q' where
  toExposes := h.toExposes.weaken fun id given => weaker id given.2
  supply id hid := weaker id (h.supply id hid)

/-- What is of another kind is out of reach. -/
theorem Guards.avoids {id : FrameId} (h : m.Guards Q) (other : ¬ Q id) : m.Guards (· ≠ id) := by
  refine h.mono fun i hi => ?_
  rintro rfl
  exact other hi

/-- The call stack is replaced by one with frames as wanted. -/
theorem Exposes.setCalls (h : m.Exposes Q) {calls : CallStack}
    (nextId : m.calls.nextId ≤ calls.nextId) (frames : ∀ frame ∈ calls.frames, m.Shows Q frame) :
    ({ m with calls } : Machine).Exposes Q := by
  have before : m.Before { m with calls } := ⟨fun _ _ h => h, nextId⟩
  exact {
    bindings := fun scope name value hvalue =>
      (h.bindings scope name value hvalue).mono fun _ => Knows.mono before
    frames := fun frame hframe => (frames frame hframe).mono before
    closures := fun proc closure hclosure block hblock =>
      (h.closures proc closure hclosure block hblock).mono before }

namespace Guards

/-! ### Reading -/

/-- Only what is in reach is read from a local. -/
theorem lookup (h : m.Guards Q) {name : Name} {value : Value}
    (hvalue : m.env.lookup name = some value) : value.Within (m.Knows Q) := by
  obtain ⟨scope, -, hbinding⟩ := List.exists_of_findSome?_eq_some hvalue
  exact h.bindings scope name value hbinding

/-- The innermost frame shows only what is in reach. -/
theorem frame (h : m.Guards Q) {frame : Frame} (hframe : m.frame? = some frame) :
    m.Shows Q frame :=
  h.frames frame (List.mem_of_head? hframe)

/-- The block of the innermost frame is in reach. -/
theorem block (h : m.Guards Q) {proc : ProcId} (hproc : m.block? = some proc) : m.Knows Q proc := by
  obtain ⟨frame, hframe, hblock⟩ := Option.bind_eq_some_iff.mp hproc
  exact (h.frame hframe).block proc hblock

/-! ### Scopes -/

/-- Nothing but methods and what is known about locals is changed. -/
theorem congr (h : m.Guards Q) (env : m'.env = m.env) (closures : m'.closures = m.closures)
    (calls : m'.calls = m.calls) : m'.Guards Q := by
  obtain ⟨env₁, closures₁, methods, calls₁, resolution⟩ := m'
  cases env
  cases closures
  cases calls
  exact ⟨⟨h.bindings, fun frame hframe => ⟨(h.frames frame hframe).names,
    (h.frames frame hframe).block⟩, h.closures⟩, h.supply⟩

/-- The environment is replaced by one whose bindings are as wanted. -/
theorem setEnv (h : m.Guards Q) {env : Environment}
    (bindings : ∀ scope name value, env.store.binding? scope name = some value →
      value.Within (m.Knows Q)) : ({ m with env } : Machine).Guards Q := by
  have before : m.Before { m with env } := ⟨fun _ _ h => h, Nat.le_refl _⟩
  exact {
    bindings := fun scope name value hvalue =>
      (bindings scope name value hvalue).mono fun _ => Knows.mono before
    frames := fun frame hframe => (h.frames frame hframe).mono before
    closures := fun proc closure hclosure block hblock =>
      (h.closures proc closure hclosure block hblock).mono before
    supply := h.supply }

/-- A value in reach may be bound in any scope. -/
theorem defineIn (h : m.Guards Q) (scope : ScopeId) (name : Name) {value : Value}
    (hvalue : value.Within (m.Knows Q)) :
    (m.mapEnv fun env => { env with store := env.store.define scope name value }).Guards Q := by
  refine h.setEnv fun s n v hv => ?_
  rw [ScopeStore.binding?_define] at hv
  split at hv
  · obtain ⟨_, _, rfl⟩ := Option.map_eq_some_iff.mp hv
    exact hvalue
  · exact h.bindings s n v hv

/-- A value in reach may be bound in the owner of the current scope. -/
theorem define (h : m.Guards Q) (name : Name) {value : Value}
    (hvalue : value.Within (m.Knows Q)) : (m.mapEnv (·.define name value)).Guards Q :=
  h.defineIn (m.env.store.owner m.env.current) name hvalue

/-- A value in reach may be assigned, wherever the local is found. -/
theorem assignLocal (h : m.Guards Q) (name : Name) {value : Value}
    (hvalue : value.Within (m.Knows Q)) : (m.mapEnv (·.assignLocal name value)).Guards Q := by
  rw [Machine.mapEnv, Environment.assignLocal_eq_target]
  exact h.defineIn _ name hvalue

/-- Names that are declared are bound to nil, if they are not bound yet. -/
theorem declareOwned (h : m.Guards Q) (root : NodeId) : (m.declareOwned root).Guards Q := by
  rw [Machine.declareOwned]
  generalize m.resolution.ownedNames root = names
  induction names generalizing m with
  | nil => exact h
  | cons name rest ih =>
    refine ih (m := m.mapEnv (·.declare name)) ?_
    rw [Machine.mapEnv, Environment.declare, ScopeStore.declare]
    split
    · exact h
    · exact h.define name Value.within_nil

/-- A new scope binds nothing. -/
theorem enter (h : m.Guards Q) (kind : ScopeKind) (parent : Option ScopeId) :
    (m.mapEnv (·.enter kind parent)).Guards Q := by
  refine h.setEnv fun scope name value hvalue => h.bindings scope name value ?_
  rwa [← ScopeStore.binding?_add m.env.store kind parent]

/-- Leaving a scope keeps its bindings, as closures may have captured it. -/
theorem leaveScope (h : m.Guards Q) : (m.mapEnv .leave).Guards Q :=
  h.setEnv h.bindings

/-! ### Frames -/

/-- The call stack may be replaced by one whose frames show only what is in reach. -/
theorem setCalls (h : m.Guards Q) {calls : CallStack} (nextId : m.calls.nextId ≤ calls.nextId)
    (frames : ∀ frame ∈ calls.frames, m.Shows Q frame) : ({ m with calls } : Machine).Guards Q where
  toExposes := h.toExposes.setCalls nextId frames
  supply id hid := h.supply id (Nat.le_trans nextId hid)

/-- The innermost frame is changed in nothing that is in reach. -/
theorem modifyCurrent (h : m.Guards Q) {f : Frame → Frame}
    (same : ∀ frame, m.Shows Q frame → m.Shows Q (f frame)) :
    (m.mapCalls (·.modifyCurrent f)).Guards Q := by
  refine h.setCalls (Nat.le_of_eq (CallStack.modifyCurrent_nextId f).symm) ?_
  cases hframes : m.calls.frames with
  | nil => simp [CallStack.modifyCurrent, hframes]
  | cons first rest =>
    have shows := h.frames
    rw [hframes] at shows
    intro frame hframe
    simp only [CallStack.modifyCurrent, hframes] at hframe
    rcases List.mem_cons.mp hframe with rfl | hframe
    · exact same first (shows first List.mem_cons_self)
    · exact shows frame (List.mem_cons_of_mem _ hframe)

theorem beginLoop (h : m.Guards Q) : (m.mapCalls .beginLoop).Guards Q :=
  h.modifyCurrent fun frame shows => shows.counting (frame.loopDepth + 1)

theorem endLoop (h : m.Guards Q) : (m.mapCalls .endLoop).Guards Q :=
  h.modifyCurrent fun frame shows => shows.counting (frame.loopDepth - 1)

/-- A new identity is out of reach. -/
theorem allocateFrame (h : m.Guards Q) :
    m.Before m.allocateFrame.2 ∧ m.allocateFrame.2.Guards (AllBut Q m.allocateFrame.1) ∧
      m.allocateFrame.2.Given Q m.allocateFrame.1 := by
  have avoids : m.Exposes (AllBut Q m.allocateFrame.1) :=
    h.toExposes.weaken fun id given => ⟨given.2, given.ne_nextId⟩
  refine ⟨⟨fun _ _ h => h, Nat.le_succ _⟩, ⟨avoids.setCalls (Nat.le_succ _) avoids.frames, ?_⟩,
    Nat.lt_succ_self _, h.supply _ (Nat.le_refl _)⟩
  intro id hid
  refine ⟨h.supply id (Nat.le_of_succ_le hid), ?_⟩
  rintro rfl
  exact absurd hid (Nat.not_succ_le_self _)

/-- A frame may be pushed that shows only what is in reach. -/
theorem push (h : m.Guards Q) {frame : Frame} {calls : CallStack}
    (hpush : m.calls.push frame = .ok calls) (shows : m.Shows Q frame) :
    ({ m with calls } : Machine).Guards Q := by
  rw [CallStack.push_eq hpush]
  refine h.setCalls (Nat.le_refl _) fun other hother => ?_
  rcases List.mem_cons.mp hother with rfl | hother
  · exact shows
  · exact h.frames other hother

/-- The other frames show what they showed. -/
theorem pop (h : m.Guards Q) : (m.mapCalls .pop).Guards Q :=
  h.setCalls (Nat.le_refl _) fun frame hframe => h.frames frame (List.mem_of_mem_tail hframe)

/-- An activation may start with a frame that shows only what is in reach. -/
theorem activate (h : m.Guards Q) {frame : Frame} {calls : CallStack}
    (hpush : m.calls.push frame = .ok calls) (shows : m.Shows Q frame) (parent : Option ScopeId) :
    (m.activate calls parent).Guards Q :=
  (h.push hpush shows).enter .owning parent

/-- What an activation brought into scope stays, and its frame goes. -/
theorem deactivate (h : m.Guards Q) : m.deactivate.Guards Q :=
  h.pop.leaveScope

/-! ### Closures -/

/-- A new closure keeps what is in reach.  It is known itself if its targets are as wanted. -/
theorem addClosure (h : m.Guards Q) (closure : Closure)
    (block : ∀ proc, closure.outerBlock = some proc → m.Knows Q proc) :
    m.Before { m with closures := (m.closures.add closure).2 } ∧
      ({ m with closures := (m.closures.add closure).2 } : Machine).Guards Q ∧
      (closure.Names (m.Given Q) →
        ({ m with closures := (m.closures.add closure).2 } : Machine).Knows Q
          (m.closures.add closure).1) := by
  have before : m.Before { m with closures := (m.closures.add closure).2 } :=
    ⟨fun _ _ => m.closures.get?_add_of_some closure, Nat.le_refl _⟩
  refine ⟨before, ?_, fun names => ⟨closure, m.closures.get?_add_self closure, names⟩⟩
  exact {
    bindings := fun scope name value hvalue =>
      (h.bindings scope name value hvalue).mono fun _ => Knows.mono before
    frames := fun frame hframe => (h.frames frame hframe).mono before
    closures := fun proc other hother blk hblk => by
      rcases m.closures.get?_add_cases hother with hother | ⟨-, rfl⟩
      · exact (h.closures proc other hother blk hblk).mono before
      · exact (block blk hblk).mono before
    supply := h.supply }

/-- A closure takes its home and its block from the innermost frame, so only its tag has to be
known. -/
theorem makeClosure (h : m.Guards Q) (literal : NodeId) (params : ParamList) (body : NodeId)
    (isLambda : Bool) (tag : Option FrameId) :
    m.Before (m.makeClosure literal params body isLambda tag).2 ∧
      (m.makeClosure literal params body isLambda tag).2.Guards Q ∧
      ((∀ id, tag = some id → m.Given Q id) →
        (m.makeClosure literal params body isLambda tag).2.Knows Q
          (m.makeClosure literal params body isLambda tag).1) := by
  obtain ⟨before, guards, knows⟩ := h.addClosure
    { literal, params, body, isLambda, breakTag := tag, captured := m.env.current
      home := m.frame?.bind (·.homeForLiterals), outerBlock := m.block? } fun proc => h.block
  refine ⟨before, guards, fun given => knows ⟨fun id hid => ?_, given⟩⟩
  obtain ⟨frame, hframe, hhome⟩ := Option.bind_eq_some_iff.mp hid
  exact (h.frame hframe).names.homeForLiterals hhome

/-- A lambda that is made of a known closure has the targets of that closure. -/
theorem addLambda (h : m.Guards Q) {proc : ProcId} (knows : m.Knows Q proc) :
    m.Before (m.addLambda proc).2 ∧ (m.addLambda proc).2.Guards Q ∧
      (m.addLambda proc).2.Knows Q (m.addLambda proc).1 := by
  obtain ⟨closure, hclosure, names⟩ := knows
  simp only [Machine.addLambda, ClosureTable.addLambda, hclosure]
  obtain ⟨before, guards, knows⟩ := h.addClosure { closure with isLambda := true }
    (h.closures proc closure hclosure)
  exact ⟨before, guards, knows ⟨names.home, names.breakTag⟩⟩

end Guards

end Machine

/-! ### Tasks -/

/-- What a call passes on: its arguments and its block. -/
theorem CallArgs.forall_procs_append_iff {P : ProcId → Prop} {given : CallArgs}
    {block : Option ProcId} : (∀ proc ∈ given.procs ++ block.toList, P proc) ↔
      given.Within P ∧ ∀ proc, block = some proc → P proc := by
  rw [List.forall_mem_append, CallArgs.within_iff]
  simp [Option.mem_toList]

/-- The closures that a task is given. -/
def Task.procs : Task → List ProcId
  | node _ | program .. => []
  | store _ _ value => value.procs
  | method _ _ given block => given.procs ++ block.toList
  | closure proc _ given block => proc :: (given.procs ++ block.toList)
  | loop block _ => [block]

/-- Only identities of some kind are in reach through what a task is given. -/
structure Task.Carries (Q : FrameId → Prop) (m : Machine) (task : Task) : Prop where
  id : ∀ id, task.activation? = some id → m.Given Q id
  procs : ∀ proc ∈ task.procs, m.Knows Q proc

namespace Task.Carries

variable {Q Q' : FrameId → Prop} {m : Machine} {task : Task}

/-- What a task is given may be of a wider kind. -/
theorem weaken (h : task.Carries Q m) (weaker : ∀ id, m.Given Q id → Q' id) :
    task.Carries Q' m where
  id id hid := ⟨(h.id id hid).1, weaker id (h.id id hid)⟩
  procs proc hproc := (h.procs proc hproc).weaken weaker

/-- The evaluation of a node is given nothing. -/
theorem node (id : NodeId) : (Task.node id).Carries Q m :=
  ⟨fun _ hid => (by cases hid), List.forall_mem_nil _⟩

/-- An assignment is given its value. -/
theorem store (site : NodeId) (name : Name) {value : Value} (hvalue : value.Within (m.Knows Q)) :
    (Task.store site name value).Carries Q m :=
  ⟨fun _ hid => (by cases hid), hvalue⟩

/-- A method is given its identity, its arguments and its block. -/
theorem method (callee : Method) {id : FrameId} {given : CallArgs} {block : Option ProcId}
    (hid : m.Given Q id) (hgiven : given.Within (m.Knows Q))
    (hblock : ∀ proc, block = some proc → m.Knows Q proc) :
    (Task.method callee id given block).Carries Q m := by
  refine ⟨fun _ h => ?_, CallArgs.forall_procs_append_iff.mpr ⟨hgiven, hblock⟩⟩
  cases h
  exact hid

/-- A closure that is called is given itself, its identity, its arguments and its block. -/
theorem closure {proc : ProcId} {id : FrameId} {given : CallArgs} {block : Option ProcId}
    (hid : m.Given Q id) (hclosure : m.Knows Q proc) (hgiven : given.Within (m.Knows Q))
    (hblock : ∀ proc, block = some proc → m.Knows Q proc) :
    (Task.closure proc id given block).Carries Q m := by
  refine ⟨fun _ h => ?_, List.forall_mem_cons.mpr
    ⟨hclosure, CallArgs.forall_procs_append_iff.mpr ⟨hgiven, hblock⟩⟩⟩
  cases h
  exact hid

/-- The looping builtin is given its identity and its block. -/
theorem loop {block : ProcId} {id : FrameId} (hid : m.Given Q id) (hblock : m.Knows Q block) :
    (Task.loop block id).Carries Q m := by
  refine ⟨fun _ h => ?_, fun proc hproc => ?_⟩
  · cases h
    exact hid
  · cases List.mem_singleton.mp hproc
    exact hblock

end Task.Carries

end ScriptSemantics
