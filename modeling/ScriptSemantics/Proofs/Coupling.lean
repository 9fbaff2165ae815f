import ScriptSemantics.Proofs.Padding
import ScriptSemantics.Proofs.Renaming
import ScriptSemantics.Proofs.SlotLaws

/-!
# Coupled machines

Two machines that run the same code are coupled when they differ only in what the code cannot see:
the identities of activations, what the resolver is asked, and names that one of them has bound to
nil beforehand.

## Main Definitions

* `Coupling` — in what two machines may differ
* `Coupling.Related` — two machines differ in this only

## Main Results

* `Coupling.Related.allocateFrame`, `Coupling.Related.makeClosure`, `Coupling.Related.activate`, ...
  — the same operation on both machines keeps them coupled

## Design Notes

Each machine comes with the ledger of its own run.  The ledgers agree on the scope roots that scopes
were made for, except for the top-level scope: the programs that the machines run may differ.
-/

namespace ScriptSemantics

/-- In what two machines may differ. -/
structure Coupling where
  ids : FrameRenaming
  /-- The top-level scope of both machines. -/
  top : ScopeId
  /-- What the first machine knows about the locals. -/
  left : Resolution
  /-- What the second machine knows about the locals. -/
  right : Resolution
  /-- Where the first machine binds whatever the second one binds, in terms of the scope root that a
  scope was made for. -/
  full : Option NodeId → ScopeId → Name → Prop

/-- Two machines, each with its ledger, differ only in what a coupling allows. -/
structure Coupling.Related (C : Coupling) (g : Ledger) (m : Machine) (g' : Ledger) (m' : Machine) :
    Prop where
  top : m.env.top = C.top
  top' : m'.env.top = C.top
  entered : m'.env.entered = m.env.entered
  store : m.env.store.Pads (fun s name => C.full (g.root? s) s name) m'.env.store
  closures : m'.closures.closures = m.closures.closures.map (·.rename C.ids)
  properClosures : ∀ c ∈ m.closures.closures, c.Proper C.ids
  methods : m'.methods = m.methods
  frames : m'.calls.frames = m.calls.frames.map (·.rename C.ids)
  properFrames : ∀ frame ∈ m.calls.frames, frame.Proper C.ids
  limit : m'.calls.limit = m.calls.limit
  fresh : ∀ k, C.ids.Occurs ⟨m.calls.nextId + k⟩ ∧
    C.ids.new ⟨m.calls.nextId + k⟩ = ⟨m'.calls.nextId + k⟩
  left : m.resolution = C.left
  right : m'.resolution = C.right
  roots : ∀ s, m.env.store.isOwning s = true → s ≠ m.env.top → g'.root? s = g.root? s

namespace Coupling.Related

variable {C : Coupling} {g g' : Ledger} {m m' : Machine}

/-! ### Reading -/

theorem current (h : C.Related g m g' m') : m'.env.current = m.env.current := by
  rw [Environment.current, Environment.current, h.entered, h.top, h.top']

theorem isOwning_eq (h : C.Related g m g' m') (s : ScopeId) :
    m'.env.store.isOwning s = m.env.store.isOwning s :=
  ScopeStore.isOwning_of_shape_eq h.store.shape s

theorem size_eq (h : C.Related g m g' m') : m'.env.store.size = m.env.store.size :=
  ScopeStore.size_of_shape_eq h.store.shape

theorem frame? (h : C.Related g m g' m') : m'.frame? = m.frame?.map (·.rename C.ids) := by
  rw [Machine.frame?, Machine.frame?, CallStack.current?, CallStack.current?, h.frames,
    List.head?_map]

/-- The innermost frame has no identity that is left out of the renumbering. -/
theorem proper_frame? (h : C.Related g m g' m') {frame : Frame} (hframe : m.frame? = some frame) :
    frame.Proper C.ids :=
  h.properFrames frame (List.mem_of_head? hframe)

theorem block? (h : C.Related g m g' m') : m'.block? = m.block? := by
  rw [Machine.block?, Machine.block?, h.frame?]
  cases m.frame? <;> rfl

/-- The closures of both machines are the same up to the renumbering. -/
theorem get?_closures (h : C.Related g m g' m') (proc : ProcId) :
    m'.closures.get? proc = (m.closures.get? proc).map (·.rename C.ids) := by
  rw [ClosureTable.get?, ClosureTable.get?, h.closures, Array.getElem?_map]

theorem proper_closure (h : C.Related g m g' m') {proc : ProcId} {closure : Closure}
    (hclosure : m.closures.get? proc = some closure) : closure.Proper C.ids :=
  h.properClosures closure (Array.mem_of_getElem? hclosure)

/-- The same activations are live on both machines. -/
theorem isLive_eq (h : C.Related g m g' m') {id : FrameId} (hid : C.ids.Occurs id) :
    m'.calls.isLive (C.ids.new id) = m.calls.isLive id :=
  C.ids.isLive_eq h.frames h.properFrames hid

/-- A local that is found in the same scope has the same value. -/
theorem lookup_eq (h : C.Related g m g' m') {name : Name}
    (same : m'.env.store.binder? m'.env.current name = m.env.store.binder? m.env.current name) :
    m'.env.lookup name = m.env.lookup name := by
  rw [h.current] at same
  rw [Environment.lookup, Environment.lookup, h.current]
  exact h.store.lookup same

/-- A local that is found in the same scope, or in no scope, is stored in the same scope. -/
theorem target_eq (h : C.Related g m g' m') {name : Name}
    (same : m'.env.store.binder? m'.env.current name = m.env.store.binder? m.env.current name) :
    m'.env.target name = m.env.target name := by
  rw [Environment.target, Environment.target, same, h.current,
    ScopeStore.owner_of_shape_eq h.store.shape]

/-! ### Frames -/

/-- Both machines take their next frame identity. -/
theorem allocateFrame (h : C.Related g m g' m') :
    C.ids.Occurs m.allocateFrame.1 ∧
      m'.allocateFrame.1 = C.ids.new m.allocateFrame.1 ∧
      C.Related g m.allocateFrame.2 g' m'.allocateFrame.2 := by
  obtain ⟨hoccurs, hnew⟩ := h.fresh 0
  refine ⟨hoccurs, hnew.symm, { h with fresh := fun k => ?_ }⟩
  have hnext := h.fresh (1 + k)
  rw [← Nat.add_assoc, ← Nat.add_assoc] at hnext
  exact hnext

/-- A change of the innermost frame that names nothing keeps machines coupled. -/
theorem modifyCurrent (h : C.Related g m g' m') {f : Frame → Frame}
    (renames : ∀ frame, f (frame.rename C.ids) = (f frame).rename C.ids)
    (proper : ∀ frame, frame.Proper C.ids → (f frame).Proper C.ids) :
    C.Related g (m.mapCalls (·.modifyCurrent f)) g' (m'.mapCalls (·.modifyCurrent f)) := by
  cases hframes : m.calls.frames with
  | nil =>
    have hframes' : m'.calls.frames = [] := by rw [h.frames, hframes]; rfl
    have hsame : m.mapCalls (·.modifyCurrent f) = m := by
      rw [Machine.mapCalls, CallStack.modifyCurrent, hframes]
    have hsame' : m'.mapCalls (·.modifyCurrent f) = m' := by
      rw [Machine.mapCalls, CallStack.modifyCurrent, hframes']
    rwa [hsame, hsame']
  | cons frame rest =>
    have hframes' : m'.calls.frames =
        frame.rename C.ids :: rest.map (·.rename C.ids) := by rw [h.frames, hframes]; rfl
    have hcalls : m.calls.modifyCurrent f = { m.calls with frames := f frame :: rest } := by
      rw [CallStack.modifyCurrent, hframes]
    have hcalls' : m'.calls.modifyCurrent f = { m'.calls with
        frames := f (frame.rename C.ids) :: rest.map (·.rename C.ids) } := by
      rw [CallStack.modifyCurrent, hframes']
    have properRest : ∀ other ∈ rest, other.Proper C.ids := fun other hother =>
      h.properFrames other (hframes ▸ List.mem_cons_of_mem _ hother)
    have properFirst := h.properFrames frame (hframes ▸ List.mem_cons_self)
    rw [Machine.mapCalls, Machine.mapCalls, hcalls, hcalls']
    refine { h with frames := ?_, properFrames := ?_ }
    · exact congrArg (· :: _) (renames frame)
    · intro other hother
      rcases List.mem_cons.mp hother with rfl | hother
      · exact proper frame properFirst
      · exact properRest other hother

theorem beginLoop (h : C.Related g m g' m') :
    C.Related g (m.mapCalls .beginLoop) g' (m'.mapCalls .beginLoop) :=
  h.modifyCurrent (fun _ => rfl) fun _ proper => ⟨proper.id, proper.home, proper.breakTag⟩

theorem endLoop (h : C.Related g m g' m') :
    C.Related g (m.mapCalls .endLoop) g' (m'.mapCalls .endLoop) :=
  h.modifyCurrent (fun _ => rfl) fun _ proper => ⟨proper.id, proper.home, proper.breakTag⟩

/-! ### Closures and methods -/

/-- Both machines close over the same literal. -/
theorem makeClosure (h : C.Related g m g' m') (literal : NodeId) (params : ParamList)
    (body : NodeId) (isLambda : Bool) (tag : Option FrameId)
    (htag : ∀ id ∈ tag, C.ids.Occurs id) :
    (m'.makeClosure literal params body isLambda (tag.map C.ids.new)).1 =
        (m.makeClosure literal params body isLambda tag).1 ∧
      C.Related g (m.makeClosure literal params body isLambda tag).2 g'
        (m'.makeClosure literal params body isLambda (tag.map C.ids.new)).2 := by
  have hhome : m'.frame?.bind (·.homeForLiterals) =
      (m.frame?.bind (·.homeForLiterals)).map C.ids.new := by
    rw [h.frame?]
    cases m.frame? with
    | none => rfl
    | some frame => exact frame.homeForLiterals_rename
  refine ⟨?_, { h with closures := ?_, properClosures := ?_ }⟩
  · simp only [Machine.makeClosure, ClosureTable.add, h.closures, Array.size_map]
  · simp only [Machine.makeClosure, ClosureTable.add, h.closures, Array.map_push]
    rw [h.current, hhome, h.block?]
    rfl
  · intro c hc
    rcases Array.mem_push.mp hc with hc | rfl
    · exact h.properClosures c hc
    · refine ⟨fun id hid => ?_, htag⟩
      obtain ⟨frame, hframe, hhome⟩ := Option.bind_eq_some_iff.mp hid
      exact (h.proper_frame? hframe).homeForLiterals id hhome

/-- A copy of a closure that is a lambda is made on both machines. -/
theorem addLambda (h : C.Related g m g' m') (proc : ProcId) :
    (m'.addLambda proc).1 = (m.addLambda proc).1 ∧
      C.Related g (m.addLambda proc).2 g' (m'.addLambda proc).2 := by
  have hfound := h.get?_closures proc
  cases hclosure : m.closures.get? proc with
  | none =>
    rw [hclosure] at hfound
    simp only [Machine.addLambda, ClosureTable.addLambda, hclosure, hfound, Option.map_none]
    exact ⟨trivial, h⟩
  | some closure =>
    rw [hclosure] at hfound
    have proper := h.proper_closure hclosure
    simp only [Machine.addLambda, ClosureTable.addLambda, hclosure, hfound, Option.map_some,
      ClosureTable.add]
    refine ⟨?_, { h with closures := ?_, properClosures := ?_ }⟩
    · rw [h.closures, Array.size_map]
    · simp only [h.closures, Array.map_push]
      rfl
    · intro c hc
      rcases Array.mem_push.mp hc with hc | rfl
      · exact h.properClosures c hc
      · exact ⟨proper.home, proper.breakTag⟩

theorem define (h : C.Related g m g' m') (callee : Method) :
    C.Related g (m.define callee) g' (m'.define callee) :=
  { h with methods := by rw [Machine.define, Machine.define, h.methods] }

/-! ### Scopes -/

/-- Both machines enter a transparent scope. -/
theorem enterTransparent (h : C.Related g m g' m') :
    C.Related g (m.mapEnv .enterTransparent) g' (m'.mapEnv .enterTransparent) := by
  have hcurrent := h.current
  refine { h with entered := ?_, store := ?_, roots := fun s howning hne => ?_ }
  · change ⟨m'.env.store.size⟩ :: m'.env.entered = ⟨m.env.store.size⟩ :: m.env.entered
    rw [h.size_eq, h.entered]
  · change ScopeStore.Pads _ (m.env.store.add .transparent (some m.env.current)).2
      (m'.env.store.add .transparent (some m'.env.current)).2
    rw [hcurrent]
    exact h.store.add _ _
  · refine h.roots s ?_ hne
    by_cases hlt : s.index < m.env.store.size
    · rwa [← (ScopeStore.extends_add m.env.store .transparent (some m.env.current)).isOwning hlt]
    · cases (ScopeStore.eq_of_size_le (Nat.le_of_not_lt hlt) howning).2

/-- Both machines leave the innermost scope. -/
theorem leaveScope (h : C.Related g m g' m') :
    C.Related g (m.mapEnv .leave) g' (m'.mapEnv .leave) :=
  { h with entered := congrArg List.tail h.entered }

/-- Both machines change a local in the same scope. -/
theorem defineIn (h : C.Related g m g' m') (s : ScopeId) (name : Name) (value : Value) :
    C.Related g { m with env := { m.env with store := m.env.store.define s name value } } g'
      { m' with env := { m'.env with store := m'.env.store.define s name value } } where
  __ := h
  store := h.store.define s name value
  roots s' howning := by
    refine h.roots s' ?_
    rwa [← ScopeStore.isOwning_of_shape_eq (ScopeStore.shape_define m.env.store s name value)]

/-- Both machines define a local in the innermost owning scope. -/
theorem defineLocal (h : C.Related g m g' m') (name : Name) (value : Value) :
    C.Related g (m.mapEnv (·.define name value)) g' (m'.mapEnv (·.define name value)) := by
  have hdefined := h.defineIn (m.env.store.owner m.env.current) name value
  rw [Machine.mapEnv, Machine.mapEnv, Environment.define, Environment.define, h.current,
    ScopeStore.owner_of_shape_eq h.store.shape]
  exact hdefined

/-- An assignment with the same target on both machines keeps them coupled. -/
theorem assignLocal (h : C.Related g m g' m') {name : Name}
    (same : m'.env.target name = m.env.target name) (value : Value) :
    C.Related g (m.mapEnv (·.assignLocal name value)) g'
      (m'.mapEnv (·.assignLocal name value)) := by
  rw [Machine.mapEnv, Machine.mapEnv, Environment.assignLocal_eq_target,
    Environment.assignLocal_eq_target, same]
  exact h.defineIn _ name value

/-! ### Activations -/

section Activations

variable {task : Task} {frame : Frame} {parent : Option ScopeId} {code : Option Code}

/-- Coupled machines open coupled activations. -/
theorem opens (h : C.Related g m g' m') (opens : task.Opens m frame parent code) :
    (task.rename C.ids).Opens m' (frame.rename C.ids) parent code := by
  cases opens with
  | method callee id given block => exact .method callee _ given block
  | closure proc id given block found =>
    have found' := h.get?_closures proc
    rw [found, Option.map_some] at found'
    have opens' := Task.Opens.closure proc (C.ids.new id) given block found'
    rwa [Comp.closureFrame_rename] at opens'
  | loop block id => exact .loop block _

/-- The frame of an activation has no identity that its task does not have. -/
theorem proper_opens (h : C.Related g m g' m') (opens : task.Opens m frame parent code)
    (proper : task.Proper C.ids) : frame.Proper C.ids := by
  cases opens with
  | method => exact ⟨proper, by simp, by simp⟩
  | closure proc id given block found => exact (h.proper_closure found).frame proper
  | loop => exact ⟨proper, by simp, by simp⟩

/-- A task that is no program leaves no note on the scopes that there are. -/
theorem root?_note_of_lt (hne : ∀ root id, task ≠ .program root id) {s : ScopeId}
    (hlt : s.index < m.env.store.size) : (g.note task m).root? s = g.root? s := by
  rw [Ledger.root?, Ledger.root?, Ledger.agreeOn_note hne s hlt]

/-- Notes on new scopes do not matter to what there is. -/
theorem note (h : C.Related g m g' m') (task : Task) (hne : ∀ root id, task ≠ .program root id) :
    C.Related (g.note task m) m (g'.note (task.rename C.ids) m') m' := by
  have hne' : ∀ root id, task.rename C.ids ≠ .program root id := by
    intro root id heq
    cases task <;> cases heq
    exact hne root id rfl
  refine { h with store := h.store.weaken fun s name hlt hfull => ?_, roots := fun s howning hs => ?_ }
  · rwa [root?_note_of_lt hne hlt] at hfull
  · have hlt := ScopeStore.isOwning_lt howning
    rw [root?_note_of_lt hne hlt, root?_note_of_lt hne' (h.size_eq ▸ hlt)]
    exact h.roots s howning hs

end Activations

end Coupling.Related

end ScriptSemantics
