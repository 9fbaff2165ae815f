import ScriptSemantics.Proofs.NamedState
import ScriptSemantics.Proofs.Stack

/-!
# Machines that correspond

Two machines correspond when one is the other under a naming.  While they run, closures and
activations are made on both sides, and the naming has to be extended.  So nothing may depend on the
names of what is not made yet: what is said of machines is said for all namings that agree on what
they have given out.

## Main Definitions

* `Outlook` — a naming of what was made, which may change for what is made later
* `Outlook.Alike` — two things are the same up to names, whatever is made later
* `Naming.outlook` — the outlook in which all that a machine has given out has its name for good
* `Machine.Corresponds` — two machines are the same up to names
* `Machine.SameUnder` — one machine is the other one under a naming, in all that code can get at

## Main Results

* `Machine.Corresponds.extend` — closures and activations that are made may be named anew
* `Machine.Corresponds.makeClosure`, `Machine.Corresponds.assignLocal`, ... — each operation keeps
  machines in correspondence
* `Machine.Corresponds.activate`, `Machine.Corresponds.refuse` — both machines take a frame or both
  refuse it

## Design Notes

Closures may have been made on one side only, so closures are looked up by their names and the table
of the second machine may hold more.
-/

namespace ScriptSemantics

/-! ### Outlooks -/

/-- A naming, and how many closures and activations have their names for good. -/
structure Outlook where
  naming : Naming
  procs : Nat
  frames : Nat

namespace Outlook

/-- A naming that is still possible: it agrees on the names that were given for good. -/
structure Allows (W : Outlook) (τ : Naming) : Prop where
  node : τ.node = W.naming.node
  aligned : τ.aligned = W.naming.aligned
  inStep : τ.inStep = W.naming.inStep
  proc : ∀ id : ProcId, id.index < W.procs → τ.proc id = W.naming.proc id
  frame : ∀ id : FrameId, id.index < W.frames → τ.frame id = W.naming.frame id

/-- More names were given for good.  If both sides make the same closures, the names of closures
stay as they are, and likewise for activations. -/
structure Narrows (W' W : Outlook) : Prop where
  procs : W.procs ≤ W'.procs
  frames : W.frames ≤ W'.frames
  allows : W.Allows W'.naming
  steady : W.naming.aligned → W'.naming.proc = W.naming.proc
  steadyFrames : W.naming.inStep → W'.naming.frame = W.naming.frame

/-- Two things are the same up to names, whatever is made later. -/
def Alike {α : Type} [Named α] (W : Outlook) (a a' : α) : Prop :=
  ∀ τ, W.Allows τ → under τ a = a'

variable {W W' W'' : Outlook} {α β : Type} [Named α] [Named β]

theorem allows_naming (W : Outlook) : W.Allows W.naming :=
  ⟨rfl, rfl, rfl, fun _ _ => rfl, fun _ _ => rfl⟩

theorem Narrows.refl (W : Outlook) : W.Narrows W :=
  ⟨Nat.le_refl _, Nat.le_refl _, W.allows_naming, fun _ => rfl, fun _ => rfl⟩

/-- What is still possible when more was made under another naming was possible before. -/
theorem Allows.imp {τ ρ : Naming} (agrees : W.Allows τ) {procs frames : Nat}
    (procs_le : W.procs ≤ procs) (frames_le : W.frames ≤ frames)
    (hρ : (Outlook.mk τ procs frames).Allows ρ) : W.Allows ρ where
  node := hρ.node.trans agrees.node
  aligned := hρ.aligned.trans agrees.aligned
  inStep := hρ.inStep.trans agrees.inStep
  proc id hid := (hρ.proc id (Nat.lt_of_lt_of_le hid procs_le)).trans (agrees.proc id hid)
  frame id hid := (hρ.frame id (Nat.lt_of_lt_of_le hid frames_le)).trans (agrees.frame id hid)

/-- Every naming that is still possible was possible before. -/
theorem Narrows.imp (h : W'.Narrows W) (τ : Naming) (hτ : W'.Allows τ) : W.Allows τ :=
  h.allows.imp h.procs h.frames hτ

/-- An outlook that narrows a narrower one narrows the wider one, too. -/
theorem Narrows.trans (h : W''.Narrows W') (h' : W'.Narrows W) : W''.Narrows W where
  procs := Nat.le_trans h'.procs h.procs
  frames := Nat.le_trans h'.frames h.frames
  allows := h'.imp _ h.allows
  steady aligned := (h.steady (h'.allows.aligned ▸ aligned)).trans (h'.steady aligned)
  steadyFrames inStep :=
    (h.steadyFrames (h'.allows.inStep ▸ inStep)).trans (h'.steadyFrames inStep)

/-- If both sides make the same closures and take identities at the same moments, the naming
stays. -/
theorem Narrows.naming_eq (h : W'.Narrows W) (aligned : W.naming.aligned)
    (inStep : W.naming.inStep) : W'.naming = W.naming :=
  Naming.ext h.allows.node (h.steady aligned) (h.steadyFrames inStep) h.allows.aligned h.allows.inStep

/-- More names are given for good, the naming stays. -/
theorem narrows_of_le (σ : Naming) {procs procs' frames frames' : Nat} (hprocs : procs ≤ procs')
    (hframes : frames ≤ frames') : Narrows ⟨σ, procs', frames'⟩ ⟨σ, procs, frames⟩ where
  procs := hprocs
  frames := hframes
  allows := ⟨rfl, rfl, rfl, fun _ _ => rfl, fun _ _ => rfl⟩
  steady _ := rfl
  steadyFrames _ := rfl

/-- What is the same under all names allowed stays the same when fewer names are allowed. -/
theorem Alike.mono {a a' : α} (h : W.Alike a a') (narrows : W'.Narrows W) : W'.Alike a a' :=
  fun τ hτ => h τ (narrows.imp τ hτ)

theorem Alike.eq {a a' : α} (h : W.Alike a a') : under W.naming a = a' :=
  h _ W.allows_naming

/-- An operation that commutes with naming keeps things alike. -/
theorem Alike.map {a a' : α} (h : W.Alike a a') (f : α → β)
    (commutes : ∀ τ a, f (under τ a) = under τ (f a)) : W.Alike (f a) (f a') :=
  fun τ hτ => by rw [← commutes, h τ hτ]

end Outlook

/-- What a machine has given out has its name for good. -/
def Naming.outlook (σ : Naming) (m : Machine) : Outlook where
  naming := σ
  procs := m.closures.closures.size
  frames := m.calls.nextId

/-! ### Machines -/

/-- The closure over a literal. -/
def Machine.closureOf (m : Machine) (literal : NodeId) (params : ParamList) (body : NodeId)
    (isLambda : Bool) (tag : Option FrameId) : Closure :=
  { literal, params, body, isLambda, breakTag := tag, captured := m.env.current
    home := m.frame?.bind (·.homeForLiterals), outerBlock := m.block? }

/-- Two machines are the same up to names.  Names are given out side by side. -/
structure Machine.Corresponds (σ : Naming) (m m' : Machine) : Prop where
  env : (σ.outlook m).Alike m.env m'.env
  closures : ∀ id closure, m.closures.get? id = some closure →
    ∃ closure', m'.closures.get? (σ.proc id) = some closure' ∧
      ∀ τ, (σ.outlook m).Allows τ → closure.Corresponds τ closure'
  methods : m'.methods = under σ m.methods
  frames : (σ.outlook m).Alike m.calls.frames m'.calls.frames
  limit : m'.calls.limit = m.calls.limit
  procs : ∀ k, σ.proc ⟨m.closures.closures.size + k⟩ = ⟨m'.closures.closures.size + k⟩
  ids : ∀ k, σ.frame ⟨m.calls.nextId + k⟩ = ⟨m'.calls.nextId + k⟩
  owned : ∀ root, m'.resolution.ownedNames (σ.node root) = m.resolution.ownedNames root
  unbound : ∀ id, m'.resolution.isUnbound (σ.node id) = m.resolution.isUnbound id

/-- Methods only know their places. -/
theorem Machine.methods_under (m : Machine) {σ τ : Naming} (node : τ.node = σ.node) :
    under τ m.methods = under σ m.methods := by
  have same : (under τ : Method → Method) = under σ :=
    congrArg (fun (node : NodeId → NodeId) (callee : Method) =>
      { callee with root := node callee.root }) node
  exact congrArg (fun f => m.methods.map fun pair => (pair.1, f pair.2)) same

/-- The second machine is the first one under other names, in all that code can get at. -/
structure Machine.SameUnder (σ : Naming) (m m' : Machine) : Prop where
  env : m'.env = under σ m.env
  closures : ∀ id closure, m.closures.get? id = some closure →
    ∃ closure', m'.closures.get? (σ.proc id) = some closure' ∧ closure.Corresponds σ closure'
  methods : m'.methods = under σ m.methods
  frames : m'.calls.frames = under σ m.calls.frames
  limit : m'.calls.limit = m.calls.limit
  owned : ∀ root, m'.resolution.ownedNames (σ.node root) = m.resolution.ownedNames root
  unbound : ∀ id, m'.resolution.isUnbound (σ.node id) = m.resolution.isUnbound id

namespace Machine.Corresponds

variable {σ : Naming} {m m' : Machine} (h : m.Corresponds σ m')

include h

/-- The machines are the same up to names, whatever is made later. -/
theorem sameUnder {τ : Naming} (hτ : (σ.outlook m).Allows τ) : m.SameUnder τ m' where
  env := (h.env τ hτ).symm
  closures id closure hid := by
    obtain ⟨closure', hclosure', corresponds⟩ := h.closures id closure hid
    have hlt : id.index < m.closures.closures.size := (Array.getElem?_eq_some_iff.mp hid).1
    refine ⟨closure', ?_, corresponds τ hτ⟩
    rw [hτ.proc id hlt]
    exact hclosure'
  methods := h.methods.trans (m.methods_under hτ.node).symm
  frames := (h.frames τ hτ).symm
  limit := h.limit
  owned := hτ.node ▸ h.owned
  unbound := hτ.node ▸ h.unbound

/-! ### Reading -/

theorem current : m'.env.current = m.env.current := by
  rw [← h.env.eq]
  rfl

theorem lookup (name : Name) : (σ.outlook m).Alike (m.env.lookup name) (m'.env.lookup name) :=
  h.env.map (·.lookup name) fun _ env => env.lookup_under name

/-- A read finds the same in both runs, as the flags of the nodes are the same. -/
theorem read? {id : NodeId} (place : σ.node id = id) (name : Name) :
    (σ.outlook m).Alike (m.read? id name) (m'.read? id name) := by
  have unbound := h.unbound id
  rw [place] at unbound
  rw [Machine.read?, Machine.read?, unbound]
  split
  · exact fun _ _ => rfl
  · exact h.lookup name

theorem frame? : (σ.outlook m).Alike m.frame? m'.frame? :=
  h.frames.map List.head? fun _ _ => List.head?_map

theorem block? : (σ.outlook m).Alike m.block? m'.block? := by
  intro τ hτ
  rw [Machine.block?, Machine.block?, ← h.frame? τ hτ]
  cases m.frame? <;> rfl

theorem method? (name : Name) : m'.methods.get? name = under σ (m.methods.get? name) := by
  rw [h.methods, Assoc.get?_under]

/-- An activation is live under its other name, whatever the later names are. -/
theorem isLive (id : FrameId) {τ : Naming} (hτ : (σ.outlook m).Allows τ) :
    m'.calls.isLive (τ.frame id) = m.calls.isLive id :=
  CallStack.isLive_under (h.frames τ hτ).symm id

/-- Closures that were not made have names of closures that were not made. -/
theorem closure?_none {id : ProcId} (hid : m.closures.get? id = none) :
    m'.closures.get? (σ.proc id) = none := by
  have hle : m.closures.closures.size ≤ id.index := Array.getElem?_eq_none_iff.mp hid
  obtain ⟨k, hk⟩ := Nat.exists_eq_add_of_le hle
  have fresh := h.procs k
  rw [← hk] at fresh
  rw [fresh]
  exact Array.getElem?_eq_none_iff.mpr (Nat.le_add_right _ _)

/-- Whether a closure is a lambda is the same under its other name. -/
theorem isLambda (id : ProcId) :
    (m'.closures.get? (σ.proc id)).any (·.isLambda) = (m.closures.get? id).any (·.isLambda) := by
  cases hid : m.closures.get? id with
  | none => rw [h.closure?_none hid]
  | some closure =>
    obtain ⟨closure', hclosure', corresponds⟩ := h.closures id closure hid
    rw [hclosure']
    exact (corresponds σ (σ.outlook m).allows_naming).isLambda

/-- Names of made closures and activations come before the names that are kept for new ones. -/
theorem proc_lt {id : ProcId} (hid : id.index < m.closures.closures.size) :
    (σ.proc id).index < m'.closures.closures.size := by
  refine Nat.lt_of_not_le fun hle => ?_
  obtain ⟨k, hk⟩ := Nat.exists_eq_add_of_le hle
  have same : σ.proc id = σ.proc ⟨m.closures.closures.size + k⟩ := by rw [h.procs k, ← hk]
  rw [σ.proc_injective same] at hid
  exact absurd hid (Nat.not_lt.mpr (Nat.le_add_right _ _))

/-- Identities that have been given out have names that have been given out. -/
theorem frame_lt {id : FrameId} (hid : id.index < m.calls.nextId) :
    (σ.frame id).index < m'.calls.nextId := by
  refine Nat.lt_of_not_le fun hle => ?_
  obtain ⟨k, hk⟩ := Nat.exists_eq_add_of_le hle
  have same : σ.frame id = σ.frame ⟨m.calls.nextId + k⟩ := by rw [h.ids k, ← hk]
  rw [σ.frame_injective same] at hid
  exact absurd hid (Nat.not_lt.mpr (Nat.le_add_right _ _))

/-! ### What is made -/

/-- Both machines make closures and take frame identities.  What is made may be named anew. -/
theorem extend {τ : Naming} (agrees : (σ.outlook m).Allows τ) {closures closures' : ClosureTable}
    {nextId nextId' : Nat} (size_le : m.closures.closures.size ≤ closures.closures.size)
    (nextId_le : m.calls.nextId ≤ nextId)
    (procs : ∀ k, τ.proc ⟨closures.closures.size + k⟩ = ⟨closures'.closures.size + k⟩)
    (ids : ∀ k, τ.frame ⟨nextId + k⟩ = ⟨nextId' + k⟩)
    (kept : ∀ id closure, m'.closures.get? id = some closure → closures'.get? id = some closure)
    (made : ∀ id closure, closures.get? id = some closure →
      m.closures.get? id = some closure ∨ ∃ closure', closures'.get? (τ.proc id) = some closure' ∧
        ∀ ρ, (σ.outlook m).Allows ρ → closure.Corresponds ρ closure') :
    ({ m with closures, calls := { m.calls with nextId } } : Machine).Corresponds τ
      { m' with closures := closures', calls := { m'.calls with nextId := nextId' } } := by
  have later : ∀ ρ, (Outlook.mk τ closures.closures.size nextId).Allows ρ → (σ.outlook m).Allows ρ :=
    fun ρ hρ => agrees.imp size_le nextId_le hρ
  have node : τ.node = σ.node := agrees.node
  exact {
    env := fun ρ hρ => h.env ρ (later ρ hρ)
    closures := fun id closure hid => by
      rcases made id closure hid with old | ⟨closure', hclosure', corresponds⟩
      · obtain ⟨closure', hclosure', corresponds⟩ := h.closures id closure old
        have hlt : id.index < m.closures.closures.size := (Array.getElem?_eq_some_iff.mp old).1
        refine ⟨closure', ?_, fun ρ hρ => corresponds ρ (later ρ hρ)⟩
        rw [agrees.proc id hlt]
        exact kept _ _ hclosure'
      · exact ⟨closure', hclosure', fun ρ hρ => corresponds ρ (later ρ hρ)⟩
    methods := h.methods.trans (m.methods_under node).symm
    frames := fun ρ hρ => h.frames ρ (later ρ hρ)
    limit := h.limit
    procs := procs
    ids := ids
    owned := node ▸ h.owned
    unbound := node ▸ h.unbound }

/-! ### Scopes -/

/-- The environments are changed in the same way. -/
theorem mapEnv {f f' : Environment → Environment}
    (commutes : ∀ τ, (σ.outlook m).Allows τ → ∀ env, f' (under τ env) = under τ (f env)) :
    (m.mapEnv f).Corresponds σ (m'.mapEnv f') :=
  have alike : (σ.outlook m).Alike (f m.env) (f' m'.env) := fun τ hτ => by
    rw [← commutes τ hτ, h.env τ hτ]
  { h with env := alike }

theorem enter (kind : ScopeKind) (parent : Option ScopeId) :
    (m.mapEnv (·.enter kind parent)).Corresponds σ (m'.mapEnv (·.enter kind parent)) :=
  h.mapEnv fun _ _ env => env.enter_under kind parent

theorem enterTransparent :
    (m.mapEnv .enterTransparent).Corresponds σ (m'.mapEnv .enterTransparent) := by
  have entered := h.enter .transparent (some m.env.current)
  rw [Machine.mapEnv, Machine.mapEnv, Environment.enterTransparent, Environment.enterTransparent,
    h.current]
  exact entered

theorem leaveScope : (m.mapEnv .leave).Corresponds σ (m'.mapEnv .leave) :=
  h.mapEnv fun _ _ _ => rfl

theorem defineLocal (name : Name) {value value' : Value} (alike : (σ.outlook m).Alike value value') :
    (m.mapEnv (·.define name value)).Corresponds σ (m'.mapEnv (·.define name value')) :=
  h.mapEnv fun τ hτ env => alike τ hτ ▸ env.define_under name value

theorem assignLocal (name : Name) {value value' : Value} (alike : (σ.outlook m).Alike value value') :
    (m.mapEnv (·.assignLocal name value)).Corresponds σ (m'.mapEnv (·.assignLocal name value')) :=
  h.mapEnv fun τ hτ env => alike τ hτ ▸ env.assignLocal_under name value

/-- A scope root declares the same names in both runs. -/
theorem declareOwned (root : NodeId) :
    (m.declareOwned root).Corresponds σ (m'.declareOwned (σ.node root)) := by
  rw [Machine.declareOwned, Machine.declareOwned, h.owned]
  exact h.mapEnv fun _ _ env => env.declareAll_under _

/-! ### Frames -/

/-- The frames are replaced by others that are alike. -/
theorem setFrames {frames frames' : List Frame} (alike : (σ.outlook m).Alike frames frames') :
    ({ m with calls := { m.calls with frames } } : Machine).Corresponds σ
      { m' with calls := { m'.calls with frames := frames' } } :=
  { h with frames := alike }

/-- Both machines take their next frame identity. -/
theorem allocateFrame :
    m.allocateFrame.2.Corresponds σ m'.allocateFrame.2 ∧
      (σ.outlook m.allocateFrame.2).Alike m.allocateFrame.1 m'.allocateFrame.1 := by
  refine ⟨h.extend (σ.outlook m).allows_naming (Nat.le_refl _) (Nat.le_succ _) h.procs (fun k => ?_)
    (fun _ _ kept => kept) fun _ _ old => .inl old, fun τ hτ => ?_⟩
  · have next := h.ids (1 + k)
    rw [← Nat.add_assoc, ← Nat.add_assoc] at next
    exact next
  · exact (hτ.frame _ (Nat.lt_succ_self _)).trans (h.ids 0)

/-- A change of the innermost frame that names nothing keeps two machines the same. -/
theorem modifyCurrent {f : Frame → Frame}
    (commutes : ∀ τ frame, f (under τ frame) = under τ (f frame)) :
    (m.mapCalls (·.modifyCurrent f)).Corresponds σ (m'.mapCalls (·.modifyCurrent f)) := by
  have modified : ∀ stack : CallStack, stack.modifyCurrent f =
      { stack with frames := stack.frames.modifyHead f } := by
    intro stack
    obtain ⟨frames, limit, nextId⟩ := stack
    cases frames <;> rfl
  rw [Machine.mapCalls, Machine.mapCalls, modified, modified]
  refine h.setFrames (h.frames.map (List.modifyHead f) fun τ frames => ?_)
  cases frames with
  | nil => rfl
  | cons frame rest => exact congrArg (· :: under τ rest) (commutes τ frame)

theorem beginLoop : (m.mapCalls .beginLoop).Corresponds σ (m'.mapCalls .beginLoop) :=
  h.modifyCurrent fun _ _ => rfl

theorem endLoop : (m.mapCalls .endLoop).Corresponds σ (m'.mapCalls .endLoop) :=
  h.modifyCurrent fun _ _ => rfl

theorem pop : (m.mapCalls .pop).Corresponds σ (m'.mapCalls .pop) :=
  h.setFrames (h.frames.map List.tail fun _ _ => List.map_tail.symm)

theorem depth : m'.calls.depth = m.calls.depth := by
  rw [CallStack.depth, CallStack.depth, ← h.frames.eq, under_list, List.length_map]

/-- A frame that one machine refuses is refused by the other one. -/
theorem refuse {frame : Frame} {cause : ErrorCause} (hpush : m.calls.push frame = .error cause)
    (frame' : Frame) : m'.calls.push frame' = .error cause := by
  rw [CallStack.push_congr h.limit h.depth frame frame', hpush]

/-- Both machines take a frame. -/
theorem push {frame frame' : Frame} {calls : CallStack} (hpush : m.calls.push frame = .ok calls)
    (alike : (σ.outlook m).Alike frame frame') :
    ∃ calls', m'.calls.push frame' = .ok calls' ∧
      ({ m with calls } : Machine).Corresponds σ { m' with calls := calls' } := by
  refine ⟨{ m'.calls with frames := frame' :: m'.calls.frames }, ?_, ?_⟩
  · rw [CallStack.push_congr h.limit h.depth frame frame', hpush]
  · rw [CallStack.push_eq hpush]
    refine h.setFrames fun τ hτ => ?_
    rw [← alike τ hτ, ← h.frames τ hτ]
    rfl

/-- Both machines go into an activation. -/
theorem activate {frame frame' : Frame} {calls : CallStack} (hpush : m.calls.push frame = .ok calls)
    (alike : (σ.outlook m).Alike frame frame') (parent : Option ScopeId) :
    ∃ calls', m'.calls.push frame' = .ok calls' ∧
      (m.activate calls parent).Corresponds σ (m'.activate calls' parent) := by
  obtain ⟨calls', hpush', pushed⟩ := h.push hpush alike
  exact ⟨calls', hpush', pushed.enter .owning parent⟩

theorem deactivate : m.deactivate.Corresponds σ m'.deactivate :=
  h.leaveScope.pop

/-! ### Closures and methods -/

/-- Both machines make a closure. -/
theorem addClosure {closure closure' : Closure}
    (corresponds : ∀ τ, (σ.outlook m).Allows τ → closure.Corresponds τ closure') :
    let added : Machine := { m with closures := (m.closures.add closure).2 }
    added.Corresponds σ { m' with closures := (m'.closures.add closure').2 } ∧
      (σ.outlook added).Narrows (σ.outlook m) ∧
      (σ.outlook added).Alike (m.closures.add closure).1 (m'.closures.add closure').1 := by
  intro added
  have size := m.closures.size_add closure
  have grown : m.closures.closures.size ≤ (m.closures.add closure).2.closures.size :=
    Nat.le_of_lt (Nat.lt_of_lt_of_eq (Nat.lt_succ_self _) size.symm)
  have name : σ.proc (m.closures.add closure).1 = (m'.closures.add closure').1 := h.procs 0
  refine ⟨h.extend (σ.outlook m).allows_naming grown (Nat.le_refl _) (fun k => ?_) h.ids
    (fun id other hother => m'.closures.get?_add_of_some closure' hother) fun id other hother => ?_,
    Outlook.narrows_of_le σ grown (Nat.le_refl _), fun τ hτ => ?_⟩
  · have next := h.procs (1 + k)
    rw [← Nat.add_assoc, ← Nat.add_assoc] at next
    rw [size, m'.closures.size_add]
    exact next
  · rcases m.closures.get?_add_cases hother with old | ⟨rfl, rfl⟩
    · exact .inl old
    · refine .inr ⟨closure', ?_, corresponds⟩
      have found := m'.closures.get?_add_self closure'
      rwa [← name] at found
  · exact (hτ.proc _ (Nat.lt_of_lt_of_eq (Nat.lt_succ_self _) size.symm)).trans name

/-- Closures over a literal correspond.  What the call was matters to blocks only, unless both sides
make the same closures. -/
theorem closureOf {literal literal' : NodeId} (place : σ.node literal = literal') (params : ParamList)
    (body : NodeId) (isLambda : Bool) {tag tag' : Option FrameId}
    (tags : σ.aligned ∨ isLambda = false → (σ.outlook m).Alike tag tag') {τ : Naming}
    (hτ : (σ.outlook m).Allows τ) :
    (m.closureOf literal params body isLambda tag).Corresponds τ
      (m'.closureOf literal' params body isLambda tag') where
  literal := by rw [hτ.node]; exact place.symm
  params := rfl
  body := rfl
  captured := h.current
  isLambda := rfl
  home := by
    change m'.frame?.bind (·.homeForLiterals) = under τ (m.frame?.bind (·.homeForLiterals))
    rw [← h.frame? τ hτ]
    cases m.frame? with
    | none => rfl
    | some frame => exact frame.homeForLiterals_under
  breakTag needed := (tags (needed.imp_left fun aligned => hτ.aligned ▸ aligned) τ hτ).symm
  outerBlock := (h.block? τ hτ).symm

/-- Both machines close over the same literal. -/
theorem makeClosure {literal literal' : NodeId} (place : σ.node literal = literal')
    (params : ParamList) (body : NodeId) (isLambda : Bool) {tag tag' : Option FrameId}
    (alike : (σ.outlook m).Alike tag tag') :
    let made := m.makeClosure literal params body isLambda tag
    let made' := m'.makeClosure literal' params body isLambda tag'
    made.2.Corresponds σ made'.2 ∧ (σ.outlook made.2).Narrows (σ.outlook m) ∧
      (σ.outlook made.2).Alike made.1 made'.1 :=
  h.addClosure fun _ hτ => h.closureOf place params body isLambda (fun _ => alike) hτ

/-- Both machines make a lambda of a closure. -/
theorem addLambda {proc proc' : ProcId} (alike : (σ.outlook m).Alike proc proc') :
    (m.addLambda proc).2.Corresponds σ (m'.addLambda proc').2 ∧
      (σ.outlook (m.addLambda proc).2).Narrows (σ.outlook m) ∧
      (σ.outlook (m.addLambda proc).2).Alike (m.addLambda proc).1 (m'.addLambda proc').1 := by
  have name : σ.proc proc = proc' := alike.eq
  cases hclosure : m.closures.get? proc with
  | none =>
    have hclosure' := h.closure?_none hclosure
    rw [name] at hclosure'
    simp only [Machine.addLambda, ClosureTable.addLambda, hclosure, hclosure']
    exact ⟨h, .refl _, alike⟩
  | some closure =>
    obtain ⟨closure', hclosure', corresponds⟩ := h.closures proc closure hclosure
    rw [name] at hclosure'
    simp only [Machine.addLambda, ClosureTable.addLambda, hclosure, hclosure']
    refine h.addClosure fun τ hτ => ?_
    exact { corresponds τ hτ with
      isLambda := rfl
      breakTag := fun aligned => (corresponds τ hτ).breakTag (aligned.imp_right nofun) }

/-- Both runs define the same method. -/
theorem define {callee callee' : Method} (same : under σ callee = callee') :
    (m.define callee).Corresponds σ (m'.define callee') := by
  refine { h with methods := ?_ }
  rw [Machine.define, Machine.define, h.methods, ← same]
  exact Assoc.put_under m.methods callee.name callee

end Machine.Corresponds

end ScriptSemantics
