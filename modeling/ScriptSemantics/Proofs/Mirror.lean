import ScriptSemantics.Proofs.Growth
import ScriptSemantics.Proofs.Outline
import ScriptSemantics.Proofs.Provenance
import ScriptSemantics.Proofs.Relabelling

/-!
# Mirrored machines

Two machines mirror each other when code cannot tell them apart: nodes may have other ids, chains
may run through other transparent scopes, and scopes that neither run can reach may bind anything.

## Main Definitions

* `Mirroring` — in what two machines may differ
* `Mirroring.Mirrors` — two machines differ in this only
* `Mirroring.Inside` — and so do the scopes and frames that they are in

## Main Results

* `Mirroring.Inside.lookup_eq` — the same locals are in sight
* `Mirroring.Mirrors.activate`, `Mirroring.Inside.makeClosure`, `Mirroring.Inside.assignLocal`, ...
  — the same operation on both machines keeps them mirrored

## Design Notes

A scope that is out of reach stays so because no closure that captured it can be called.  So the
closures that neither run may call are barred from all values that the runs come across.
-/

namespace ScriptSemantics

/-- In what two machines may differ. -/
structure Mirroring where
  /-- What an operand of the first program is in the second one. -/
  operand : NodeId → NodeId
  /-- Where a node of the first program is in the second one. -/
  place : NodeId → NodeId
  /-- The scopes that the first run cannot reach. -/
  base : List Scope
  /-- The scopes that the second run cannot reach. -/
  base' : List Scope
  /-- How many closures neither run can call. -/
  barred : Nat

namespace Mirroring

/-- A closure that the runs may come across. -/
def Free (M : Mirroring) (id : ProcId) : Prop :=
  M.barred ≤ id.index

/-- No closure is given as a block, or a free one. -/
def FreeBlock (M : Mirroring) (block : Option ProcId) : Prop :=
  ∀ id, block = some id → M.Free id

theorem freeBlock_none {M : Mirroring} : M.FreeBlock none := by
  intro id h
  cases h

theorem freeBlock_some {M : Mirroring} {id : ProcId} (free : M.Free id) : M.FreeBlock (some id) := by
  rintro _ ⟨⟩
  exact free

/-- The closure of the second machine that corresponds to one of the first machine. -/
structure ClosureMirrors (M : Mirroring) (store store' : ScopeStore) (closure closure' : Closure) :
    Prop where
  captured : ScopeStore.Twin M.base M.base' store store' closure.captured closure'.captured
  outerBlock : M.FreeBlock closure.outerBlock

/-- Two machines differ only in what a mirroring allows. -/
structure Mirrors (M : Mirroring) (m m' : Machine) : Prop where
  store : ScopeStore.Alike M.base M.base' m.env.store m'.env.store
  values : ∀ r bindings, ScopeStore.owning M.base ≤ r → m.env.store.contents[r]? = some bindings →
    Assoc.Holds (Value.Within M.Free) bindings
  barred : M.barred ≤ m.closures.closures.size
  count : m'.closures.closures.size = m.closures.closures.size
  closures : ∀ id closure closure', m.closures.get? id = some closure →
    m'.closures.get? id = some closure' →
      closure' = { closure.relabel M.operand M.place with captured := closure'.captured } ∧
        (M.Free id → M.ClosureMirrors m.env.store m'.env.store closure closure')
  methods : m'.methods =
    m.methods.map fun pair => (pair.1, pair.2.relabel M.operand M.place)
  calls : m'.calls = m.calls
  owned : ∀ root, m'.resolution.ownedNames (M.place root) = m.resolution.ownedNames root
  unbound : ∀ id, m'.resolution.isUnbound (M.place id) = m.resolution.isUnbound id

/-- The machines are mirrored, and so is what the running code is in. -/
structure Inside (M : Mirroring) (m m' : Machine) : Prop extends M.Mirrors m m' where
  scope : ScopeStore.Twin M.base M.base' m.env.store m'.env.store m.env.current m'.env.current
  block : M.FreeBlock m.block?

variable {M : Mirroring} {m m' m₁ m₁' : Machine} {name : Name} {value : Value}

/-! ### Reading -/

namespace Mirrors

theorem frame? (h : M.Mirrors m m') : m'.frame? = m.frame? :=
  congrArg CallStack.current? h.calls

theorem block? (h : M.Mirrors m m') : m'.block? = m.block? := by
  rw [Machine.block?, Machine.block?, h.frame?]

/-- Both machines know a closure, or neither does. -/
theorem closure_cases (h : M.Mirrors m m') (id : ProcId) :
    (m.closures.get? id = none ∧ m'.closures.get? id = none) ∨
      ∃ closure closure', m.closures.get? id = some closure ∧
        m'.closures.get? id = some closure' := by
  rcases Nat.lt_or_ge id.index m.closures.closures.size with hlt | hge
  · exact .inr ⟨_, _, Array.getElem?_eq_getElem hlt, Array.getElem?_eq_getElem (h.count ▸ hlt)⟩
  · exact .inl ⟨Array.getElem?_eq_none hge, Array.getElem?_eq_none (h.count ▸ hge)⟩

/-- Lambdas are lambdas on both machines. -/
theorem isLambda_eq (h : M.Mirrors m m') (id : ProcId) :
    (m'.closures.get? id).any (·.isLambda) = (m.closures.get? id).any (·.isLambda) := by
  rcases h.closure_cases id with ⟨hnone, hnone'⟩ | ⟨closure, closure', hclosure, hclosure'⟩
  · rw [hnone, hnone']
  · rw [hclosure, hclosure', Option.any_some, Option.any_some, (h.closures id _ _ hclosure hclosure').1]
    rfl

theorem method?_eq (h : M.Mirrors m m') (name : Name) :
    m'.methods.get? name = (m.methods.get? name).map (·.relabel M.operand M.place) := by
  rw [h.methods]
  exact Assoc.get?_map_snd _ m.methods name

theorem contains_methods_eq (h : M.Mirrors m m') (name : Name) :
    m'.methods.contains name = m.methods.contains name := by
  rw [Assoc.contains, Assoc.contains, h.method?_eq, Option.isSome_map]

end Mirrors

namespace Inside

/-- The same locals are in sight with the same values. -/
theorem lookup_eq (h : M.Inside m m') (name : Name) : m'.env.lookup name = m.env.lookup name :=
  h.store.lookup_eq h.scope name

/-- What a local holds is free. -/
theorem within_lookup (h : M.Inside m m') (hvalue : m.env.lookup name = some value) :
    value.Within M.Free := by
  rw [Environment.lookup, h.store.rests.lookup_eq h.scope.left.above] at hvalue
  obtain ⟨r, hr, hvalue⟩ := List.exists_of_findSome?_eq_some hvalue
  rw [ScopeStore.valueAt, Option.bind_eq_some_iff] at hvalue
  obtain ⟨bindings, hbindings, hget⟩ := hvalue
  exact (h.values r bindings (h.store.owning_le_of_mem_path h.scope.left.above hr) hbindings).get? hget

theorem read?_eq (h : M.Inside m m') (id : NodeId) (name : Name) :
    m'.read? (M.place id) name = m.read? id name := by
  rw [Machine.read?, Machine.read?, h.unbound, h.lookup_eq]

/-- What a task leaves is still inside of the same. -/
theorem grow (h : M.Inside m m') (mirrors : M.Mirrors m₁ m₁') (grows : m.Grows m₁)
    (grows' : m'.Grows m₁') : M.Inside m₁ m₁' where
  toMirrors := mirrors
  scope := by
    have hcurrent : m₁.env.current = m.env.current := by
      rw [Environment.current, Environment.current, grows.entered, grows.top]
    have hcurrent' : m₁'.env.current = m'.env.current := by
      rw [Environment.current, Environment.current, grows'.entered, grows'.top]
    rw [hcurrent, hcurrent']
    exact h.scope.grow h.store.rests h.store.rests' grows.scopes grows'.scopes
  block := by
    have hblock : m₁.block? = m.block? := by
      rw [Machine.block?, Machine.frame?, CallStack.current?, grows.frames]
      rfl
    rw [hblock]
    exact h.block

end Inside

/-! ### Scopes -/

/-- The stores are replaced by larger ones that are alike again. -/
theorem Mirrors.setEnv (h : M.Mirrors m m') (env env' : Environment)
    (alike : ScopeStore.Alike M.base M.base' env.store env'.store)
    (grows : m.env.store.Extends env.store) (grows' : m'.env.store.Extends env'.store)
    (values : ∀ r bindings, ScopeStore.owning M.base ≤ r → env.store.contents[r]? = some bindings →
      Assoc.Holds (Value.Within M.Free) bindings) :
    M.Mirrors { m with env } { m' with env := env' } where
  store := alike
  values := values
  barred := h.barred
  count := h.count
  closures id closure closure' hclosure hclosure' := by
    obtain ⟨same, free⟩ := h.closures id closure closure' hclosure hclosure'
    refine ⟨same, fun hfree => ?_⟩
    have mirrors := free hfree
    exact ⟨mirrors.captured.grow h.store.rests h.store.rests' grows grows', mirrors.outerBlock⟩
  methods := h.methods
  calls := h.calls
  owned := h.owned
  unbound := h.unbound

/-- After a definition in scopes with the same number, the machines are mirrored again. -/
theorem Inside.defineIn (h : M.Inside m m') {s s' : ScopeId} (hs : M.base.length ≤ s.index)
    (howning : m.env.store.isOwning s = true) (hs' : M.base'.length ≤ s'.index)
    (howning' : m'.env.store.isOwning s' = true)
    (hrank : m'.env.store.rank s' = m.env.store.rank s) (name : Name) (hvalue : value.Within M.Free) :
    M.Inside (m.mapEnv fun env => { env with store := env.store.define s name value })
      (m'.mapEnv fun env => { env with store := env.store.define s' name value }) := by
  have same := ScopeStore.shape_define m.env.store s name value
  have same' := ScopeStore.shape_define m'.env.store s' name value
  have mirrors : M.Mirrors (m.mapEnv fun env => { env with store := env.store.define s name value })
      (m'.mapEnv fun env => { env with store := env.store.define s' name value }) := by
    refine h.setEnv _ _ (h.store.define hs howning hs' howning' hrank name value) (.of_shape_eq same)
      (.of_shape_eq same') fun r bindings hr hbindings => ?_
    rw [ScopeStore.contents_define howning, List.getElem?_modify] at hbindings
    obtain ⟨before, hbefore, rfl⟩ := Option.map_eq_some_iff.mp hbindings
    have hvalues := h.values r before hr hbefore
    split
    · exact hvalues.put name hvalue
    · exact hvalues
  exact h.grow mirrors (.keep ⟨same, rfl, rfl⟩ rfl rfl (Nat.le_refl _) rfl)
    (.keep ⟨same', rfl, rfl⟩ rfl rfl (Nat.le_refl _) rfl)

namespace Inside

/-- Both machines bind a name in the scope that keeps the variables. -/
theorem define (h : M.Inside m m') (name : Name) (hvalue : value.Within M.Free) :
    M.Inside (m.mapEnv (·.define name value)) (m'.mapEnv (·.define name value)) := by
  obtain ⟨hs, howning, -⟩ := h.store.rests.head?_path h.scope.left
  obtain ⟨hs', howning', -⟩ := h.store.rests'.head?_path h.scope.right
  exact h.defineIn hs howning hs' howning' (h.store.rank_owner_eq h.scope) name hvalue

/-- Both machines store a local. -/
theorem assignLocal (h : M.Inside m m') (name : Name) (hvalue : value.Within M.Free) :
    M.Inside (m.mapEnv (·.assignLocal name value)) (m'.mapEnv (·.assignLocal name value)) := by
  have hrank := h.store.rank_binder?_eq h.scope name
  rw [Machine.mapEnv, Machine.mapEnv, Environment.assignLocal, Environment.assignLocal]
  cases hbinder : m.env.store.binder? m.env.current name with
  | none =>
    rw [hbinder, Option.map_none, Option.map_eq_none_iff] at hrank
    rw [hrank]
    exact h.define name hvalue
  | some s =>
    rw [hbinder, Option.map_some, Option.map_eq_some_iff] at hrank
    obtain ⟨s', hbinder', hrank⟩ := hrank
    rw [hbinder']
    obtain ⟨hs, howning⟩ := h.store.rests.isOwning_of_binder? h.scope.left.above hbinder
    obtain ⟨hs', howning'⟩ := h.store.rests'.isOwning_of_binder? h.scope.right.above hbinder'
    exact h.defineIn hs howning hs' howning' hrank name hvalue

/-- Both machines declare a name in the scope that keeps the variables. -/
theorem declare (h : M.Inside m m') (name : Name) :
    M.Inside (m.mapEnv (·.declare name)) (m'.mapEnv (·.declare name)) := by
  obtain ⟨hs, howning, -⟩ := h.store.rests.head?_path h.scope.left
  obtain ⟨-, howning', -⟩ := h.store.rests'.head?_path h.scope.right
  have hbinds : m'.env.store.binds (m'.env.store.owner m'.env.current) name =
      m.env.store.binds (m.env.store.owner m.env.current) name := by
    rw [ScopeStore.binds, ScopeStore.binds, ScopeStore.binding?_eq_valueAt howning,
      ScopeStore.binding?_eq_valueAt howning', h.store.rank_owner_eq h.scope, h.store.valueAt_eq]
    exact ScopeStore.owning_le_rank h.store.rests.floor hs
  rw [Machine.mapEnv, Machine.mapEnv, Environment.declare, Environment.declare, ScopeStore.declare,
    ScopeStore.declare, hbinds]
  split
  · exact h
  · exact h.define name Value.within_nil

/-- Both machines declare the names that corresponding scope roots own. -/
theorem declareOwned (h : M.Inside m m') (root : NodeId) :
    M.Inside (m.declareOwned root) (m'.declareOwned (M.place root)) := by
  rw [Machine.declareOwned, Machine.declareOwned, h.owned]
  generalize m.resolution.ownedNames root = names
  induction names generalizing m m' with
  | nil => exact h
  | cons name rest ih => exact ih (h.declare name)

/-- The first machine enters a transparent scope. -/
theorem enterTransparent_left (h : M.Inside m m') :
    M.Inside (m.mapEnv .enterTransparent) m' where
  toMirrors := h.setEnv m.env.enterTransparent m'.env
    (h.store.addTransparent h.scope.left) (ScopeStore.extends_add _ _ _) (.refl _) <| by
    intro r bindings hr hbindings
    exact h.values r bindings hr (by
      rwa [← ScopeStore.contents_add_transparent m.env.store (some m.env.current)])
  scope := {
    left := ScopeStore.above_added h.store.rests.floor .transparent _
    right := h.scope.right
    path := h.scope.path.trans
      (ScopeStore.path_added_transparent h.store.rests h.scope.left).symm }
  block := h.block

/-- The second machine enters a transparent scope. -/
theorem enterTransparent_right (h : M.Inside m m') :
    M.Inside m (m'.mapEnv .enterTransparent) where
  toMirrors := h.setEnv m.env m'.env.enterTransparent
    (h.store.symm.addTransparent h.scope.right).symm (.refl _) (ScopeStore.extends_add _ _ _) h.values
  scope := {
    left := h.scope.left
    right := ScopeStore.above_added h.store.rests'.floor .transparent _
    path := (ScopeStore.path_added_transparent h.store.rests' h.scope.right).trans h.scope.path }
  block := h.block

end Inside

/-! ### Closures and methods -/

/-- Both machines make a closure that mirrors that of the other one. -/
theorem Mirrors.addClosure (h : M.Mirrors m m') {closure closure' : Closure}
    (same : closure' = { closure.relabel M.operand M.place with captured := closure'.captured })
    (mirrors : M.ClosureMirrors m.env.store m'.env.store closure closure') :
    (m'.closures.add closure').1 = (m.closures.add closure).1 ∧
      M.Free (m.closures.add closure).1 ∧
      M.Mirrors { m with closures := (m.closures.add closure).2 }
        { m' with closures := (m'.closures.add closure').2 } := by
  refine ⟨congrArg ProcId.mk h.count, h.barred, { h with
    barred := ?_, count := ?_, closures := fun id left right hleft hright => ?_ }⟩
  · exact Nat.le_trans h.barred (by simp [ClosureTable.add])
  · simp [ClosureTable.add, h.count]
  · simp only [ClosureTable.add, ClosureTable.get?, Array.getElem?_push, h.count] at hleft hright
    split at hleft
    next heq =>
      rw [if_pos heq] at hright
      cases hleft
      cases hright
      exact ⟨same, fun _ => mirrors⟩
    next hne =>
      rw [if_neg hne] at hright
      exact h.closures id left right hleft hright

/-- Both machines close a literal over what they are in. -/
theorem Inside.makeClosure (h : M.Inside m m') (literal : NodeId) (params : ParamList)
    (body : NodeId) (isLambda : Bool) (breakTag : Option FrameId) :
    (m'.makeClosure (M.place literal) (params.relabel M.operand) (M.operand body) isLambda
        breakTag).1 = (m.makeClosure literal params body isLambda breakTag).1 ∧
      M.Free (m.makeClosure literal params body isLambda breakTag).1 ∧
      M.Mirrors (m.makeClosure literal params body isLambda breakTag).2
        (m'.makeClosure (M.place literal) (params.relabel M.operand) (M.operand body) isLambda
          breakTag).2 :=
  h.addClosure (by rw [h.frame?, h.block?]; rfl) ⟨h.scope, h.block⟩

/-- Both machines make a lambda of a closure that may be called. -/
theorem Mirrors.addLambda (h : M.Mirrors m m') {id : ProcId} (free : M.Free id) :
    (m'.addLambda id).1 = (m.addLambda id).1 ∧ M.Free (m.addLambda id).1 ∧
      M.Mirrors (m.addLambda id).2 (m'.addLambda id).2 := by
  rw [Machine.addLambda, Machine.addLambda, ClosureTable.addLambda, ClosureTable.addLambda]
  rcases h.closure_cases id with ⟨hnone, hnone'⟩ | ⟨closure, closure', hclosure, hclosure'⟩
  · rw [hnone, hnone']
    exact ⟨rfl, free, h⟩
  · rw [hclosure, hclosure']
    obtain ⟨same, mirrors⟩ := h.closures id closure closure' hclosure hclosure'
    have mirrors := mirrors free
    exact h.addClosure (by rw [same]; rfl) ⟨mirrors.captured, mirrors.outerBlock⟩

/-- Both machines register a method. -/
theorem Mirrors.define (h : M.Mirrors m m') (method : Method) :
    M.Mirrors (m.define method) (m'.define (method.relabel M.operand M.place)) :=
  { h with
    methods := by
      show m'.methods.put method.name (method.relabel M.operand M.place) = _
      rw [h.methods]
      exact Assoc.put_map_snd _ m.methods method.name method }

/-! ### Frames -/

/-- Both machines note that a loop begins. -/
theorem Inside.beginLoop (h : M.Inside m m') :
    M.Inside (m.mapCalls .beginLoop) (m'.mapCalls .beginLoop) := by
  refine { h with calls := congrArg CallStack.beginLoop h.calls, block := fun id hid => ?_ }
  refine h.block id ?_
  rw [Machine.block?, Machine.frame?, CallStack.current?] at hid ⊢
  rw [Machine.mapCalls, CallStack.beginLoop, CallStack.modifyCurrent] at hid
  cases hframes : m.calls.frames with
  | nil =>
    rw [hframes] at hid
    dsimp only at hid
    rw [hframes] at hid
    exact hid
  | cons frame rest =>
    rw [hframes] at hid
    exact hid

namespace Mirrors

/-- Both machines take the same frame identity. -/
theorem allocateFrame (h : M.Mirrors m m') :
    m'.allocateFrame.1 = m.allocateFrame.1 ∧
      M.Mirrors m.allocateFrame.2 m'.allocateFrame.2 := by
  refine ⟨congrArg (fun calls : CallStack => FrameId.mk calls.nextId) h.calls, { h with calls := ?_ }⟩
  exact congrArg (fun calls : CallStack => calls.allocate.2) h.calls

/-- The same change of the call stacks. -/
theorem mapCalls (h : M.Mirrors m m') (f : CallStack → CallStack) :
    M.Mirrors (m.mapCalls f) (m'.mapCalls f) :=
  { h with calls := congrArg f h.calls }

/-- Both machines leave a scope. -/
theorem leave (h : M.Mirrors m m') : M.Mirrors (m.mapEnv .leave) (m'.mapEnv .leave) :=
  { h with }

/-- The second machine leaves a scope. -/
theorem leave_right (h : M.Mirrors m m') : M.Mirrors m (m'.mapEnv .leave) :=
  { h with }

/-- Both machines go into an activation with a frame that has a free block. -/
theorem activate (h : M.Mirrors m m') {frame : Frame} {calls : CallStack}
    (hpush : m.calls.push frame = .ok calls) (block : M.FreeBlock frame.block)
    {parent parent' : Option ScopeId}
    (parents : Option.Rel (ScopeStore.Twin M.base M.base' m.env.store m'.env.store) parent parent') :
    M.Inside (m.activate calls parent) (m'.activate calls parent') := by
  have hparent : ∀ p, parent = some p → m.env.store.Above M.base p := by
    rintro p rfl
    cases parents with
    | some twin => exact twin.left
  have hparent' : ∀ p, parent' = some p → m'.env.store.Above M.base' p := by
    rintro p rfl
    cases parents with
    | some twin => exact twin.right
  -- the new scopes are empty, so nothing that is barred is stored in them
  have mirrors := h.setEnv (m.env.enterOwning parent) (m'.env.enterOwning parent')
    (h.store.addOwning hparent hparent') (ScopeStore.extends_add _ _ _)
    (ScopeStore.extends_add _ _ _) <| by
    intro r bindings hr hbindings
    have hbindings : (m.env.store.add .owning parent).2.contents[r]? = some bindings := hbindings
    rw [ScopeStore.contents_add_owning, List.getElem?_append] at hbindings
    split at hbindings
    · exact h.values r bindings hr hbindings
    · obtain rfl : bindings = [] := by
        have := List.mem_of_getElem? hbindings
        simpa using this
      exact Assoc.holds_nil
  refine { mirrors with calls := rfl, scope := ⟨?_, ?_, ?_⟩, block := ?_ }
  · exact ScopeStore.above_added h.store.rests.floor .owning parent
  · exact ScopeStore.above_added h.store.rests'.floor .owning parent'
  · show (m'.env.store.add .owning parent').2.path ⟨m'.env.store.size⟩ =
      (m.env.store.add .owning parent).2.path ⟨m.env.store.size⟩
    rw [ScopeStore.path_added_owning h.store.rests hparent,
      ScopeStore.path_added_owning h.store.rests' hparent', h.store.length]
    cases parents with
    | none => rfl
    | some twin => exact congrArg (_ :: ·) twin.path
  · intro id hid
    rw [Machine.block?, Machine.frame?, CallStack.current?] at hid
    have hframes : (m.activate calls parent).calls.frames = frame :: m.calls.frames := by
      rw [Machine.activate, CallStack.push_eq hpush]
    rw [hframes] at hid
    exact block id hid

/-- Both machines go out of an activation. -/
theorem deactivate (h : M.Mirrors m m') : M.Mirrors m.deactivate m'.deactivate :=
  { h with calls := congrArg CallStack.pop h.calls }

end Mirrors

end Mirroring

end ScriptSemantics
