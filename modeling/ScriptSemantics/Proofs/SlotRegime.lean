import ScriptSemantics.Proofs.Slots

/-!
# Agreement with the walk

Scopes, closures and methods stay in agreement with what the walk of the resolver has found while a
machine goes on, and so do the places at which code is run.

## Main Results

* `Scoped.extend`, `Scoped.addClosure` — the agreement survives new scopes and closures
* `Placed.child`, `Placed.target`, `Within.operand` — from a place to the places inside of it
* `faces_grows` — places stay what they are while the machine grows
-/

namespace ScriptSemantics

variable {program : Program} {res : Resolution} {entries : Assoc NodeId Walk} {root : NodeId}
  {g g' : Ledger} {m m' : Machine} {n : Nat}

/-! ### Keeping the agreement -/

namespace Scoped

/-- The scopes that there were bind what they bound, and the new ones agree with the walk. -/
theorem extend (h : Scoped program res entries g m) (accurate : g.Accurate m)
    (scopes : m.env.store.Extends m'.env.store) (agree : g.AgreeOn m.env.store g')
    (resolution : m'.resolution = m.resolution) (closures : m'.closures = m.closures)
    (methods : m'.methods = m.methods)
    (kept : ∀ s name, m.env.store.binds s name = true → m'.env.store.binds s name = true)
    (old : ∀ s name, s.index < m.env.store.size →
      name.isEmpty = false ∨ m.env.store.isOwning s = false →
      m'.env.store.binds s name = true → m.env.store.binds s name = true)
    (transparent : ∀ s name, m.env.store.size ≤ s.index → m'.env.store.isOwning s = false →
      m'.env.store.binds s name = false)
    (owning : ∀ s root, m.env.store.size ≤ s.index → m'.env.store.isOwning s = true →
      g'.root? s = some root → ∀ name,
      (m'.env.store.binds s name = true ↔ name ∈ res.ownedNames root)) :
    Scoped program res entries g' m' where
  resolution := resolution.trans h.resolution
  transparent s name hs := by
    -- an old scope binds what it bound, and of a new one it is assumed
    rcases Nat.lt_or_ge s.index m.env.store.size with hlt | hle
    · rw [scopes.isOwning hlt] at hs
      rw [Bool.eq_false_iff]
      intro hbinds
      exact Bool.false_ne_true ((h.transparent s name hs).symm.trans (old s name hlt (.inr hs) hbinds))
    · exact transparent s name hle hs
  bound s root hs hroot name howned := by
    rcases Nat.lt_or_ge s.index m.env.store.size with hlt | hle
    · rw [scopes.isOwning hlt] at hs
      rw [Ledger.root?, agree s hlt] at hroot
      exact kept s name (h.bound s root hs hroot name howned)
    · exact (owning s root hle hs hroot name).mpr howned
  owned s root hs hroot name hne hbinds := by
    rcases Nat.lt_or_ge s.index m.env.store.size with hlt | hle
    · rw [scopes.isOwning hlt] at hs
      rw [Ledger.root?, agree s hlt] at hroot
      exact h.owned s root hs hroot name hne (old s name hlt (.inl hne) hbinds)
    · exact (owning s root hle hs hroot name).mp hbinds
  closures proc c hc := by
    rw [closures] at hc
    obtain ⟨levels, w, stands, hcode, faces⟩ := h.closures proc c hc
    exact ⟨levels, w, stands, hcode,
      faces.extend scopes accurate.founded (accurate.captured proc c hc) agree⟩
  methods name callee hcallee := h.methods name callee (methods ▸ hcallee)

/-- No scope is added. -/
theorem keep (h : Scoped program res entries g m) (accurate : g.Accurate m)
    (shape : m'.env.store.shape = m.env.store.shape) (agree : g.AgreeOn m.env.store g')
    (resolution : m'.resolution = m.resolution) (closures : m'.closures = m.closures)
    (methods : m'.methods = m.methods)
    (kept : ∀ s name, m.env.store.binds s name = true → m'.env.store.binds s name = true)
    (old : ∀ s name, name.isEmpty = false ∨ m.env.store.isOwning s = false →
      m'.env.store.binds s name = true → m.env.store.binds s name = true) :
    Scoped program res entries g' m' := by
  have hsize : m'.env.store.size = m.env.store.size := by
    rw [← ScopeStore.length_shape, shape, ScopeStore.length_shape]
  refine h.extend accurate (.of_shape_eq shape) agree resolution closures methods kept
    (fun s name _ => old s name) ?_ ?_
  · intro s name hle _
    rw [Bool.eq_false_iff]
    intro hbinds
    have hlt := ScopeStore.lt_of_binds hbinds
    omega
  · intro s _ hle howning
    have hlt := ScopeStore.isOwning_lt howning
    omega

/-- Nothing that the agreement is about is changed. -/
theorem congr (h : Scoped program res entries g m) (store : m'.env.store = m.env.store)
    (resolution : m'.resolution = m.resolution) (closures : m'.closures = m.closures)
    (methods : m'.methods = m.methods) : Scoped program res entries g m' where
  resolution := resolution.trans h.resolution
  transparent := store ▸ h.transparent
  bound := store ▸ h.bound
  owned := store ▸ h.owned
  closures := closures ▸ store ▸ h.closures
  methods := methods ▸ h.methods

/-- A closure is made of a literal at which the walk stands. -/
theorem addClosure (h : Scoped program res entries g m) {c : Closure} {levels : Nat} {w : Walk}
    (stands : Stands program.nodes res entries levels c.literal w)
    (code : program.nodes.callable? c.literal = some (c.params, c.body, true))
    (faces : g.Faces m.env.store c.captured (seenRoots w.scopes)) :
    Scoped program res entries g { m with closures := (m.closures.add c).2 } where
  resolution := h.resolution
  transparent := h.transparent
  bound := h.bound
  owned := h.owned
  closures proc c' hc' := by
    rcases m.closures.get?_add_cases hc' with hc' | ⟨-, rfl⟩
    · exact h.closures proc c' hc'
    · exact ⟨levels, w, stands, code, faces⟩
  methods := h.methods

theorem addLambda (h : Scoped program res entries g m) (proc : ProcId) :
    Scoped program res entries g (m.addLambda proc).2 := by
  rw [Machine.addLambda, ClosureTable.addLambda]
  cases hc : m.closures.get? proc with
  | none => exact h
  | some c =>
    obtain ⟨levels, w, stands, code, faces⟩ := h.closures proc c hc
    exact h.addClosure (c := { c with isLambda := true }) stands code faces

/-- A method is defined by a node at which the walk stands. -/
theorem define (h : Scoped program res entries g m) {callee : Method} {levels : Nat} {w : Walk}
    (stands : Stands program.nodes res entries levels callee.root w)
    (code : program.nodes.callable? callee.root = some (callee.params, callee.body, false)) :
    Scoped program res entries g (m.define callee) where
  resolution := h.resolution
  transparent := h.transparent
  bound := h.bound
  owned := h.owned
  closures := h.closures
  methods name other hother := by
    rw [Machine.define, Assoc.get?_put] at hother
    split at hother
    · cases hother
      exact ⟨levels, w, stands, code⟩
    · exact h.methods name other hother

/-- A binding of a name that is bound changes nothing in the agreement, and neither does one of the
empty name in an owning scope. -/
theorem defineIn (h : Scoped program res entries g m) (accurate : g.Accurate m) {s : ScopeId}
    {name : Name} {value : Value}
    (bound : m.env.store.binds s name = true ∨
      name.isEmpty = true ∧ m.env.store.isOwning s = true) :
    Scoped program res entries g
      (m.mapEnv fun env => { env with store := env.store.define s name value }) := by
  have hlt : s.index < m.env.store.size :=
    bound.elim ScopeStore.lt_of_binds fun h => ScopeStore.isOwning_lt h.2
  have hiff : ∀ t other, (m.env.store.define s name value).binds t other = true ↔
      (t = s ∧ other = name) ∨ m.env.store.binds t other = true :=
    fun t other => ScopeStore.binds_define_iff hlt
  refine h.keep accurate (ScopeStore.shape_define _ _ _ _) (.refl _ _) rfl rfl rfl
    (fun t other hother => (hiff t other).mpr (.inr hother)) fun t other hother hbinds => ?_
  rcases (hiff t other).mp hbinds with ⟨rfl, rfl⟩ | hbinds
  · rcases bound with hbound | ⟨hempty, howning⟩
    · exact hbound
    · rcases hother with hne | hnot
      · rw [hempty] at hne
        cases hne
      · rw [howning] at hnot
        cases hnot
  · exact hbinds

end Scoped

/-! ### Places -/

section Places

theorem OpenScope.Grown.ne_nil {params : List Name} {scopes scopes' : List OpenScope}
    (h : OpenScope.Grown params scopes scopes') (hne : scopes ≠ []) : scopes' ≠ [] := by
  cases h with
  | nil => exact hne
  | cons => simp

variable {id : NodeId} {node : Node}

theorem Placed.child (h : Placed program res entries g id m)
    (hnode : program.nodes.node? id = some node) {child : NodeId}
    (hchild : child ∈ node.operands ∨ child ∈ node.literals) :
    Placed program res entries g child m := by
  obtain ⟨levels, w, stands, hne, faces⟩ := h
  have hcallable : node.callable? = none := by
    cases node with
    | define | block | lambda => rcases hchild with h | h <;> cases h
    | _ => rfl
  obtain ⟨below, mid, stands, grown⟩ :=
    stands.child hnode hcallable (Node.operands_subset hchild)
  exact ⟨below, mid, stands, grown.ne_nil hne, grown.seenRoots_eq ▸ faces⟩

theorem Placed.target (h : Placed program res entries g id m)
    (hnode : program.nodes.node? id = some node) {site : NodeId} {name : Name}
    (htarget : (site, name) ∈ node.targets id) : Storing program res entries g site name m := by
  obtain ⟨levels, w, stands, hne, faces⟩ := h
  obtain ⟨mid, sited, grown⟩ := stands.target hnode htarget hne
  exact ⟨mid, sited, grown.ne_nil hne, grown.seenRoots_eq ▸ faces⟩

theorem Within.operand {code : Code} (h : Within program res entries g code m) {child : NodeId}
    (hchild : child ∈ code.operands) : Placed program res entries g child m := by
  obtain ⟨levels, w, sees, stands, hcode, faces⟩ := h
  obtain ⟨node, hnode, hcallable⟩ := Option.bind_eq_some_iff.mp hcode
  obtain ⟨below, mid, stands, grown⟩ := stands.codeOperand hnode hcallable hchild
  exact ⟨below, mid, stands, grown.ne_nil (by simp [Walk.enter]), grown.seenRoots_eq ▸ faces⟩

/-- Places stay what they are while the machine grows. -/
theorem faces_grows {roots : List NodeId} (faces : g.Faces m.env.store m.env.current roots)
    (ready : g.Ready m) (grows : m.Grows m') (agree : g.AgreeOn m.env.store g') :
    g'.Faces m'.env.store m'.env.current roots := by
  have hcurrent : m'.env.current = m.env.current := by
    rw [Environment.current, Environment.current, grows.entered, grows.top]
  rw [hcurrent]
  exact faces.extend grows.scopes ready.accurate.founded ready.current_lt agree

end Places

end ScriptSemantics
