import ScriptSemantics.Proofs.Bindings
import ScriptSemantics.Proofs.LedgerLaws
import ScriptSemantics.Proofs.Sites

/-!
# Slots of locals

While a program runs, the owning scopes around the current one were made for the scope roots that
the walk of the resolver was inside of, one for each.  An owning scope binds just the names that its
scope root owns.

## Main Definitions

* `Ledger.slot?` — the innermost activation of a scope root around a scope
* `Ledger.Faces` — the owning scopes around a scope and the scope roots in sight correspond
* `Scoped` — scopes, closures and methods agree with what the walk has found
* `Placed`, `Within`, `Storing` — the places where code is run

## Main Results

* `Scoped.binder?_eq` — the scope that binds a name is the slot of the holder of the name
-/

namespace ScriptSemantics

namespace Ledger

variable {g g' : Ledger} {store store' : ScopeStore} {scope : ScopeId} {roots : List NodeId}

/-- The scope root that a scope was made for. -/
def root? (g : Ledger) (s : ScopeId) : Option NodeId :=
  (g s).bind (·.root)

/-- The innermost activation of a scope root around a scope. -/
def slot? (g : Ledger) (store : ScopeStore) (scope : ScopeId) (root : NodeId) : Option ScopeId :=
  (store.owners scope).find? fun s => g.root? s == some root

theorem root?_of_slot? (h : g.slot? store scope root = some slot) : g.root? slot = some root :=
  eq_of_beq (List.find?_some (p := fun s => g.root? s == some root) h)

/-- The owning scopes around a scope were made for these scope roots. -/
def Faces (g : Ledger) (store : ScopeStore) (scope : ScopeId) (roots : List NodeId) : Prop :=
  (store.owners scope).map g.root? = roots.map some

/-- What lies around a new activation: what its parent faces, or nothing. -/
def FacesAround (g : Ledger) (store : ScopeStore) (parent : Option ScopeId)
    (roots : List NodeId) : Prop :=
  match parent with
  | some p => g.Faces store p roots
  | none => roots = []

theorem Faces.extend (h : g.Faces store scope roots) (scopes : store.Extends store')
    (founded : store.Founded) (hscope : scope.index < store.size) (agree : AgreeOn store g g') :
    g'.Faces store' scope roots := by
  rw [Faces, scopes.owners founded hscope, ← h]
  refine List.map_congr_left fun s hs => ?_
  rw [root?, root?, agree.owning (ScopeStore.isOwning_of_mem_owners hs)]

/-- A transparent scope faces what its parent faces. -/
theorem Faces.addTransparent (h : g.Faces store scope roots) (founded : store.Founded)
    (hscope : scope.index < store.size) :
    g.Faces (store.add .transparent (some scope)).2 ⟨store.size⟩ roots := by
  have founded' : (store.add .transparent (some scope)).2.Founded :=
    founded.add fun p hp => by
      cases hp
      exact hscope
  have hparent := h.extend (ScopeStore.extends_add store .transparent (some scope)) founded hscope
    (.refl _ _)
  rw [Faces, ScopeStore.owners_eq founded', ScopeStore.isOwning_added, ScopeStore.parent?_added]
  exact hparent

/-- The scope of a new activation faces its own scope root and what its parent faces. -/
theorem Faces.addOwning (founded : store.Founded) {parent : Option ScopeId} {a : Activation}
    {root : NodeId} (hroot : a.root = some root)
    (older : ∀ p, parent = some p → p.index < store.size)
    (around : g.FacesAround store parent roots) :
    (g.set ⟨store.size⟩ a).Faces (store.add .owning parent).2 ⟨store.size⟩ (root :: roots) := by
  have founded' : (store.add .owning parent).2.Founded := founded.add older
  have hself : (g.set ⟨store.size⟩ a).root? ⟨store.size⟩ = some root := by
    rw [root?, set_self]
    exact hroot
  rw [Faces, ScopeStore.owners_eq founded', ScopeStore.isOwning_added, ScopeStore.parent?_added]
  cases parent with
  | none =>
    obtain rfl : roots = [] := around
    exact congrArg (· :: []) hself
  | some p =>
    have hparent := Faces.extend around (ScopeStore.extends_add store .owning (some p)) founded
      (older p rfl) (agreeOn_set store g a)
    exact congrArg₂ List.cons hself hparent

theorem Faces.exists_owner (h : g.Faces store scope (root :: roots)) :
    ∃ rest, store.owners scope = store.owner scope :: rest ∧
      g.root? (store.owner scope) = some root := by
  rw [Faces] at h
  cases howners : store.owners scope with
  | nil =>
    rw [howners] at h
    cases h
  | cons first rest =>
    rw [howners, List.map_cons, List.map_cons] at h
    have howner : store.owner scope = first := by rw [ScopeStore.owner_eq, howners]; rfl
    rw [howner]
    exact ⟨rest, rfl, (List.cons.inj h).1⟩

/-- Corresponding lists are searched in the same way. -/
theorem find?_owners {owners : List ScopeId} (h : owners.map g.root? = roots.map some)
    (distinct : roots.Nodup) {p : ScopeId → Bool} {q : NodeId → Bool}
    (same : ∀ s ∈ owners, ∀ root, g.root? s = some root → p s = q root) :
    owners.find? p =
      (roots.find? q).bind fun root => owners.find? fun s => g.root? s == some root := by
  induction roots generalizing owners with
  | nil =>
    obtain rfl := List.map_eq_nil_iff.mp h
    rfl
  | cons root rest ih =>
    cases owners with
    | nil => cases h
    | cons s others =>
      obtain ⟨hroot, hrest⟩ := List.cons.inj h
      obtain ⟨hnotin, distinct⟩ := List.nodup_cons.mp distinct
      rw [List.find?_cons, List.find?_cons, same s List.mem_cons_self root hroot]
      cases hq : q root with
      | true => simp [hroot]
      | false =>
        rw [ih hrest distinct fun s hs => same s (List.mem_cons_of_mem _ hs)]
        cases hfind : rest.find? q with
        | none => rfl
        | some other =>
          -- the scope is found by its scope root only if no scope root before it is the same
          have hne : (g.root? s == some other) = false := by
            rw [hroot, Bool.eq_false_iff]
            intro heq
            obtain rfl := Option.some.inj (eq_of_beq heq)
            exact hnotin (List.mem_of_find?_eq_some hfind)
          rw [Option.bind_some, Option.bind_some, List.find?_cons, hne]

end Ledger

/-! ### Agreement with the walk -/

section Agreement

variable (program : Program) (res : Resolution) (entries : Assoc NodeId Walk)

/-- Scopes bind what their scope roots own, and closures and methods were made of nodes at which the
walk stands. -/
structure Scoped (g : Ledger) (m : Machine) : Prop where
  resolution : m.resolution = res
  transparent : ∀ s name, m.env.store.isOwning s = false → m.env.store.binds s name = false
  bound : ∀ s root, m.env.store.isOwning s = true → g.root? s = some root →
    ∀ name ∈ res.ownedNames root, m.env.store.binds s name = true
  /-- The empty name may be bound by a store without being owned. -/
  owned : ∀ s root, m.env.store.isOwning s = true → g.root? s = some root →
    ∀ name, name.isEmpty = false → m.env.store.binds s name = true → name ∈ res.ownedNames root
  closures : ∀ proc c, m.closures.get? proc = some c →
    ∃ levels w, Stands program.nodes res entries levels c.literal w ∧
      program.nodes.callable? c.literal = some (c.params, c.body, true) ∧
      g.Faces m.env.store c.captured (seenRoots w.scopes)
  methods : ∀ name callee, m.methods.get? name = some callee →
    ∃ levels w, Stands program.nodes res entries levels callee.root w ∧
      program.nodes.callable? callee.root = some (callee.params, callee.body, false)

/-- The walk stands at a node and the current scope faces the scope roots that it is inside of. -/
def Placed (g : Ledger) (id : NodeId) (m : Machine) : Prop :=
  ∃ levels w, Stands program.nodes res entries levels id w ∧ w.scopes ≠ [] ∧
    g.Faces m.env.store m.env.current (seenRoots w.scopes)

/-- The walk stands where a local is stored. -/
def Storing (g : Ledger) (site : NodeId) (name : Name) (m : Machine) : Prop :=
  ∃ w, Sited program.nodes res entries site name w ∧ w.scopes ≠ [] ∧
    g.Faces m.env.store m.env.current (seenRoots w.scopes)

/-- The walk stands at a callable, and the current scope was made for it. -/
def Within (g : Ledger) (code : Code) (m : Machine) : Prop :=
  ∃ levels w sees, Stands program.nodes res entries levels code.root w ∧
    program.nodes.callable? code.root = some (code.params, code.body, sees) ∧
    g.Faces m.env.store m.env.current (seenRoots (w.enter code.root sees).scopes)

end Agreement

variable {program : Program} {res : Resolution} {entries : Assoc NodeId Walk} {g : Ledger}
  {m : Machine} {scope : ScopeId} {roots : List NodeId} {scopes : List OpenScope} {name : Name}

/-- The scopes that were made for a scope root bind the names that it owns. -/
theorem Scoped.owning (h : Scoped program res entries g m) {s : ScopeId} {root : NodeId}
    (howning : m.env.store.isOwning s = true) (hroot : g.root? s = some root)
    (hne : name.isEmpty = false) :
    m.env.store.binds s name = true ↔ name ∈ res.ownedNames root :=
  ⟨h.owned s root howning hroot name hne, h.bound s root howning hroot name⟩

/-- A name is bound by the activation of the innermost scope root that owns it. -/
theorem Scoped.binder?_eq (h : Scoped program res entries g m)
    (faces : g.Faces m.env.store scope roots) (distinct : roots.Nodup)
    (hne : name.isEmpty = false) :
    m.env.store.binder? scope name =
      (roots.find? fun root => (res.ownedNames root).contains name).bind
        (g.slot? m.env.store scope) := by
  rw [ScopeStore.binder?_eq_find?_owners (h.transparent · name),
    Ledger.find?_owners faces distinct (p := fun s => m.env.store.binds s name)
      (q := fun root => (res.ownedNames root).contains name)]
  · rfl
  · intro s hs root hroot
    rw [Bool.eq_iff_iff, h.owning (ScopeStore.isOwning_of_mem_owners hs) hroot hne,
      List.contains_iff_mem]

/-- The scope that binds a visible name is the slot of the holder of the name. -/
theorem Scoped.binder?_of_visible (h : Scoped program res entries g m)
    (settled : Settled program.nodes res scopes)
    (distinct : (scopes.map OpenScope.root).Nodup) (hne : name.isEmpty = false)
    (hvisible : visibleIn scopes name = true)
    (faces : g.Faces m.env.store scope (seenRoots scopes)) :
    ∃ root slot, holder? program.nodes scopes name = some root ∧
      g.slot? m.env.store scope root = some slot ∧
      m.env.store.binder? scope name = some slot := by
  obtain ⟨root, hholder, hfind⟩ := settled.holder?_eq hne hvisible
  have hbinder := h.binder?_eq faces ((seenRoots_sublist scopes).nodup distinct) hne
  rw [hfind, Option.bind_some] at hbinder
  have hroot : root ∈ seenRoots scopes := List.mem_of_find?_eq_some hfind
  have hmem : some root ∈ (m.env.store.owners scope).map g.root? := by
    rw [show (m.env.store.owners scope).map g.root? = (seenRoots scopes).map some from faces]
    exact List.mem_map_of_mem hroot
  obtain ⟨s, hs, hsroot⟩ := List.mem_map.mp hmem
  obtain ⟨slot, hslot⟩ := Option.isSome_iff_exists.mp (List.find?_isSome
    (p := fun s => g.root? s == some root) |>.mpr ⟨s, hs, beq_iff_eq.mpr hsroot⟩)
  exact ⟨root, slot, hholder, hslot, hbinder.trans hslot⟩

end ScriptSemantics
