import ScriptSemantics.Proofs.Scopes

/-!
# Which scope binds which name

What the operations on environments do to the bindings of each single scope.

## Main Results

* `ScopeStore.binding?_define`, `ScopeStore.binding?_define_of_lt` — a definition changes one
  binding of one scope
* `ScopeStore.lookup_eq` — a name is looked up in the scope that `ScopeStore.binder?` finds
* `Environment.binds_declareAll` — after declarations, the keeping scope binds the declared names
-/

namespace ScriptSemantics

namespace ScopeStore

variable {store : ScopeStore} {id s : ScopeId} {name n : Name} {value : Value}

theorem scope?_eq_none_iff : store.scope? s = none ↔ store.size ≤ s.index :=
  Array.getElem?_eq_none_iff

/-- What is not in the store binds nothing. -/
theorem binds_eq_false (h : store.size ≤ s.index) (n : Name) : store.binds s n = false := by
  rw [binds, binding?, scope?_eq_none_iff.mpr h]
  rfl

theorem lt_of_binds (h : store.binds s n = true) : s.index < store.size := by
  rcases Nat.lt_or_ge s.index store.size with hlt | hle
  · exact hlt
  · rw [binds_eq_false hle] at h
    cases h

/-- A definition changes one binding of one scope. -/
theorem binding?_define (store : ScopeStore) (id s : ScopeId) (name n : Name) (value : Value) :
    (store.define id name value).binding? s n =
      if s = id ∧ n = name then (store.scope? id).map fun _ => value else store.binding? s n := by
  have hscope : (store.define id name value).scope? s =
      if id.index = s.index then
        (store.scope? s).map fun scope => { scope with bindings := scope.bindings.put name value }
      else store.scope? s := Array.getElem?_modify
  rw [binding?, hscope, binding?]
  by_cases hs : s = id
  · subst hs
    rw [if_pos rfl]
    cases store.scope? s with
    | none => simp
    | some scope =>
      by_cases hn : n = name
      · simp [Assoc.get?_put, hn]
      · have hne : ¬ name = n := fun h => hn h.symm
        simp [Assoc.get?_put, hn, hne]
  · have hne : ¬ id.index = s.index := by
      intro h
      cases s
      cases id
      exact hs (congrArg ScopeId.mk h.symm)
    rw [if_neg hne, if_neg fun h => hs h.1]

theorem binding?_eq_none_iff : store.binding? id name = none ↔ store.binds id name = false := by
  rw [binds, Option.isSome_eq_false_iff, Option.isNone_iff_eq_none]

/-- In a scope of the store the name is bound then. -/
theorem binding?_define_of_lt (h : id.index < store.size) (s : ScopeId) (n : Name) :
    (store.define id name value).binding? s n =
      if s = id ∧ n = name then some value else store.binding? s n := by
  obtain ⟨scope, hscope⟩ : ∃ scope, store.scope? id = some scope :=
    ⟨_, Array.getElem?_eq_getElem h⟩
  rw [binding?_define, hscope, Option.map_some]

theorem binds_define_iff (h : id.index < store.size) :
    (store.define id name value).binds s n = true ↔ (s = id ∧ n = name) ∨ store.binds s n = true := by
  rw [binds, binding?_define_of_lt h, binds]
  split
  next heq => simp [heq]
  next hne => simp [hne]

theorem binds_declare_iff (h : id.index < store.size) :
    (store.declare id name).binds s n = true ↔ (s = id ∧ n = name) ∨ store.binds s n = true := by
  unfold declare
  split
  next hbinds =>
    rw [or_iff_right_of_imp]
    rintro ⟨rfl, rfl⟩
    exact hbinds
  next => exact binds_define_iff h

theorem binding?_add (store : ScopeStore) (kind : ScopeKind) (parent : Option ScopeId)
    (s : ScopeId) (n : Name) : (store.add kind parent).2.binding? s n = store.binding? s n := by
  have hscope : (store.add kind parent).2.scope? s =
      if s.index = store.size then some { kind, bindings := [], parent } else store.scope? s :=
    Array.getElem?_push
  rw [binding?, hscope, binding?]
  split
  next heq =>
    rw [scope?_eq_none_iff.mpr (Nat.le_of_eq heq.symm)]
    rfl
  next => rfl

theorem binds_add (store : ScopeStore) (kind : ScopeKind) (parent : Option ScopeId) (s : ScopeId)
    (n : Name) : (store.add kind parent).2.binds s n = store.binds s n := by
  rw [binds, binding?_add, binds]

/-- A name is looked up in the scope that `binder?` finds. -/
theorem lookup_eq (store : ScopeStore) (id : ScopeId) (name : Name) :
    store.lookup id name = (store.binder? id name).bind (store.binding? · name) := by
  rw [lookup, binder?]
  induction store.chain id with
  | nil => rfl
  | cons scope rest ih =>
    rw [List.findSome?_cons, List.find?_cons, binds]
    cases hbinding : store.binding? scope name with
    | none => exact ih
    | some value => exact hbinding.symm

/-- Where transparent scopes bind nothing, the owning scopes are all that is searched. -/
theorem binder?_eq_find?_owners
    (transparent : ∀ s, store.isOwning s = false → store.binds s name = false) :
    store.binder? id name = (store.owners id).find? (store.binds · name) := by
  rw [binder?, owners]
  induction store.chain id with
  | nil => rfl
  | cons s rest ih =>
    rw [List.find?_cons, List.filter_cons, ih]
    cases howning : store.isOwning s with
    | true => rw [if_pos rfl, List.find?_cons]
    | false =>
      rw [transparent s howning]
      rfl

theorem binds_of_binder? (h : store.binder? id name = some s) : store.binds s name = true := by
  rw [binder?] at h
  exact List.find?_some (p := fun s => store.binds s name) h

end ScopeStore

namespace Environment

variable {env env' : Environment} {s : ScopeId} {name n : Name} {value : Value}

theorem SameShape.current (h : env.SameShape env') : env'.current = env.current := by
  rw [Environment.current, Environment.current, h.entered, h.top]

theorem SameShape.owners (h : env.SameShape env') (founded : env.store.Founded)
    (hcurrent : env.current.index < env.store.size) :
    env'.store.owners env'.current = env.store.owners env.current := by
  rw [h.current, (ScopeStore.Extends.of_shape_eq h.shape).owners founded hcurrent]

theorem SameShape.owner (h : env.SameShape env') (founded : env.store.Founded)
    (hcurrent : env.current.index < env.store.size) :
    env'.store.owner env'.current = env.store.owner env.current := by
  rw [ScopeStore.owner_eq, ScopeStore.owner_eq, h.owners founded hcurrent, h.current]

/-- After declarations, the keeping scope binds the declared names, and nothing else is new. -/
theorem binds_declareAll (founded : env.store.Founded)
    (hcurrent : env.current.index < env.store.size)
    (howner : (env.store.owner env.current).index < env.store.size) (names : List Name) :
    (names.foldl declare env).store.binds s n = true ↔
      (s = env.store.owner env.current ∧ n ∈ names) ∨ env.store.binds s n = true := by
  induction names generalizing env with
  | nil => simp
  | cons name rest ih =>
    have same : env.SameShape (env.declare name) := sameShape_declare name
    have hsize : (env.declare name).store.size = env.store.size :=
      ScopeStore.size_of_shape_eq same.shape
    have howner' := same.owner founded hcurrent
    rw [List.foldl_cons, ih (founded.of_shape_eq same.shape) (by rw [same.current, hsize]; exact hcurrent)
      (by rw [howner', hsize]; exact howner), howner', declare, ScopeStore.binds_declare_iff howner,
      List.mem_cons]
    constructor
    · rintro (⟨hs, hn⟩ | ⟨hs, hn⟩ | h)
      · exact .inl ⟨hs, .inr hn⟩
      · exact .inl ⟨hs, .inl hn⟩
      · exact .inr h
    · rintro (⟨hs, hn | hn⟩ | h)
      · exact .inr (.inl ⟨hs, hn⟩)
      · exact .inl ⟨hs, hn⟩
      · exact .inr (.inr h)

/-- Declarations in an owning scope are kept there. -/
theorem binds_declareAll_of_isOwning (founded : env.store.Founded)
    (howning : env.store.isOwning env.current = true) (names : List Name) :
    (names.foldl declare env).store.binds s n = true ↔
      (s = env.current ∧ n ∈ names) ∨ env.store.binds s n = true := by
  have howner := ScopeStore.owner_of_isOwning howning
  have hcurrent := ScopeStore.isOwning_lt howning
  rw [binds_declareAll founded hcurrent (by rwa [howner]), howner]

/-- An assignment to a bound name goes to the scope that binds it. -/
theorem assignLocal_eq {scope : ScopeId} (h : env.store.binder? env.current name = some scope) :
    env.assignLocal name value = { env with store := env.store.define scope name value } := by
  rw [assignLocal, h]

end Environment

end ScriptSemantics
