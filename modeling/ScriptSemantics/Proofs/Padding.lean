import ScriptSemantics.Proofs.Bindings

/-!
# Stores that bind more names to nil

Two runs of the same code may differ in which names are bound to nil beforehand.  The stores of such
runs have the same shape, and the second one binds some more names, all of them to nil.

## Main Definitions

* `ScopeStore.Pads` — the second store binds what the first one binds, and some more names to nil
* `Environment.target` — the scope that an assignment goes to

## Main Results

* `ScopeStore.Pads.add`, `ScopeStore.Pads.define`, `Environment.pads_declareAll` — after the same
  operation the stores still differ in nils only
* `ScopeStore.Pads.lookup` — when both stores bind a name in the same scope, it has the same value
-/

namespace ScriptSemantics

namespace ScopeStore

variable {store store' : ScopeStore} {full full' : ScopeId → Name → Prop} {id s : ScopeId}
  {name : Name}

/-! ### Equal shapes -/

theorem chain_of_shape_eq (h : store'.shape = store.shape) (id : ScopeId) :
    store'.chain id = store.chain id := by
  have upTo : ∀ steps id, store'.chainUpTo steps id = store.chainUpTo steps id := by
    intro steps
    induction steps with
    | zero => exact fun _ => rfl
    | succ steps ih =>
      intro id
      have hparent := parent?_of_shape_eq h id
      rw [parent?, parent?] at hparent
      rw [chainUpTo, chainUpTo, hparent]
      cases (store.scope? id).bind (·.parent) with
      | none => rfl
      | some parent => exact congrArg (id :: ·) (ih parent)
  exact upTo _ id

theorem owners_of_shape_eq (h : store'.shape = store.shape) (id : ScopeId) :
    store'.owners id = store.owners id := by
  rw [owners, owners, chain_of_shape_eq h]
  exact List.filter_congr fun s _ => isOwning_of_shape_eq h s

theorem owner_of_shape_eq (h : store'.shape = store.shape) (id : ScopeId) :
    store'.owner id = store.owner id := by
  rw [owner_eq, owner_eq, owners_of_shape_eq h]

theorem scope?_isSome_iff : (store.scope? s).isSome = true ↔ s.index < store.size := by
  rw [Option.isSome_iff_ne_none, ne_eq, scope?_eq_none_iff, Nat.not_le]

/-! ### Padding -/

/-- The second store has the shape of the first one and binds what the first one binds.  What it
binds besides is nil, and nothing is bound besides where the first store is full. -/
structure Pads (full : ScopeId → Name → Prop) (store store' : ScopeStore) : Prop where
  shape : store'.shape = store.shape
  kept : ∀ s name value, store.binding? s name = some value →
    store'.binding? s name = some value
  nil : ∀ s name value, store.binding? s name = none → store'.binding? s name = some value →
    value = .nil
  full : ∀ s name, full s name → store'.binds s name = true → store.binds s name = true

namespace Pads

theorem refl (full : ScopeId → Name → Prop) (store : ScopeStore) : Pads full store store where
  shape := rfl
  kept _ _ _ := id
  nil _ _ _ hnone hvalue := by
    rw [hnone] at hvalue
    cases hvalue
  full _ _ _ := id

theorem binds (h : Pads full store store') (hbinds : store.binds s name = true) :
    store'.binds s name = true := by
  obtain ⟨value, hvalue⟩ := Option.isSome_iff_exists.mp hbinds
  rw [ScopeStore.binds, h.kept s name value hvalue]
  rfl

theorem binds_eq (h : Pads full store store') (hfull : full s name) :
    store'.binds s name = store.binds s name := by
  rw [Bool.eq_iff_iff]
  exact ⟨h.full s name hfull, h.binds⟩

theorem binding?_eq (h : Pads full store store') (hfull : full s name) :
    store'.binding? s name = store.binding? s name := by
  cases hvalue : store.binding? s name with
  | some value => exact h.kept s name value hvalue
  | none =>
    have hbinds := h.binds_eq hfull
    rw [ScopeStore.binds, ScopeStore.binds, hvalue] at hbinds
    exact Option.not_isSome_iff_eq_none.mp (Bool.eq_false_iff.mp hbinds)

/-- Fullness matters for the scopes that there are. -/
theorem weaken (h : Pads full store store')
    (stronger : ∀ s name, s.index < store.size → full' s name → full s name) :
    Pads full' store store' where
  shape := h.shape
  kept := h.kept
  nil := h.nil
  full s name hfull hbinds := by
    have hlt := lt_of_binds hbinds
    rw [size_of_shape_eq h.shape] at hlt
    exact h.full s name (stronger s name hlt hfull) hbinds

theorem add (h : Pads full store store') (kind : ScopeKind) (parent : Option ScopeId) :
    Pads full (store.add kind parent).2 (store'.add kind parent).2 where
  shape := by rw [shape_add, shape_add, h.shape]
  kept s name value hvalue := by
    rw [binding?_add] at hvalue ⊢
    exact h.kept s name value hvalue
  nil s name value hnone hvalue := by
    rw [binding?_add] at hnone hvalue
    exact h.nil s name value hnone hvalue
  full s name hfull hbinds := by
    rw [binds_add] at hbinds ⊢
    exact h.full s name hfull hbinds

theorem define (h : Pads full store store') (id : ScopeId) (name : Name) (value : Value) :
    Pads full (store.define id name value) (store'.define id name value) := by
  have exist : (store'.scope? id).map (fun _ => value) = (store.scope? id).map fun _ => value := by
    have hiff : (store'.scope? id).isSome = true ↔ (store.scope? id).isSome = true := by
      rw [scope?_isSome_iff, scope?_isSome_iff, size_of_shape_eq h.shape]
    cases hs : store.scope? id <;> cases hs' : store'.scope? id <;> simp [hs, hs'] at hiff ⊢
  refine ⟨by rw [shape_define, shape_define, h.shape], fun s n v hv => ?_, fun s n v hnone hv => ?_,
    fun s n hfull hbinds => ?_⟩
  · rw [binding?_define] at hv ⊢
    split at hv
    next heq => rwa [if_pos heq, exist]
    next hne =>
      rw [if_neg hne]
      exact h.kept s n v hv
  · rw [binding?_define] at hnone hv
    split at hnone
    next heq =>
      rw [if_pos heq, exist, hnone] at hv
      cases hv
    next hne =>
      rw [if_neg hne] at hv
      exact h.nil s n v hnone hv
  · rw [ScopeStore.binds, binding?_define] at hbinds ⊢
    split
    next heq => rwa [if_pos heq, exist] at hbinds
    next hne =>
      rw [if_neg hne] at hbinds
      exact h.full s n hfull hbinds

/-! ### Access -/

/-- When both stores find a name in the same scope, it has the same value. -/
theorem lookup (h : Pads full store store')
    (same : store'.binder? id name = store.binder? id name) :
    store'.lookup id name = store.lookup id name := by
  rw [lookup_eq, lookup_eq, same]
  cases hbinder : store.binder? id name with
  | none => rfl
  | some s =>
    obtain ⟨value, hvalue⟩ := Option.isSome_iff_exists.mp (binds_of_binder? hbinder)
    rw [Option.bind_some, Option.bind_some, hvalue]
    exact h.kept s name value hvalue

/-- What the first store does not find is nil in the second one, if it is there at all. -/
theorem lookup_of_unbound (h : Pads full store store') (hnone : store.binder? id name = none) :
    (store'.lookup id name).getD .nil = .nil := by
  rw [lookup_eq]
  cases hbinder : store'.binder? id name with
  | none => rfl
  | some s =>
    have hs : s ∈ store.chain id := chain_of_shape_eq h.shape id ▸ List.mem_of_find?_eq_some hbinder
    have hunbound : store.binds s name = false :=
      Bool.eq_false_iff.mpr (List.find?_eq_none.mp hnone s hs)
    have hbinding : store.binding? s name = none :=
      Option.not_isSome_iff_eq_none.mp (Bool.eq_false_iff.mp hunbound)
    obtain ⟨value, hvalue⟩ := Option.isSome_iff_exists.mp (binds_of_binder? hbinder)
    rw [Option.bind_some, hvalue]
    exact h.nil s name value hbinding hvalue

/-- Both stores find a name in the same scope when the first one binds it and is full except in an
outermost scope. -/
theorem binder?_of_outermost (h : Pads full store store') (founded : store.Founded) {top : ScopeId}
    (outermost : store.parent? top = none) (hfull : ∀ s, s ≠ top → full s name)
    (hbinder : store.binder? id name = some s) : store'.binder? id name = some s := by
  have founded' : store'.Founded := founded.of_shape_eq h.shape
  obtain ⟨reached, hbinds⟩ := (find?_chain_eq_some_iff founded).mp hbinder
  refine (find?_chain_eq_some_iff founded').mpr ⟨?_, h.binds hbinds⟩
  clear hbinder hbinds
  induction reached with
  | here s => exact .here s
  | @parent id parent s passed found _ ih =>
    -- the name is found further out, so this is not the outermost scope
    have hne : id ≠ top := by
      rintro rfl
      rw [outermost] at found
      cases found
    exact .parent ((h.binds_eq (hfull id hne)).trans passed)
      ((parent?_of_shape_eq h.shape id).trans found) ih

/-- Both stores find a name in the same scope when they bind it in the same scopes. -/
theorem binder?_eq_of_full (h : Pads full store store') (hfull : ∀ s, full s name) :
    store'.binder? id name = store.binder? id name := by
  rw [binder?, binder?, chain_of_shape_eq h.shape]
  congr 1
  exact funext fun s => h.binds_eq (hfull s)

end Pads

end ScopeStore

/-! ### Environments -/

namespace Environment

variable {env env' : Environment} {name : Name}

/-- The scope that an assignment goes to. -/
def target (env : Environment) (name : Name) : ScopeId :=
  (env.store.binder? env.current name).getD (env.store.owner env.current)

theorem assignLocal_eq_target (env : Environment) (name : Name) (value : Value) :
    env.assignLocal name value =
      { env with store := env.store.define (env.target name) name value } := by
  rw [assignLocal, target]
  cases env.store.binder? env.current name <;> rfl

/-- Declared names that were not bound are bound to nil. -/
theorem binding?_declareAll (hcurrent : env.store.isOwning env.current = true)
    (names : List Name) (s : ScopeId) (n : Name) :
    (names.foldl declare env).store.binding? s n =
      if s = env.current ∧ n ∈ names ∧ env.store.binding? s n = none then some .nil
      else env.store.binding? s n := by
  induction names generalizing env with
  | nil => simp
  | cons name rest ih =>
    have same : env.SameShape (env.declare name) := sameShape_declare name
    have hlt := ScopeStore.isOwning_lt hcurrent
    have hdeclare : (env.declare name).store.binding? s n =
        if s = env.current ∧ n = name ∧ env.store.binding? s n = none then some .nil
        else env.store.binding? s n := by
      rw [declare, ScopeStore.owner_of_isOwning hcurrent, ScopeStore.declare, ScopeStore.binds]
      split
      next hbound =>
        rw [if_neg]
        rintro ⟨rfl, rfl, hnone⟩
        rw [hnone] at hbound
        cases hbound
      next hunbound =>
        rw [ScopeStore.binding?_define_of_lt hlt]
        by_cases hat : s = env.current ∧ n = name
        · obtain ⟨rfl, rfl⟩ := hat
          have hnone : env.store.binding? env.current n = none := by simpa using hunbound
          rw [if_pos ⟨rfl, rfl⟩, if_pos ⟨rfl, rfl, hnone⟩]
        · rw [if_neg hat, if_neg fun h => hat ⟨h.1, h.2.1⟩]
    have hcurrent' : (env.declare name).store.isOwning (env.declare name).current = true := by
      rw [same.current, ScopeStore.isOwning_of_shape_eq same.shape]
      exact hcurrent
    rw [List.foldl_cons, ih hcurrent', same.current, hdeclare]
    by_cases hs : s = env.current <;> by_cases hn : n = name <;>
      cases env.store.binding? s n <;> simp [hs, hn]

/-- The stores still differ in nils only after the declaration of some names in the one and of these
and more names in the other, as long as nothing more is declared where the first one is full. -/
theorem pads_declareAll {full : ScopeId → Name → Prop} (h : ScopeStore.Pads full env.store env'.store)
    (current : env'.current = env.current) (howning : env.store.isOwning env.current = true)
    {names names' : List Name} (sub : names ⊆ names')
    (hfull : ∀ name ∈ names', full env.current name →
      name ∈ names ∨ env.store.binds env.current name = true) :
    ScopeStore.Pads full (names.foldl declare env).store (names'.foldl declare env').store := by
  have howning' : env'.store.isOwning env'.current = true := by
    rw [current, ScopeStore.isOwning_of_shape_eq h.shape]
    exact howning
  refine ⟨?_, fun s n v hv => ?_, fun s n v hnone hv => ?_, fun s n hfulls hbinds => ?_⟩
  · rw [(sameShape_declareAll env names).shape, (sameShape_declareAll env' names').shape, h.shape]
  -- what the first one declares, the second one declares too, or binds to nil already
  · rw [binding?_declareAll howning] at hv
    rw [binding?_declareAll howning', current]
    split at hv
    next hat =>
      obtain ⟨hs, hn, hnone⟩ := hat
      cases hv
      cases hv' : env'.store.binding? s n with
      | none => rw [if_pos ⟨hs, sub hn, rfl⟩]
      | some v' =>
        obtain rfl := h.nil s n v' hnone hv'
        rw [if_neg (by simp)]
    next =>
      rw [h.kept s n v hv, if_neg (by simp)]
  -- what only the second one binds, it has declared as nil
  · rw [binding?_declareAll howning] at hnone
    rw [binding?_declareAll howning'] at hv
    split at hnone
    next => cases hnone
    next =>
      split at hv
      next => exact (Option.some.inj hv).symm
      next => exact h.nil s n v hnone hv
  -- where the first one is full, the second one declares nothing that is new to it
  · rw [ScopeStore.binds, binding?_declareAll howning'] at hbinds
    rw [ScopeStore.binds, binding?_declareAll howning]
    split
    next => rfl
    next hat =>
      split at hbinds
      next hat' =>
        obtain ⟨hs, hn, -⟩ := hat'
        rw [current] at hs
        subst hs
        rcases hfull n hn hfulls with hn | hbound
        · cases hv : env.store.binding? env.current n with
          | none => exact absurd ⟨rfl, hn, hv⟩ hat
          | some v => rfl
        · exact hbound
      next => exact h.full s n hfulls hbinds

/-- After declarations in the first store, the second one binds nothing more, if the declared names
were all that it had more of. -/
theorem pads_declared {full : ScopeId → Name → Prop} {store' : ScopeStore}
    (h : ScopeStore.Pads full env.store store') (howning : env.store.isOwning env.current = true)
    {names : List Name} (bound : ∀ name ∈ names, store'.binds env.current name = true)
    (hfull : ∀ s name, store'.binds s name = true →
      (s = env.current ∧ name ∈ names) ∨ full s name) :
    ScopeStore.Pads (fun _ _ => True) (names.foldl declare env).store store' := by
  refine ⟨?_, fun s n v hv => ?_, fun s n v hnone hv => ?_, fun s n _ hbinds => ?_⟩
  · rw [(sameShape_declareAll env names).shape, h.shape]
  · rw [binding?_declareAll howning] at hv
    split at hv
    next hat =>
      obtain ⟨rfl, hn, hnone⟩ := hat
      cases hv
      obtain ⟨v, hv⟩ := Option.isSome_iff_exists.mp (bound n hn)
      rw [hv, h.nil _ n v hnone hv]
    next => exact h.kept s n v hv
  · rw [binding?_declareAll howning] at hnone
    split at hnone
    next => cases hnone
    next => exact h.nil s n v hnone hv
  · rw [ScopeStore.binds, binding?_declareAll howning]
    split
    next => rfl
    next hat =>
      rcases hfull s n hbinds with ⟨rfl, hn⟩ | hfull
      · cases hv : env.store.binding? env.current n with
        | none => exact absurd ⟨rfl, hn, hv⟩ hat
        | some v => rfl
      · exact h.full s n hfull hbinds

end Environment

end ScriptSemantics
