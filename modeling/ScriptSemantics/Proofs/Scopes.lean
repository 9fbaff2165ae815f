import ScriptSemantics.Environment

/-!
# The growth of a scope store

Scopes are made and never removed, and neither their kinds nor their parents change.  So everything
that is said about chains stays true while a program runs.

## Main Definitions

* `ScopeStore.shape` — kinds and parents of all scopes
* `ScopeStore.Extends` — some scopes were added
* `ScopeStore.Founded`, `ScopeStore.FoundedAbove` — parents are made before their children, among
  all scopes or among those from a base on
* `ScopeStore.Outward` — the chain of a scope goes on to another one past scopes of some kind only
* `ScopeStore.owners` — the owning scopes of a chain

## Main Results

* `ScopeStore.chain_eq` — a chain goes on as the chain of the parent
* `ScopeStore.find?_chain_eq_some_iff` — a search along a chain stops where a walk outward does
* `ScopeStore.Extends.chain_above`, `ScopeStore.Extends.owners` — chains do not change
-/

namespace ScriptSemantics

namespace ScopeStore

variable {store store' : ScopeStore} {id scope : ScopeId} {base : Nat}

/-- The kinds and parents of all scopes. -/
def shape (store : ScopeStore) : List (ScopeKind × Option ScopeId) :=
  store.scopes.toList.map fun scope => (scope.kind, scope.parent)

/-- The parent of a scope. -/
def parent? (store : ScopeStore) (id : ScopeId) : Option ScopeId :=
  (store.scope? id).bind (·.parent)

/-- Parents are made before their children. -/
def Founded (store : ScopeStore) : Prop :=
  ∀ id parent, store.parent? id = some parent → parent.index < id.index

/-- The parents of the scopes from a base on are made before their children, and after the base. -/
def FoundedAbove (base : Nat) (store : ScopeStore) : Prop :=
  ∀ id parent, base ≤ id.index → store.parent? id = some parent →
    base ≤ parent.index ∧ parent.index < id.index

/-- Where every parent is older than its children, it is so above the base of all scopes. -/
theorem Founded.above (founded : store.Founded) : store.FoundedAbove 0 :=
  fun id parent _ h => ⟨Nat.zero_le _, founded id parent h⟩

/-- Scopes were added and nothing but bindings was changed. -/
def Extends (store store' : ScopeStore) : Prop :=
  store.shape <+: store'.shape

/-! ### Shapes -/

@[simp]
theorem length_shape (store : ScopeStore) : store.shape.length = store.size := by
  simp [shape, size]

theorem shape_getElem? (store : ScopeStore) (id : ScopeId) :
    store.shape[id.index]? = (store.scope? id).map fun scope => (scope.kind, scope.parent) := by
  simp [shape, scope?]

/-- The parent of a scope is part of the shape of the store. -/
theorem parent?_eq (store : ScopeStore) (id : ScopeId) :
    store.parent? id = store.shape[id.index]?.bind (·.2) := by
  rw [shape_getElem?, parent?]
  cases store.scope? id <;> rfl

/-- So is whether a scope owns what is declared in it. -/
theorem isOwning_eq (store : ScopeStore) (id : ScopeId) :
    store.isOwning id = store.shape[id.index]?.any (·.1 == .owning) := by
  rw [shape_getElem?, isOwning]
  cases store.scope? id <;> rfl

/-- A new scope comes after all others. -/
@[simp]
theorem shape_add (store : ScopeStore) (kind : ScopeKind) (parent : Option ScopeId) :
    (store.add kind parent).2.shape = store.shape ++ [(kind, parent)] := by
  simp [shape, add]

theorem shape_added (store : ScopeStore) (kind : ScopeKind) (parent : Option ScopeId) :
    (store.add kind parent).2.shape[store.size]? = some (kind, parent) := by
  rw [shape_add, ← length_shape, List.getElem?_concat_length]

/-- Bindings are no part of the shape. -/
@[simp]
theorem shape_modify (store : ScopeStore) (id : ScopeId) (f : Assoc Name Value → Assoc Name Value) :
    (store.modify id f).shape = store.shape := by
  refine List.ext_getElem? fun i => ?_
  simp only [shape, modify, List.getElem?_map, Array.getElem?_toList, Array.getElem?_modify]
  split
  · rw [Option.map_map]
    rfl
  · rfl

@[simp]
theorem shape_define (store : ScopeStore) (id : ScopeId) (name : Name) (value : Value) :
    (store.define id name value).shape = store.shape :=
  shape_modify store id _

@[simp]
theorem shape_declare (store : ScopeStore) (id : ScopeId) (name : Name) :
    (store.declare id name).shape = store.shape := by
  unfold declare
  split
  · rfl
  · exact shape_define store id name .nil

/-- Stores of the same shape have the same parents. -/
theorem parent?_of_shape_eq (h : store'.shape = store.shape) (id : ScopeId) :
    store'.parent? id = store.parent? id := by
  rw [parent?_eq, parent?_eq, h]

/-- Stores of the same shape have the same owning scopes. -/
theorem isOwning_of_shape_eq (h : store'.shape = store.shape) (id : ScopeId) :
    store'.isOwning id = store.isOwning id := by
  rw [isOwning_eq, isOwning_eq, h]

theorem size_of_shape_eq (h : store'.shape = store.shape) : store'.size = store.size := by
  rw [← length_shape, h, length_shape]

/-- Only scopes that were made own something. -/
theorem isOwning_lt (h : store.isOwning id = true) : id.index < store.size := by
  rw [isOwning_eq] at h
  cases hget : store.shape[id.index]? with
  | none => simp [hget] at h
  | some entry => exact length_shape store ▸ (List.getElem?_eq_some_iff.mp hget).1

/-- One scope is added at a time. -/
theorem size_added (store : ScopeStore) (kind : ScopeKind) (parent : Option ScopeId) :
    (store.add kind parent).2.size = store.size + 1 := by
  rw [← length_shape, shape_add, List.length_append, length_shape, List.length_singleton]

/-- A new scope has the parent that it was made with. -/
theorem parent?_added (store : ScopeStore) (kind : ScopeKind) (parent : Option ScopeId) :
    (store.add kind parent).2.parent? ⟨store.size⟩ = parent := by
  rw [parent?_eq, shape_added]
  rfl

/-- A new scope has the kind that it was made with. -/
theorem isOwning_added (store : ScopeStore) (kind : ScopeKind) (parent : Option ScopeId) :
    (store.add kind parent).2.isOwning ⟨store.size⟩ = (kind == .owning) := by
  rw [isOwning_eq, shape_added]
  rfl

/-- Only scopes that were made have a parent. -/
theorem lt_of_parent? {parent : ScopeId} (h : store.parent? id = some parent) :
    id.index < store.size := by
  rw [parent?_eq] at h
  obtain ⟨entry, hget, -⟩ := Option.bind_eq_some_iff.mp h
  exact length_shape store ▸ (List.getElem?_eq_some_iff.mp hget).1

/-- The scopes after an addition are the old ones and the new one. -/
theorem eq_of_lt_added {kind : ScopeKind} {parent : Option ScopeId} {s : ScopeId}
    (h : store.size ≤ s.index) (hlt : s.index < (store.add kind parent).2.size) :
    s = ⟨store.size⟩ := by
  rw [size_added] at hlt
  cases s
  exact congrArg ScopeId.mk (Nat.le_antisymm (Nat.lt_succ_iff.mp hlt) h)

/-- An owning scope that was not there before an addition is the new one. -/
theorem eq_of_size_le {kind : ScopeKind} {parent : Option ScopeId} {s : ScopeId}
    (h : store.size ≤ s.index) (howning : (store.add kind parent).2.isOwning s = true) :
    s = ⟨store.size⟩ ∧ kind = .owning := by
  obtain rfl := eq_of_lt_added h (isOwning_lt howning)
  rw [isOwning_added] at howning
  exact ⟨rfl, eq_of_beq howning⟩

/-! ### Extensions -/

theorem Extends.refl (store : ScopeStore) : store.Extends store :=
  List.prefix_refl _

theorem Extends.trans {store'' : ScopeStore} (h : store.Extends store')
    (h' : store'.Extends store'') : store.Extends store'' :=
  List.IsPrefix.trans h h'

theorem Extends.of_shape_eq (h : store'.shape = store.shape) : store.Extends store' :=
  ⟨[], by rw [List.append_nil, h]⟩

/-- A new scope changes nothing about the others. -/
theorem extends_add (store : ScopeStore) (kind : ScopeKind) (parent : Option ScopeId) :
    store.Extends (store.add kind parent).2 :=
  ⟨[(kind, parent)], (shape_add store kind parent).symm⟩

/-- No scope is removed. -/
theorem Extends.size_le (h : store.Extends store') : store.size ≤ store'.size := by
  rw [← length_shape store, ← length_shape store']
  exact h.length_le

theorem Extends.shape_getElem? (h : store.Extends store') (hid : id.index < store.size) :
    store'.shape[id.index]? = store.shape[id.index]? := by
  obtain ⟨added, hadded⟩ := h
  rw [← hadded, List.getElem?_append_left (length_shape store ▸ hid)]

/-- Scopes keep their parents. -/
theorem Extends.parent? (h : store.Extends store') (hid : id.index < store.size) :
    store'.parent? id = store.parent? id := by
  rw [parent?_eq, parent?_eq, h.shape_getElem? hid]

/-- Scopes keep their kinds. -/
theorem Extends.isOwning (h : store.Extends store') (hid : id.index < store.size) :
    store'.isOwning id = store.isOwning id := by
  rw [isOwning_eq, isOwning_eq, h.shape_getElem? hid]

/-! ### Chains -/

/-- Any number of steps that is large enough gives the whole chain. -/
theorem chainUpTo_eq_chain (founded : store.FoundedAbove base) (hid : base ≤ id.index) {steps : Nat}
    (h : id.index < steps) : store.chainUpTo steps id = store.chain id := by
  obtain ⟨i, hi⟩ : ∃ i, id.index = i := ⟨_, rfl⟩
  induction i using Nat.strongRecOn generalizing id steps with
  | _ i ih =>
    obtain ⟨steps, rfl⟩ : ∃ k, steps = k + 1 := ⟨steps - 1, by omega⟩
    rw [chain, chainUpTo, chainUpTo]
    congr 1
    cases hparent : (store.scope? id).bind (·.parent) with
    | none => rfl
    | some parent =>
      obtain ⟨hbase, hlt⟩ := founded id parent hid hparent
      show store.chainUpTo steps parent = store.chainUpTo id.index parent
      rw [ih parent.index (hi ▸ hlt) hbase (by omega : parent.index < steps) rfl,
        ih parent.index (hi ▸ hlt) hbase hlt rfl]

/-- A chain goes on as the chain of the parent, above a base. -/
theorem chain_eq_above (founded : store.FoundedAbove base) (hid : base ≤ id.index) :
    store.chain id = id :: match store.parent? id with
      | some parent => store.chain parent
      | none => [] := by
  rw [chain, chainUpTo]
  congr 1
  rw [show (store.scope? id).bind (·.parent) = store.parent? id from rfl]
  cases hparent : store.parent? id with
  | none => rfl
  | some parent =>
    obtain ⟨hbase, hlt⟩ := founded id parent hid hparent
    exact chainUpTo_eq_chain founded hbase hlt

/-- A chain goes on as the chain of the parent. -/
theorem chain_eq (founded : store.Founded) (id : ScopeId) :
    store.chain id = id :: match store.parent? id with
      | some parent => store.chain parent
      | none => [] :=
  chain_eq_above founded.above (Nat.zero_le _)

/-- The chains of old scopes do not change, since their parents do not and are older still. -/
theorem Extends.chain_above (h : store.Extends store') (founded : store.FoundedAbove base)
    (hbase : base ≤ id.index) (hid : id.index < store.size) : store'.chain id = store.chain id := by
  have upTo : ∀ steps (id : ScopeId), base ≤ id.index → id.index < store.size →
      store'.chainUpTo steps id = store.chainUpTo steps id := by
    intro steps
    induction steps with
    | zero => exact fun _ _ _ => rfl
    | succ steps ih =>
      intro id hbase hid
      rw [chainUpTo, chainUpTo]
      have hparent := h.parent? hid
      rw [ScopeStore.parent?, ScopeStore.parent?] at hparent
      rw [hparent]
      cases hcase : (store.scope? id).bind (·.parent) with
      | none => rfl
      | some parent =>
        obtain ⟨hparent, hlt⟩ := founded id parent hbase hcase
        exact congrArg (id :: ·) (ih parent hparent (Nat.lt_trans hlt hid))
  exact upTo _ id hbase hid

/-- A chain leads to older scopes, but not below the base. -/
theorem index_of_mem_chain (founded : store.FoundedAbove base) (hid : base ≤ id.index) {s : ScopeId}
    (h : s ∈ store.chain id) : base ≤ s.index ∧ s.index ≤ id.index := by
  obtain ⟨i, hi⟩ : ∃ i, id.index = i := ⟨_, rfl⟩
  induction i using Nat.strongRecOn generalizing id with
  | _ i ih =>
    rw [chain_eq_above founded hid] at h
    rcases List.mem_cons.mp h with rfl | h
    · exact ⟨hid, Nat.le_refl _⟩
    · cases hparent : store.parent? id with
      | none => simp [hparent] at h
      | some parent =>
        obtain ⟨hbase, hlt⟩ := founded id parent hid hparent
        simp only [hparent] at h
        have := ih parent.index (hi ▸ hlt) hbase h rfl
        omega

/-! ### Walks outward -/

section Outward

variable {past : ScopeId → Prop} {p : ScopeId → Bool}

/-- The chain of a scope goes on to another one, and the scopes before that are of some kind. -/
inductive Outward (store : ScopeStore) (past : ScopeId → Prop) : ScopeId → ScopeId → Prop
  | here (id : ScopeId) : Outward store past id id
  | parent {id parent scope : ScopeId} (passed : past id) (found : store.parent? id = some parent)
      (rest : Outward store past parent scope) : Outward store past id scope

/-- A scope is on the chain of another one. -/
def Encloses (store : ScopeStore) (scope id : ScopeId) : Prop :=
  store.Outward (fun _ => True) id scope

/-- A walk outward past scopes of some kind is a walk outward. -/
theorem Outward.encloses (h : store.Outward past id scope) : store.Encloses scope id := by
  induction h with
  | here id => exact .here id
  | parent _ found _ ih => exact .parent trivial found ih

/-- What holds of all scopes of a chain holds of those that are passed. -/
theorem Encloses.outward (h : store.Encloses scope id)
    (all : ∀ s, store.Encloses s id → past s) : store.Outward past id scope := by
  induction h with
  | here id => exact .here id
  | parent _ found _ ih =>
    refine .parent (all _ (.here _)) found (ih fun s hs => ?_)
    exact all s (.parent trivial found hs)

/-- A search along a chain looks at a scope and goes on with its parent. -/
theorem find?_chain (founded : store.Founded) (p : ScopeId → Bool) (id : ScopeId) :
    (store.chain id).find? p =
      if p id then some id else (store.parent? id).bind fun parent => (store.chain parent).find? p := by
  rw [chain_eq founded, List.find?_cons]
  cases p id <;> cases store.parent? id <;> rfl

/-- A search along a chain stops where a walk outward does. -/
theorem find?_chain_eq_some_iff (founded : store.Founded) :
    (store.chain id).find? p = some scope ↔
      store.Outward (fun s => p s = false) id scope ∧ p scope = true := by
  constructor
  · intro h
    refine ⟨?_, List.find?_some h⟩
    obtain ⟨i, hi⟩ : ∃ i, id.index = i := ⟨_, rfl⟩
    induction i using Nat.strongRecOn generalizing id with
    | _ i ih =>
      rw [find?_chain founded] at h
      cases hp : p id with
      | true =>
        rw [if_pos hp, Option.some.injEq] at h
        exact h ▸ .here id
      | false =>
        rw [if_neg (by simp [hp])] at h
        obtain ⟨parent, hparent, hfind⟩ := Option.bind_eq_some_iff.mp h
        exact .parent hp hparent (ih parent.index (hi ▸ founded id parent hparent) hfind rfl)
  · rintro ⟨outward, holds⟩
    induction outward with
    | here id => rw [find?_chain founded, if_pos holds]
    | parent passed found _ ih =>
      rw [find?_chain founded, if_neg (by simp [passed]), found]
      exact ih holds

/-- A scope that encloses another one is on its chain. -/
theorem Encloses.mem_chain (founded : store.Founded) (h : store.Encloses scope id) :
    scope ∈ store.chain id := by
  induction h with
  | here id =>
    rw [chain_eq founded]
    exact List.mem_cons_self
  | parent _ found _ ih =>
    rw [chain_eq founded, found]
    exact List.mem_cons_of_mem _ ih

/-- Where a search along a chain fails, it has looked at the whole chain. -/
theorem Encloses.eq_false (h : store.Encloses scope id) (founded : store.Founded)
    (fails : (store.chain id).find? p = none) : p scope = false := by
  rw [List.find?_eq_none] at fails
  exact Bool.eq_false_iff.mpr (fails scope (h.mem_chain founded))

end Outward

/-! ### Owning scopes -/

/-- An owning scope keeps what is declared in it. -/
theorem owner_of_isOwning (h : store.isOwning id = true) : store.owner id = id := by
  rw [owner, chain, chainUpTo, List.find?_cons, h]
  rfl

/-- The owning scopes of a chain, innermost first. -/
def owners (store : ScopeStore) (id : ScopeId) : List ScopeId :=
  (store.chain id).filter store.isOwning

/-- The owning scopes of a chain are the scope itself, if it owns, and those of its parent, above a
base. -/
theorem owners_eq_above (founded : store.FoundedAbove base) (hid : base ≤ id.index) :
    store.owners id = (if store.isOwning id then [id] else []) ++
      match store.parent? id with
      | some parent => store.owners parent
      | none => [] := by
  rw [owners, chain_eq_above founded hid, List.filter_cons]
  cases store.parent? id <;> cases store.isOwning id <;> rfl

/-- The owning scopes of a chain are the scope itself, if it owns, and those of its parent. -/
theorem owners_eq (founded : store.Founded) (id : ScopeId) :
    store.owners id = (if store.isOwning id then [id] else []) ++
      match store.parent? id with
      | some parent => store.owners parent
      | none => [] :=
  owners_eq_above founded.above (Nat.zero_le _)

theorem isOwning_of_mem_owners {s : ScopeId} (h : s ∈ store.owners id) :
    store.isOwning s = true :=
  (List.mem_filter.mp h).2

/-- The owning scopes of old chains do not change, above a base. -/
theorem Extends.owners_above (h : store.Extends store') (founded : store.FoundedAbove base)
    (hbase : base ≤ id.index) (hid : id.index < store.size) :
    store'.owners id = store.owners id := by
  rw [ScopeStore.owners, ScopeStore.owners, h.chain_above founded hbase hid]
  refine List.filter_congr fun s hs => h.isOwning ?_
  exact Nat.lt_of_le_of_lt (index_of_mem_chain founded hbase hs).2 hid

/-- The owning scopes of old chains do not change. -/
theorem Extends.owners (h : store.Extends store') (founded : store.Founded)
    (hid : id.index < store.size) : store'.owners id = store.owners id :=
  h.owners_above founded.above (Nat.zero_le _) hid

/-- What is declared in a scope goes to the first of its owning scopes. -/
theorem owner_eq (store : ScopeStore) (id : ScopeId) :
    store.owner id = (store.owners id).head?.getD id := by
  rw [owner, owners, List.head?_filter]

/-- A new scope whose parent is old keeps parents older than children, above a base. -/
theorem FoundedAbove.add (founded : store.FoundedAbove base) {kind : ScopeKind}
    {parent : Option ScopeId}
    (h : ∀ p, parent = some p → base ≤ p.index ∧ p.index < store.size) :
    (store.add kind parent).2.FoundedAbove base := by
  intro s p hs hp
  rcases Nat.lt_or_ge s.index store.size with hlt | hge
  · rw [(extends_add store kind parent).parent? hlt] at hp
    exact founded s p hs hp
  · obtain rfl := eq_of_lt_added hge (lt_of_parent? hp)
    rw [parent?_added] at hp
    exact h p hp

/-- A new scope whose parent is old keeps parents older than children. -/
theorem Founded.add (founded : store.Founded) {kind : ScopeKind} {parent : Option ScopeId}
    (h : ∀ p, parent = some p → p.index < store.size) : (store.add kind parent).2.Founded :=
  fun s p hp => (founded.above.add (fun p hp => ⟨Nat.zero_le _, h p hp⟩) s p (Nat.zero_le _) hp).2

/-- That parents are older than children depends on the shape only. -/
theorem Founded.of_shape_eq (founded : store.Founded) (h : store'.shape = store.shape) :
    store'.Founded := by
  intro id p hp
  rw [parent?_eq, h, ← parent?_eq] at hp
  exact founded id p hp

end ScopeStore

namespace Environment

/-- Bindings were changed and nothing else. -/
structure SameShape (env env' : Environment) : Prop where
  shape : env'.store.shape = env.store.shape
  entered : env'.entered = env.entered
  top : env'.top = env.top

variable {env : Environment}

theorem SameShape.refl (env : Environment) : env.SameShape env :=
  ⟨rfl, rfl, rfl⟩

theorem SameShape.trans {env' env'' : Environment} (h : env.SameShape env')
    (h' : env'.SameShape env'') : env.SameShape env'' :=
  ⟨h'.shape.trans h.shape, h'.entered.trans h.entered, h'.top.trans h.top⟩

theorem sameShape_define (name : Name) (value : Value) : env.SameShape (env.define name value) :=
  ⟨ScopeStore.shape_define _ _ _ _, rfl, rfl⟩

theorem sameShape_declare (name : Name) : env.SameShape (env.declare name) :=
  ⟨ScopeStore.shape_declare _ _ _, rfl, rfl⟩

/-- An assignment adds or changes a binding, wherever it finds the local. -/
theorem sameShape_assignLocal (name : Name) (value : Value) :
    env.SameShape (env.assignLocal name value) := by
  unfold assignLocal
  split
  · exact ⟨ScopeStore.shape_define _ _ _ _, rfl, rfl⟩
  · exact sameShape_define name value

/-- So do declarations, one after the other. -/
theorem sameShape_declareAll (env : Environment) (names : List Name) :
    env.SameShape (names.foldl Environment.declare env) := by
  induction names generalizing env with
  | nil => exact .refl env
  | cons name rest ih => exact (sameShape_declare name).trans (ih _)

end Environment

end ScriptSemantics
