import ScriptSemantics.Proofs.Padding
import Mathlib.Data.List.Find

/-!
# The outline of a scope store

Code tells scopes apart only by what their chains bind.  So a scope is as good as the list of the
owning scopes on its chain, and an owning scope is as good as its number among all owning scopes.

## Main Definitions

* `ScopeStore.rank`, `ScopeStore.path` — the number of an owning scope, and those on a chain
* `ScopeStore.contents` — what the owning scopes bind, in the order in which they were made
* `ScopeStore.Over` — a store whose first scopes are given and out of reach of the others
* `ScopeStore.Alike`, `ScopeStore.Twin` — two stores with the same contents, two scopes with the
  same path

## Main Results

* `ScopeStore.lookup_eq_path`, `ScopeStore.rank_binder?`, `ScopeStore.head?_path` — what is read,
  overwritten and declared depends on the path and the contents only
* `ScopeStore.Alike.add`, `ScopeStore.Alike.addTransparent`, `ScopeStore.Alike.define` — the
  operations keep stores alike
-/

namespace ScriptSemantics

/-! ### Elements that pass a test -/

section Filter

variable {α β : Type} {p : α → Bool} {l : List α} {i : Nat} {a : α}

/-- The place of an element among those that pass a test. -/
theorem getElem?_filter_countP (h : l[i]? = some a) (ha : p a = true) :
    (l.filter p)[(l.take i).countP p]? = some a := by
  induction l generalizing i with
  | nil => simp at h
  | cons x rest ih =>
    cases i with
    | zero =>
      simp only [List.getElem?_cons_zero, Option.some.injEq] at h
      simp [h, ha]
    | succ i =>
      rw [List.getElem?_cons_succ] at h
      have hrest := ih h
      by_cases hx : p x = true
      · simpa [List.filter_cons, hx] using hrest
      · simpa [List.filter_cons, hx] using hrest

/-- A change of one element that keeps the test changes one of those that pass it. -/
theorem map_filter_modify {f : α → α} {g : α → β} {g' : β → β} (hp : ∀ a, p (f a) = p a)
    (hg : ∀ a, g (f a) = g' (g a)) (h : l[i]? = some a) (ha : p a = true) :
    ((l.modify i f).filter p).map g = ((l.filter p).map g).modify ((l.take i).countP p) g' := by
  induction l generalizing i with
  | nil => simp at h
  | cons x rest ih =>
    cases i with
    | zero =>
      simp only [List.getElem?_cons_zero, Option.some.injEq] at h
      simp [h, ha, hp, hg]
    | succ i =>
      rw [List.getElem?_cons_succ] at h
      have hrest := ih h
      by_cases hx : p x = true
      · simpa [List.filter_cons, hx] using hrest
      · simpa [List.filter_cons, hx] using hrest

end Filter

namespace ScopeStore

/-- The number of owning scopes among some. -/
def owning (scopes : List Scope) : Nat :=
  scopes.countP (·.kind == .owning)

/-- The number of owning scopes that were made before a scope. -/
def rank (store : ScopeStore) (id : ScopeId) : Nat :=
  owning (store.scopes.toList.take id.index)

/-- What the owning scopes bind, in the order in which they were made. -/
def contents (store : ScopeStore) : List (Assoc Name Value) :=
  (store.scopes.toList.filter (·.kind == .owning)).map (·.bindings)

/-- The owning scopes of a chain by their numbers, innermost first. -/
def path (store : ScopeStore) (id : ScopeId) : List Nat :=
  (store.owners id).map store.rank

/-- The value of a name in an owning scope with a number. -/
def valueAt (contents : List (Assoc Name Value)) (name : Name) (r : Nat) : Option Value :=
  contents[r]?.bind (·.get? name)

variable {store store' : ScopeStore} {id id' : ScopeId} {name : Name} {value : Value}
  {base base' : List Scope}

/-! ### Numbers -/

/-- The rank of a scope depends on the kinds of the scopes only. -/
theorem rank_eq (store : ScopeStore) (id : ScopeId) :
    store.rank id = (store.shape.take id.index).countP (·.1 == .owning) := by
  rw [rank, owning, shape, ← List.map_take, List.countP_map]
  rfl

/-- Scopes that are added later do not change the rank of an older one. -/
theorem Extends.rank (h : store.Extends store') (id : ScopeId) (hid : id.index ≤ store.size) :
    store'.rank id = store.rank id := by
  obtain ⟨added, hadded⟩ := h
  rw [rank_eq, rank_eq, ← hadded, List.take_append_of_le_length (length_shape store ▸ hid)]

/-- There are as many contents as owning scopes. -/
theorem length_contents (store : ScopeStore) : store.contents.length = owning store.scopes.toList := by
  rw [contents, owning, List.length_map, List.countP_eq_length_filter]

/-- A new scope ranks after all contents there are. -/
theorem rank_added (store : ScopeStore) (kind : ScopeKind) (parent : Option ScopeId) :
    (store.add kind parent).2.rank ⟨store.size⟩ = store.contents.length := by
  have htake : store.scopes.toList.take store.size = store.scopes.toList :=
    List.take_of_length_le (Nat.le_of_eq Array.length_toList)
  rw [(extends_add store kind parent).rank ⟨store.size⟩ (Nat.le_refl _), rank, htake,
    length_contents]

/-- Scopes above a base rank after the owning scopes of the base. -/
theorem owning_le_rank (floor : base <+: store.scopes.toList) (hid : base.length ≤ id.index) :
    owning base ≤ store.rank id := by
  rw [List.prefix_iff_eq_take] at floor
  rw [floor]
  exact List.Sublist.countP_le (List.take_sublist_take_left hid)

/-- An owning scope is in the store. -/
theorem exists_scope_of_isOwning (h : store.isOwning id = true) :
    ∃ scope, store.scopes.toList[id.index]? = some scope ∧ store.scope? id = some scope ∧
      (scope.kind == .owning) = true := by
  rw [isOwning] at h
  cases hscope : store.scope? id with
  | none =>
    rw [hscope] at h
    cases h
  | some scope =>
    rw [hscope] at h
    refine ⟨scope, ?_, rfl, h⟩
    rw [Array.getElem?_toList]
    exact hscope

/-- The contents of an owning scope stand at its rank. -/
theorem contents_rank (h : store.isOwning id = true) :
    store.contents[store.rank id]? = (store.scope? id).map (·.bindings) := by
  obtain ⟨scope, hlist, hscope, hkind⟩ := exists_scope_of_isOwning h
  rw [contents, List.getElem?_map, rank, owning, getElem?_filter_countP hlist hkind, hscope]

/-- A binding of an owning scope is read off the contents. -/
theorem binding?_eq_valueAt (h : store.isOwning id = true) (name : Name) :
    store.binding? id name = valueAt store.contents name (store.rank id) := by
  rw [binding?, valueAt, contents_rank h]
  cases store.scope? id <;> rfl

/-! ### Contents after the operations -/

/-- A definition changes the contents at the rank of its scope. -/
theorem contents_define (h : store.isOwning id = true) (name : Name) (value : Value) :
    (store.define id name value).contents =
      store.contents.modify (store.rank id) (·.put name value) := by
  obtain ⟨scope, hlist, -, hkind⟩ := exists_scope_of_isOwning h
  rw [contents, define, modify, Array.toList_modify]
  exact map_filter_modify (fun _ => rfl) (fun _ => rfl) hlist hkind

/-- A new owning scope adds empty contents. -/
theorem contents_add_owning (store : ScopeStore) (parent : Option ScopeId) :
    (store.add .owning parent).2.contents = store.contents ++ [[]] := by
  simp [contents, add, List.filter_append]

/-- A transparent scope has no contents of its own. -/
theorem contents_add_transparent (store : ScopeStore) (parent : Option ScopeId) :
    (store.add .transparent parent).2.contents = store.contents := by
  simp [contents, add, List.filter_append]

/-! ### Stores over given scopes -/

/-- The first scopes of the store are given ones, and the chains of all others stay above them.
Names are bound in owning scopes only, and each chain has one. -/
structure Over (base : List Scope) (store : ScopeStore) : Prop where
  floor : base <+: store.scopes.toList
  founded : store.FoundedAbove base.length
  kept : ∀ id, base.length ≤ id.index → store.isOwning id = false →
    ∀ name, store.binding? id name = none
  owned : ∀ id, base.length ≤ id.index → id.index < store.size → store.owners id ≠ []

/-- A scope of the store that is not one of the given ones. -/
structure Above (base : List Scope) (store : ScopeStore) (id : ScopeId) : Prop where
  above : base.length ≤ id.index
  inside : id.index < store.size

/-- The scopes that the store has now are over themselves. -/
theorem over_self (store : ScopeStore) : store.Over store.scopes.toList where
  floor := List.prefix_refl _
  founded id parent hid hparent := by
    rw [parent?, scope?_eq_none_iff.mpr (by simpa [size] using hid)] at hparent
    cases hparent
  kept id hid _ name := by
    rw [binding?, scope?_eq_none_iff.mpr (by simpa [size] using hid)]
    rfl
  owned id hid hlt := by
    have : store.size ≤ id.index := by simpa [size] using hid
    omega

namespace Over

/-- The path of a scope is its own rank, if it is owning, and the path of its parent. -/
theorem path_eq (rests : store.Over base) (hid : base.length ≤ id.index) :
    store.path id = (if store.isOwning id then [store.rank id] else []) ++
      match store.parent? id with
      | some parent => store.path parent
      | none => [] := by
  rw [path, owners_eq_above rests.founded hid, List.map_append]
  cases store.parent? id <;> cases store.isOwning id <;> rfl

/-- A name is read from the first scope on the path that binds it. -/
theorem lookup_eq (rests : store.Over base) (hid : base.length ≤ id.index) (name : Name) :
    store.lookup id name = (store.path id).findSome? (valueAt store.contents name) := by
  have inChain : ∀ s ∈ store.chain id, base.length ≤ s.index := fun s hs =>
    (index_of_mem_chain rests.founded hid hs).1
  rw [lookup, path, owners, List.findSome?_map]
  generalize store.chain id = scopes at inChain
  induction scopes with
  | nil => rfl
  | cons s rest ih =>
    have hrest := ih fun s hs => inChain s (List.mem_cons_of_mem _ hs)
    rw [List.findSome?_cons, List.filter_cons]
    cases howning : store.isOwning s with
    | false =>
      rw [rests.kept s (inChain s List.mem_cons_self) howning name]
      simpa using hrest
    | true =>
      rw [binding?_eq_valueAt howning, if_pos rfl, List.findSome?_cons, hrest]
      rfl

/-- A name is overwritten in the first scope on the path that binds it. -/
theorem rank_binder? (rests : store.Over base) (hid : base.length ≤ id.index) (name : Name) :
    (store.binder? id name).map store.rank =
      (store.path id).find? fun r => (valueAt store.contents name r).isSome := by
  have inChain : ∀ s ∈ store.chain id, base.length ≤ s.index := fun s hs =>
    (index_of_mem_chain rests.founded hid hs).1
  rw [binder?, path, owners, List.find?_map]
  congr 1
  generalize store.chain id = scopes at inChain
  induction scopes with
  | nil => rfl
  | cons s rest ih =>
    have hrest := ih fun s hs => inChain s (List.mem_cons_of_mem _ hs)
    rw [List.find?_cons, List.filter_cons, binds]
    cases howning : store.isOwning s with
    | false =>
      rw [rests.kept s (inChain s List.mem_cons_self) howning name]
      simpa using hrest
    | true =>
      rw [binding?_eq_valueAt howning, if_pos rfl, List.find?_cons, hrest]
      rfl

/-- The scope in which a name is overwritten keeps names and is not one of the given ones. -/
theorem isOwning_of_binder? (rests : store.Over base) (hid : base.length ≤ id.index) {s : ScopeId}
    (h : store.binder? id name = some s) : base.length ≤ s.index ∧ store.isOwning s = true := by
  have hs : base.length ≤ s.index :=
    (index_of_mem_chain rests.founded hid (List.mem_of_find?_eq_some h)).1
  refine ⟨hs, ?_⟩
  have hbinds := binds_of_binder? h
  cases howning : store.isOwning s with
  | true => rfl
  | false =>
    rw [binds, rests.kept s hs howning name] at hbinds
    cases hbinds

/-- What is declared goes to the first scope on the path. -/
theorem head?_path (rests : store.Over base) (h : store.Above base id) :
    base.length ≤ (store.owner id).index ∧ store.isOwning (store.owner id) = true ∧
      (store.path id).head? = some (store.rank (store.owner id)) := by
  obtain ⟨s, rest, howners⟩ := List.exists_cons_of_ne_nil (rests.owned id h.above h.inside)
  have howner : store.owner id = s := by rw [owner_eq, howners]; rfl
  have hs : s ∈ store.owners id := by rw [howners]; exact List.mem_cons_self
  refine ⟨?_, ?_, ?_⟩
  · rw [howner]
    exact (index_of_mem_chain rests.founded h.above (List.mem_filter.mp hs).1).1
  · rw [howner]
    exact isOwning_of_mem_owners hs
  · rw [path, howners, howner]
    rfl

/-! #### The operations -/

theorem define (rests : store.Over base) (hid : base.length ≤ id.index)
    (howning : store.isOwning id = true) (name : Name) (value : Value) :
    (store.define id name value).Over base where
  floor := by
    have hfloor := List.prefix_iff_eq_take.mp rests.floor
    rw [ScopeStore.define, modify, Array.toList_modify, List.prefix_iff_eq_take, List.take_modify,
      ← hfloor, List.modify_eq_self hid]
  founded s parent hs hparent := by
    rw [parent?_of_shape_eq (shape_define store id name value)] at hparent
    exact rests.founded s parent hs hparent
  kept s hs hs' n := by
    rw [isOwning_of_shape_eq (shape_define store id name value)] at hs'
    rw [binding?_define, if_neg]
    · exact rests.kept s hs hs' n
    · rintro ⟨rfl, -⟩
      rw [howning] at hs'
      cases hs'
  owned s hs hlt := by
    rw [size_of_shape_eq (shape_define store id name value)] at hlt
    rw [owners_of_shape_eq (shape_define store id name value)]
    exact rests.owned s hs hlt

/-- A scope is made with a parent that is not one of the given ones; without a parent, it has to
keep names itself. -/
theorem add (rests : store.Over base) (kind : ScopeKind) (parent : Option ScopeId)
    (hparent : ∀ p, parent = some p → store.Above base p) (hkind : parent = none → kind = .owning) :
    (store.add kind parent).2.Over base := by
  have extended := extends_add store kind parent
  have founded : (store.add kind parent).2.FoundedAbove base.length :=
    rests.founded.add fun p hp => ⟨(hparent p hp).above, (hparent p hp).inside⟩
  refine ⟨rests.floor.trans ?_, founded, fun s hs howning n => ?_, fun s hs hlt => ?_⟩
  · rw [ScopeStore.add, Array.toList_push]
    exact List.prefix_append _ _
  · rw [binding?_add]
    rcases Nat.lt_or_ge s.index store.size with hlt | hge
    · rw [extended.isOwning hlt] at howning
      exact rests.kept s hs howning n
    · exact binding?_eq_none_iff.mpr (binds_eq_false hge n)
  · rcases Nat.lt_or_ge s.index store.size with hlt' | hge
    · rw [extended.owners_above rests.founded hs hlt']
      exact rests.owned s hs hlt'
    · obtain rfl := eq_of_lt_added hge hlt
      rw [owners_eq_above founded hs, isOwning_added, parent?_added]
      cases hcase : parent with
      | none =>
        rw [hkind hcase]
        simp
      | some p =>
        subst hcase
        have hp := hparent p rfl
        intro h
        have hnone : (store.add kind (some p)).2.owners p = [] := (List.append_eq_nil_iff.mp h).2
        rw [extended.owners_above rests.founded hp.above hp.inside] at hnone
        exact rests.owned p hp.above hp.inside hnone

end Over

/-- Paths of scopes that exist do not change. -/
theorem Extends.path (h : store.Extends store') (rests : store.Over base) (hid : store.Above base id) :
    store'.path id = store.path id := by
  rw [ScopeStore.path, ScopeStore.path, h.owners_above rests.founded hid.above hid.inside]
  refine List.map_congr_left fun s hs => h.rank s ?_
  have hle := (index_of_mem_chain rests.founded hid.above (List.mem_filter.mp hs).1).2
  exact Nat.le_of_lt (Nat.lt_of_le_of_lt hle hid.inside)

/-- A scope above the base stays above it. -/
theorem Extends.above (h : store.Extends store') (hid : store.Above base id) :
    store'.Above base id :=
  ⟨hid.above, Nat.lt_of_lt_of_le hid.inside h.size_le⟩

/-! ### Two stores -/

/-- Two stores over given scopes bind the same in all other scopes that keep names. -/
structure Alike (base base' : List Scope) (store store' : ScopeStore) : Prop where
  rests : store.Over base
  rests' : store'.Over base'
  level : owning base' = owning base
  length : store'.contents.length = store.contents.length
  contents : ∀ r, owning base ≤ r → store'.contents[r]? = store.contents[r]?

/-- Two scopes that are not among the given ones have the same path. -/
structure Twin (base base' : List Scope) (store store' : ScopeStore) (id id' : ScopeId) : Prop where
  left : store.Above base id
  right : store'.Above base' id'
  path : store'.path id' = store.path id

namespace Twin

variable {grown grown' : ScopeStore}

/-- Twins stay twins while the stores grow. -/
theorem grow (h : Twin base base' store store' id id') (rests : store.Over base)
    (rests' : store'.Over base') (grows : store.Extends grown) (grows' : store'.Extends grown') :
    Twin base base' grown grown' id id' where
  left := grows.above h.left
  right := grows'.above h.right
  path := by rw [grows.path rests h.left, grows'.path rests' h.right, h.path]

end Twin

namespace Alike

variable (alike : Alike base base' store store')

include alike

/-- Where the contents agree, so do the values of names. -/
theorem valueAt_eq {r : Nat} (hr : owning base ≤ r) (name : Name) :
    valueAt store'.contents name r = valueAt store.contents name r := by
  rw [valueAt, valueAt, alike.contents r hr]

/-- The path of a scope above the base stays above the base. -/
theorem owning_le_of_mem_path (hid : base.length ≤ id.index) {r : Nat} (h : r ∈ store.path id) :
    owning base ≤ r := by
  obtain ⟨s, hs, rfl⟩ := List.mem_map.mp h
  refine owning_le_rank alike.rests.floor ?_
  exact (index_of_mem_chain alike.rests.founded hid (List.mem_filter.mp hs).1).1

/-- Twins see the same names with the same values. -/
theorem lookup_eq (twin : Twin base base' store store' id id') (name : Name) :
    store'.lookup id' name = store.lookup id name := by
  rw [alike.rests'.lookup_eq twin.right.above, alike.rests.lookup_eq twin.left.above, twin.path]
  have inPath : ∀ r ∈ store.path id, owning base ≤ r := fun r hr =>
    alike.owning_le_of_mem_path twin.left.above hr
  generalize store.path id = ranks at inPath
  induction ranks with
  | nil => rfl
  | cons r rest ih =>
    rw [List.findSome?_cons, List.findSome?_cons, alike.valueAt_eq (inPath r List.mem_cons_self),
      ih fun r hr => inPath r (List.mem_cons_of_mem _ hr)]

/-- Twins see the same names in scopes with the same number. -/
theorem rank_binder?_eq (twin : Twin base base' store store' id id') (name : Name) :
    (store'.binder? id' name).map store'.rank = (store.binder? id name).map store.rank := by
  rw [alike.rests'.rank_binder? twin.right.above, alike.rests.rank_binder? twin.left.above, twin.path]
  refine List.find?_congr fun r hr => ?_
  rw [alike.valueAt_eq (alike.owning_le_of_mem_path twin.left.above hr)]

/-- Corresponding scopes have owners of the same rank. -/
theorem rank_owner_eq (twin : Twin base base' store store' id id') :
    store'.rank (store'.owner id') = store.rank (store.owner id) := by
  have hleft := (alike.rests.head?_path twin.left).2.2
  have hright := (alike.rests'.head?_path twin.right).2.2
  rw [twin.path, hleft] at hright
  exact (Option.some.inj hright).symm

/-- The same definition in scopes with the same number. -/
theorem define {s s' : ScopeId} (hs : base.length ≤ s.index) (howning : store.isOwning s = true)
    (hs' : base'.length ≤ s'.index) (howning' : store'.isOwning s' = true)
    (hrank : store'.rank s' = store.rank s) (name : Name) (value : Value) :
    Alike base base' (store.define s name value) (store'.define s' name value) where
  rests := alike.rests.define hs howning name value
  rests' := alike.rests'.define hs' howning' name value
  level := alike.level
  length := by
    rw [contents_define howning, contents_define howning', List.length_modify, List.length_modify,
      alike.length]
  contents r hr := by
    rw [contents_define howning, contents_define howning', hrank, List.getElem?_modify,
      List.getElem?_modify, alike.contents r hr]

/-- Both stores get a scope that keeps names. -/
theorem addOwning {parent parent' : Option ScopeId}
    (hparent : ∀ p, parent = some p → store.Above base p)
    (hparent' : ∀ p, parent' = some p → store'.Above base' p) :
    Alike base base' (store.add .owning parent).2 (store'.add .owning parent').2 where
  rests := alike.rests.add .owning parent hparent fun _ => rfl
  rests' := alike.rests'.add .owning parent' hparent' fun _ => rfl
  level := alike.level
  length := by
    rw [contents_add_owning, contents_add_owning, List.length_append, List.length_append,
      alike.length]
  contents r hr := by
    rw [contents_add_owning, contents_add_owning, List.getElem?_append, List.getElem?_append,
      alike.length, alike.contents r hr]

/-- The first store gets a transparent scope. -/
theorem addTransparent {parent : ScopeId} (hparent : store.Above base parent) :
    Alike base base' (store.add .transparent (some parent)).2 store' where
  rests := alike.rests.add .transparent _ (by rintro p ⟨⟩; exact hparent) (by rintro ⟨⟩)
  rests' := alike.rests'
  level := alike.level
  length := by rw [contents_add_transparent, alike.length]
  contents r hr := by rw [contents_add_transparent, alike.contents r hr]

theorem symm : Alike base' base store' store where
  rests := alike.rests'
  rests' := alike.rests
  level := alike.level.symm
  length := alike.length.symm
  contents r hr := (alike.contents r (alike.level ▸ hr)).symm

end Alike

/-! ### New scopes -/

/-- A new scope is above the base. -/
theorem above_added (floor : base <+: store.scopes.toList) (kind : ScopeKind)
    (parent : Option ScopeId) : (store.add kind parent).2.Above base ⟨store.size⟩ where
  above := by
    show base.length ≤ store.size
    rw [size, ← Array.length_toList]
    exact floor.length_le
  inside := by
    show store.size < (store.scopes.push _).size
    rw [Array.size_push]
    exact Nat.lt_succ_self _

/-- The path of a new scope that keeps names. -/
theorem path_added_owning (rests : store.Over base) {parent : Option ScopeId}
    (hparent : ∀ p, parent = some p → store.Above base p) :
    (store.add .owning parent).2.path ⟨store.size⟩ =
      store.contents.length :: (parent.elim [] store.path) := by
  have rests' := rests.add .owning parent hparent fun _ => rfl
  rw [rests'.path_eq (above_added rests.floor .owning parent).above, isOwning_added, parent?_added,
    rank_added]
  cases hcase : parent with
  | none => rfl
  | some p =>
    rw [← hcase]
    simp [hcase, ← (extends_add store .owning (some p)).path rests (hparent p hcase)]

/-- A transparent scope has the path of its parent. -/
theorem path_added_transparent (rests : store.Over base) {parent : ScopeId}
    (hparent : store.Above base parent) :
    (store.add .transparent (some parent)).2.path ⟨store.size⟩ = store.path parent := by
  have rests' := rests.add .transparent (some parent) (by rintro p ⟨⟩; exact hparent)
    (by rintro ⟨⟩)
  rw [rests'.path_eq (above_added rests.floor .transparent (some parent)).above, isOwning_added,
    parent?_added]
  exact (extends_add store .transparent (some parent)).path rests hparent

end ScopeStore

end ScriptSemantics
