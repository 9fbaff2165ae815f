import ScriptSemantics.Proofs.OwningStack

/-!
# The binding that an assignment writes

An assignment writes the binding that a read of the name finds, or makes one in the nearest owning
scope when there is none.  Scopes are shared, so the value is then seen from other scopes too: from
those whose chains come to the written scope before they come to another binding of the name.

## Main Definitions

* `ScopeStore.ComesTo` — the chain of a scope comes to another one before any other binding of a
  name
* `Environment.Receives` — the scope that an assignment to a name belongs to
* `Environment.WritesOnce` — all that an assignment changes

## Main Results

* `ScopeStore.lookup_define_of_comesTo`, `ScopeStore.lookup_define_of_not_comesTo` — from where a
  definition is seen
* `EnvironmentUse.assignment_writes_what_reads_see` — after any operations, an assignment writes one
  binding, which is the one that was read
-/

namespace ScriptSemantics

namespace ScopeStore

variable {store : ScopeStore} {id scope : ScopeId} {name other : Name} {value : Value}

/-! ### Reads -/

/-- The chain of a scope comes to another one before it comes to any other binding of a name. -/
def ComesTo (store : ScopeStore) (name : Name) (id scope : ScopeId) : Prop :=
  store.Outward (fun s => store.binds s name = false) id scope

/-- A name is looked up in a scope and, where it is not bound, in the parent. -/
theorem lookup_eq_parent (founded : store.Founded) (id : ScopeId) (name : Name) :
    store.lookup id name =
      (store.binding? id name).or ((store.parent? id).bind (store.lookup · name)) := by
  rw [lookup, chain_eq founded, List.findSome?_cons]
  cases store.binding? id name <;> cases store.parent? id <;> rfl

/-- A name that no scope of a chain binds has no binder. -/
theorem binder?_eq_none (founded : store.Founded)
    (free : ∀ s, store.Encloses s id → store.binds s name = false) :
    store.binder? id name = none := by
  cases hbinder : store.binder? id name with
  | none => rfl
  | some s =>
    obtain ⟨reached, binds⟩ := (find?_chain_eq_some_iff founded).mp hbinder
    rw [free s reached.encloses] at binds
    cases binds

theorem lookup_of_binding? (founded : store.Founded) (h : store.binding? id name = some value) :
    store.lookup id name = some value := by
  rw [lookup_eq_parent founded, h, Option.some_or]

/-- Scopes that do not bind a name have the parent's value of it. -/
theorem lookup_of_comesTo (founded : store.Founded) (h : store.ComesTo name id scope) :
    store.lookup id name = store.lookup scope name := by
  induction h with
  | here => rfl
  | parent passed found _ ih =>
    rw [lookup_eq_parent founded, binding?_eq_none_iff.mpr passed, found]
    exact ih

/-! ### Definitions in one scope -/

section Define

variable (founded : store.Founded)

/-- Other names keep their values everywhere. -/
theorem lookup_define_of_ne (hname : other ≠ name) (id : ScopeId) :
    (store.define scope name value).lookup id other = store.lookup id other := by
  rw [lookup, lookup, chain_of_shape_eq (shape_define ..)]
  refine congrArg (List.findSome? · _) (funext fun s => ?_)
  rw [binding?_define, if_neg fun h => hname h.2]

include founded

/-- A definition is seen from the scopes whose chains come to it before any other binding. -/
theorem lookup_define_of_comesTo (hscope : scope.index < store.size)
    (h : store.ComesTo name id scope) :
    (store.define scope name value).lookup id name = some value := by
  have founded' : (store.define scope name value).Founded :=
    founded.of_shape_eq (shape_define ..)
  induction h with
  | here scope =>
    refine lookup_of_binding? founded' ?_
    rw [binding?_define_of_lt hscope, if_pos ⟨rfl, rfl⟩]
  | @parent id parent scope passed found _ ih =>
    have hbinding : (store.define scope name value).binding? id name = _ :=
      binding?_define_of_lt hscope id name
    by_cases hid : id = scope
    · rw [if_pos ⟨hid, rfl⟩] at hbinding
      exact lookup_of_binding? founded' hbinding
    · rw [if_neg fun h => hid h.1, binding?_eq_none_iff.mpr passed] at hbinding
      rw [lookup_eq_parent founded', hbinding, parent?_of_shape_eq (shape_define ..), found]
      exact ih hscope founded'

/-- From all other scopes the name has the value that it had. -/
theorem lookup_define_of_not_comesTo (h : ¬ store.ComesTo name id scope) :
    (store.define scope name value).lookup id name = store.lookup id name := by
  have founded' : (store.define scope name value).Founded :=
    founded.of_shape_eq (shape_define ..)
  obtain ⟨i, hi⟩ : ∃ i, id.index = i := ⟨_, rfl⟩
  induction i using Nat.strongRecOn generalizing id with
  | _ i ih =>
    have hid : id ≠ scope := by
      rintro rfl
      exact h (.here id)
    rw [lookup_eq_parent founded', lookup_eq_parent founded, binding?_define,
      if_neg fun h => hid h.1, parent?_of_shape_eq (shape_define ..)]
    cases hbinding : store.binding? id name with
    | some bound => rfl
    | none =>
      cases hparent : store.parent? id with
      | none => rfl
      | some parent =>
        refine ih parent.index (hi ▸ founded id parent hparent) (fun hrest => ?_) rfl
        exact h (.parent (binding?_eq_none_iff.mp hbinding) hparent hrest)

end Define

end ScopeStore

/-! ### Assignments -/

namespace Environment

variable {env : Environment} {name : Name} {value : Value} {scope : ScopeId}

/-- The scope that an assignment to a name belongs to: the one whose binding is read, or the nearest
owning scope when the name is bound in no scope of the chain. -/
inductive Receives (env : Environment) (name : Name) (scope : ScopeId) : Prop
  | bound (reached : env.store.ComesTo name env.current scope)
      (binds : env.store.binds scope name = true)
  | unbound (free : ∀ s, env.store.Encloses s env.current → env.store.binds s name = false)
      (reached : env.store.Outward (fun s => env.store.isOwning s = false) env.current scope)
      (owning : env.store.isOwning scope = true)

/-- What an assignment of a value to a name changes, which is one binding of one scope. -/
structure WritesOnce (env after : Environment) (name : Name) (value : Value) (scope : ScopeId) :
    Prop where
  receives : env.Receives name scope
  /-- The binding that was read is that of the scope, if there was one. -/
  read : env.lookup name = env.store.binding? scope name
  written : after.lookup name = some value
  bindings : ∀ id other, after.store.binding? id other =
    if id = scope ∧ other = name then some value else env.store.binding? id other
  sameShape : env.SameShape after
  /-- Other names keep their values, from whatever scope they are looked up. -/
  others : ∀ id other, other ≠ name → after.store.lookup id other = env.store.lookup id other
  /-- The value is seen from the scopes whose chains come to the written scope first. -/
  seen : ∀ id, env.store.ComesTo name id scope → after.store.lookup id name = some value
  /-- Only these lookups change, and all of them do unless the value is the present one. -/
  changed : ∀ id, after.store.lookup id name ≠ env.store.lookup id name ↔
    env.store.ComesTo name id scope ∧ env.store.lookup id name ≠ some value

theorem Receives.lt (h : env.Receives name scope) : scope.index < env.store.size := by
  cases h with
  | bound _ binds => exact ScopeStore.lt_of_binds binds
  | unbound _ _ owning => exact ScopeStore.isOwning_lt owning

/-- The written scope comes before any other binding, as seen from the current scope. -/
theorem Receives.comesTo (h : env.Receives name scope) :
    env.store.ComesTo name env.current scope := by
  cases h with
  | bound reached _ => exact reached
  | unbound free reached _ => exact reached.encloses.outward free

section Founded

variable (founded : env.store.Founded)

include founded

/-- The binding that is read is the one that is written. -/
theorem Receives.lookup_eq (h : env.Receives name scope) :
    env.lookup name = env.store.binding? scope name := by
  cases h with
  | bound reached binds =>
    obtain ⟨value, hvalue⟩ := Option.isSome_iff_exists.mp binds
    rw [lookup, ScopeStore.lookup_of_comesTo founded reached, hvalue,
      ScopeStore.lookup_of_binding? founded hvalue]
  | unbound free reached _ =>
    rw [lookup, ScopeStore.lookup_eq, ScopeStore.binder?_eq_none founded free,
      ScopeStore.binding?_eq_none_iff.mpr (free scope reached.encloses)]
    rfl

/-- The scope is the one that the assignment looks for. -/
theorem Receives.eq_target (h : env.Receives name scope) : scope = env.target name := by
  cases h with
  | bound reached binds =>
    have hbinder : env.store.binder? env.current name = some scope :=
      (ScopeStore.find?_chain_eq_some_iff founded).mpr ⟨reached, binds⟩
    rw [target, hbinder, Option.getD_some]
  | unbound free reached owning =>
    have howner : (env.store.chain env.current).find? env.store.isOwning = some scope :=
      (ScopeStore.find?_chain_eq_some_iff founded).mpr ⟨reached, owning⟩
    rw [target, ScopeStore.binder?_eq_none founded free, ScopeStore.owner, howner, Option.getD_none,
      Option.getD_some]

/-- A chain with an owning scope has a scope that receives the assignment. -/
theorem receives_target (owned : env.store.owners env.current ≠ []) :
    env.Receives name (env.target name) := by
  rw [target]
  cases hbinder : env.store.binder? env.current name with
  | some scope =>
    obtain ⟨reached, binds⟩ := (ScopeStore.find?_chain_eq_some_iff founded).mp hbinder
    exact .bound reached binds
  | none =>
    obtain ⟨scope, howner⟩ :
        ∃ scope, (env.store.chain env.current).find? env.store.isOwning = some scope := by
      rw [← Option.isSome_iff_exists, ← List.head?_filter, List.isSome_head?]
      exact owned
    obtain ⟨reached, owning⟩ := (ScopeStore.find?_chain_eq_some_iff founded).mp howner
    rw [ScopeStore.owner, howner]
    exact .unbound (fun s encloses => encloses.eq_false founded hbinder) reached owning

/-- An assignment writes one binding when the current chain has an owning scope. -/
theorem writesOnce_assignLocal (owned : env.store.owners env.current ≠ []) (value : Value) :
    env.WritesOnce (env.assignLocal name value) name value (env.target name) := by
  have receives : env.Receives name (env.target name) := receives_target founded owned
  have seen (id : ScopeId) (h : env.store.ComesTo name id (env.target name)) :
      (env.assignLocal name value).store.lookup id name = some value := by
    rw [assignLocal_eq_target]
    exact ScopeStore.lookup_define_of_comesTo founded receives.lt h
  have unseen (id : ScopeId) (h : ¬ env.store.ComesTo name id (env.target name)) :
      (env.assignLocal name value).store.lookup id name = env.store.lookup id name := by
    rw [assignLocal_eq_target]
    exact ScopeStore.lookup_define_of_not_comesTo founded h
  constructor
  case receives => exact receives
  case read => exact receives.lookup_eq founded
  case written =>
    rw [lookup, (sameShape_assignLocal name value).current]
    exact seen env.current receives.comesTo
  case bindings =>
    intro id other
    rw [assignLocal_eq_target]
    exact ScopeStore.binding?_define_of_lt receives.lt id other
  case sameShape => exact sameShape_assignLocal name value
  case others =>
    intro id other hother
    rw [assignLocal_eq_target]
    exact ScopeStore.lookup_define_of_ne hother id
  case seen => exact seen
  case changed =>
    intro id
    by_cases h : env.store.ComesTo name id (env.target name)
    · rw [seen id h, ne_comm]
      exact (and_iff_right h).symm
    · rw [unseen id h]
      exact iff_of_false (· rfl) fun both => h both.1

end Founded

end Environment

namespace EnvironmentUse

/-- After any operations on a new environment, an assignment writes one binding, and this is the one
that was read.  The scopes from which lookups change are given by the chains alone, be they active,
captured or left for good. -/
theorem assignment_writes_what_reads_see (ops : List EnvironmentOp) (name : Name) (value : Value) :
    ∃! scope, (run ops).env.WritesOnce ((run ops).env.assignLocal name value) name value scope := by
  have refines := refines_run ops
  have founded : (run ops).env.store.Founded := fun id parent hparent =>
    (refines.rests.founded id parent (Nat.zero_le _) hparent).2
  have owned : (run ops).env.store.owners (run ops).env.current ≠ [] :=
    refines.rests.owned _ (Nat.zero_le _) refines.current.inside.inside
  refine ⟨(run ops).env.target name, Environment.writesOnce_assignLocal founded owned value, ?_⟩
  intro scope writes
  exact writes.receives.eq_target founded

/-- A closure assigns to a local of the method around it, which its handle sees at once. -/
example :
    let x : Name := ⟨1⟩
    let use := run [.enterOwning none, .assignLocal x (.int 1), .capture,
      .enterOwning (some (.scope 0)), .enterTransparent]
    use.handles.map ((use.env.assignLocal x (.int 2)).store.lookup · x) = [some (.int 2)] := rfl

end EnvironmentUse

end ScriptSemantics
