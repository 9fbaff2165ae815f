import ScriptSemantics.Proofs.Outline
import Mathlib.Data.List.Forall2

/-!
# An environment as a stack of owning scopes

Transparent scopes are invisible: an environment answers like one in which only owning scopes exist
and a transparent scope is the current owning scope once more.  A handle to a scope is then as good
as a handle to the owning scope around it, whether the scope is still active or not.

## Main Definitions

* `EnvironmentOp` — the operations, with handles referred to by the order in which they were taken
* `EnvironmentUse` — an environment with the handles taken
* `OwningStack` — the same with owning scopes only
* `EnvironmentUse.Refines` — each scope stands for an owning scope

## Main Results

* `ScopeStore.path_owner` — a scope and its owner see the same scopes
* `EnvironmentUse.Refines.apply`, `EnvironmentUse.refines_run` — operations keep the refinement
* `EnvironmentUse.answers_as_owning_stack` — what is looked up after any operations is what the
  stack of owning scopes has, and captured scopes may be replaced by their owners
-/

namespace ScriptSemantics

/-- A scope that was captured: that of a handle, or the owner of that. -/
inductive CapturedScope
  | scope (handle : Nat)
  | owner (handle : Nat)

/-- The number of the handle. -/
def CapturedScope.handle : CapturedScope → Nat
  | scope handle | owner handle => handle

/-- What can be done with an environment. -/
inductive EnvironmentOp
  | enterTransparent
  /-- A handle that was never taken is no lexical parent. -/
  | enterOwning (parent : Option CapturedScope)
  | leave
  /-- Take a handle to the current scope. -/
  | capture
  | declare (name : Name)
  | define (name : Name) (value : Value)
  | assignLocal (name : Name) (value : Value)

/-- The same operation, with the owner of a scope captured in place of the scope. -/
def EnvironmentOp.byOwner : EnvironmentOp → EnvironmentOp
  | enterOwning parent => enterOwning (parent.map fun captured => .owner captured.handle)
  | op => op

/-! ### The environment in use -/

/-- An environment with the handles that were taken, in the order in which they were taken. -/
structure EnvironmentUse where
  env : Environment
  handles : List ScopeId

namespace EnvironmentUse

/-- A new environment, without handles. -/
def initial : EnvironmentUse where
  env := .initial
  handles := []

/-- The scope that was captured. -/
def captured? (use : EnvironmentUse) : CapturedScope → Option ScopeId
  | .scope handle => use.handles[handle]?
  | .owner handle => use.handles[handle]?.map use.env.store.owner

/-- Carry out an operation. -/
def apply (use : EnvironmentUse) : EnvironmentOp → EnvironmentUse
  | .enterTransparent => { use with env := use.env.enterTransparent }
  | .enterOwning parent => { use with env := use.env.enterOwning (parent.bind use.captured?) }
  | .leave => { use with env := use.env.leave }
  | .capture => { use with handles := use.handles ++ [use.env.current] }
  | .declare name => { use with env := use.env.declare name }
  | .define name value => { use with env := use.env.define name value }
  | .assignLocal name value => { use with env := use.env.assignLocal name value }

/-- Carry out operations on a new environment. -/
def run (ops : List EnvironmentOp) : EnvironmentUse :=
  ops.foldl apply initial

end EnvironmentUse

/-! ### Owning scopes only -/

/-- An owning scope, with the scopes behind it, innermost first. -/
structure OwningScope where
  bindings : Assoc Name Value
  outer : List Nat

/-- All owning scopes in the order in which they were made, those entered, innermost first, and
those that handles were taken to. -/
structure OwningStack where
  scopes : List OwningScope
  entered : List Nat
  handles : List Nat

namespace OwningStack

/-- The top-level scope only. -/
def initial : OwningStack where
  scopes := [⟨[], []⟩]
  entered := []
  handles := []

variable (stack : OwningStack)

/-- The innermost active scope. -/
def current : Nat :=
  stack.entered.headD 0

/-- A scope and those behind it. -/
def visible (scope : Nat) : List Nat :=
  scope :: (stack.scopes[scope]?.map (·.outer)).getD []

/-- The value that a scope itself binds to a name. -/
def binding? (name : Name) (scope : Nat) : Option Value :=
  stack.scopes[scope]?.bind (·.bindings.get? name)

/-- The value of a name: that of the innermost binding. -/
def lookup (name : Name) : Option Value :=
  (stack.visible stack.current).findSome? (stack.binding? name)

/-- Whether a name is visible. -/
def isBound (name : Name) : Bool :=
  (stack.lookup name).isSome

/-- Bind a name in a scope. -/
def put (scope : Nat) (name : Name) (value : Value) : OwningStack :=
  { stack with
    scopes := stack.scopes.modify scope fun s => { s with bindings := s.bindings.put name value } }

/-- Carry out an operation.  A transparent scope is the current scope once more, and a captured
scope is the one that its handle was taken to. -/
def apply : EnvironmentOp → OwningStack
  | .enterTransparent => { stack with entered := stack.current :: stack.entered }
  | .enterOwning parent =>
    let parent := parent.bind fun captured => stack.handles[captured.handle]?
    { stack with
      scopes := stack.scopes ++ [⟨[], (parent.map stack.visible).getD []⟩]
      entered := stack.scopes.length :: stack.entered }
  | .leave => { stack with entered := stack.entered.tail }
  | .capture => { stack with handles := stack.handles ++ [stack.current] }
  | .declare name =>
    if (stack.binding? name stack.current).isSome then stack else stack.put stack.current name .nil
  | .define name value => stack.put stack.current name value
  | .assignLocal name value =>
    let binder? := (stack.visible stack.current).find? fun scope => (stack.binding? name scope).isSome
    stack.put (binder?.getD stack.current) name value

/-- Carry out operations on the top-level scope. -/
def run (ops : List EnvironmentOp) : OwningStack :=
  ops.foldl apply initial

theorem visible_put (scope : Nat) (name : Name) (value : Value) (r : Nat) :
    (stack.put scope name value).visible r = stack.visible r := by
  rw [visible, visible, put, List.getElem?_modify]
  cases stack.scopes[r]? <;> by_cases h : scope = r <;> simp [h]

/-- A new scope leaves those behind the others as they are. -/
theorem visible_concat {new : OwningScope} {entered : List Nat} {r : Nat}
    (h : r < stack.scopes.length) :
    visible { stack with scopes := stack.scopes ++ [new], entered } r = stack.visible r := by
  rw [visible, visible, List.getElem?_append_left h]

/-- It makes no difference to the stack which scope with the same owner is captured. -/
theorem run_byOwner (ops : List EnvironmentOp) : run (ops.map EnvironmentOp.byOwner) = run ops := by
  have step (stack : OwningStack) (op : EnvironmentOp) : stack.apply op.byOwner = stack.apply op := by
    cases op with
    | enterOwning parent => cases parent <;> rfl
    | _ => rfl
  rw [run, List.foldl_map]
  simp only [step]
  rfl

end OwningStack

/-! ### Owners -/

namespace ScopeStore

variable {store : ScopeStore} {base : List Scope} {id : ScopeId}

/-- A scope sees the owning scopes that its owner sees. -/
theorem path_owner (rests : store.Over base) (h : store.Above base id) :
    store.path (store.owner id) = store.path id := by
  obtain ⟨i, hi⟩ : ∃ i, id.index = i := ⟨_, rfl⟩
  induction i using Nat.strongRecOn generalizing id with
  | _ i ih =>
    have howner := owner_eq store id
    rw [owners_eq_above rests.founded h.above] at howner
    cases howning : store.isOwning id with
    | true =>
      rw [howning] at howner
      exact congrArg store.path howner
    | false =>
      have hpath := rests.path_eq h.above
      have howned := rests.owned id h.above h.inside
      rw [owners_eq_above rests.founded h.above, howning] at howned
      rw [howning] at howner hpath
      cases hparent : store.parent? id with
      | none =>
        rw [hparent] at howned
        exact absurd rfl howned
      | some parent =>
        rw [hparent] at howned howner hpath
        obtain ⟨hbase, hlt⟩ := rests.founded id parent h.above hparent
        have hinside : store.Above base parent := ⟨hbase, Nat.lt_trans hlt h.inside⟩
        obtain ⟨s, rest, howners⟩ := List.exists_cons_of_ne_nil howned
        have hsame : store.owner id = store.owner parent := by
          rw [howner, owner_eq, show _ ++ store.owners parent = s :: rest from howners,
            show store.owners parent = s :: rest from howners]
          rfl
        rw [hsame, ih parent.index (hi ▸ hlt) hinside rfl]
        exact hpath.symm

end ScopeStore

namespace EnvironmentUse

/-! ### The refinement -/

/-- A scope stands for an owning scope when it sees what that one sees. -/
structure Stands (store : ScopeStore) (stack : OwningStack) (id : ScopeId) (scope : Nat) : Prop where
  inside : store.Above [] id
  number : scope < stack.scopes.length
  path : store.path id = stack.visible scope

/-- Owning scopes bind the same on both sides and transparent ones bind nothing.  Every active scope
and every handle stands for the owning scope that the stack has in its place. -/
structure Refines (use : EnvironmentUse) (stack : OwningStack) : Prop where
  rests : use.env.store.Over []
  contents : use.env.store.contents = stack.scopes.map (·.bindings)
  top : Stands use.env.store stack use.env.top 0
  entered : List.Forall₂ (Stands use.env.store stack) use.env.entered stack.entered
  handles : List.Forall₂ (Stands use.env.store stack) use.handles stack.handles

variable {use : EnvironmentUse} {stack stack' : OwningStack} {store store' : ScopeStore}
  {id : ScopeId} {scope : Nat}

/-- Scopes go on to stand for what they stand for as long as no scope on either side is put behind
others than before. -/
theorem Stands.grow (h : Stands store stack id scope) (rests : store.Over [])
    (extended : store.Extends store') (length : stack.scopes.length ≤ stack'.scopes.length)
    (visible : ∀ r < stack.scopes.length, stack'.visible r = stack.visible r) :
    Stands store' stack' id scope where
  inside := extended.above h.inside
  number := Nat.lt_of_lt_of_le h.number length
  path := by rw [extended.path rests h.inside, h.path, visible scope h.number]

/-- The owner of a scope is the owning scope that it stands for. -/
theorem Stands.owner (h : Stands store stack id scope) (rests : store.Over []) :
    store.isOwning (store.owner id) = true ∧ store.rank (store.owner id) = scope ∧
      Stands store stack (store.owner id) scope := by
  obtain ⟨-, howning, hhead⟩ := rests.head?_path h.inside
  refine ⟨howning, ?_, ⟨Nat.zero_le _, ScopeStore.isOwning_lt howning⟩, h.number, ?_⟩
  · rw [h.path] at hhead
    exact (Option.some.inj hhead).symm
  · rw [ScopeStore.path_owner rests h.inside, h.path]

namespace Refines

theorem current (h : Refines use stack) :
    Stands use.env.store stack use.env.current stack.current := by
  have entered := h.entered
  rw [Environment.current, OwningStack.current]
  cases hreal : use.env.entered <;> cases hstack : stack.entered <;> rw [hreal, hstack] at entered
  case nil.nil => exact h.top
  case cons.cons => exact (List.forall₂_cons.mp entered).1
  all_goals cases entered

theorem valueAt_eq (h : Refines use stack) (name : Name) (r : Nat) :
    ScopeStore.valueAt use.env.store.contents name r = stack.binding? name r := by
  rw [ScopeStore.valueAt, h.contents, List.getElem?_map, OwningStack.binding?, Option.bind_map]
  rfl

theorem lookup_eq (h : Refines use stack) (name : Name) :
    use.env.lookup name = stack.lookup name := by
  rw [Environment.lookup, h.rests.lookup_eq h.current.inside.above, h.current.path,
    OwningStack.lookup]
  exact congrArg (List.findSome? · _) (funext fun r => h.valueAt_eq name r)

/-- The scope that a name is overwritten in. -/
theorem binder?_eq (h : Refines use stack) (name : Name) :
    (use.env.store.binder? use.env.current name).map use.env.store.rank =
      (stack.visible stack.current).find? fun r => (stack.binding? name r).isSome := by
  rw [h.rests.rank_binder? h.current.inside.above, h.current.path]
  exact congrArg (List.find? · _) (funext fun r => congrArg Option.isSome (h.valueAt_eq name r))

/-- The scopes made so far go on to stand for the same, so only what is new has to be looked at. -/
theorem of_grow (h : Refines use stack) {use' : EnvironmentUse} (rests : use'.env.store.Over [])
    (extended : use.env.store.Extends use'.env.store)
    (contents : use'.env.store.contents = stack'.scopes.map (·.bindings))
    (length : stack.scopes.length ≤ stack'.scopes.length)
    (visible : ∀ r < stack.scopes.length, stack'.visible r = stack.visible r)
    (top : use'.env.top = use.env.top)
    (lists : (∀ id scope,
        Stands use.env.store stack id scope → Stands use'.env.store stack' id scope) →
      List.Forall₂ (Stands use'.env.store stack') use'.env.entered stack'.entered ∧
      List.Forall₂ (Stands use'.env.store stack') use'.handles stack'.handles) :
    Refines use' stack' := by
  have grow (id : ScopeId) (scope : Nat) (hstands : Stands use.env.store stack id scope) :
      Stands use'.env.store stack' id scope := hstands.grow h.rests extended length visible
  exact ⟨rests, contents, top ▸ grow _ _ h.top, (lists grow).1, (lists grow).2⟩

/-- A name is bound in an owning scope. -/
theorem put (h : Refines use stack) {s : ScopeId} (howning : use.env.store.isOwning s = true)
    (name : Name) (value : Value) :
    Refines { use with env := { use.env with store := use.env.store.define s name value } }
      (stack.put (use.env.store.rank s) name value) := by
  refine h.of_grow (h.rests.define (Nat.zero_le _) howning name value)
    (.of_shape_eq (ScopeStore.shape_define ..)) ?_ ?_
    (fun r _ => stack.visible_put _ name value r) rfl
    fun grow => ⟨h.entered.imp grow, h.handles.imp grow⟩
  · rw [ScopeStore.contents_define howning, h.contents, OwningStack.put]
    refine List.ext_getElem? fun i => ?_
    rw [List.getElem?_modify, List.getElem?_map, List.getElem?_map, List.getElem?_modify]
    cases stack.scopes[i]? <;> by_cases hi : use.env.store.rank s = i <;> simp [hi]
  · rw [OwningStack.put, List.length_modify]

theorem enterTransparent (h : Refines use stack) :
    Refines (use.apply .enterTransparent) (stack.apply .enterTransparent) := by
  have current := h.current
  refine h.of_grow (h.rests.add .transparent _ (by rintro p ⟨⟩; exact current.inside) nofun)
    (ScopeStore.extends_add ..) ?_ (Nat.le_refl _) (fun _ _ => rfl) rfl fun grow =>
      ⟨.cons ⟨ScopeStore.above_added h.rests.floor .transparent _, current.number, ?_⟩
        (h.entered.imp grow), h.handles.imp grow⟩
  · exact (ScopeStore.contents_add_transparent ..).trans h.contents
  · exact (ScopeStore.path_added_transparent h.rests current.inside).trans current.path

/-- Real and abstract handles stand for the same scope, and so do their owners. -/
theorem captured? (h : Refines use stack) (captured : CapturedScope) :
    Option.Rel (Stands use.env.store stack) (use.captured? captured)
      stack.handles[captured.handle]? := by
  have handle (i : Nat) :
      Option.Rel (Stands use.env.store stack) use.handles[i]? stack.handles[i]? := by
    have handles := h.handles
    generalize use.handles = real at handles
    generalize stack.handles = abstract at handles
    induction handles generalizing i with
    | nil => exact .none
    | cons hstands _ ih =>
      cases i with
      | zero => exact .some hstands
      | succ i => exact ih i
  cases captured with
  | scope i => exact handle i
  | owner i =>
    have hhandle := handle i
    simp only [EnvironmentUse.captured?, CapturedScope.handle]
    cases hreal : use.handles[i]? <;> cases hstack : stack.handles[i]? <;>
      rw [hreal, hstack] at hhandle <;> cases hhandle
    · exact .none
    next hstands => exact .some (hstands.owner h.rests).2.2

theorem enterOwning (h : Refines use stack) (parent : Option CapturedScope) :
    Refines (use.apply (.enterOwning parent)) (stack.apply (.enterOwning parent)) := by
  have hparent : Option.Rel (Stands use.env.store stack) (parent.bind use.captured?)
      (parent.bind fun captured => stack.handles[captured.handle]?) := by
    cases parent with
    | none => exact .none
    | some captured => exact h.captured? captured
  simp only [EnvironmentUse.apply, OwningStack.apply]
  generalize parent.bind use.captured? = real at hparent
  generalize (parent.bind fun captured => stack.handles[captured.handle]?) = abstract at hparent
  have inside (p : ScopeId) (hp : real = some p) : use.env.store.Above [] p := by
    subst hp
    cases hparent with
    | some hstands => exact hstands.inside
  refine h.of_grow (h.rests.add .owning real inside fun _ => rfl) (ScopeStore.extends_add ..) ?_ ?_
    (fun r hr => stack.visible_concat hr) rfl fun grow =>
      ⟨.cons ⟨ScopeStore.above_added h.rests.floor .owning _, by simp, ?_⟩ (h.entered.imp grow),
        h.handles.imp grow⟩
  · refine (ScopeStore.contents_add_owning ..).trans ?_
    rw [h.contents, List.map_append]
    rfl
  · exact List.length_append ▸ Nat.le_add_right ..
  · refine (ScopeStore.path_added_owning h.rests inside).trans ?_
    rw [h.contents, List.length_map, OwningStack.visible, List.getElem?_concat_length]
    cases hparent with
    | none => rfl
    | some hstands => exact congrArg (_ :: ·) hstands.path

theorem leave (h : Refines use stack) : Refines (use.apply .leave) (stack.apply .leave) := by
  refine h.of_grow h.rests (.refl _) h.contents (Nat.le_refl _) (fun _ _ => rfl) rfl fun grow => ?_
  refine ⟨List.Forall₂.imp grow ?_, h.handles.imp grow⟩
  rw [EnvironmentUse.apply, Environment.leave, OwningStack.apply, ← List.drop_one, ← List.drop_one]
  exact List.forall₂_drop 1 h.entered

theorem capture (h : Refines use stack) : Refines (use.apply .capture) (stack.apply .capture) :=
  h.of_grow h.rests (.refl _) h.contents (Nat.le_refl _) (fun _ _ => rfl) rfl fun grow =>
    ⟨h.entered.imp grow, List.rel_append (h.handles.imp grow) (.cons (grow _ _ h.current) .nil)⟩

theorem define (h : Refines use stack) (name : Name) (value : Value) :
    Refines (use.apply (.define name value)) (stack.apply (.define name value)) := by
  obtain ⟨howning, hrank, -⟩ := h.current.owner h.rests
  have := h.put howning name value
  rw [hrank] at this
  exact this

theorem declare (h : Refines use stack) (name : Name) :
    Refines (use.apply (.declare name)) (stack.apply (.declare name)) := by
  obtain ⟨howning, hrank, -⟩ := h.current.owner h.rests
  have hbinds : use.env.store.binds (use.env.store.owner use.env.current) name =
      (stack.binding? name stack.current).isSome := by
    rw [ScopeStore.binds, ScopeStore.binding?_eq_valueAt howning, hrank, h.valueAt_eq]
  have hput := h.put howning name .nil
  rw [hrank] at hput
  simp only [EnvironmentUse.apply, OwningStack.apply, Environment.declare, ScopeStore.declare, hbinds]
  split
  · exact h
  · exact hput

theorem assignLocal (h : Refines use stack) (name : Name) (value : Value) :
    Refines (use.apply (.assignLocal name value)) (stack.apply (.assignLocal name value)) := by
  have hbinder := h.binder?_eq name
  simp only [EnvironmentUse.apply, OwningStack.apply, Environment.assignLocal, ← hbinder]
  cases hfound : use.env.store.binder? use.env.current name with
  | none => exact h.define name value
  | some s =>
    have howning := (h.rests.isOwning_of_binder? (Nat.zero_le _) hfound).2
    exact h.put howning name value

end Refines

/-- Every operation keeps the refinement. -/
theorem Refines.apply (h : Refines use stack) (op : EnvironmentOp) :
    Refines (use.apply op) (stack.apply op) := by
  cases op with
  | enterTransparent => exact h.enterTransparent
  | enterOwning parent => exact h.enterOwning parent
  | leave => exact h.leave
  | capture => exact h.capture
  | declare name => exact h.declare name
  | define name value => exact h.define name value
  | assignLocal name value => exact h.assignLocal name value

theorem refines_initial : Refines initial .initial := by
  have empty := ScopeStore.over_self ⟨#[]⟩
  have rests : Environment.initial.store.Over [] := empty.add .owning none nofun fun _ => rfl
  exact ⟨rests, rfl, ⟨⟨Nat.le_refl _, Nat.one_pos⟩, Nat.one_pos, rfl⟩, .nil, .nil⟩

/-- After any operations each scope stands for an owning one. -/
theorem refines_run (ops : List EnvironmentOp) : Refines (run ops) (.run ops) := by
  suffices all : ∀ {use : EnvironmentUse} {stack : OwningStack}, Refines use stack →
      Refines (ops.foldl EnvironmentUse.apply use) (ops.foldl OwningStack.apply stack) from
    all refines_initial
  induction ops with
  | nil => exact fun h => h
  | cons op rest ih => exact fun h => ih (h.apply op)

/-- An environment in use gives the answers of a stack of owning scopes. -/
structure Answers (use : EnvironmentUse) (stack : OwningStack) : Prop where
  lookup : ∀ name, use.env.lookup name = stack.lookup name
  isBound : ∀ name, use.env.isBound name = stack.isBound name
  /-- Transparent scopes bind nothing. -/
  transparent : ∀ id name, use.env.store.isOwning id = false → use.env.store.binds id name = false
  contents : use.env.store.contents = stack.scopes.map (·.bindings)
  /-- What is declared goes to an owning scope, which is the current one of the stack. -/
  owner : use.env.store.isOwning (use.env.store.owner use.env.current) = true
  current : use.env.store.rank (use.env.store.owner use.env.current) = stack.current
  handle_owner : ∀ id ∈ use.handles, use.env.store.isOwning (use.env.store.owner id) = true
  handles : (use.handles.map fun id => use.env.store.rank (use.env.store.owner id)) = stack.handles

theorem Refines.answers (h : Refines use stack) : use.Answers stack where
  lookup := h.lookup_eq
  isBound name := congrArg Option.isSome (h.lookup_eq name)
  transparent id name hid := congrArg Option.isSome (h.rests.kept id (Nat.zero_le _) hid name)
  contents := h.contents
  owner := (h.current.owner h.rests).1
  current := (h.current.owner h.rests).2.1
  handle_owner id hmem := by
    obtain ⟨i, hi⟩ := List.mem_iff_getElem?.mp hmem
    have hrel := h.captured? (.scope i)
    rw [EnvironmentUse.captured?, hi] at hrel
    generalize stack.handles[CapturedScope.handle (.scope i)]? = scope at hrel
    cases hrel with
    | some hstands => exact (hstands.owner h.rests).1
  handles := by
    have handles := h.handles
    generalize use.handles = real at handles
    generalize stack.handles = abstract at handles
    induction handles with
    | nil => rfl
    | cons hstands _ ih => rw [List.map_cons, ih, (hstands.owner h.rests).2.1]

/-- After any operations on a new environment, it answers like a stack of owning scopes in which a
transparent scope is the current scope once more, and so it does when each captured scope is
replaced by its owner, wherever the two are used. -/
theorem answers_as_owning_stack (ops : List EnvironmentOp) :
    (run ops).Answers (.run ops) ∧ (run (ops.map EnvironmentOp.byOwner)).Answers (.run ops) := by
  refine ⟨(refines_run ops).answers, ?_⟩
  rw [← OwningStack.run_byOwner ops]
  exact (refines_run _).answers

/-- A handle that was taken inside of a transparent scope, as a lexical parent after this was
left. -/
example :
    let x : Name := ⟨1⟩
    (run [.enterTransparent, .capture, .leave, .assignLocal x (.int 1), .enterOwning none,
      .enterOwning (some (.scope 0)), .enterTransparent, .assignLocal x (.int 2), .leave, .leave,
      .leave]).env.lookup x = some (.int 2) := rfl

end EnvironmentUse

end ScriptSemantics
