import ScriptSemantics.Evaluation.Node
import ScriptSemantics.Proofs.Naming

/-!
# Scopes, frames and exits under other names

Scopes are found, read and written as before when the closures in their bindings have other names.
An activation absorbs the same exits, and the same activations are live.

## Main Definitions

* `Closure.Corresponds` — a closure that does the same under other names
* instances of `Named` for scopes, frames, exits, steps of loops and tasks

## Main Results

* `Environment.assignLocal_under`, `Environment.lookup_under`, ... — one lemma for each operation
* `CallStack.isLive_under`, `Comp.catchReturn_under`, `Comp.catchBreak_under` — exits find the same
  addressees
* `Comp.raiseMessage_under` — values are shown in the same way

## Design Notes

Lambdas catch every `break` themselves, so the call that received a lambda is never looked up:
corresponding lambdas may name different calls as the target of `break`, unless both sides make the
same closures anyway.
-/

namespace ScriptSemantics

variable {σ : Naming}

/-! ### Scopes -/

instance : Named Scope where
  under σ scope := { scope with bindings := under σ scope.bindings }

instance : Named ScopeStore where
  under σ store := ⟨store.scopes.map (under σ)⟩

instance : Named Environment where
  under σ env := { env with store := under σ env.store }

namespace ScopeStore

variable (store : ScopeStore) (id : ScopeId) (name : Name) (value : Value)

/-- Scopes stand where they stood. -/
theorem scope?_under : (under σ store).scope? id = under σ (store.scope? id) :=
  Array.getElem?_map

theorem size_under : (under σ store).size = store.size :=
  Array.size_map

/-- A local is bound under its own name to a value with other names. -/
theorem binding?_under : (under σ store).binding? id name = under σ (store.binding? id name) := by
  rw [binding?, binding?, scope?_under]
  cases store.scope? id with
  | none => rfl
  | some scope => exact Assoc.get?_under scope.bindings name

/-- Whether a scope binds a local does not depend on names. -/
theorem binds_under : (under σ store).binds id name = store.binds id name := by
  rw [binds, binds, binding?_under]
  cases store.binding? id name <;> rfl

/-- Scopes keep their kinds. -/
theorem isOwning_under : (under σ store).isOwning id = store.isOwning id := by
  rw [isOwning, isOwning, scope?_under]
  cases store.scope? id <;> rfl

/-- Scopes keep their parents, so chains stay as they are. -/
theorem chain_under : (under σ store).chain id = store.chain id := by
  have upTo : ∀ steps id, (under σ store).chainUpTo steps id = store.chainUpTo steps id := by
    intro steps
    induction steps with
    | zero => exact fun _ => rfl
    | succ steps ih =>
      intro id
      have parent : ((under σ store).scope? id).bind (·.parent) = (store.scope? id).bind (·.parent) := by
        rw [scope?_under]
        cases store.scope? id <;> rfl
      rw [chainUpTo, chainUpTo, parent]
      cases (store.scope? id).bind (·.parent) with
      | none => rfl
      | some parent => exact congrArg (id :: ·) (ih parent)
  exact upTo _ id

/-- The same scope is found to bind a local. -/
theorem lookup_under : (under σ store).lookup id name = under σ (store.lookup id name) := by
  rw [lookup, lookup, chain_under]
  simp only [binding?_under]
  induction store.chain id with
  | nil => rfl
  | cons scope rest ih =>
    rw [List.findSome?_cons, List.findSome?_cons, ih]
    cases store.binding? scope name <;> rfl

/-- The same scope is found to bind a local that is assigned. -/
theorem binder?_under : (under σ store).binder? id name = store.binder? id name := by
  rw [binder?, binder?, chain_under]
  simp only [binds_under]

/-- The same scope owns what is declared. -/
theorem owner_under : (under σ store).owner id = store.owner id := by
  rw [owner, owner, chain_under]
  congr 2
  exact funext fun scope => store.isOwning_under scope

/-- A scope that is added binds nothing, under all names. -/
theorem add_under (kind : ScopeKind) (parent : Option ScopeId) :
    (under σ store).add kind parent = ((store.add kind parent).1, under σ (store.add kind parent).2) := by
  have pushed : (under σ store).scopes.push { kind, bindings := [], parent } =
      (store.scopes.push { kind, bindings := [], parent }).map (under σ) := by
    rw [Array.map_push]
    rfl
  rw [add, add, size_under, pushed]
  rfl

/-- A change of bindings that commutes with naming may be made in any scope. -/
theorem modify_under {f f' : Assoc Name Value → Assoc Name Value}
    (h : ∀ bindings, f' (under σ bindings) = under σ (f bindings)) :
    (under σ store).modify id f' = under σ (store.modify id f) := by
  refine congrArg ScopeStore.mk (Array.ext_getElem? fun i => ?_)
  have before : (under σ store).scopes[i]? = (store.scopes[i]?).map (under σ) := Array.getElem?_map
  rw [Array.getElem?_modify, before, Array.getElem?_map, modify, Array.getElem?_modify]
  cases store.scopes[i]? with
  | none => split <;> rfl
  | some scope =>
    split
    · exact congrArg (fun bindings => some { scope with bindings }) (h scope.bindings)
    · rfl

theorem define_under :
    (under σ store).define id name (under σ value) = under σ (store.define id name value) :=
  store.modify_under id fun bindings => Assoc.put_under bindings name value

/-- A local is declared where it is not bound yet, under all names. -/
theorem declare_under : (under σ store).declare id name = under σ (store.declare id name) := by
  rw [declare, declare, binds_under]
  split
  · rfl
  · exact store.define_under id name .nil

end ScopeStore

namespace Environment

variable (env : Environment) (name : Name) (value : Value)

theorem lookup_under : (under σ env).lookup name = under σ (env.lookup name) :=
  env.store.lookup_under env.current name

/-- The same scope is entered. -/
theorem enter_under (kind : ScopeKind) (parent : Option ScopeId) :
    (under σ env).enter kind parent = under σ (env.enter kind parent) := by
  have added := env.store.add_under (σ := σ) kind parent
  change { under σ env with
    store := ((under σ env.store).add kind parent).2
    entered := ((under σ env.store).add kind parent).1 :: env.entered } = _
  rw [added]
  rfl

theorem define_under : (under σ env).define name (under σ value) = under σ (env.define name value) := by
  change Environment.mk ((under σ env.store).define ((under σ env.store).owner env.current) name
    (under σ value)) env.entered env.top = _
  rw [ScopeStore.owner_under, ScopeStore.define_under]
  rfl

theorem declare_under : (under σ env).declare name = under σ (env.declare name) := by
  change Environment.mk ((under σ env.store).declare ((under σ env.store).owner env.current) name)
    env.entered env.top = _
  rw [ScopeStore.owner_under, ScopeStore.declare_under]
  rfl

theorem declareAll_under (names : List Name) :
    names.foldl Environment.declare (under σ env) = under σ (names.foldl Environment.declare env) :=
  List.foldl_hom (under σ) fun env name => env.declare_under name

/-- The same binding is changed or added. -/
theorem assignLocal_under :
    (under σ env).assignLocal name (under σ value) = under σ (env.assignLocal name value) := by
  have binder : (under σ env).store.binder? (under σ env).current name =
      env.store.binder? env.current name := env.store.binder?_under env.current name
  rw [assignLocal, assignLocal, binder]
  cases env.store.binder? env.current name with
  | none => exact env.define_under name value
  | some scope =>
    exact congrArg (Environment.mk · env.entered env.top) (env.store.define_under scope name value)

/-- Where closures keep their names, so do all variables. -/
theorem under_eq_self (hproc : σ.proc = id) : under σ env = env := by
  have values : (under σ : Value → Value) = id := funext fun value =>
    (Value.under_congr fun id _ => congrFun hproc id).trans value.under_same
  have scopes : (under σ : Scope → Scope) = id := funext fun scope => by
    change Scope.mk scope.kind (scope.bindings.map fun pair => (pair.1, under σ pair.2)) scope.parent =
      scope
    rw [values]
    exact congrArg (Scope.mk scope.kind · scope.parent) (List.map_id _)
  change Environment.mk ⟨env.store.scopes.map (under σ)⟩ env.entered env.top = env
  rw [scopes, Array.map_id]

/-- No closure occurs in the environment that a session starts with. -/
theorem initial_under : under σ initial = initial := by
  have empty : under σ (ScopeStore.mk #[]) = ⟨#[]⟩ := congrArg ScopeStore.mk Array.map_empty
  have added := ScopeStore.add_under (σ := σ) ⟨#[]⟩ .owning none
  rw [empty] at added
  exact (congrArg (fun scope => Environment.mk scope.2 [] scope.1) added).symm

/-- The locals of the top scope have the same names. -/
theorem topBindings_under : (under σ env).topBindings = under σ env.topBindings := by
  have top : (under σ env).store.scope? (under σ env).top = under σ (env.store.scope? env.top) :=
    env.store.scope?_under env.top
  rw [topBindings, topBindings, top]
  cases env.store.scope? env.top <;> rfl

end Environment

/-! ### Frames -/

instance : Named Frame where
  under σ frame :=
    { frame with
      id := σ.frame frame.id
      home := under σ frame.home
      breakTag := under σ frame.breakTag
      block := under σ frame.block }

namespace Frame

variable (frame : Frame)

/-- A frame returns to itself or to its home. -/
theorem returnTarget_under : (under σ frame).returnTarget = under σ frame.returnTarget := by
  have kind : (under σ frame).kind = frame.kind := rfl
  rw [returnTarget, returnTarget, kind]
  cases frame.kind <;> rfl

/-- Literals are at home in a frame or in its home. -/
theorem homeForLiterals_under :
    (under σ frame).homeForLiterals = under σ frame.homeForLiterals := by
  have kind : (under σ frame).kind = frame.kind := rfl
  rw [homeForLiterals, homeForLiterals, kind]
  cases frame.kind <;> rfl

end Frame

/-- The same activations are live. -/
theorem CallStack.isLive_under {stack stack' : CallStack}
    (frames : stack'.frames = under σ stack.frames) (id : FrameId) :
    stack'.isLive (σ.frame id) = stack.isLive id := by
  rw [isLive, isLive, frames, under_list, List.any_map]
  congr 1
  funext frame
  exact Bool.eq_iff_iff.mpr (by
    rw [Function.comp_apply, beq_iff_eq, beq_iff_eq]
    exact σ.frame_eq_iff)

/-! ### Closures and methods -/

/-- A closure that does the same under other names. -/
structure Closure.Corresponds (σ : Naming) (closure closure' : Closure) : Prop where
  literal : closure'.literal = σ.node closure.literal
  params : closure'.params = closure.params
  body : closure'.body = closure.body
  captured : closure'.captured = closure.captured
  isLambda : closure'.isLambda = closure.isLambda
  home : closure'.home = under σ closure.home
  breakTag : σ.aligned ∨ closure.isLambda = false → closure'.breakTag = under σ closure.breakTag
  outerBlock : closure'.outerBlock = under σ closure.outerBlock

instance : Named Method where
  under σ method := { method with root := σ.node method.root }

/-- Closures that correspond run in frames that correspond. -/
theorem Closure.Corresponds.frame {closure closure' : Closure} (h : closure.Corresponds σ closure')
    (id : FrameId) :
    Comp.closureFrame closure' (σ.frame id) = under σ (Comp.closureFrame closure id) := by
  rw [Comp.closureFrame, Comp.closureFrame, h.isLambda, h.outerBlock, h.home]
  cases hlambda : closure.isLambda with
  | true => rfl
  | false =>
    rw [h.breakTag (.inr hlambda)]
    rfl

/-! ### Exits -/

instance : Named BreakTarget where
  under σ
    | .loop => .loop
    | .frame id => .frame (σ.frame id)

instance : Named Exit where
  under σ
    | .error error => .error error
    | .returnTo target value => .returnTo (σ.frame target) (under σ value)
    | .breakTo target value => .breakTo (under σ target) (under σ value)
    | .next value => .next (under σ value)
    | .redo => .redo

namespace Comp

variable (id : FrameId) (ending : Ending Value)

/-- The activation absorbs the same exits. -/
theorem catchReturn_under :
    catchReturn (σ.frame id) (under σ ending) = under σ (catchReturn id ending) := by
  rcases ending with (error | ⟨target, value⟩ | ⟨target, value⟩ | value | -) | value
  case error.returnTo =>
    change (if σ.frame target = σ.frame id then _ else _) = under σ (if target = id then _ else _)
    simp only [σ.frame_eq_iff]
    split <;> rfl
  all_goals rfl

/-- The call absorbs the same breaks. -/
theorem catchBreak_under :
    catchBreak (σ.frame id) (under σ ending) = under σ (catchBreak id ending) := by
  rcases ending with (error | ⟨target, value⟩ | ⟨- | target, value⟩ | value | -) | value
  case error.breakTo.frame =>
    change (if σ.frame target = σ.frame id then _ else _) = under σ (if target = id then _ else _)
    simp only [σ.frame_eq_iff]
    split <;> rfl
  all_goals rfl

/-- A lambda absorbs what is addressed to it under all names, other closures absorb breaks only. -/
theorem catchClosure_under {closure closure' : Closure} (h : closure'.isLambda = closure.isLambda) :
    catchClosure closure' (σ.frame id) (under σ ending) =
      under σ (catchClosure closure id ending) := by
  rw [catchClosure, catchClosure, h]
  cases closure.isLambda with
  | false => exact catchBreak_under id ending
  | true =>
    rw [if_pos rfl, if_pos rfl, catchReturn_under, catchBreak_under]

/-- The exits that become errors at the top are of the same kinds. -/
theorem topEnding_under :
    topEnding (σ.frame id) (under σ ending) = under σ (topEnding id ending) := by
  rw [topEnding, topEnding, catchReturn_under]
  rcases catchReturn id ending with (error | ⟨target, value⟩ | ⟨target, value⟩ | value | -) | value <;>
    rfl

/-- Errors carry the labels of frames, which mention no identities. -/
theorem recordFrames_under {α : Type} [Named α] (names : NameTable) {m m' : Machine}
    (frames : m'.calls.frames = under σ m.calls.frames) (ending : Ending α) :
    recordFrames names m' (under σ ending) = under σ (recordFrames names m ending) := by
  have captured : m'.calls.capture names = m.calls.capture names := by
    rw [CallStack.capture, CallStack.capture, frames, under_list, List.map_map]
    rfl
  rcases ending with (error | ⟨target, value⟩ | ⟨target, value⟩ | value | -) | value
  case error.error =>
    change recordFrames names m' (.error (.error error)) = _
    rw [recordFrames, captured]
    rfl
  all_goals rfl

end Comp

/-! ### Loops -/

namespace Comp.LoopStep

instance : Named LoopStep where
  under σ
    | stop value => stop (under σ value)
    | body => body
    | test => test
    | leave exit => leave (under σ exit)

/-- A loop goes on by whether its condition is true, or leaves with what the condition raised. -/
theorem afterTest_under (kind : LoopKind) (ending : Ending Value) :
    afterTest kind (under σ ending) = under σ (afterTest kind ending) := by
  rcases ending with (error | ⟨target, value⟩ | ⟨- | target, value⟩ | value | -) | value
  case ok =>
    rw [under_ok, afterTest, afterTest, Value.isTruthy_under]
    split <;> rfl
  all_goals rfl

/-- A loop goes on by the kind of the ending of its body. -/
theorem afterBody_under (ending : Ending Value) :
    afterBody (under σ ending) = under σ (afterBody ending) := by
  rcases ending with (error | ⟨target, value⟩ | ⟨- | target, value⟩ | value | -) | value <;> rfl

end Comp.LoopStep

/-! ### Tasks -/

/-- Nodes and programs are given by what is written, which is the same. -/
instance : Named Task where
  under σ
    | .node id => .node id
    | .store site name value => .store site name (under σ value)
    | .program root id => .program root (σ.frame id)
    | .method method id given block =>
      .method (under σ method) (σ.frame id) (under σ given) (under σ block)
    | .closure proc id given block => .closure (σ.proc proc) (σ.frame id) (under σ given) (under σ block)
    | .loop block id => .loop (σ.proc block) (σ.frame id)

/-! ### Values -/

/-- Values are shown in the same way where lambdas correspond to lambdas. -/
theorem Comp.raiseMessage_under (names : NameTable) (table table' : ClosureTable)
    (same : ∀ id, (table'.get? (σ.proc id)).any (·.isLambda) = (table.get? id).any (·.isLambda))
    (value : Value) :
    Comp.raiseMessage names table' (under σ value) = Comp.raiseMessage names table value := by
  have inspect : ∀ value : Value,
      (under σ value).inspect names table' = value.inspect names table := by
    intro value
    induction value using Value.rec
      (motive_2 := fun items =>
        Value.inspectItems names table' (under σ items) = Value.inspectItems names table items)
      (motive_3 := fun entries =>
        Value.inspectEntries names table' (under σ entries) = Value.inspectEntries names table entries)
      (motive_4 := fun pair => (under σ pair.2).inspect names table' = pair.2.inspect names table) with
    | proc id => simp only [Value.under_proc, Value.inspect, Value.inspectProc, same]
    | _ => simp_all [Value.inspect, Value.inspectItems, Value.inspectEntries]
  cases value with
  | nil | str => rfl
  | bool | int | symbol | array | hash | proc | object => exact inspect _

end ScriptSemantics
