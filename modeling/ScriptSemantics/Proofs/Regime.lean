import ScriptSemantics.Proofs.Contract
import ScriptSemantics.Proofs.Plan

/-!
# Regimes

A regime is a contract that is put together from conditions on single operations of the machine:
entering and leaving scopes, assigning, closing over a literal, taking a frame identity, going into
and out of an activation.  When the operations respect these conditions, the work of every task
keeps the contract.

## Main Definitions

* `Node.operands`, `Node.targets`, `Node.literals` — what a node evaluates, assigns and closes over
  in its own activation
* `Task.Opens` — the frame, the lexical parent and the code of the activation that a task runs
* `Regime` — the conditions
* `Regime.Lawful` — the operations of the machine respect them

## Main Results

* `Regime.Lawful.kept` — the contract of a lawful regime is kept by every task
-/

namespace ScriptSemantics

/-! ### What a node does in its own activation -/

/-- The operand of a block argument that is evaluated; a literal is closed over instead. -/
def BlockArg.operand? : BlockArg → Option NodeId
  | literal _ => none
  | pass expr => some expr

/-- The literal of a block argument. -/
def BlockArg.literal? : BlockArg → Option NodeId
  | literal block => some block
  | pass _ => none

namespace Node

/-- The operands that are evaluated in the activation of the node itself. -/
def operands : Node → List NodeId
  | define .. | block .. | lambda .. => []
  | call _ args blockArg => args.map Arg.expr ++ (blockArg.bind BlockArg.operand?).toList
  | callValue callee args blockArg =>
    callee :: (args.map Arg.expr ++ (blockArg.bind BlockArg.operand?).toList)
  | other => other.children

/-- The literals that are passed on as blocks. -/
def literals : Node → List NodeId
  | call _ _ blockArg | callValue _ _ blockArg => (blockArg.bind BlockArg.literal?).toList
  | _ => []

/-- What a node evaluates or passes on as a block is an operand as it is written. -/
theorem operands_subset {node : Node} {child : NodeId}
    (h : child ∈ node.operands ∨ child ∈ node.literals) : child ∈ node.children := by
  cases node with
  | define | block | lambda => rcases h with h | h <;> cases h
  | call name args blockArg =>
    rcases blockArg with - | block | expr <;>
      simpa [operands, literals, children, BlockArg.operand?, BlockArg.literal?, BlockArg.expr]
        using h
  | callValue callee args blockArg =>
    rcases blockArg with - | block | expr <;>
      simpa [operands, literals, children, BlockArg.operand?, BlockArg.literal?, BlockArg.expr,
        or_assoc] using h
  | _ => exact h.resolve_right List.not_mem_nil

/-- The locals that are stored, each with the node that it is stored for. -/
def targets (id : NodeId) : Node → List (NodeId × Name)
  | assign name _ | opAssign name _ _ => [(id, name)]
  | begin _ clauses _ _ => clauses.filterMap fun clause => clause.binding.map (clause.body, ·)
  | _ => []

end Node

/-- The code of a callable: its scope root, parameters and body. -/
structure Code where
  root : NodeId
  params : ParamList
  body : NodeId

namespace Code

/-- The nodes that an activation of the code evaluates. -/
def operands (code : Code) : List NodeId :=
  code.params.fallbacks ++ [code.body]

/-- The code of a method. -/
def ofMethod (method : Method) : Code :=
  { root := method.root, params := method.params, body := method.body }

/-- The code of a closure. -/
def ofClosure (closure : Closure) : Code :=
  { root := closure.literal, params := closure.params, body := closure.body }

end Code

/-- The frame of the activation that a task runs, the lexical parent of its scope, and its code.
The looping builtin has none. -/
inductive Task.Opens (m : Machine) : Task → Frame → Option ScopeId → Option Code → Prop
  | method (callee : Method) (id : FrameId) (given : CallArgs) (block : Option ProcId) :
    Opens m (.method callee id given block) { id, kind := .method, name := callee.name, block }
      none (some (.ofMethod callee))
  | closure (proc : ProcId) (id : FrameId) (given : CallArgs) (block : Option ProcId)
      {closure : Closure} (found : m.closures.get? proc = some closure) :
    Opens m (.closure proc id given block) (Comp.closureFrame closure id)
      (some closure.captured) (some (.ofClosure closure))
  | loop (block : ProcId) (id : FrameId) :
    Opens m (.loop block id) { id, kind := .builtin, name := .loop } none none

theorem Task.Opens.ne_program {m : Machine} {task : Task} {frame : Frame} {parent : Option ScopeId}
    {code : Option Code} (opens : task.Opens m frame parent code) (root : NodeId) (id : FrameId) :
    task ≠ .program root id := by
  rintro rfl
  cases opens

/-- An exit that a frame does not absorb. -/
def Frame.Passes (frame : Frame) : Exit → Prop
  | .returnTo target _ => target = frame.id → frame.kind = .block ∨ frame.kind = .builtin
  | .breakTo (.frame target) _ => target ≠ frame.id
  | _ => True

/-! ### Regimes -/

/-- Conditions on states and changes of the machine, in terms of the notes of an observer. -/
structure Regime (γ : Type) where
  /-- The notes after a task is entered. -/
  note : γ → Task → Machine → γ
  /-- What holds between the operations of an activation. -/
  ready : γ → Machine → Prop
  /-- What holds where a node may be evaluated. -/
  here : γ → NodeId → Machine → Prop
  /-- What holds where a local may be stored for a node. -/
  stores : γ → NodeId → Name → Machine → Prop
  /-- What holds in an activation of some code before its parameters are bound. -/
  inside : γ → Code → Machine → Prop
  /-- A frame identity that was taken and is not in use yet. -/
  reserved : γ → FrameId → Machine → Prop
  /-- What holds where a program may be run. -/
  start : γ → NodeId → FrameId → Machine → Prop
  /-- What holds after a program that was entered with the first notes and machine. -/
  finish : γ → Machine → γ → Ending Value → Machine → Prop
  /-- How the machine may change by operations that use up no frame identities below a number. -/
  step : Nat → γ → Machine → γ → Machine → Prop
  /-- The exits that may be under way. -/
  exits : Exit → Machine → Prop
  /-- The exits that may leave an activation. -/
  crosses : Exit → Prop

namespace Regime

variable {γ : Type}

/-- The exit of an ending, if any, may be under way. -/
def AllowsEnding {α : Type} (R : Regime γ) (ending : Ending α) (m : Machine) : Prop :=
  ∀ e, ending = .error e → R.exits e m

/-- The contract of a regime. -/
def contract (R : Regime γ) : Contract γ where
  note := R.note
  pre g task m :=
    match task with
    | .node id => R.here g id m
    | .store site name _ => R.stores g site name m
    | .program root id => R.start g root id m
    | .method callee id _ _ =>
      R.ready g m ∧ R.reserved g id m ∧ ∃ name, m.methods.get? name = some callee
    | .closure _ id _ _ | .loop _ id => R.ready g m ∧ R.reserved g id m
  post g task m g' ending m' :=
    match task with
    | .node _ | .store .. => R.step m.calls.nextId g m g' m' ∧ R.AllowsEnding ending m'
    | .program _ _ => R.finish g m g' ending m'
    | .method _ id _ _ | .closure _ id _ _ | .loop _ id =>
      R.step id.index g m g' m' ∧ R.AllowsEnding ending m' ∧ ∀ e, ending = .error e → R.crosses e

/-- Steps can be put together, and the conditions on states survive them. -/
structure Steps (R : Regime γ) : Prop where
  refl : ∀ {n g m}, R.ready g m → R.step n g m g m
  trans : ∀ {n g₁ m₁ g₂ m₂ g₃ m₃},
    R.step n g₁ m₁ g₂ m₂ → R.step n g₂ m₂ g₃ m₃ → R.step n g₁ m₁ g₃ m₃
  mono : ∀ {n n' g m g' m'}, n ≤ n' → R.step n' g m g' m' → R.step n g m g' m'
  nextId_le : ∀ {n g m g' m'}, R.step n g m g' m' → m.calls.nextId ≤ m'.calls.nextId
  ready : ∀ {n g m g' m'}, R.step n g m g' m' → R.ready g m → R.ready g' m'
  here : ∀ {n g m g' m' id}, R.step n g m g' m' → R.here g id m → R.here g' id m'
  inside : ∀ {n g m g' m' code}, R.step n g m g' m' → R.inside g code m → R.inside g' code m'
  reserved : ∀ {n g m g' m' id}, R.step n g m g' m' → id.index < n → R.reserved g id m →
    R.reserved g' id m'
  exits : ∀ {n g m g' m' e}, R.step n g m g' m' → R.exits e m → R.exits e m'

/-- The operations that nodes perform respect a regime. -/
structure NodeLaws (program : Program) (R : Regime γ) : Prop where
  note : ∀ {g id m}, R.note g (.node id) m = g
  noteStore : ∀ {g site name value m}, R.note g (.store site name value) m = g
  ready : ∀ {g id m}, R.here g id m → R.ready g m
  operand : ∀ {g id m node child}, R.here g id m → program.nodes.node? id = some node →
    child ∈ node.operands → R.here g child m
  target : ∀ {g id m node site name}, R.here g id m → program.nodes.node? id = some node →
    (site, name) ∈ node.targets id → R.stores g site name m
  store : ∀ {n g site name m value}, R.stores g site name m →
    R.step n g m g (m.mapEnv (·.assignLocal name value))
  define : ∀ {n g id m name params body}, R.here g id m →
    program.nodes.node? id = some (.define name params body) →
    R.step n g m g (m.define { name, params, body, root := id })
  /-- A literal is closed over where it stands, or at the call that it is passed to. -/
  close : ∀ {n g id m node literal params body isLambda tag}, R.here g id m →
    program.nodes.node? id = some node → literal = id ∨ literal ∈ node.literals →
    program.nodes.node? literal = some (if isLambda then .lambda params body else .block params body) →
    (∀ frame, tag = some frame → R.reserved g frame m) →
    R.step n g m g (m.makeClosure literal params body isLambda tag).2
  addLambda : ∀ {n g m proc}, R.ready g m → R.step n g m g (m.addLambda proc).2
  allocate : ∀ {n g m}, R.ready g m → R.step n g m g m.allocateFrame.2 ∧
    R.reserved g m.allocateFrame.1 m.allocateFrame.2
  enterScope : ∀ {g id m}, R.here g id m → R.here g id (m.mapEnv .enterTransparent)
  leaveScope : ∀ {n g id m g' m'}, R.here g id m →
    R.step n g (m.mapEnv .enterTransparent) g' m' →
    R.step n g m g' (m'.mapEnv .leave) ∧ ∀ e, R.exits e m' → R.exits e (m'.mapEnv .leave)
  beginLoop : ∀ {g id m}, R.here g id m → R.here g id (m.mapCalls .beginLoop)
  endLoop : ∀ {n g id m g' m'}, R.here g id m → R.step n g (m.mapCalls .beginLoop) g' m' →
    R.step n g m g' (m'.mapCalls .endLoop) ∧
      ∀ e, (∀ value, e ≠ .breakTo .loop value) → R.exits e m' → R.exits e (m'.mapCalls .endLoop)

/-- The exits that start at nodes respect a regime. -/
structure ExitLaws (R : Regime γ) : Prop where
  error : ∀ {error m}, R.exits (.error error) m
  returnTo : ∀ {g id m target value}, R.here g id m →
    m.frame?.bind (·.returnTarget) = some target → m.calls.isLive target = true →
    R.exits (.returnTo target value) m
  breakLoop : ∀ {g id m frame value}, R.here g id m → m.frame? = some frame →
    0 < frame.loopDepth → R.exits (.breakTo .loop value) m
  breakLambda : ∀ {g id m frame value}, R.here g id m → m.frame? = some frame →
    frame.kind = .lambda → R.exits (.breakTo (.frame frame.id) value) m
  breakBlock : ∀ {g id m frame tag value}, R.here g id m → m.frame? = some frame →
    frame.kind = .block → frame.breakTag = some tag → m.calls.isLive tag = true →
    R.exits (.breakTo (.frame tag) value) m
  next : ∀ {g id m value}, R.here g id m → m.frame?.any (·.isIterating) = true →
    R.exits (.next value) m
  redo : ∀ {g id m}, R.here g id m → m.frame?.any (·.isIterating) = true → R.exits .redo m

/-- Going into and out of activations respects a regime. -/
structure ActivationLaws (R : Regime γ) : Prop where
  reserved : ∀ {g id m}, R.reserved g id m → id.index < m.calls.nextId
  note : ∀ {n g task m}, R.contract.pre g task m → (∀ root id, task ≠ .program root id) →
    R.step n g m (R.note g task m) m
  enterLoop : ∀ {g task m frame parent calls}, R.contract.pre g task m →
    task.Opens m frame parent none → m.calls.push frame = .ok calls →
    R.ready (R.note g task m) (m.activate calls parent)
  enterCode : ∀ {n g task m frame parent code calls}, R.contract.pre g task m →
    task.Opens m frame parent (some code) → m.calls.push frame = .ok calls →
    R.step n (R.note g task m) (m.activate calls parent) (R.note g task m)
        ((m.activate calls parent).declareOwned code.root) ∧
      R.inside (R.note g task m) code ((m.activate calls parent).declareOwned code.root)
  operand : ∀ {g code m child}, R.inside g code m → child ∈ code.operands → R.here g child m
  define : ∀ {n g code m name value}, R.inside g code m → name ∈ code.params.map Param.name →
    name.isEmpty = false → R.step n g m g (m.mapEnv (·.define name value))
  leave : ∀ {n g task m frame parent code calls g' m'}, R.contract.pre g task m →
    task.Opens m frame parent code → m.calls.push frame = .ok calls → frame.id.index < n →
    R.step n (R.note g task m) (m.activate calls parent) g' m' →
    R.step frame.id.index g m g' m'.deactivate ∧
      ∀ e, frame.Passes e → R.exits e m' → R.exits e m'.deactivate ∧ R.crosses e
  crosses : ∀ {error}, R.crosses (.error error)

/-- Running a program respects a regime. -/
structure ProgramLaws (program : Program) (R : Regime γ) : Prop where
  refuse : ∀ {g root id m cause}, R.start g root id m →
    m.calls.push { id, kind := .top, name := .empty } = .error cause →
    R.finish g m (R.note g (.program root id) m) (.error (.error { cause })) m
  enter : ∀ {g root id m calls}, R.start g root id m →
    m.calls.push { id, kind := .top, name := .empty } = .ok calls →
    R.here (R.note g (.program root id) m) root ({ m with calls }.declareOwned root)
  leave : ∀ {n g root id m calls g' ending m'}, R.start g root id m →
    m.calls.push { id, kind := .top, name := .empty } = .ok calls →
    R.step n (R.note g (.program root id) m) ({ m with calls }.declareOwned root) g' m' →
    R.AllowsEnding ending m' →
    R.finish g m g'
      (Comp.recordFrames program.names m' (Comp.topEnding id ending)) (m'.mapCalls .pop)

/-- The operations of the machine respect a regime. -/
structure Lawful (program : Program) (R : Regime γ) : Prop where
  steps : R.Steps
  nodes : R.NodeLaws program
  starts : R.ExitLaws
  activations : R.ActivationLaws
  programs : R.ProgramLaws program

end Regime

end ScriptSemantics
