import ScriptSemantics.Evaluation.Operands
import ScriptSemantics.Program

/-!
# Calls

Methods, closures, `yield`, and the builtins that take or make closures.

## Main Definitions

* `Comp.runMethod`, `Comp.runClosure`, `Comp.runLoop`, `Comp.runProgram` — the activations
* `Comp.dispatch` — find out what a name calls
* `Comp.call`, `Comp.callValue`, `Comp.yield` — the three kinds of call nodes

## Design Notes

The frame identity of a call is taken before its block and arguments are evaluated, and a block
literal written at the call records it as the target of `break`.  A method absorbs the `return` and
`break` addressed to it.  A closure absorbs `next`, runs its body again on `redo`, absorbs a `break`
addressed to it, and, if it is a lambda, its own `return`.
-/

namespace ScriptSemantics.Comp

/-- The activation absorbs a `return` addressed to it. -/
def catchReturn (id : FrameId) : Ending Value → Ending Value
  | .error (.returnTo target value) =>
    if target = id then .ok value else .error (.returnTo target value)
  | ending => ending

/-- The activation absorbs a `break` addressed to it. -/
def catchBreak (id : FrameId) : Ending Value → Ending Value
  | .error (.breakTo (.frame target) value) =>
    if target = id then .ok value else .error (.breakTo (.frame target) value)
  | ending => ending

/-- How a program ends: the top-level frame absorbs its own `return`, and other exits that nothing
caught become errors. -/
def topEnding (id : FrameId) (ending : Ending Value) : Ending Value :=
  match catchReturn id ending with
  | .ok value => .ok value
  | .error exit => .error (.error exit.toError)

/-- Run a resolved program as the activation `id`, in the top-level scope.  Errors carry the live
frames, except when the frame itself is refused. -/
def runProgram (names : NameTable) (root : NodeId) (id : FrameId) : Comp Value := fun machine =>
  match machine.calls.push { id, kind := .top, name := .empty } with
  -- No frame was pushed, so there is none to record or to leave.
  | .error cause => fail cause machine
  | .ok calls =>
    bracket (·.declareOwned root) (·.mapCalls CallStack.pop)
      (mapEnding (fun machine ending => recordFrames names machine (topEnding id ending))
        (eval root))
      { machine with calls }

/-- Run a method as the activation `id`. -/
def runMethod (names : NameTable) (method : Method) (id : FrameId) (given : CallArgs)
    (block : Option ProcId) : Comp Value := do
  -- An argument error is raised before the frame exists, so its backtrace ends at the caller.
  let plan ← ofExcept (BindPlan.make names method.params .strict given)
  let frame : Frame := { id, kind := .method, name := method.name, block }
  mapEnding (fun _ ending => catchBreak id (catchReturn id ending)) <|
    inFrame names frame none do
      modify (·.declareOwned method.root)
      bindParams block plan
      eval method.body

/-- Run the body of a closure, again after each `redo`; `next` ends it with a value. -/
def runBody (body : NodeId) : Nat → Comp Value
  | 0 => outOfFuel
  | fuel + 1 => do
    match ← attempt (eval body) with
    | .error .redo => runBody body fuel
    | .error (.next value) => return value
    | ending => settle ending

/-- The frame that a closure runs in. -/
def closureFrame (closure : Closure) (id : FrameId) : Frame :=
  if closure.isLambda then
    { id, kind := .lambda, name := .empty, block := closure.outerBlock }
  else
    { id, kind := .block, name := .empty, home := closure.home, breakTag := closure.breakTag
      block := closure.outerBlock }

/-- What a closure absorbs: a `break` addressed to it and, if it is a lambda, its `return`. -/
def catchClosure (closure : Closure) (id : FrameId) (ending : Ending Value) : Ending Value :=
  catchBreak id (if closure.isLambda then catchReturn id ending else ending)

/-- Run a closure as the activation `id`. -/
def runClosure (names : NameTable) (fuel : Nat) (closure : Closure) (id : FrameId)
    (given : CallArgs) (block : Option ProcId) : Comp Value := do
  let plan ← ofExcept (BindPlan.make names closure.params (.ofLambda closure.isLambda) given)
  mapEnding (fun _ => catchClosure closure id) <|
    inFrame names (closureFrame closure id) (some closure.captured) do
      modify (·.declareOwned closure.literal)
      -- `runBody` is around the body alone: a `next` or `redo` of a fallback leaves the closure.
      bindParams block plan
      runBody closure.body fuel

/-- Run the closure with an identity as the activation `id`. -/
def runProc (names : NameTable) (fuel : Nat) (proc : ProcId) (id : FrameId) (given : CallArgs)
    (block : Option ProcId) : Comp Value := do
  match ← gets (·.closures.get? proc) with
  | some closure => runClosure names fuel closure id given block
  | none => fail (.invalidProgram "unknown closure")

/-- Run a block over and over; only an exit ends this. -/
def repeatBlock (block : ProcId) : Nat → Comp Value
  | 0 => outOfFuel
  | rounds + 1 => do
    let id ← allocateFrame
    let _ ← perform (.closure block id {} none)
    repeatBlock block rounds

/-- Run a block over and over inside the activation `id`, until the block breaks out of it. -/
def runLoop (names : NameTable) (fuel : Nat) (block : ProcId) (id : FrameId) : Comp Value :=
  mapEnding (fun _ => catchBreak id) <|
    inFrame names { id, kind := .builtin, name := .loop } none <|
      repeatBlock block fuel

/-- The block that a call passes on.  A literal records the call as the target of `break`. -/
def blockArg (program : Program) (callId : FrameId) : Option BlockArg → Comp (Option ProcId)
  | none => pure none
  | some (.literal literal) =>
    match program.nodes.node? literal with
    | some (.block params body) => do
      return some (← modifyGet (·.makeClosure literal params body false (some callId)))
    | some (.lambda params body) => do
      return some (← modifyGet (·.makeClosure literal params body true (some callId)))
    | _ => fail (.invalidProgram "block argument is not a block literal")
  | some (.pass expr) => do
    match ← eval expr with
    | .nil => return none
    | .proc id => return some id
    | other => fail (.implicitConversion other.typeName "Proc")

/-- Builtins take no arguments. -/
def expectNoArgs (given : CallArgs) : Comp Unit :=
  if given.count = 0 then pure ()
  else fail (.arityMismatch given.count { required := 0, optional := 0, rest := false })

/-- The builtins that return their block, as it is or as a lambda. -/
def blockValue (asLambda : Bool) : Option ProcId → Comp Value
  | none => fail (.custom "tried to create Proc object without a block")
  | some id =>
    if asLambda then do
      return .proc (← modifyGet (·.addLambda id))
    else pure (.proc id)

/-- The builtin that runs its block until the block breaks. -/
def startLoop (callId : FrameId) : Option ProcId → Comp Value
  | none => fail .noBlockGiven
  | some block => perform (.loop block callId)

/-- Run a builtin as the activation `callId`. -/
def builtin (names : NameTable) (name : Name) (callId : FrameId) (given : CallArgs)
    (block : Option ProcId) : Comp Value :=
  if name = .blockGiven then do
    expectNoArgs given
    return .bool (← gets (·.block?.isSome))
  else if name = .proc ∨ name = .lambda then do
    expectNoArgs given
    blockValue (name = .lambda) block
  else if name = .loop then do
    expectNoArgs given
    startLoop callId block
  else
    fail (.undefinedMethod (names.lookup name) "main")

/-- Run what a name calls as the activation `callId`: a method, else a builtin. -/
def dispatch (names : NameTable) (name : Name) (callId : FrameId) (given : CallArgs)
    (block : Option ProcId) : Comp Value := do
  match ← gets (·.methods.get? name) with
  | some method => perform (.method method callId given block)
  | none => builtin names name callId given block

/-- A call by name. -/
def call (program : Program) (name : Name) (argList : List Arg) (block : Option BlockArg) :
    Comp Value := do
  let callId ← allocateFrame
  let block ← blockArg program callId block
  let given ← args {} argList
  dispatch program.names name callId given block

/-- A call of a closure value. -/
def callValue (program : Program) (callee : NodeId) (argList : List Arg)
    (block : Option BlockArg) : Comp Value := do
  match ← eval callee with
  | .proc id =>
    let callId ← allocateFrame
    let block ← blockArg program callId block
    let given ← args {} argList
    perform (.closure id callId given block)
  | other => fail (.notCallable other.typeName)

/-- A run of the block of the current activation. -/
def yield (argList : List Arg) : Comp Value := do
  match ← gets (·.block?) with
  | none => fail .noBlockGiven
  | some block =>
    -- No block can be given here, so nothing needs the identity before the arguments are known.
    let given ← args {} argList
    let id ← allocateFrame
    perform (.closure block id given none)

/-- A read of a local.  A name that is no local in scope may still call a method. -/
def ident (names : NameTable) (id : NodeId) (name : Name) : Comp Value := do
  match ← gets (·.read? id name) with
  | some value => return value
  | none =>
    if (← gets (·.methods.contains name)) ∨ name = .blockGiven then
      let callId ← allocateFrame
      dispatch names name callId {} none
    else
      fail (.undefinedVariable (names.lookup name))

end ScriptSemantics.Comp
