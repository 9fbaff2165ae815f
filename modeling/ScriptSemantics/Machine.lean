import ScriptSemantics.CallStack
import ScriptSemantics.Closure
import ScriptSemantics.DepthPolicy
import ScriptSemantics.Environment
import ScriptSemantics.Resolution

/-!
# Machine states

All that an evaluation can read and change, apart from the program itself.

## Main Definitions

* `Method` — a method registered by a definition
* `Machine` — scopes, closures, methods, frames, and what is known about the locals
* `Machine.initial` — the state before a program runs
-/

namespace ScriptSemantics

/-- A method: its parameters, its body and the definition that names its locals. -/
structure Method where
  name : Name
  params : ParamList
  body : NodeId
  root : NodeId

/-- The state of an evaluation. -/
structure Machine where
  env : Environment
  closures : ClosureTable
  methods : Assoc Name Method
  calls : CallStack
  resolution : Resolution

namespace Machine

/-- The state before a program runs: the host's locals are bound at the top level. -/
def initial (policy : DepthPolicy) (locals : List (Name × Value)) : Machine :=
  { env := locals.foldl (fun env (name, value) => env.define name value) .initial
    closures := .empty
    methods := []
    calls := .empty policy.limit
    resolution := .empty }

/-- Change the environment. -/
@[inline]
def mapEnv (f : Environment → Environment) (machine : Machine) : Machine :=
  { machine with env := f machine.env }

/-- Change the call stack. -/
@[inline]
def mapCalls (f : CallStack → CallStack) (machine : Machine) : Machine :=
  { machine with calls := f machine.calls }

/-- The innermost frame. -/
def frame? (machine : Machine) : Option Frame :=
  machine.calls.current?

/-- The block that `yield` runs in the innermost frame. -/
def block? (machine : Machine) : Option ProcId :=
  machine.frame?.bind (·.block)

/-- The local that a node reads; none when the read comes before every declaration of the name, or
no scope in sight binds it. -/
def read? (id : NodeId) (name : Name) (machine : Machine) : Option Value :=
  if machine.resolution.isUnbound id then none else machine.env.lookup name

/-- Take a fresh frame identity. -/
def allocateFrame (machine : Machine) : FrameId × Machine :=
  let (id, calls) := machine.calls.allocate
  (id, { machine with calls })

/-- Go into an activation: its frame is on the stack already, its owning scope is made here. -/
@[inline]
def activate (calls : CallStack) (parent : Option ScopeId) (machine : Machine) : Machine :=
  { machine with calls, env := machine.env.enterOwning parent }

/-- Go out of an activation: its frame and its scope are left. -/
@[inline]
def deactivate (machine : Machine) : Machine :=
  { machine with calls := machine.calls.pop, env := machine.env.leave }

/-- Bind the names that a scope root owns to nil, unless they are bound. -/
def declareOwned (root : NodeId) (machine : Machine) : Machine :=
  let names := machine.resolution.ownedNames root
  machine.mapEnv fun env => names.foldl Environment.declare env

/-- Close a literal over the current scope and frame. -/
def makeClosure (literal : NodeId) (params : ParamList) (body : NodeId) (isLambda : Bool)
    (breakTag : Option FrameId) (machine : Machine) : ProcId × Machine :=
  let (id, closures) := machine.closures.add
    { literal, params, body, isLambda, breakTag
      captured := machine.env.current
      home := machine.frame?.bind (·.homeForLiterals)
      outerBlock := machine.block? }
  (id, { machine with closures })

/-- Make a lambda of a closure. -/
def addLambda (id : ProcId) (machine : Machine) : ProcId × Machine :=
  let (id, closures) := machine.closures.addLambda id
  (id, { machine with closures })

/-- Register a method, replacing one of the same name. -/
def define (method : Method) (machine : Machine) : Machine :=
  { machine with methods := machine.methods.put method.name method }

end Machine

end ScriptSemantics
