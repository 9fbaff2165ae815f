import ScriptSemantics.CallArgs
import ScriptSemantics.Exit
import ScriptSemantics.Machine

/-!
# Tasks

The pieces of work that an evaluation is made of: nodes are evaluated and locals are stored in the
current activation, and programs, methods, closures and the looping builtin run in an activation of
their own.

## Main Definitions

* `Ending` — how a task or a computation ends: a value or an exit
* `Eval` — what running something on a machine results in
* `Task` — one piece of work
* `Task.activation?` — the identity of the activation that a task runs in

## Design Notes

Something that runs out of fuel has the result `none`, which is neither a value nor an exit, so
nothing can catch it.
-/

namespace ScriptSemantics

/-- How a computation ends: with a value or by an exit. -/
abbrev Ending (α : Type) := Except Exit α

/-- A run on a machine; `none` when it does not end within its fuel. -/
abbrev Eval (α : Type) := Machine → Option (Ending α × Machine)

/-- One piece of work. -/
inductive Task
  /-- Evaluate a node in the current activation. -/
  | node (id : NodeId)
  /-- Give a local a value, as the assignment at the node `site` or before the rescue clause whose
  body is the node `site`. -/
  | store (site : NodeId) (name : Name) (value : Value)
  /-- Run the program under a root as the activation `id`. -/
  | program (root : NodeId) (id : FrameId)
  /-- Run a method as the activation `id`. -/
  | method (method : Method) (id : FrameId) (given : CallArgs) (block : Option ProcId)
  /-- Run a closure as the activation `id`. -/
  | closure (proc : ProcId) (id : FrameId) (given : CallArgs) (block : Option ProcId)
  /-- Run a block over and over inside the activation `id`. -/
  | loop (block : ProcId) (id : FrameId)

/-- The identity of the activation that a task runs in; none for a node or a local. -/
def Task.activation? : Task → Option FrameId
  | node _ | store .. => none
  | program _ id | method _ id _ _ | closure _ id _ _ | loop _ id => some id

end ScriptSemantics
