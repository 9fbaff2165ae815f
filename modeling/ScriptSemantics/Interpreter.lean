import ScriptSemantics.Evaluation.Node

/-!
# The interpreter

What a host does with a machine: evaluate programs on it and look at the locals they leave.

## Main Definitions

* `Program.evaluateWith` — resolve and run a program, with a given amount of fuel
* `Program.evaluate` — the same with fuel that no practical run uses up
* `Program.run`, `Program.runScoped`, `Program.runFramed` — evaluate a node as it is
* `Program.local?` — read a top-level local

## Design Notes

A program is resolved before anything else happens; a rejected one changes nothing.  Evaluating
several programs on one machine keeps the locals and methods of the earlier ones.
-/

namespace ScriptSemantics

namespace Program

/-- Fuel that no practical run uses up. -/
def ampleFuel : Nat := 1000000000000

/-- Resolve and run a program with a given amount of fuel.  A rejected program changes nothing; a
frame above the depth limit is refused before anything runs. -/
def evaluateWith (program : Program) (fuel : Nat) (root : NodeId) : Eval Value := fun machine =>
  match resolve program.nodes root machine.env.topBindings.keys with
  | .error fault => some (.error (.error { cause := .invalidProgram fault.message }), machine)
  -- What was found for earlier programs is replaced, although their methods can still be called.
  | .ok resolution =>
    let (id, machine) := { machine with resolution }.allocateFrame
    program.perform fuel (.program root id) machine

/-- Resolve and run a program. -/
def evaluate (program : Program) (root : NodeId) : Eval Value :=
  program.evaluateWith ampleFuel root

/-- Evaluate a node in the present state of the machine. -/
def run (program : Program) (root : NodeId) : Eval Value :=
  program.perform ampleFuel (.node root)

/-- Evaluate a node inside a transparent scope. -/
def runScoped (program : Program) (root : NodeId) : Eval Value := fun machine =>
  (Comp.inTransparentScope (Comp.eval root) machine).run (program.perform ampleFuel)

/-- Evaluate a node inside a frame that the host provides. -/
def runFramed (program : Program) (frame : Frame) (parent : Option ScopeId) (root : NodeId) :
    Eval Value := fun machine =>
  (Comp.withFrame frame parent (Comp.eval root) machine).run (program.perform ampleFuel)

/-- The value of a top-level local. -/
def local? (program : Program) (machine : Machine) (name : String) : Option Value :=
  (program.names.find? name).bind (machine.env.store.lookup machine.env.top)

end Program

end ScriptSemantics
