import ScriptSemantics.Evaluation.Calls
import ScriptSemantics.Evaluation.Control
import ScriptSemantics.Operator

/-!
# Evaluation of nodes

The meaning of every kind of node and of every task, and what it results in to perform them.

## Main Definitions

* `Comp.node` — the meaning of one node
* `Task.work` — the meaning of one task
* `Program.perform` — perform a task with fuel

## Design Notes

The fuel bounds how deep tasks nest and how often a loop goes round.  More fuel never changes a
result, it only gives results to computations that had none.
-/

namespace ScriptSemantics

namespace Comp

/-- An assignment. -/
def assign (id : NodeId) (name : Name) (elems : List Elem) : Comp Value := do
  let parts ← items elems
  let value ← ofExcept (SequenceItem.assigned parts)
  store id name value

/-- An assignment of an operator's result.  The present value is read first. -/
def opAssign (id : NodeId) (name : Name) (op : BinaryOp) (expr : NodeId) : Comp Value := do
  let present ← gets (·.env.lookup name)
  let right ← eval expr
  let value ← ofExcept (op.eval (present.getD .nil) right)
  store id name value

/-- Statements one after the other; the value of the last one, or the given one if there is none. -/
def seq : Value → List NodeId → Comp Value
  | last, [] => pure last
  | _, stmt :: rest => do
    let value ← eval stmt
    seq value rest

/-- A closure that was not written at a call. -/
def closure (literal : NodeId) (params : ParamList) (body : NodeId) (isLambda : Bool) :
    Comp Value := do
  return .proc (← modifyGet (·.makeClosure literal params body isLambda none))

/-- The meaning of one node. -/
def node (program : Program) (fuel : Nat) (id : NodeId) : Node → Comp Value
  | .nil => pure .nil
  | .bool b => pure (.bool b)
  | .int n => pure (.int n)
  | .str text => pure (.str (program.names.lookup text))
  | .symbol name => pure (.symbol name)
  | .array elems => do
    let parts ← items elems
    return .array (← ofExcept (SequenceItem.build parts))
  | .hash list => do return .hash (← entries [] list)
  | .ident name => ident program.names id name
  | .assign name elems => assign id name elems
  | .opAssign name op expr => opAssign id name op expr
  | .binary op left right => do
    let left ← eval left
    let right ← eval right
    ofExcept (op.eval left right)
  | .seq stmts => seq .nil stmts
  | .cond test thenBranch elseBranch => cond test thenBranch elseBranch
  | .loop kind test body bodyFirst => loop fuel kind test body bodyFirst
  | .begin body rescues elseBranch ensure =>
    begin program.names body rescues elseBranch ensure
  | .define name params body => do
    modify (·.define { name, params, body, root := id })
    return .symbol name
  | .block params body => closure id params body false
  | .lambda params body => closure id params body true
  | .call name argList block => call program name argList block
  | .callValue callee argList block => callValue program callee argList block
  | .yield argList => yield argList
  | .returnWith value => returnWith value
  | .breakWith value => breakWith value
  | .nextWith value => nextWith value
  | .redo => redo
  | .raise message => raise program.names message

end Comp

/-- The meaning of one task. -/
def Task.work (program : Program) (fuel : Nat) : Task → Comp Value
  | .node id =>
    match program.nodes.node? id with
    | some n => Comp.node program fuel id n
    | none => Comp.fail (.invalidProgram "unknown node")
  | .store _ name value => fun machine =>
    .done (.ok value) (machine.mapEnv (·.assignLocal name value))
  | .program root id => Comp.runProgram program.names root id
  | .method callee id given block => Comp.runMethod program.names callee id given block
  | .closure proc id given block => Comp.runProc program.names fuel proc id given block
  | .loop block id => Comp.runLoop program.names fuel block id

/-- Perform a task. -/
def Program.perform (program : Program) : Nat → Task → Eval Value
  | 0, _, _ => none
  | fuel + 1, task, machine => (task.work program fuel machine).run (program.perform fuel)

end ScriptSemantics
