import ScriptSemantics.Program

/-!
# Building trees

Trees are assembled node by node: each step interns the names it needs, adds one node and returns
its id.

## Main Definitions

* `Build` — a step that extends a program
* `Build.name`, `Build.add` — intern a name, add a node
* `Build.assign`, `Build.symHash`, `Build.callWithBlock` and others — common shapes of several nodes
-/

namespace ScriptSemantics

/-- A step that extends a program. -/
abbrev Build := StateM Program

namespace Build

/-- Intern a string. -/
def name (text : String) : Build Name :=
  modifyGet fun program =>
    let (name, names) := program.names.intern text
    (name, { program with names })

/-- Add a node whose operands are already there. -/
def add (node : Node) : Build NodeId :=
  modifyGet fun program =>
    let (id, nodes) := program.nodes.add node
    (id, { program with nodes })

/-- A string literal. -/
def str (text : String) : Build NodeId := do
  add (.str (← name text))

/-- A symbol literal. -/
def symbol (text : String) : Build NodeId := do
  add (.symbol (← name text))

/-- An array literal without splats. -/
def arrayOf (items : List NodeId) : Build NodeId :=
  add (.array (items.map .plain))

/-- A hash literal with symbol keys: one symbol node per key, then the hash. -/
def symHash (entries : List (String × NodeId)) : Build NodeId := do
  let pairs ← entries.mapM fun (key, value) => do
    return HashEntry.pair (← symbol key) value
  add (.hash pairs)

/-- A read of a local or a call without arguments. -/
def ident (text : String) : Build NodeId := do
  add (.ident (← name text))

/-- An assignment of a list of elements. -/
def assignElems (target : String) (value : List Elem) : Build NodeId := do
  add (.assign (← name target) value)

/-- An assignment of one value. -/
def assign (target : String) (value : NodeId) : Build NodeId :=
  assignElems target [.plain value]

/-- An assignment of the result of an operator on the present value. -/
def opAssign (target : String) (op : BinaryOp) (value : NodeId) : Build NodeId := do
  add (.opAssign (← name target) op value)

/-- A loop that tests first and runs while the test holds. -/
def whileLoop (test body : NodeId) : Build NodeId :=
  add (.loop .whileTrue test body false)

/-- A loop that tests first and runs until the test holds. -/
def untilLoop (test body : NodeId) : Build NodeId :=
  add (.loop .untilTrue test body false)

/-- A loop that runs its body before the first test. -/
def doWhile (body test : NodeId) : Build NodeId :=
  add (.loop .whileTrue test body true)

/-- A body with a cleanup part. -/
def ensured (body cleanup : NodeId) : Build NodeId :=
  add (.begin body [] none (some cleanup))

/-- A rescue clause. -/
def rescueClause (classes : List String) (binding : Option String) (body : NodeId) :
    Build RescueClause := do
  let classes ← classes.mapM name
  let binding ← binding.mapM name
  return { classes, binding, body }

/-- A method definition. -/
def define (text : String) (params : ParamList) (body : NodeId) : Build NodeId := do
  add (.define (← name text) params body)

/-- A call by name. -/
def call (method : String) (args : List Arg) (block : Option BlockArg) : Build NodeId := do
  add (.call (← name method) args block)

/-- A call by name with positional arguments only. -/
def callSimple (method : String) (args : List NodeId) : Build NodeId :=
  call method (args.map .positional) none

/-- A call by name with positional arguments and a block literal. -/
def callWithBlock (method : String) (args : List NodeId) (params : ParamList) (body : NodeId) :
    Build NodeId := do
  let block ← add (.block params body)
  call method (args.map .positional) (some (.literal block))

/-- A keyword argument. -/
def keywordArg (key : String) (value : NodeId) : Build Arg := do
  return .keyword (← name key) value

end Build

end ScriptSemantics
