import ScriptSemantics.Params

/-!
# Nodes

The instructions of a program.  A node refers to its operands by their ids, so one node may be an
operand of several others.

## Main Definitions

* `BinaryOp`, `Elem`, `HashEntry`, `Arg`, `BlockArg`, `RescueClause` — the parts of nodes
* `Node` — one instruction
* `Node.children` — the operands of a node, in written order
-/

namespace ScriptSemantics

/-- Operators with two operands. -/
inductive BinaryOp
  | add | sub | mul | lt | le | gt | ge | eq | ne
deriving DecidableEq

/-- The spelling of an operator. -/
def BinaryOp.spelling : BinaryOp → String
  | add => "+"
  | sub => "-"
  | mul => "*"
  | lt => "<"
  | le => "<="
  | gt => ">"
  | ge => ">="
  | eq => "=="
  | ne => "!="

/-- An element of an array literal or of the right side of an assignment. -/
inductive Elem
  | plain (expr : NodeId)
  /-- Contributes every element of the sequence form of its value. -/
  | splat (expr : NodeId)

/-- The expression of an element. -/
def Elem.expr : Elem → NodeId
  | plain expr | splat expr => expr

/-- An entry of a hash literal. -/
inductive HashEntry
  | pair (key value : NodeId)
  /-- Merges the entries of another hash. -/
  | doubleSplat (expr : NodeId)

/-- The expressions of an entry. -/
def HashEntry.exprs : HashEntry → List NodeId
  | pair key value => [key, value]
  | doubleSplat expr => [expr]

/-- An argument at a call site. -/
inductive Arg
  | positional (expr : NodeId)
  | splat (expr : NodeId)
  | keyword (name : Name) (expr : NodeId)
  | doubleSplat (expr : NodeId)

/-- The expression of an argument. -/
def Arg.expr : Arg → NodeId
  | positional expr | splat expr | keyword _ expr | doubleSplat expr => expr

/-- A block attached to a call. -/
inductive BlockArg
  /-- A block written at the call. -/
  | literal (block : NodeId)
  /-- A value passed on as the block. -/
  | pass (expr : NodeId)

/-- The expression of a block argument. -/
def BlockArg.expr : BlockArg → NodeId
  | literal expr | pass expr => expr

/-- Which answer of its condition keeps a loop going. -/
inductive LoopKind
  | whileTrue
  | untilTrue
deriving DecidableEq

/-- A rescue clause: the error classes it takes (none stands for `StandardError`), the local that
receives the message, and the clause's body. -/
structure RescueClause where
  classes : List Name
  binding : Option Name
  body : NodeId

/-- One instruction of a program. -/
inductive Node
  | nil
  | bool (value : Bool)
  | int (value : Int)
  | str (text : Name)
  | symbol (name : Name)
  | array (elems : List Elem)
  | hash (entries : List HashEntry)
  | ident (name : Name)
  /-- A single plain element is stored as it is; any other list is stored as an array. -/
  | assign (name : Name) (value : List Elem)
  | opAssign (name : Name) (op : BinaryOp) (value : NodeId)
  | binary (op : BinaryOp) (left right : NodeId)
  /-- Statements; the value is that of the last one. -/
  | seq (stmts : List NodeId)
  | cond (test thenBranch : NodeId) (elseBranch : Option NodeId)
  /-- With `bodyFirst` the body runs once before the first test. -/
  | loop (kind : LoopKind) (test body : NodeId) (bodyFirst : Bool)
  | begin (body : NodeId) (rescues : List RescueClause) (elseBranch ensure : Option NodeId)
  | define (name : Name) (params : ParamList) (body : NodeId)
  | block (params : ParamList) (body : NodeId)
  | lambda (params : ParamList) (body : NodeId)
  /-- A call by name: a user method or a builtin. -/
  | call (name : Name) (args : List Arg) (blockArg : Option BlockArg)
  /-- A call of a closure value. -/
  | callValue (callee : NodeId) (args : List Arg) (blockArg : Option BlockArg)
  | yield (args : List Arg)
  | returnWith (value : Option NodeId)
  | breakWith (value : Option NodeId)
  | nextWith (value : Option NodeId)
  | redo
  | raise (message : Option NodeId)

/-- The operands of a node, in written order. -/
def Node.children : Node → List NodeId
  | nil | bool _ | int _ | str _ | symbol _ | ident _ | redo => []
  | array elems => elems.map Elem.expr
  | hash entries => entries.flatMap HashEntry.exprs
  | assign _ value => value.map Elem.expr
  | opAssign _ _ value => [value]
  | binary _ left right => [left, right]
  | seq stmts => stmts
  | cond test thenBranch elseBranch => test :: thenBranch :: elseBranch.toList
  | loop _ test body _ => [test, body]
  | begin body rescues elseBranch ensure =>
    body :: (rescues.map RescueClause.body ++ elseBranch.toList ++ ensure.toList)
  | define _ params body | block params body | lambda params body => params.fallbacks ++ [body]
  | call _ args blockArg => args.map Arg.expr ++ (blockArg.map BlockArg.expr).toList
  | callValue callee args blockArg =>
    callee :: (args.map Arg.expr ++ (blockArg.map BlockArg.expr).toList)
  | yield args => args.map Arg.expr
  | returnWith value | breakWith value | nextWith value | raise value => value.toList

end ScriptSemantics
