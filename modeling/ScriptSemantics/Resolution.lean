import ScriptSemantics.Assoc
import ScriptSemantics.NodeTable

/-!
# Resolution of locals

One walk over a tree in source order, before it runs.  It finds out which names each scope root
owns, so that they can be bound to nil when the scope is entered, and which reads come before every
declaration of their name.

## Main Definitions

* `Resolution` — owned names by scope root, and the unbound reads
* `ResolveError` — why a tree is rejected
* `Move`, `Node.moves` — what the walk does at a node, in source order
* `resolve` — the walk over a whole program

## Design Notes

The program, each method definition, and each block or lambda literal is a scope root.  An
assignment declares its target before its right side is walked, so `a = a` reads nil.  A name is
declared in the innermost scope root unless it is visible already; blocks and lambdas see the names
around them, methods do not.  Parameters always belong to their own callable.

The walk goes down from a node to its operands.  The number of levels it may go down is given; in a
table where every operand precedes its node, the id of the root is enough.
-/

namespace ScriptSemantics

/-- Why a tree is rejected before it runs. -/
inductive ResolveError
  | invalidParams (fault : ParamError)
  /-- The tree refers to a node that is missing, or to a node around it. -/
  | unfounded
deriving DecidableEq

/-- The text of a rejection. -/
def ResolveError.message : ResolveError → String
  | invalidParams fault => "invalid parameter list: " ++ fault.message
  | unfounded => "operand does not precede its node"

/-- What the walk has found out. -/
structure Resolution where
  /-- The names that a scope root owns, in the order of their declaration. -/
  owned : Assoc NodeId (List Name)
  /-- The reads that come before every declaration of their name. -/
  unbound : List NodeId

namespace Resolution

/-- Nothing is known. -/
def empty : Resolution := { owned := [], unbound := [] }

/-- The names that a scope root owns. -/
def ownedNames (resolution : Resolution) (root : NodeId) : List Name :=
  (resolution.owned.get? root).getD []

/-- Whether a read comes before every declaration of its name. -/
def isUnbound (resolution : Resolution) (id : NodeId) : Bool :=
  resolution.unbound.contains id

end Resolution

/-- A scope root that the walk is inside of, with the names declared in it so far. -/
structure OpenScope where
  root : NodeId
  declared : List Name
  /-- Blocks and lambdas see the names around them. -/
  seesEnclosing : Bool

/-- Add a name at the end, once. -/
def OpenScope.insert (scope : OpenScope) (name : Name) : OpenScope :=
  if scope.declared.contains name then scope
  else { scope with declared := scope.declared ++ [name] }

/-- The state of the walk: the scope roots around the present node, innermost first, and what is
known so far. -/
structure Walk where
  scopes : List OpenScope
  found : Resolution

/-- Whether a name is declared in the innermost scope root, or around it as far as it sees. -/
def visibleIn : List OpenScope → Name → Bool
  | [], _ => false
  | scope :: rest, name =>
    scope.declared.contains name || (scope.seesEnclosing && visibleIn rest name)

namespace Walk

/-- Declare a name in the innermost scope root. -/
def insert (walk : Walk) (name : Name) : Walk :=
  match walk.scopes with
  | [] => walk
  | scope :: rest => { walk with scopes := scope.insert name :: rest }

/-- Declare the target of an assignment unless it is visible already. -/
def declare (walk : Walk) (name : Name) : Walk :=
  if name.isEmpty || visibleIn walk.scopes name then walk else walk.insert name

/-- Declare a parameter, which hides names around the callable. -/
def declareParam (walk : Walk) (name : Name) : Walk :=
  if name.isEmpty then walk else walk.insert name

/-- Note a read. -/
def read (walk : Walk) (id : NodeId) (name : Name) : Walk :=
  if visibleIn walk.scopes name || walk.found.unbound.contains id then walk
  else { walk with found := { walk.found with unbound := walk.found.unbound ++ [id] } }

/-- Enter a scope root. -/
def enter (walk : Walk) (root : NodeId) (seesEnclosing : Bool) : Walk :=
  { walk with scopes := { root, declared := [], seesEnclosing } :: walk.scopes }

/-- Leave the innermost scope root and record what it owns. -/
def leave (walk : Walk) : Walk :=
  match walk.scopes with
  | [] => walk
  | scope :: rest =>
    { scopes := rest
      found := { walk.found with owned := walk.found.owned.put scope.root scope.declared } }

end Walk

/-- One move of the walk. -/
inductive Move
  /-- Walk an operand. -/
  | visit (id : NodeId)
  /-- Note the read at a node. -/
  | read (id : NodeId) (name : Name)
  /-- Declare the target of an assignment. -/
  | declare (name : Name)
  /-- Declare a parameter. -/
  | param (name : Name)
  /-- Reject the tree if the parameters break the rules. -/
  | check (params : ParamList)
  /-- Enter a scope root. -/
  | enter (root : NodeId) (seesEnclosing : Bool)
  /-- Leave the innermost scope root. -/
  | leave

namespace Move

/-- The moves at a parameter, which is declared after its own fallback. -/
def ofParam (param : Param) : List Move :=
  param.role.fallback?.toList.map visit ++ [.param param.name]

/-- The moves at a callable, which is a scope root of its own. -/
def ofCallable (root : NodeId) (params : ParamList) (body : NodeId) (seesEnclosing : Bool) :
    List Move :=
  check params :: enter root seesEnclosing :: (params.flatMap ofParam ++ [visit body, leave])

/-- The moves at a rescue clause, which declares its local before its body. -/
def ofClause (clause : RescueClause) : List Move :=
  clause.binding.toList.map declare ++ [visit clause.body]

end Move

/-- What the walk does at a node, in source order. -/
def Node.moves (id : NodeId) : Node → List Move
  | .ident name => [.read id name]
  -- A target is declared before its value is walked: `x = x` reads a local.
  | .assign name value => .declare name :: value.map (.visit ·.expr)
  | .opAssign name _ value => [.declare name, .visit value]
  | .loop _ test body bodyFirst =>
    if bodyFirst then [.visit body, .visit test] else [.visit test, .visit body]
  | .begin body clauses elseBranch ensure =>
    .visit body :: (clauses.flatMap Move.ofClause ++
      (elseBranch.toList ++ ensure.toList).map .visit)
  | .define _ params body => Move.ofCallable id params body false
  | .block params body | .lambda params body => Move.ofCallable id params body true
  | other => other.children.map .visit

/-- A step of the walk, which may reject the tree. -/
abbrev WalkStep := Walk → Except ResolveError Walk

namespace WalkStep

/-- Make one move, given how operands are walked. -/
def move (visit : NodeId → WalkStep) : Move → WalkStep
  | .visit id => visit id
  | .read id name => fun walk => .ok (walk.read id name)
  | .declare name => fun walk => .ok (walk.declare name)
  | .param name => fun walk => .ok (walk.declareParam name)
  | .check params => fun walk =>
    match params.validate with
    | .error fault => .error (.invalidParams fault)
    | .ok () => .ok walk
  | .enter root seesEnclosing => fun walk => .ok (walk.enter root seesEnclosing)
  | .leave => fun walk => .ok walk.leave

/-- Make several moves, one after the other. -/
def moves (visit : NodeId → WalkStep) : List Move → WalkStep
  | [], walk => .ok walk
  | first :: rest, walk => do moves visit rest (← move visit first walk)

/-- Walk a node, going down at most so many levels. -/
def visit (table : NodeTable) : Nat → NodeId → WalkStep
  | 0, _ => fun _ => .error .unfounded
  | levels + 1, id =>
    match table.node? id with
    | some node => moves (visit table levels) (node.moves id)
    | none => fun _ => .error .unfounded

end WalkStep

/-- The walk at the root of a program.  Predeclared names are bound before the program runs. -/
def Walk.start (root : NodeId) (predeclared : List Name) : Walk where
  scopes := [predeclared.foldl OpenScope.insert { root, declared := [], seesEnclosing := false }]
  found := .empty

/-- Resolve the program under a root. -/
def resolve (table : NodeTable) (root : NodeId) (predeclared : List Name) :
    Except ResolveError Resolution := do
  let walk ← WalkStep.visit table (root.index + 1) root (.start root predeclared)
  return walk.leave.found

end ScriptSemantics
