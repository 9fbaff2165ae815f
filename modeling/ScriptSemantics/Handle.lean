/-!
# Handles

Nodes, scopes, closures, host objects and activations are referred to by number.  Each kind of
number has its own type, so a frame identity is never taken for a node.

## Main Definitions

* `NodeId` — position of a node in a `NodeTable`
* `ScopeId` — position of a scope in a `ScopeStore`
* `ProcId` — identity of a closure
* `ObjectId` — identity of a host object
* `FrameId` — identity of one activation
-/

namespace ScriptSemantics

/-- Position of a node in a node table. -/
structure NodeId where
  index : Nat
deriving DecidableEq, Inhabited

/-- Position of a scope in a scope store.  Two handles name the same scope exactly when they are
equal. -/
structure ScopeId where
  index : Nat
deriving DecidableEq, Inhabited

/-- Identity of a closure; closures are compared by it. -/
structure ProcId where
  index : Nat
deriving DecidableEq, Inhabited

/-- Identity of a host object; objects are compared by it. -/
structure ObjectId where
  index : Nat
deriving DecidableEq, Inhabited

/-- Identity of one activation on the call stack.  Non-local exits are addressed to it. -/
structure FrameId where
  index : Nat
deriving DecidableEq, Inhabited

end ScriptSemantics
