import ScriptSemantics.Value

/-!
# Scopes and environments

Variables live in scopes.  Scopes form chains through their parents and are shared: a closure keeps
the scope it was written in, and sees later assignments to it.

## Main Definitions

* `Scope` — bindings with a kind and a parent
* `ScopeStore` — all scopes ever made, by handle
* `ScopeStore.chain` — a scope and its ancestors, innermost first
* `Environment` — a store with the stack of active scopes
* `Environment.declare`, `Environment.define`, `Environment.assignLocal`, `Environment.lookup`

## Design Notes

An *owning* scope belongs to the program, a method or a closure body and keeps the variables that
are declared in it.  A *transparent* scope only groups statements: what is declared in it goes to
the nearest owning scope of its chain, so a variable first assigned inside a conditional is still
there after it.  A scope is made after its parent, so parents have smaller handles and every chain
is finite.
-/

namespace ScriptSemantics

/-- Whether a scope keeps the variables declared in it. -/
inductive ScopeKind
  | owning
  | transparent
deriving DecidableEq

/-- The bindings of one scope, its kind and its parent. -/
structure Scope where
  kind : ScopeKind
  bindings : Assoc Name Value
  parent : Option ScopeId

/-- All scopes, by handle. -/
structure ScopeStore where
  scopes : Array Scope

namespace ScopeStore

/-- The number of scopes. -/
def size (store : ScopeStore) : Nat :=
  store.scopes.size

/-- The scope with a handle. -/
def scope? (store : ScopeStore) (id : ScopeId) : Option Scope :=
  store.scopes[id.index]?

/-- Make a new scope without bindings. -/
def add (store : ScopeStore) (kind : ScopeKind) (parent : Option ScopeId) :
    ScopeId × ScopeStore :=
  (⟨store.size⟩, ⟨store.scopes.push { kind, bindings := [], parent }⟩)

/-- Replace the bindings of one scope. -/
def modify (store : ScopeStore) (id : ScopeId) (f : Assoc Name Value → Assoc Name Value) :
    ScopeStore :=
  ⟨store.scopes.modify id.index fun scope => { scope with bindings := f scope.bindings }⟩

/-- The value that a scope itself binds to a name. -/
def binding? (store : ScopeStore) (id : ScopeId) (name : Name) : Option Value :=
  (store.scope? id).bind (·.bindings.get? name)

/-- Whether a scope itself binds a name. -/
def binds (store : ScopeStore) (id : ScopeId) (name : Name) : Bool :=
  (store.binding? id name).isSome

/-- Whether a scope keeps the variables declared in it. -/
def isOwning (store : ScopeStore) (id : ScopeId) : Bool :=
  match store.scope? id with
  | some scope => scope.kind == .owning
  | none => false

/-- The first scopes of a chain. -/
def chainUpTo (store : ScopeStore) : Nat → ScopeId → List ScopeId
  | 0, _ => []
  | steps + 1, id =>
    id :: match (store.scope? id).bind (·.parent) with
      | some parent => chainUpTo store steps parent
      | none => []

/-- A scope and its ancestors, innermost first.  Parents have smaller handles, so the handle bounds
the length. -/
def chain (store : ScopeStore) (id : ScopeId) : List ScopeId :=
  store.chainUpTo (id.index + 1) id

/-- The value of a name as seen from a scope: that of the innermost binding. -/
def lookup (store : ScopeStore) (id : ScopeId) (name : Name) : Option Value :=
  (store.chain id).findSome? (store.binding? · name)

/-- Bind a name in this very scope, replacing a binding it has here. -/
def define (store : ScopeStore) (id : ScopeId) (name : Name) (value : Value) : ScopeStore :=
  store.modify id (·.put name value)

/-- Bind a name to nil in this very scope unless the scope binds it. -/
def declare (store : ScopeStore) (id : ScopeId) (name : Name) : ScopeStore :=
  if store.binds id name then store else store.define id name .nil

/-- The innermost scope of a chain that binds a name. -/
def binder? (store : ScopeStore) (id : ScopeId) (name : Name) : Option ScopeId :=
  (store.chain id).find? (store.binds · name)

/-- Overwrite the innermost binding of a name; nothing when no scope of the chain binds it. -/
def assignExisting? (store : ScopeStore) (id : ScopeId) (name : Name) (value : Value) :
    Option ScopeStore :=
  (store.binder? id name).map (store.define · name value)

/-- The scope that keeps what is declared in this one: the first owning scope of its chain. -/
def owner (store : ScopeStore) (id : ScopeId) : ScopeId :=
  ((store.chain id).find? store.isOwning).getD id

end ScopeStore

/-- A store with the active scopes: those entered, innermost first, above the top-level scope. -/
structure Environment where
  store : ScopeStore
  entered : List ScopeId
  top : ScopeId

namespace Environment

/-- An environment with the top-level scope only. -/
def initial : Environment :=
  let (top, store) := ScopeStore.add ⟨#[]⟩ .owning none
  { store, entered := [], top }

/-- The number of active scopes. -/
def depth (env : Environment) : Nat :=
  env.entered.length + 1

/-- The innermost active scope. -/
def current (env : Environment) : ScopeId :=
  env.entered.headD env.top

/-- Enter a new scope. -/
def enter (env : Environment) (kind : ScopeKind) (parent : Option ScopeId) : Environment :=
  let (id, store) := env.store.add kind parent
  { env with store, entered := id :: env.entered }

/-- Enter a transparent scope inside the current one. -/
def enterTransparent (env : Environment) : Environment :=
  env.enter .transparent (some env.current)

/-- Enter an owning scope with a lexical parent, or none for a method body. -/
def enterOwning (env : Environment) (parent : Option ScopeId) : Environment :=
  env.enter .owning parent

/-- Leave the current scope; the top-level scope is never left. -/
def leave (env : Environment) : Environment :=
  { env with entered := env.entered.tail }

/-- Declare a name, nil at first, in the scope that keeps the variables of the current one. -/
def declare (env : Environment) (name : Name) : Environment :=
  { env with store := env.store.declare (env.store.owner env.current) name }

/-- Bind a name in the scope that keeps the variables of the current one, hiding outer bindings. -/
def define (env : Environment) (name : Name) (value : Value) : Environment :=
  { env with store := env.store.define (env.store.owner env.current) name value }

/-- Overwrite the innermost visible binding, or define the name when none is visible. -/
def assignLocal (env : Environment) (name : Name) (value : Value) : Environment :=
  match env.store.binder? env.current name with
  | some scope => { env with store := env.store.define scope name value }
  | none => env.define name value

/-- The value of a name as seen from the current scope. -/
def lookup (env : Environment) (name : Name) : Option Value :=
  env.store.lookup env.current name

/-- Whether a name is visible from the current scope. -/
def isBound (env : Environment) (name : Name) : Bool :=
  (env.lookup name).isSome

/-- The bindings of the top-level scope. -/
def topBindings (env : Environment) : Assoc Name Value :=
  match env.store.scope? env.top with
  | some scope => scope.bindings
  | none => []

end Environment

end ScriptSemantics
