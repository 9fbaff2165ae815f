import ScriptSemantics.Params
import ScriptSemantics.Value

/-!
# Closures

A block or lambda literal together with what it needs to run later.  Closures never change; values
refer to them by identity.

## Main Definitions

* `Closure` — literal, captured scope, and the activations its exits are addressed to
* `ClosureTable` — all closures ever made, by identity
* `ClosureTable.addLambda` — the same closure under lambda rules
-/

namespace ScriptSemantics

/-- A block or lambda literal with the context it was written in. -/
structure Closure where
  /-- The literal; it names the locals of the body. -/
  literal : NodeId
  params : ParamList
  body : NodeId
  /-- The scope that was current where the literal was written. -/
  captured : ScopeId
  /-- Lambdas bind strictly and absorb their own `return`. -/
  isLambda : Bool
  /-- The activation that a `return` in the body leaves. -/
  home : Option FrameId
  /-- The call that a `break` in the body leaves. -/
  breakTag : Option FrameId
  /-- The block that `yield` in the body runs. -/
  outerBlock : Option ProcId

/-- All closures, by identity. -/
structure ClosureTable where
  closures : Array Closure

namespace ClosureTable

/-- The table without closures. -/
def empty : ClosureTable := ⟨#[]⟩

/-- The closure with an identity. -/
def get? (table : ClosureTable) (id : ProcId) : Option Closure :=
  table.closures[id.index]?

/-- Give a closure its identity. -/
def add (table : ClosureTable) (closure : Closure) : ProcId × ClosureTable :=
  (⟨table.closures.size⟩, ⟨table.closures.push closure⟩)

/-- A new closure that differs from a given one in being a lambda. -/
def addLambda (table : ClosureTable) (id : ProcId) : ProcId × ClosureTable :=
  match table.get? id with
  | some closure => table.add { closure with isLambda := true }
  | none => (id, table)

variable (table : ClosureTable) {closure other : Closure} {id : ProcId}

theorem size_add (closure : Closure) :
    (table.add closure).2.closures.size = table.closures.size + 1 :=
  Array.size_push _

theorem get?_add_self (closure : Closure) :
    (table.add closure).2.get? (table.add closure).1 = some closure :=
  Array.getElem?_push_size

/-- What was made is kept. -/
theorem get?_add_of_some (closure : Closure) (hother : table.get? id = some other) :
    (table.add closure).2.get? id = some other := by
  have hlt : id.index < table.closures.size := (Array.getElem?_eq_some_iff.mp hother).1
  rw [get?, add, Array.getElem?_push, if_neg (Nat.ne_of_lt hlt)]
  exact hother

/-- Nothing but the new closure is added. -/
theorem get?_add_cases (hother : (table.add closure).2.get? id = some other) :
    table.get? id = some other ∨ id = (table.add closure).1 ∧ closure = other := by
  rw [get?, add, Array.getElem?_push] at hother
  split at hother
  · next hid => exact .inr ⟨congrArg ProcId.mk hid, Option.some.inj hother⟩
  · exact .inl hother

end ClosureTable

end ScriptSemantics
