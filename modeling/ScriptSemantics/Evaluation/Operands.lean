import ScriptSemantics.Binding
import ScriptSemantics.Coercion
import ScriptSemantics.Comp
import ScriptSemantics.Node

/-!
# Operands

Evaluation of the parts of a node from left to right: optional operands, elements, hash entries and
call arguments.

## Main Definitions

* `Comp.optional` — an operand that may be missing
* `Comp.items` — the elements of a sequence literal
* `Comp.entries` — the entries of a hash literal
* `Comp.args` — the arguments of a call
* `Comp.bindParams` — give the parameters of a callee their values
-/

namespace ScriptSemantics.Comp

/-- An operand that may be missing; its value is nil then. -/
def optional : Option NodeId → Comp Value
  | some expr => eval expr
  | none => pure .nil

/-- The elements of a sequence literal. -/
def items : List Elem → Comp (List SequenceItem)
  | [] => pure []
  | .plain expr :: rest => do
    let value ← eval expr
    let tail ← items rest
    return .plain value :: tail
  | .splat expr :: rest => do
    let value ← eval expr
    let tail ← items rest
    return .spread value :: tail

/-- The entries of a hash literal, added to those so far.  A key is checked before its value is
evaluated. -/
def entries : HashEntries → List HashEntry → Comp HashEntries
  | soFar, [] => pure soFar
  | soFar, .pair key value :: rest => do
    let key ← ofExcept (HashKey.ofValue (← eval key))
    let value ← eval value
    entries (soFar.put key value) rest
  | soFar, .doubleSplat expr :: rest => do
    let merged ← ofExcept (← eval expr).toHashEntries
    entries (Assoc.putAll soFar merged) rest

/-- The arguments of a call, added to those so far.  Each splat is expanded before the next
argument is evaluated. -/
def args : CallArgs → List Arg → Comp CallArgs
  | soFar, [] => pure soFar
  | soFar, .positional expr :: rest => do
    let value ← eval expr
    args (soFar.push value) rest
  | soFar, .splat expr :: rest => do
    let value ← eval expr
    args (← ofExcept (soFar.pushSpread value)) rest
  | soFar, .keyword name expr :: rest => do
    let value ← eval expr
    args (soFar.pushKeyword name value) rest
  | soFar, .doubleSplat expr :: rest => do
    let value ← eval expr
    args (← ofExcept (soFar.mergeKeywords value)) rest

/-- What a parameter receives, as a value. -/
def binding (block : Option ProcId) : Binding → Comp Value
  | .value value => pure value
  | .fallback expr => eval expr
  | .block => pure (block.elim .nil .proc)

/-- Define a parameter in the scope of its callee; an anonymous one binds nothing. -/
def defineParam (name : Name) (value : Value) : Comp Unit :=
  if name.isEmpty then pure () else modify (·.mapEnv (·.define name value))

/-- Define the parameters of a callee in its scope, from left to right, so that a fallback can read
the parameters before it. -/
def bindParams (block : Option ProcId) : BindPlan → Comp Unit
  | [] => pure ()
  | param :: rest => do
    let value ← binding block param.binding
    defineParam param.name value
    bindParams block rest

end ScriptSemantics.Comp
