/-!
# Arities

The numbers of positional arguments that a callable accepts.

## Main Definitions

* `Arity` — required and optional counts, and whether further arguments are taken
* `Arity.accepts` — whether a count is accepted
* `Arity.text` — `2`, `1..3` or `1+`
-/

namespace ScriptSemantics

/-- The numbers of positional arguments that a callable accepts. -/
structure Arity where
  required : Nat
  optional : Nat
  rest : Bool
deriving DecidableEq

namespace Arity

/-- The largest accepted count; none when there is no upper bound. -/
def max? (arity : Arity) : Option Nat :=
  if arity.rest then none else some (arity.required + arity.optional)

/-- Whether a count lies between the bounds. -/
def accepts (arity : Arity) (given : Nat) : Bool :=
  decide (arity.required ≤ given) &&
    match arity.max? with
    | some max => decide (given ≤ max)
    | none => true

/-- The bounds as messages show them. -/
def text (arity : Arity) : String :=
  match arity.max? with
  | none => toString arity.required ++ "+"
  | some max =>
    if max = arity.required then toString max
    else toString arity.required ++ ".." ++ toString max

end Arity

end ScriptSemantics
