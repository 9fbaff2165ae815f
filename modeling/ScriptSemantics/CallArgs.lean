import ScriptSemantics.Coercion

/-!
# Call arguments

The evaluated arguments of one call, with splats and double splats expanded.

## Main Definitions

* `CallArgs` — positional and keyword arguments
* `CallArgs.push`, `CallArgs.pushSpread` — add positional arguments
* `CallArgs.pushKeyword`, `CallArgs.mergeKeywords` — add keyword arguments
-/

namespace ScriptSemantics

/-- The evaluated arguments of one call. -/
structure CallArgs where
  positional : List Value := []
  keywords : Keywords := []

namespace CallArgs

/-- Add one positional argument. -/
def push (args : CallArgs) (value : Value) : CallArgs :=
  { args with positional := args.positional ++ [value] }

/-- Add the sequence form of a value. -/
def pushSpread (args : CallArgs) (value : Value) : Except ErrorCause CallArgs := do
  let items ← value.toSequence
  return { args with positional := args.positional ++ items }

/-- Add a keyword; a later one of the same name wins and keeps the place of the first. -/
def pushKeyword (args : CallArgs) (name : Name) (value : Value) : CallArgs :=
  { args with keywords := args.keywords.put name value }

/-- Add the keywords of a hash; nil adds none. -/
def mergeKeywords (args : CallArgs) (value : Value) : Except ErrorCause CallArgs := do
  let keywords ← value.toKeywords
  return { args with keywords := Assoc.putAll args.keywords keywords }

/-- How many arguments a callable without parameters was given; keywords count as one. -/
def count (args : CallArgs) : Nat :=
  args.positional.length + if args.keywords.isEmpty then 0 else 1

end CallArgs

end ScriptSemantics
