import ScriptSemantics.Value

/-!
# Coercions

The conversions behind splats, array literals, assignments of several values and double splats.

## Main Definitions

* `Value.toSequence` — the elements that a splat contributes
* `SequenceItem`, `SequenceItem.build` — a sequence literal whose operands are evaluated
* `SequenceItem.assigned` — the value that an assignment stores
* `Value.toKeywords`, `Value.toHashEntries` — what a double splat contributes
-/

namespace ScriptSemantics

/-- What a conversion hook makes of a payload. -/
def ArrayHook.apply (hook : ArrayHook) (payload : List Value) : Value :=
  match hook.convert payload.length with
  | .array positions => .array (positions.map fun i => payload.getD i .nil)
  | .element i => payload.getD i .nil

namespace Value

/-- The elements that a splat of the value contributes: none for nil, pairs for a hash, the value
itself when it has no sequence form. -/
def toSequence : Value → Except ErrorCause (List Value)
  | nil => .ok []
  | array items => .ok items
  | hash entries => .ok (entries.map fun (key, value) => array [key.toValue, value])
  | object id className payload hook =>
    match hook with
    | none => .ok [object id className payload hook]
    | some hook =>
      match hook.apply payload with
      | array items => .ok items
      | other => .error (.coercionFailure className other.typeName)
  | other => .ok [other]

/-- Collect the pairs of a hash as keywords; every key must be a symbol. -/
def keywordsOfEntries : HashEntries → Keywords → Except ErrorCause Keywords
  | [], keywords => .ok keywords
  | (.symbol name, value) :: rest, keywords => keywordsOfEntries rest (keywords.put name value)
  | (key, _) :: _, _ => .error (.implicitConversion key.toValue.typeName "Symbol")

/-- The keywords that a double splat contributes to a call. -/
def toKeywords : Value → Except ErrorCause Keywords
  | nil => .ok []
  | hash entries => keywordsOfEntries entries []
  | other => .error (.implicitConversion other.typeName "Hash")

/-- The entries that a double splat contributes to a hash literal. -/
def toHashEntries : Value → Except ErrorCause HashEntries
  | nil => .ok []
  | hash entries => .ok entries
  | other => .error (.implicitConversion other.typeName "Hash")

end Value

/-- An evaluated element of a sequence literal. -/
inductive SequenceItem
  | plain (value : Value)
  | spread (value : Value)

namespace SequenceItem

/-- What one item contributes. -/
def elements : SequenceItem → Except ErrorCause (List Value)
  | plain value => .ok [value]
  | spread value => value.toSequence

/-- The elements of a sequence literal, in order; the first spread that fails decides the error. -/
def build : List SequenceItem → Except ErrorCause (List Value)
  | [] => .ok []
  | item :: rest => do
    let front ← item.elements
    let back ← build rest
    return front ++ back

/-- The value that an assignment stores: a lone plain value as it is, the elements of a lone spread
as an array, and anything longer as the array of the literal. -/
def assigned : List SequenceItem → Except ErrorCause Value
  | [plain value] => .ok value
  | [spread value] => do return .array (← value.toSequence)
  | items => do return .array (← build items)

end SequenceItem

end ScriptSemantics
