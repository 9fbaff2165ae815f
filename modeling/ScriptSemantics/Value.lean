import ScriptSemantics.Handle
import ScriptSemantics.Name
import ScriptSemantics.Assoc
import ScriptSemantics.ErrorCause

/-!
# Values

The values of the language: scalars, arrays, insertion-ordered hashes, closures and host objects.

## Main Definitions

* `HashKey` — the scalars that may be hash keys
* `ArrayHook` — the conversion to an array that a host object may offer
* `Value` — the values
* `Value.same` — equality as the language sees it
* `Value.typeName`, `Value.receiverText` — how messages name a value
* `HashKey.ofValue`, `HashKey.toValue` — keys as values

## Design Notes

Closures and host objects are compared by identity, arrays element by element, and hashes as maps:
the order of insertion does not matter.  The pairs of a hash hold each key once when the hash is
built by `Assoc.put`.

A conversion hook is a pure function of its host object.  Nothing but the hook looks at the payload,
so a hook is told by the part of the payload that it picks, and what it picks from is up to the
host.
-/

namespace ScriptSemantics

/-- The scalars that may be hash keys. -/
inductive HashKey
  | nil
  | bool (value : Bool)
  | int (value : Int)
  | str (text : String)
  | symbol (name : Name)
deriving DecidableEq

/-- The result of a conversion hook, told by positions of the payload.  Where the payload has no
such position, nil stands for it. -/
inductive Conversion
  /-- An array of elements of the payload. -/
  | array (positions : List Nat)
  /-- One element of the payload. -/
  | element (position : Nat)

/-- How a host object converts itself to an array. -/
structure ArrayHook where
  /-- What the hook makes of a payload of some size. -/
  convert : Nat → Conversion

namespace ArrayHook

/-- The payload as an array. -/
def payload : ArrayHook where
  convert size := .array (List.range size)

/-- The first element of the payload, nil if there is none. -/
def firstElement : ArrayHook where
  convert _ := .element 0

end ArrayHook

/-- A value of the language. -/
inductive Value
  | nil
  | bool (value : Bool)
  | int (value : Int)
  | str (text : String)
  | symbol (name : Name)
  | array (items : List Value)
  | hash (entries : List (HashKey × Value))
  /-- A closure, by identity. -/
  | proc (id : ProcId)
  /-- A host object: its identity, class name, payload and conversion hook. -/
  | object (id : ObjectId) (className : String) (payload : List Value) (hook : Option ArrayHook)

instance : Inhabited Value := ⟨.nil⟩

/-- The pairs of a hash in insertion order. -/
abbrev HashEntries := Assoc HashKey Value

/-- Keyword arguments in the order of the call site. -/
abbrev Keywords := Assoc Name Value

namespace HashKey

/-- The value that a key stands for. -/
def toValue : HashKey → Value
  | nil => .nil
  | bool b => .bool b
  | int n => .int n
  | str s => .str s
  | symbol name => .symbol name

end HashKey

namespace Value

/-- A hash with symbol keys. -/
def hashOfKeywords (keywords : Keywords) : Value :=
  .hash (keywords.map fun (name, value) => (.symbol name, value))

/-- Everything but nil and false counts as true. -/
def isTruthy : Value → Bool
  | nil | bool false => false
  | _ => true

/-- Whether this is nil. -/
def isNil : Value → Bool
  | nil => true
  | _ => false

/-- The class of a value. -/
def typeName : Value → String
  | nil => "NilClass"
  | bool true => "TrueClass"
  | bool false => "FalseClass"
  | int _ => "Integer"
  | str _ => "String"
  | symbol _ => "Symbol"
  | array _ => "Array"
  | hash _ => "Hash"
  | proc _ => "Proc"
  | object _ className _ _ => className

/-- How messages name the receiver of a method. -/
def receiverText : Value → String
  | nil => "nil"
  | bool true => "true"
  | bool false => "false"
  | other => "an instance of " ++ other.typeName

mutual

/-- Equality of values: closures and objects by identity, hashes as maps. -/
def same : Value → Value → Bool
  | nil, nil => true
  | bool a, bool b => a == b
  | int a, int b => a == b
  | str a, str b => a == b
  | symbol a, symbol b => a == b
  | array xs, array ys => sameItems xs ys
  | hash xs, hash ys => xs.length == ys.length && sameEntries xs ys
  | proc a, proc b => a == b
  | object a _ _ _, object b _ _ _ => a == b
  | _, _ => false

/-- Equality of two lists, element by element. -/
def sameItems : List Value → List Value → Bool
  | [], [] => true
  | x :: xs, y :: ys => same x y && sameItems xs ys
  | _, _ => false

/-- Every pair has a counterpart with an equal value in the other map. -/
def sameEntries : List (HashKey × Value) → List (HashKey × Value) → Bool
  | [], _ => true
  | (key, value) :: rest, other =>
    (match Assoc.get? other key with
      | some counterpart => same value counterpart
      | none => false) && sameEntries rest other

end

end Value

namespace HashKey

/-- A value as a hash key; only scalars can be keys. -/
def ofValue : Value → Except ErrorCause HashKey
  | .nil => .ok .nil
  | .bool b => .ok (.bool b)
  | .int n => .ok (.int n)
  | .str s => .ok (.str s)
  | .symbol name => .ok (.symbol name)
  | other => .error (.unhashableKey other.typeName)

@[simp]
theorem ofValue_toValue (key : HashKey) : ofValue key.toValue = .ok key := by
  cases key <;> rfl

end HashKey

end ScriptSemantics
