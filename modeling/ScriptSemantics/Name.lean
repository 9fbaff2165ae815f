/-!
# Names

Identifiers, symbols and the texts of string literals are interned: each distinct string has one
number, given out in the order of first use.

## Main Definitions

* `Name` — the number of a string
* `NameTable` — the strings in the order of their numbers
* `NameTable.initial` — the table that knows the empty string and the reserved words
* `NameTable.intern`, `NameTable.lookup` — from strings to names and back

## Design Notes

Two names of one table are equal exactly when their strings are.  A number outside the table reads
as the empty string.
-/

namespace ScriptSemantics

/-- An interned string: its position in a `NameTable`. -/
structure Name where
  index : Nat
deriving DecidableEq, Inhabited

namespace Name

/-- The name of the empty string; anonymous parameters carry it. -/
def empty : Name := ⟨0⟩

/-- Whether this is the anonymous name. -/
def isEmpty (name : Name) : Bool :=
  name.index == 0

@[simp]
theorem isEmpty_iff {name : Name} : name.isEmpty = true ↔ name = empty := by
  cases name
  simp [isEmpty, empty]

end Name

/-- The interned strings, in the order of their numbers. -/
structure NameTable where
  strings : Array String

namespace NameTable

/-- Keywords, builtin methods and error classes, which have fixed numbers from `1` on. -/
def reserved : List String :=
  ["begin", "break", "call", "def", "do", "else", "end", "ensure", "false", "if", "lambda",
    "next", "nil", "proc", "raise", "redo", "rescue", "return", "self", "true", "until", "while",
    "yield", "block_given?", "loop", "StandardError", "RuntimeError", "NameError",
    "NoMethodError", "TypeError", "ArgumentError", "LocalJumpError", "SystemStackError"]

/-- A table that holds the empty string and the reserved words only. -/
def initial : NameTable :=
  ⟨("" :: reserved).toArray⟩

/-- The number of interned strings. -/
def size (table : NameTable) : Nat :=
  table.strings.size

/-- Whether no string but the empty one is interned. -/
def isEmpty (table : NameTable) : Bool :=
  table.size ≤ 1

/-- The name of a string that is already interned. -/
def find? (table : NameTable) (text : String) : Option Name :=
  (table.strings.findIdx? (· == text)).map Name.mk

/-- The name of a string, giving out the next number when the string is new. -/
def intern (table : NameTable) (text : String) : Name × NameTable :=
  match table.find? text with
  | some name => (name, table)
  | none => (⟨table.size⟩, ⟨table.strings.push text⟩)

/-- The string of a name; the empty string for a number that was never given out. -/
def lookup (table : NameTable) (name : Name) : String :=
  table.strings.getD name.index ""

end NameTable

namespace Name

/-- The builtin `block_given?`, which tells whether the current method received a block. -/
def blockGiven : Name := ⟨24⟩

/-- The builtin `proc`, which returns its block. -/
def proc : Name := ⟨14⟩

/-- The builtin `lambda`, which returns its block as a lambda. -/
def lambda : Name := ⟨11⟩

/-- The builtin `loop`, which runs its block until the block breaks. -/
def loop : Name := ⟨25⟩

end Name

end ScriptSemantics
