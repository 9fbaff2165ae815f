import ScriptSemantics.NodeTable

/-!
# Programs

A program is a table of nodes together with the table of the names that occur in it.

## Main Definitions

* `Program` — names and nodes
* `Program.empty` — the reserved names and no node
-/

namespace ScriptSemantics

/-- The names and nodes of a program. -/
structure Program where
  names : NameTable
  nodes : NodeTable

namespace Program

/-- The program without nodes, which knows the reserved names. -/
def empty : Program :=
  { names := .initial, nodes := .empty }

end Program

end ScriptSemantics
