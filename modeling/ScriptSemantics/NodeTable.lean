import ScriptSemantics.Node

/-!
# Node tables

The nodes of a program in one table.  A node is added after its operands, so its id is larger than
theirs and walking down from any node ends.

## Main Definitions

* `NodeTable` — the nodes by id
* `NodeTable.add` — append a node
* `NodeTable.Founded` — every operand precedes the node that uses it
-/

namespace ScriptSemantics

/-- The nodes of a program, by id. -/
structure NodeTable where
  nodes : Array Node

namespace NodeTable

/-- The table without nodes. -/
def empty : NodeTable := ⟨#[]⟩

/-- The number of nodes. -/
def size (table : NodeTable) : Nat :=
  table.nodes.size

/-- Whether there is no node. -/
def isEmpty (table : NodeTable) : Bool :=
  table.nodes.isEmpty

/-- Append a node; its id is the former size. -/
def add (table : NodeTable) (node : Node) : NodeId × NodeTable :=
  (⟨table.size⟩, ⟨table.nodes.push node⟩)

/-- The node with an id, if the table has one. -/
def node? (table : NodeTable) (id : NodeId) : Option Node :=
  table.nodes[id.index]?

/-- Every operand has a smaller id than the node that uses it. -/
def Founded (table : NodeTable) : Prop :=
  ∀ (id : NodeId) (node : Node), table.node? id = some node →
    ∀ child ∈ node.children, child.index < id.index

end NodeTable

end ScriptSemantics
