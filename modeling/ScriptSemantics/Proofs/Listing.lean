import ScriptSemantics.Proofs.Route

/-!
# Programs listed in source order

What counts for the meaning of names, listed in the order in which it stands in the source: where
names are declared, where they are read, and where callables stand.

## Main Definitions

* `Region` — the program, or a callable
* `Mention`, `Entry` — what is listed, with the regions whose names are seen there
* `NodeTable.listing` — the listing of a tree
* `Seen` — a declaration that can be seen comes before
* `OwnedBy` — the names that belong to a region
* `Resolution.Hoists` — owned names and unbound reads as the listing gives them

## Design Notes

A listing says nothing of how names are resolved.  An assignment comes before its right side, a
parameter after its own fallback, the body of a loop that runs first before the test, and the local
of a rescue clause before the body of the clause.
-/

namespace ScriptSemantics

/-! ### Listings -/

/-- A part of a program that names can belong to: a callable, or the program itself. -/
abbrev Region := Option NodeId

/-- What is listed of a program. -/
inductive Mention
  /-- A local that is assigned to, or bound by a rescue clause. -/
  | target (name : Name)
  | param (name : Name)
  | read (id : NodeId) (name : Name)
  | callable (id : NodeId)

/-- A mention with the regions whose names are seen there, its own one first. -/
structure Entry where
  mention : Mention
  around : List Region

/-- A part of a node. -/
inductive Part
  | operand (id : NodeId)
  | target (name : Name)
  | param (name : Name)

namespace Part

/-- A parameter stands after its own fallback. -/
def ofParam (param : Param) : List Part :=
  param.role.fallback?.toList.map operand ++ [.param param.name]

/-- The local of a rescue clause stands before the body of the clause. -/
def ofClause (clause : RescueClause) : List Part :=
  clause.binding.toList.map target ++ [operand clause.body]

end Part

namespace Node

/-- The parts of a node in source order. -/
def parts : Node → List Part
  | assign name value => .target name :: value.map (.operand ·.expr)
  | opAssign name _ value => [.target name, .operand value]
  | loop _ test body bodyFirst =>
    if bodyFirst then [.operand body, .operand test] else [.operand test, .operand body]
  | begin body clauses elseBranch ensure =>
    .operand body :: (clauses.flatMap Part.ofClause ++
      (elseBranch.toList ++ ensure.toList).map .operand)
  | define _ params body | block params body | lambda params body =>
    params.flatMap Part.ofParam ++ [.operand body]
  | other => other.children.map .operand

/-- What is listed of a node besides its parts. -/
def mentions (id : NodeId) : Node → List Mention
  | ident name => [.read id name]
  | define _ _ _ | block _ _ | lambda _ _ => [.callable id]
  | _ => []

/-- The regions that are seen at the parts of a node: methods do not see what is around them. -/
def inside (id : NodeId) (around : List Region) : Node → List Region
  | define _ _ _ => [some id]
  | block _ _ | lambda _ _ => some id :: around
  | _ => around

end Node

/-- What the parts of a node contribute to a listing, given the listings of operands. -/
def Part.entries (listing : NodeId → List Entry) (around : List Region) : Part → List Entry
  | operand id => listing id
  | target name => [⟨.target name, around⟩]
  | param name => [⟨.param name, around⟩]

/-- The listing of a node and of what lies below it, down to a number of levels. -/
def NodeTable.listing (table : NodeTable) : Nat → List Region → NodeId → List Entry
  | 0, _, _ => []
  | levels + 1, around, id =>
    match table.node? id with
    | some node =>
      (node.mentions id).map (⟨·, around⟩) ++
        node.parts.flatMap
          (Part.entries (table.listing levels (node.inside id around)) (node.inside id around))
    | none => []

/-- The listing of the program under a root. -/
def NodeTable.program (table : NodeTable) (root : NodeId) : List Entry :=
  table.listing (root.index + 1) [none] root

/-! ### Names in a listing -/

section Names

variable (predeclared : List Name)

/-- The name is declared in a region.  Predeclared names are declared in the program. -/
def Declares (entries : List Entry) (region : Region) (name : Name) : Prop :=
  (region = none ∧ name ∈ predeclared) ∨
    (name.isEmpty = false ∧ ∃ around, ⟨.target name, region :: around⟩ ∈ entries ∨
      ⟨.param name, region :: around⟩ ∈ entries)

/-- The name is declared in some region that is seen. -/
def Seen (entries : List Entry) (around : List Region) (name : Name) : Prop :=
  ∃ region ∈ around, Declares predeclared entries region name

/-- The name belongs to a region: it is predeclared, a parameter, or the target of an assignment
that is not seen already in the regions around.  These are judged by what is listed before the
region. -/
def OwnedBy (entries before : List Entry) (region : Region) (name : Name) : Prop :=
  (region = none ∧ name ∈ predeclared) ∨
    (name.isEmpty = false ∧ ((∃ around, ⟨.param name, region :: around⟩ ∈ entries) ∨
      ∃ around, ⟨.target name, region :: around⟩ ∈ entries ∧
        ¬ Seen predeclared before around name))

/-- Owned names and unbound reads are as the listing of the program gives them. -/
structure Resolution.Hoists (res : Resolution) (table : NodeTable) (root : NodeId) : Prop where
  /-- A callable owns what belongs to it. -/
  callable : ∀ id ∈ table.subtree (root.index + 1) root, (table.callable? id).isSome → id ≠ root →
    (res.ownedNames id).Nodup ∧
    (∃ around, ⟨.callable id, around⟩ ∈ table.program root) ∧
    ∀ before around after, table.program root = before ++ ⟨.callable id, around⟩ :: after →
      ∀ name, name ∈ res.ownedNames id ↔
        OwnedBy predeclared (table.program root) before (some id) name
  /-- The program owns what belongs to it. -/
  program : (res.ownedNames root).Nodup ∧
    ∀ name, name ∈ res.ownedNames root ↔
      OwnedBy predeclared (table.program root) [] none name
  /-- A read is unbound exactly when no declaration that it sees comes before it. -/
  read : ∀ id ∈ table.subtree (root.index + 1) root, ∀ name, table.node? id = some (.ident name) →
    (∃ around, ⟨.read id name, around⟩ ∈ table.program root) ∧
    ∀ before around after, table.program root = before ++ ⟨.read id name, around⟩ :: after →
      (res.isUnbound id = true ↔ ¬ Seen predeclared before around name)
  /-- Nothing but reads of the program is unbound. -/
  only : ∀ id, res.isUnbound id = true →
    id ∈ table.subtree (root.index + 1) root ∧ ∃ name, table.node? id = some (.ident name)

end Names

end ScriptSemantics
