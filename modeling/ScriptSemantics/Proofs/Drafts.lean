import ScriptSemantics.Proofs.Listing

/-!
# Listing along the route

A listing can be drafted while the walk makes its moves: every move adds at most one entry, and the
regions around the present place are kept on a stack.

## Main Definitions

* `Draft` — the listing so far and the regions around the present place
* `Draft.step` — what one move adds

## Main Results

* `Draft.run_route` — along the route of a node, the listing of the node is added
* `Draft.marks_run` — every read and every callable on the route is listed
-/

namespace ScriptSemantics

/-- A region around the present place. -/
structure OpenRegion where
  region : Region
  /-- Blocks and lambdas see the names around them. -/
  seesEnclosing : Bool
  /-- The entries before the region. -/
  before : List Entry

/-- The regions whose names are seen, innermost first. -/
def seenRegions : List OpenRegion → List Region
  | [] => []
  | top :: rest => top.region :: if top.seesEnclosing then seenRegions rest else []

/-- The regions around an open one whose names are seen inside of it. -/
def OpenRegion.around (top : OpenRegion) (rest : List OpenRegion) : List Region :=
  if top.seesEnclosing then seenRegions rest else []

theorem seenRegions_cons (top : OpenRegion) (rest : List OpenRegion) :
    seenRegions (top :: rest) = top.region :: top.around rest := rfl

theorem mem_seenRegions {region : Region} {stack : List OpenRegion}
    (h : region ∈ seenRegions stack) : region ∈ stack.map OpenRegion.region := by
  induction stack with
  | nil => exact h
  | cons top rest ih =>
    rw [seenRegions_cons, OpenRegion.around] at h
    rcases List.mem_cons.mp h with rfl | h
    · exact List.mem_cons_self
    · split at h
      · exact List.mem_cons_of_mem _ (ih h)
      · cases h

theorem OpenRegion.mem_around {region : Region} {top : OpenRegion} {rest : List OpenRegion}
    (h : region ∈ top.around rest) : region ∈ rest.map OpenRegion.region := by
  rw [around] at h
  split at h
  · exact mem_seenRegions h
  · cases h

/-- A listing up to some place. -/
structure Draft where
  stack : List OpenRegion
  entries : List Entry

namespace Draft

/-- The draft before a program. -/
def start : Draft where
  stack := [{ region := none, seesEnclosing := false, before := [] }]
  entries := []

/-- Add an entry. -/
def add (draft : Draft) (mention : Mention) : Draft :=
  { draft with entries := draft.entries ++ [⟨mention, seenRegions draft.stack⟩] }

/-- What one move of the walk adds. -/
def step (draft : Draft) : Move → Draft
  | .visit _ | .check _ => draft
  | .read id name => draft.add (.read id name)
  | .declare name => draft.add (.target name)
  | .param name => draft.add (.param name)
  | .enter root seesEnclosing =>
    { stack := { region := some root, seesEnclosing, before := draft.entries } :: draft.stack
      entries := (draft.add (.callable root)).entries }
  | .leave => { draft with stack := draft.stack.tail }

/-- What several moves add. -/
def run (draft : Draft) (list : List Move) : Draft :=
  list.foldl step draft

/-- Add several entries. -/
def append (draft : Draft) (entries : List Entry) : Draft :=
  { draft with entries := draft.entries ++ entries }

variable {draft : Draft}

@[simp]
theorem run_nil : draft.run [] = draft := rfl

@[simp]
theorem run_cons (first : Move) (rest : List Move) :
    draft.run (first :: rest) = (draft.step first).run rest := rfl

@[simp]
theorem run_append (xs ys : List Move) : draft.run (xs ++ ys) = (draft.run xs).run ys :=
  List.foldl_append

@[simp]
theorem append_nil : draft.append [] = draft := by
  simp [append]

@[simp]
theorem append_append (xs ys : List Entry) :
    (draft.append xs).append ys = draft.append (xs ++ ys) := by
  simp [append]

end Draft

/-! ### The parts of a node -/

/-- The move that goes over a part of a node. -/
def Part.move : Part → Move
  | operand id => .visit id
  | target name => .declare name
  | param name => .param name

namespace Node

theorem map_move_ofParams (params : ParamList) :
    (params.flatMap Part.ofParam).map Part.move = params.flatMap Move.ofParam := by
  rw [List.map_flatMap]
  congr 1
  funext param
  simp [Part.ofParam, Move.ofParam, Part.move, Function.comp_def]

/-- The walk goes over the parts of a callable in source order. -/
theorem moves_parts_of_callable {node : Node} {params : ParamList} {body : NodeId} {sees : Bool}
    (h : node.callable? = some (params, body, sees)) (id : NodeId) :
    node.moves id = .check params :: .enter id sees :: (node.parts.map Part.move ++ [.leave]) := by
  have hparts : node.parts = params.flatMap Part.ofParam ++ [.operand body] := by
    cases node <;> cases h <;> rfl
  rw [moves_of_callable h, hparts, List.map_append, map_move_ofParams]
  rfl

/-- The walk goes over the parts of any other node in source order. -/
theorem moves_parts {node : Node} (h : node.callable? = none) (hident : ∀ name, node ≠ .ident name)
    (id : NodeId) : node.moves id = node.parts.map Part.move := by
  have operands : ∀ ids : List NodeId, ids.map Move.visit = (ids.map Part.operand).map Part.move := by
    intro ids
    simp [Part.move, Function.comp_def]
  cases node with
  | define | block | lambda => cases h
  | ident name => exact absurd rfl (hident name)
  | assign name value => simp [moves, parts, Part.move, Function.comp_def]
  | opAssign => rfl
  | loop kind test body bodyFirst => cases bodyFirst <;> rfl
  | begin body clauses elseBranch ensure =>
    have hclauses : (clauses.flatMap Part.ofClause).map Part.move =
        clauses.flatMap Move.ofClause := by
      rw [List.map_flatMap]
      congr 1
      funext clause
      simp [Part.ofClause, Move.ofClause, Part.move, Function.comp_def]
    simp only [moves, parts, operands, List.map_cons, List.map_append, hclauses]
    rfl
  | _ => exact operands _

end Node

namespace Draft

variable {table : NodeTable} {levels : Nat}

/-- Over the parts of a node, their entries are added. -/
theorem run_parts
    (operands : ∀ id (draft : Draft), draft.run (table.route levels id) =
      draft.append (table.listing levels (seenRegions draft.stack) id))
    (parts : List Part) (draft : Draft) :
    draft.run ((parts.map Part.move).flatMap (Move.expand (table.route levels))) =
      draft.append (parts.flatMap (Part.entries
        (table.listing levels (seenRegions draft.stack)) (seenRegions draft.stack))) := by
  induction parts generalizing draft with
  | nil => simp
  | cons first rest ih =>
    have hfirst : draft.run (first.move.expand (table.route levels)) =
        draft.append (first.entries (table.listing levels (seenRegions draft.stack))
          (seenRegions draft.stack)) := by
      cases first with
      | operand id => exact operands id draft
      | target name | param name => rfl
    simp only [List.map_cons, List.flatMap_cons, run_append, hfirst, ih, append_append]
    rfl

/-- Along the route of a node, the listing of the node is added. -/
theorem run_route (table : NodeTable) (levels : Nat) (id : NodeId) (draft : Draft) :
    draft.run (table.route levels id) =
      draft.append (table.listing levels (seenRegions draft.stack) id) := by
  induction levels generalizing id draft with
  | zero => simp [NodeTable.route, NodeTable.listing, step]
  | succ levels ih =>
    rw [NodeTable.route, NodeTable.listing]
    cases table.node? id with
    | none => simp [step]
    | some node =>
      dsimp only
      cases hcallable : node.callable? with
      | some callable =>
        obtain ⟨params, body, sees⟩ := callable
        -- a callable is listed itself, and its parts inside of a new region
        have hmentions : node.mentions id = [.callable id] := by
          cases node <;> cases hcallable <;> rfl
        have hinside : node.inside id (seenRegions draft.stack) =
            some id :: if sees then seenRegions draft.stack else [] := by
          cases node <;> cases hcallable <;> rfl
        rw [Node.moves_parts_of_callable hcallable, hmentions, hinside, List.flatMap_cons,
          List.flatMap_cons, List.flatMap_append, run_append, run_append, run_append,
          run_parts ih]
        exact congrArg (Draft.mk draft.stack) (List.append_assoc draft.entries _ _)
      | none =>
        by_cases hident : ∃ name, node = .ident name
        · obtain ⟨name, rfl⟩ := hident
          rfl
        -- other nodes have no entry, and their parts are inside of the same regions
        · have hident : ∀ name, node ≠ .ident name := fun name h => hident ⟨name, h⟩
          have hmentions : node.mentions id = [] := by
            cases node with
            | define | block | lambda => cases hcallable
            | ident name => exact absurd rfl (hident name)
            | _ => rfl
          have hinside : node.inside id (seenRegions draft.stack) = seenRegions draft.stack := by
            cases node with
            | define | block | lambda => cases hcallable
            | _ => rfl
          rw [Node.moves_parts hcallable hident, run_parts ih, hmentions, hinside]
          rfl

/-! ### Marks -/

end Draft

/-- The node of a read or of a callable. -/
def Mention.mark? : Mention → Option NodeId
  | read id _ | callable id => some id
  | _ => none

/-- The reads and callables among some entries. -/
def Entry.marks (entries : List Entry) : List NodeId :=
  entries.filterMap (·.mention.mark?)

namespace Draft

variable {draft : Draft}

theorem marks_step (draft : Draft) (move : Move) :
    Entry.marks (draft.step move).entries = Entry.marks draft.entries ++ move.mark?.toList := by
  cases move <;> simp [step, add, Entry.marks, Move.mark?, Mention.mark?]

/-- Every read and every callable on the way is listed. -/
theorem marks_run (draft : Draft) (list : List Move) :
    Entry.marks (draft.run list).entries =
      Entry.marks draft.entries ++ list.filterMap Move.mark? := by
  induction list generalizing draft with
  | nil => simp
  | cons first rest ih =>
    rw [run_cons, ih, marks_step, List.append_assoc, List.filterMap_cons]
    cases first.mark? <;> rfl

end Draft

/-- The reads and callables of a listing are those at or below its start. -/
theorem NodeTable.marks_listing_perm (table : NodeTable) (levels : Nat) (id : NodeId) :
    (Entry.marks (table.listing levels [none] id)).Perm (table.marked (table.subtree levels id)) := by
  have h := Draft.marks_run .start (table.route levels id)
  rw [Draft.run_route] at h
  have hmarks : Entry.marks (table.listing levels [none] id) =
      (table.route levels id).filterMap Move.mark? := by
    simpa [Draft.start, Draft.append, seenRegions, Entry.marks] using h
  rw [hmarks]
  exact table.marks_route_perm levels id

end ScriptSemantics
