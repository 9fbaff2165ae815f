import ScriptSemantics.Proofs.AlikeWalks
import ScriptSemantics.Proofs.Standing

/-!
# The route of the walk

The walk over a node makes the moves at the node and at everything below it.  Which moves these are
does not depend on the state of the walk, so the walk is a pass over one flat list.

## Main Definitions

* `NodeTable.route` — the moves of the walk over a node, down to a number of levels
* `Move.mark?` — the node that a move reads or enters

## Main Results

* `WalkStep.visit_eq_route` — the walk over a node makes the moves of its route
* `NodeTable.marks_route_perm` — the route reads and enters every node at or below its start once
* `WalkStep.exists_visit` — the walk over a node whose callables have valid parameters succeeds
-/

namespace ScriptSemantics

/-- The moves in place of one move: those of an operand instead of its visit. -/
def Move.expand (route : NodeId → List Move) : Move → List Move
  | .visit id => route id
  | move => [move]

/-- The moves of the walk over a node.  A visit is left where the levels or the nodes end. -/
def NodeTable.route (table : NodeTable) : Nat → NodeId → List Move
  | 0, id => [.visit id]
  | levels + 1, id =>
    match table.node? id with
    | some node => (node.moves id).flatMap (Move.expand (table.route levels))
    | none => [.visit id]

variable {table : NodeTable} {levels : Nat} {id : NodeId} {node : Node} {w w' : Walk}

theorem NodeTable.route_succ (hnode : table.node? id = some node) :
    table.route (levels + 1) id = (node.moves id).flatMap (Move.expand (table.route levels)) := by
  rw [route, hnode]

/-! ### The walk as a pass over its route -/

namespace WalkStep

/-- A visit of a node that is not there. -/
def lost (_ : NodeId) : WalkStep := fun _ => .error .unfounded

theorem moves_append_eq {step : NodeId → WalkStep} (xs ys : List Move) (w : Walk) :
    moves step (xs ++ ys) w = moves step xs w >>= moves step ys := by
  induction xs generalizing w with
  | nil => rfl
  | cons first rest ih =>
    simp only [List.cons_append, moves]
    cases move step first w with
    | error => rfl
    | ok w => exact ih w

theorem moves_expand {step : NodeId → WalkStep} {route : NodeId → List Move}
    (h : ∀ id, step id = moves lost (route id)) (list : List Move) (w : Walk) :
    moves step list w = moves lost (list.flatMap (Move.expand route)) w := by
  induction list generalizing w with
  | nil => rfl
  | cons first rest ih =>
    have hfirst : move step first w = moves lost (first.expand route) w := by
      cases first with
      | visit id => exact congrFun (h id) w
      | check params =>
        simp only [move, Move.expand, moves]
        split <;> rfl
      | _ => rfl
    rw [List.flatMap_cons, moves_append_eq, ← hfirst, moves]
    congr 1
    funext w
    exact ih w

/-- The walk over a node makes the moves of its route. -/
theorem visit_eq_route (table : NodeTable) (levels : Nat) (id : NodeId) :
    visit table levels id = moves lost (table.route levels id) := by
  induction levels generalizing id with
  | zero => rfl
  | succ levels ih =>
    funext w
    rw [visit, NodeTable.route]
    cases table.node? id with
    | none => rfl
    | some node => exact moves_expand ih _ w

end WalkStep

/-! ### Marks -/

/-- The node that a move reads or enters. -/
def Move.mark? : Move → Option NodeId
  | .read id _ | .enter id _ => some id
  | _ => none

/-- Whether the walk reads or enters a node. -/
def Node.isMarked : Node → Bool
  | .ident _ | .define _ _ _ | .block _ _ | .lambda _ _ => true
  | _ => false

namespace NodeTable

/-- The nodes among some that the walk reads or enters. -/
def marked (table : NodeTable) (ids : List NodeId) : List NodeId :=
  ids.filter fun id => (table.node? id).any Node.isMarked

theorem marked_cons (hnode : table.node? id = some node) (ids : List NodeId) :
    table.marked (id :: ids) = (if node.isMarked then [id] else []) ++ table.marked ids := by
  rw [marked, marked, List.filter_cons, hnode, Option.any_some]
  split <;> rfl

theorem marked_flatMap (ids : List NodeId) (f : NodeId → List NodeId) :
    table.marked (ids.flatMap f) = ids.flatMap fun id => table.marked (f id) := by
  induction ids with
  | nil => rfl
  | cons id rest ih =>
    rw [marked] at ih
    rw [List.flatMap_cons, marked, List.filter_append, ih]
    rfl

end NodeTable

theorem Move.marks_expand {route : NodeId → List Move} (list : List Move)
    (h : list.filterMap Move.mark? = []) :
    (list.flatMap (Move.expand route)).filterMap Move.mark? =
      (list.filterMap Move.visited?).flatMap fun id => (route id).filterMap Move.mark? := by
  induction list with
  | nil => rfl
  | cons first rest ih =>
    rw [List.filterMap_cons] at h
    cases hfirst : first.mark? with
    | some id =>
      rw [hfirst] at h
      cases h
    | none =>
      rw [hfirst] at h
      rw [List.flatMap_cons, List.filterMap_append, ih h]
      cases first with
      | visit id => rfl
      | read | enter => cases hfirst
      | _ => rfl

theorem Node.mark_eq_none {move : Move} (h : move ∈ node.moves id) (inner : move.IsInner)
    (hnode : ∀ name, node ≠ .ident name) : move.mark? = none := by
  cases move with
  | read other name => exact absurd (Node.read_mem_moves h).2 (hnode name)
  | enter | leave => exact absurd inner not_false
  | _ => rfl

/-- The moves at a node read or enter the node itself, then go on to the operands. -/
theorem Node.marks_moves (node : Node) (id : NodeId) (route : NodeId → List Move) :
    ((node.moves id).flatMap (Move.expand route)).filterMap Move.mark? =
      (if node.isMarked then [id] else []) ++
        ((node.moves id).filterMap Move.visited?).flatMap fun id => (route id).filterMap Move.mark? := by
  cases hcallable : node.callable? with
  | some callable =>
    obtain ⟨params, body, sees⟩ := callable
    have hmarked : node.isMarked = true := by
      cases node with
      | define | block | lambda => rfl
      | _ => cases hcallable
    have hmoves := Node.moves_of_callable hcallable id
    -- after the callable itself, only its operands are marked
    have none_inside : (Move.inside params body ++ [Move.leave]).filterMap Move.mark? = [] := by
      refine List.filterMap_eq_nil_iff.mpr fun move hmove => ?_
      rcases List.mem_append.mp hmove with hinside | hleave
      · have hmem : move ∈ node.moves id := by
          rw [hmoves]
          exact List.mem_cons_of_mem _ (List.mem_cons_of_mem _ hmove)
        refine Node.mark_eq_none hmem (Move.isInner_inside hinside) ?_
        rintro name rfl
        cases hcallable
      · cases List.mem_singleton.mp hleave
        rfl
    rw [hmoves, List.flatMap_cons, List.flatMap_cons, List.filterMap_append, List.filterMap_append,
      Move.marks_expand _ none_inside, hmarked]
    rfl
  | none =>
    have inner := Node.moves_of_not_callable hcallable id
    by_cases hident : ∃ name, node = .ident name
    · obtain ⟨name, rfl⟩ := hident
      rfl
    · have hmarked : node.isMarked = false := by
        cases node with
        | define | block | lambda => cases hcallable
        | ident name => exact absurd ⟨name, rfl⟩ hident
        | _ => rfl
      -- a node that is not marked marks nothing but its operands
      have none_here : (node.moves id).filterMap Move.mark? = [] :=
        List.filterMap_eq_nil_iff.mpr fun move hmove =>
          Node.mark_eq_none hmove (inner move hmove).1 fun name hname => hident ⟨name, hname⟩
      rw [Move.marks_expand _ none_here, hmarked]
      rfl

/-- Only callables check parameters. -/
theorem Node.check_mem_moves {params : ParamList} (h : .check params ∈ node.moves id) :
    ∃ body sees, node.callable? = some (params, body, sees) := by
  have ofParam : ∀ param : Param, .check params ∉ Move.ofParam param := by
    intro param hmem
    simp [Move.ofParam] at hmem
  cases node with
  | define name list body | block list body | lambda list body =>
    simp only [moves, Move.ofCallable, List.mem_cons, List.mem_append, List.mem_flatMap,
      Move.check.injEq] at h
    simp [ofParam] at h
    exact ⟨body, _, by rw [h]; rfl⟩
  | loop kind test body bodyFirst => cases bodyFirst <;> simp [moves] at h
  | begin => simp [moves, Move.ofClause] at h
  | _ => simp [moves, children] at h

namespace NodeTable

/-- The route reads and enters the nodes at or below its start, each as often as it lies there. -/
theorem marks_route_perm (table : NodeTable) (levels : Nat) (id : NodeId) :
    ((table.route levels id).filterMap Move.mark?).Perm
      (table.marked (table.subtree levels id)) := by
  induction levels generalizing id with
  | zero => exact .nil
  | succ levels ih =>
    cases hnode : table.node? id with
    | none =>
      rw [route, subtree, hnode, marked, List.filter_cons, hnode]
      exact .nil
    | some node =>
      rw [route_succ hnode, subtree, hnode, marked_cons hnode, Node.marks_moves, marked_flatMap]
      refine .append_left _ ?_
      exact (List.Perm.flatMap_left _ fun id _ => ih id).trans
        ((node.visited_moves_perm id).flatMap_right _)

/-! ### Complete routes -/

theorem index_lt_of_node (h : table.node? id = some node) : id.index < table.size := by
  rw [node?] at h
  exact (Array.getElem?_eq_some_iff.mp h).1

instance (table : NodeTable) : Decidable table.Founded :=
  decidable_of_iff
    (∀ i ∈ List.range table.size, ∀ node ∈ table.node? ⟨i⟩, ∀ child ∈ node.children,
      child.index < i) <| by
    constructor
    · intro h id node hnode child hchild
      exact h id.index (List.mem_range.mpr (index_lt_of_node hnode)) node hnode child hchild
    · intro h i _ node hnode child hchild
      exact h ⟨i⟩ node hnode child hchild

theorem exists_node (h : id.index < table.size) : ∃ node, table.node? id = some node :=
  ⟨table.nodes[id.index], Array.getElem?_eq_getElem h⟩

/-- In a table where operands precede their nodes, no visit is left in a route. -/
theorem visit_not_mem_route (founded : table.Founded) (hlevels : id.index < levels)
    (hid : id.index < table.size) (child : NodeId) : .visit child ∉ table.route levels id := by
  induction levels generalizing id with
  | zero => exact absurd hlevels (Nat.not_lt_zero _)
  | succ levels ih =>
    obtain ⟨node, hnode⟩ := exists_node hid
    rw [route_succ hnode, List.mem_flatMap]
    rintro ⟨move, hmove, hmem⟩
    cases move with
    | visit operand =>
      have hoperand : operand ∈ node.children :=
        (node.visited_moves_perm id).mem_iff.mp (List.mem_filterMap.mpr ⟨_, hmove, rfl⟩)
      have hlt := founded id node hnode operand hoperand
      exact ih (by omega) (by omega) hmem
    | _ => cases List.mem_singleton.mp hmem

/-- The parameters that a route checks are those of callables at or below its start. -/
theorem check_mem_route {params : ParamList} (h : .check params ∈ table.route levels id) :
    ∃ root ∈ table.subtree levels id, ∃ body sees, table.callable? root = some (params, body, sees) := by
  induction levels generalizing id with
  | zero => cases List.mem_singleton.mp h
  | succ levels ih =>
    cases hnode : table.node? id with
    | none =>
      rw [route, hnode] at h
      cases List.mem_singleton.mp h
    | some node =>
      rw [route_succ hnode, List.mem_flatMap] at h
      obtain ⟨move, hmove, hmem⟩ := h
      rw [subtree, hnode]
      cases move with
      | visit operand =>
        obtain ⟨root, hroot, hcallable⟩ := ih hmem
        have hoperand : operand ∈ node.children :=
          (node.visited_moves_perm id).mem_iff.mp (List.mem_filterMap.mpr ⟨_, hmove, rfl⟩)
        exact ⟨root, List.mem_cons_of_mem _ (List.mem_flatMap.mpr ⟨operand, hoperand, hroot⟩),
          hcallable⟩
      | check list =>
        cases List.mem_singleton.mp hmem
        obtain ⟨body, sees, hcallable⟩ := Node.check_mem_moves hmove
        refine ⟨id, List.mem_cons_self, body, sees, ?_⟩
        rw [callable?, hnode]
        exact hcallable
      | _ => cases List.mem_singleton.mp hmem

end NodeTable

namespace WalkStep

/-- Moves without visits whose parameters are in order succeed. -/
theorem exists_moves {list : List Move} (visits : ∀ id, .visit id ∉ list)
    (valid : ∀ params, .check params ∈ list → params.validate = .ok ()) (w : Walk) :
    ∃ w', moves lost list w = .ok w' := by
  induction list generalizing w with
  | nil => exact ⟨w, rfl⟩
  | cons first rest ih =>
    have hfirst : ∃ mid, move lost first w = .ok mid := by
      cases first with
      | visit id => exact absurd List.mem_cons_self (visits id)
      | check params => exact ⟨w, move_check.mpr ⟨valid params List.mem_cons_self, rfl⟩⟩
      | _ => exact ⟨_, rfl⟩
    obtain ⟨mid, hmid⟩ := hfirst
    obtain ⟨w', hrest⟩ := ih (fun id hmem => visits id (List.mem_cons_of_mem _ hmem))
      (fun params hmem => valid params (List.mem_cons_of_mem _ hmem)) mid
    exact ⟨w', moves_cons.mpr ⟨mid, hmid, hrest⟩⟩

/-- The walk over a node succeeds when the callables at or below it have valid parameters. -/
theorem exists_visit (founded : table.Founded) (hlevels : id.index < levels)
    (hid : id.index < table.size)
    (valid : ∀ root ∈ table.subtree levels id, ∀ callable ∈ table.callable? root,
      callable.1.validate = .ok ()) (w : Walk) :
    ∃ w', visit table levels id w = .ok w' := by
  rw [visit_eq_route]
  refine exists_moves (table.visit_not_mem_route founded hlevels hid) (fun params hmem => ?_) w
  obtain ⟨root, hroot, body, sees, hcallable⟩ := table.check_mem_route hmem
  exact valid root hroot (params, body, sees) hcallable

end WalkStep

end ScriptSemantics
