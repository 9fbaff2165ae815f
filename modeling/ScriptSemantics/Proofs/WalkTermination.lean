import ScriptSemantics.Proofs.BuiltTables
import ScriptSemantics.Proofs.SequenceWalk
import ScriptSemantics.Proofs.StaticRejection

/-!
# The walk ends on every table that was built

Nodes refer to each other by ids, so a node may be shared and nothing in the shape of a table keeps
a node from lying below itself.  In a table that was built, operands precede their nodes.  So the
walk of resolution, which goes from nodes to operands, comes to an end at every root.

## Main Definitions

* `NodeTable.IsOperand` — a node is an operand of another one
* `WalkStep.IsWalk` — a way to walk nodes that makes the moves at each node, without a bound on the
  levels
* `WalkStep.whole` — the walk over a node with the levels that `resolve` allows
* `NodeTable.Resolves` — what is said of resolution on a table

## Main Results

* `NodeTable.Founded.wellFounded_isOperand` — no chain of operands goes on forever
* `WalkStep.visit_eq_whole`, `WalkStep.isWalk_whole`, `WalkStep.IsWalk.eq_whole` — the bound on the
  levels makes no difference: the walk is the one solution of its recursion
* `BuilderSession.resolution_is_well_founded` — resolution on every table that was built
-/

namespace ScriptSemantics

variable {table : NodeTable} {levels : Nat} {root id : NodeId} {w : Walk}

/-! ### Operands -/

namespace NodeTable

/-- A node is an operand of another one. -/
def IsOperand (table : NodeTable) (child id : NodeId) : Prop :=
  ∃ node, table.node? id = some node ∧ child ∈ node.children

theorem Founded.index_lt (founded : table.Founded) {child : NodeId} (h : table.IsOperand child id) :
    child.index < id.index := by
  obtain ⟨node, hnode, hchild⟩ := h
  exact founded id node hnode child hchild

theorem Founded.wellFounded_isOperand (founded : table.Founded) : WellFounded table.IsOperand :=
  Subrelation.wf (fun h => founded.index_lt h) (measure NodeId.index).wf

/-- What can be reached from a node of the table is in the table. -/
theorem Founded.lt_of_reaches (founded : table.Founded) (hroot : root.index < table.size)
    (h : table.Reaches root id) : id.index < table.size := by
  induction h with
  | refl => exact hroot
  | operand _ found mem ih => exact Nat.lt_trans (founded.index_lt ⟨_, found, mem⟩) ih

end NodeTable

/-! ### The recursion of the walk -/

namespace WalkStep

variable {step step' : NodeId → WalkStep}

/-- Moves depend on the nodes that they visit only. -/
theorem moves_eq_of_visits {list : List Move} (visits : ∀ id, .visit id ∈ list → step' id = step id) :
    moves step' list = moves step list := by
  funext w
  induction list generalizing w with
  | nil => rfl
  | cons first rest ih =>
    have hfirst : move step' first = move step first := by
      cases first with
      | visit id => exact visits id List.mem_cons_self
      | _ => rfl
    rw [moves, moves, hfirst]
    exact congrArg (move step first w >>= ·)
      (funext (ih fun id hid => visits id (List.mem_cons_of_mem _ hid)))

/-- The moves at a node depend on its operands only. -/
theorem moves_eq_of_children (node : Node) (id : NodeId)
    (operands : ∀ child ∈ node.children, step' child = step child) :
    moves step' (node.moves id) = moves step (node.moves id) :=
  moves_eq_of_visits fun child hvisit => operands child
    ((node.visited_moves_perm id).mem_iff.mp (List.mem_filterMap.mpr ⟨_, hvisit, rfl⟩))

/-- The walk over a node with the levels that `resolve` allows it. -/
def whole (table : NodeTable) (id : NodeId) : WalkStep :=
  visit table (id.index + 1) id

/-- At each node of the table the moves are made, and operands are walked in the same way.  Nothing
bounds the levels. -/
def IsWalk (table : NodeTable) (step : NodeId → WalkStep) : Prop :=
  ∀ id node, table.node? id = some node → step id = moves step (node.moves id)

/-- More levels than `resolve` allows make no difference. -/
theorem visit_eq_whole (founded : table.Founded) (hlevels : id.index < levels) :
    visit table levels id = whole table id := by
  induction id using founded.wellFounded_isOperand.induction generalizing levels with
  | _ id ih =>
    obtain ⟨levels, rfl⟩ : ∃ k, levels = k + 1 := ⟨levels - 1, by omega⟩
    rw [whole, visit, visit]
    cases hnode : table.node? id with
    | none => rfl
    | some node =>
      refine moves_eq_of_children node id fun child hchild => ?_
      have operand : table.IsOperand child id := ⟨node, hnode, hchild⟩
      have hlt := founded.index_lt operand
      rw [ih child operand (by omega), ih child operand hlt]

theorem isWalk_whole (founded : table.Founded) : IsWalk table (whole table) := by
  intro id node hnode
  rw [whole, visit_succ hnode]
  exact moves_eq_of_children node id fun child hchild =>
    visit_eq_whole founded (founded id node hnode child hchild)

/-- There is no other way to walk the nodes of the table. -/
theorem IsWalk.eq_whole (h : IsWalk table step) (founded : table.Founded)
    (hid : id.index < table.size) : step id = whole table id := by
  induction id using founded.wellFounded_isOperand.induction with
  | _ id ih =>
    obtain ⟨node, hnode⟩ := NodeTable.exists_node hid
    rw [h id node hnode, isWalk_whole founded id node hnode]
    refine moves_eq_of_children node id fun child hchild => ?_
    have operand : table.IsOperand child id := ⟨node, hnode, hchild⟩
    exact ih child operand (Nat.lt_trans (founded.index_lt operand) hid)

/-- The walk over a node of the table comes to no node that is missing. -/
theorem whole_ne_unfounded (founded : table.Founded) (hid : id.index < table.size) (w : Walk) :
    whole table id w ≠ .error .unfounded := by
  intro h
  obtain ⟨fault, -, hcause⟩ := breaks_of_visit founded (Nat.lt_succ_self _) hid h
  cases hcause

/-- The walk over a program ends in the scope root that it started in. -/
theorem scopes_of_whole {predeclared : List Name}
    (h : whole table root (.start root predeclared) = .ok w) :
    ∃ declared, w.scopes = [{ root, declared, seesEnclosing := false }] := by
  have hresolve : resolve table root predeclared = .ok w.leave.found := by
    rw [resolve]
    exact congrArg (· >>= fun w : Walk => pure w.leave.found) h
  obtain ⟨w', declared, walked⟩ := exists_walked hresolve
  obtain rfl : w' = w := Except.ok.inj (walked.visit.symm.trans h)
  exact ⟨declared, walked.scopes⟩

end WalkStep

/-! ### Resolution -/

/-- Resolution is well founded on the table: the ids of operands are smaller, so the walk ends
without a bound on its levels, finds every node that it comes to, and leaves the scope roots that it
enters. -/
structure NodeTable.Resolves (table : NodeTable) : Prop where
  precedes : ∀ id node, table.node? id = some node → ∀ child ∈ node.children,
    child.index < id.index
  wellFounded : WellFounded table.IsOperand
  /-- The walk does at each node what it has to do, with no bound on the levels. -/
  isWalk : WalkStep.IsWalk table (WalkStep.whole table)
  unique : ∀ step, WalkStep.IsWalk table step → ∀ id, id.index < table.size →
    step id = WalkStep.whole table id
  /-- The levels that are allowed are enough. -/
  levels : ∀ id levels, id.index < levels → WalkStep.visit table levels id = WalkStep.whole table id
  reached : ∀ root id, root.index < table.size → table.Reaches root id → id.index < table.size
  inside : ∀ id, id.index < table.size → ∀ w, WalkStep.whole table id w ≠ .error .unfounded
  /-- After a walk that succeeds, only the scope root of the program is open. -/
  top : ∀ root predeclared w, WalkStep.whole table root (.start root predeclared) = .ok w →
    ∃ declared, w.scopes = [{ root, declared, seesEnclosing := false }]
  /-- A program is resolved or rejected for parameters that break the rules. -/
  answers : ∀ root, root.index < table.size → ∀ predeclared,
    (∃ res, resolve table root predeclared = .ok res) ∨
      ∃ fault, resolve table root predeclared = .error (.invalidParams fault)

theorem NodeTable.Founded.resolves (founded : table.Founded) : table.Resolves where
  precedes := founded
  wellFounded := founded.wellFounded_isOperand
  isWalk := WalkStep.isWalk_whole founded
  unique _ walks _ hid := walks.eq_whole founded hid
  levels _ _ hlevels := WalkStep.visit_eq_whole founded hlevels
  reached _ _ hroot hreach := founded.lt_of_reaches hroot hreach
  inside _ hid w := WalkStep.whole_ne_unfounded founded hid w
  top _ _ _ h := WalkStep.scopes_of_whole h
  answers root hroot predeclared := by
    cases hresolve : resolve table root predeclared with
    | ok res => exact .inl ⟨res, rfl⟩
    | error cause =>
      obtain ⟨fault, -, rfl⟩ := breaks_of_resolve founded hroot hresolve
      exact .inr ⟨fault, rfl⟩

namespace BuilderSession

/-- Resolution is well founded on every table that was built from ids that had been handed out. -/
theorem resolution_is_well_founded {names : NameTable} {session : BuilderSession}
    (built : Built names session) : session.program.nodes.Resolves :=
  built.founded.1.resolves

/-- One integer is twice a value in a hash and the fallback of a block, and the hash is both an
argument of a call and the body of the block that the call is given. -/
def shared : BuilderSession :=
  (((start .initial).apply (.add (.int 1))).apply (.symHash [("a", ⟨0⟩), ("b", ⟨0⟩)])).apply
    (.callWithBlock "m" [⟨3⟩] [⟨.empty, .optional ⟨0⟩⟩] ⟨3⟩)

theorem shared_nodes_resolve :
    Built .initial shared ∧ shared.program.nodes.size = 6 ∧ shared.returned = [⟨0⟩, ⟨3⟩, ⟨5⟩] ∧
      shared.program.nodes.Resolves := by
  have built : Built .initial shared := by
    unfold shared
    refine .call _ (.call _ (.call _ .start ?_) ?_) ?_
    · decide
    · decide
    · decide
  exact ⟨built, by decide, by decide, resolution_is_well_founded built⟩

end BuilderSession

end ScriptSemantics
