import ScriptSemantics.Proofs.MovedPrograms
import ScriptSemantics.Proofs.Sites

/-!
# Spare nodes

Nodes that nothing refers to may stand anywhere in the table of a program.  The nodes behind them
move up, and this is all that changes.

## Main Definitions

* `NodeId.shift` — where a node goes
* `Program.insert` — the program with spare nodes

## Main Results

* `NodeTable.resolve_insert` — resolution finds the same at the places where the nodes went
* `NodeTable.isTree_insert` — a tree stays a tree
* `Program.rel_insert` — the program with spare nodes ends in the same way with the same fuel
-/

namespace ScriptSemantics

/-- Where a node goes when others are inserted. -/
def NodeId.shift (i n : Nat) (id : NodeId) : NodeId :=
  if id.index < i then id else ⟨id.index + n⟩

namespace NodeId

variable {i n : Nat} {id child : NodeId}

theorem shift_of_lt (h : id.index < i) : id.shift i n = id :=
  if_pos h

theorem shift_of_le (h : i ≤ id.index) : id.shift i n = ⟨id.index + n⟩ :=
  if_neg (Nat.not_lt.mpr h)

theorem shift_injective (i n : Nat) : Function.Injective (NodeId.shift i n) := by
  rintro ⟨j⟩ ⟨k⟩ h
  simp only [shift] at h
  split at h <;> split at h <;> simp only [NodeId.mk.injEq] at h ⊢ <;> omega

/-- An operand that precedes its node still does. -/
theorem index_shift_lt (h : child.index < id.index) :
    (child.shift i n).index < (id.shift i n).index := by
  rcases Nat.lt_or_ge id.index i with hlt | hge
  · rw [shift_of_lt hlt, shift_of_lt (h.trans hlt)]
    exact h
  · rw [shift_of_le hge, shift]
    split
    · exact Nat.lt_add_right n h
    · exact Nat.add_lt_add_right h n

/-- No node goes where others are inserted. -/
theorem shift_ne_added {j : Nat} (hj : j < n) : id.shift i n ≠ ⟨i + j⟩ := by
  intro h
  simp only [shift] at h
  split at h
  · subst h
    simp only at *
    omega
  · rw [NodeId.mk.injEq] at h
    omega

end NodeId

namespace NodeTable

variable {table : NodeTable} {i : Nat} {added : List Node}

/-- The table with spare nodes. -/
def insert (table : NodeTable) (i : Nat) (added : List Node) : NodeTable :=
  let moved := table.nodes.toList.map (Node.relabel (NodeId.shift i added.length))
  ⟨(moved.take i ++ (added ++ moved.drop i)).toArray⟩

theorem node?_insert (table : NodeTable) (i : Nat) (added : List Node) (j : Nat) :
    (table.insert i added).node? ⟨j⟩ =
      ((table.nodes.toList.map (Node.relabel (NodeId.shift i added.length))).take i ++ (added ++
        (table.nodes.toList.map (Node.relabel (NodeId.shift i added.length))).drop i))[j]? := by
  rw [node?, insert, List.getElem?_toArray]

/-- The nodes of the table among the spare nodes. -/
theorem node?_shift (hi : i ≤ table.size) (added : List Node) (id : NodeId) :
    (table.insert i added).node? (id.shift i added.length) =
      (table.node? id).map (Node.relabel (NodeId.shift i added.length)) := by
  have hlength : ((table.nodes.toList.map
      (Node.relabel (NodeId.shift i added.length))).take i).length = i := by
    rw [List.length_take, List.length_map, Array.length_toList]
    exact Nat.min_eq_left hi
  have hnode : (table.node? id).map (Node.relabel (NodeId.shift i added.length)) =
      (table.nodes.toList.map (Node.relabel (NodeId.shift i added.length)))[id.index]? := by
    rw [List.getElem?_map, Array.getElem?_toList]
    rfl
  rw [hnode]
  rcases Nat.lt_or_ge id.index i with hlt | hge
  · rw [NodeId.shift_of_lt hlt, ← show NodeId.mk id.index = id from rfl, node?_insert,
      List.getElem?_append_left (by rw [hlength]; exact hlt), List.getElem?_take_of_lt hlt]
  · rw [NodeId.shift_of_le hge, node?_insert, List.getElem?_append_right (by rw [hlength]; omega),
      hlength, List.getElem?_append_right (by omega), List.getElem?_drop]
    congr 1
    omega

/-- The spare nodes. -/
theorem node?_added (hi : i ≤ table.size) {j : Nat} (hj : j < added.length) :
    (table.insert i added).node? ⟨i + j⟩ = added[j]? := by
  have hlength : ((table.nodes.toList.map
      (Node.relabel (NodeId.shift i added.length))).take i).length = i := by
    rw [List.length_take, List.length_map, Array.length_toList]
    exact Nat.min_eq_left hi
  rw [node?_insert, List.getElem?_append_right (by rw [hlength]; omega), hlength,
    Nat.add_sub_cancel_left, List.getElem?_append_left hj]

/-- A node of the table is one of the spare nodes or has come from another place. -/
theorem eq_added_or_shift (i n : Nat) (id : NodeId) :
    (∃ j, j < n ∧ id = ⟨i + j⟩) ∨ ∃ old : NodeId, id = old.shift i n := by
  rcases Nat.lt_or_ge id.index i with hlt | hge
  · exact .inr ⟨id, (NodeId.shift_of_lt hlt).symm⟩
  rcases Nat.lt_or_ge id.index (i + n) with hlt | hge'
  · exact .inl ⟨id.index - i, by omega, congrArg NodeId.mk (by omega : id.index = i + (id.index - i))⟩
  · refine .inr ⟨⟨id.index - n⟩, ?_⟩
    rw [NodeId.shift_of_le (Nat.le_sub_of_add_le hge')]
    exact congrArg NodeId.mk (by omega : id.index = id.index - n + n)

/-- Operands still precede their nodes if this holds for the spare nodes. -/
theorem founded_insert (founded : table.Founded) (hi : i ≤ table.size)
    (below : ∀ j node, added[j]? = some node → ∀ child ∈ node.children, child.index < i + j) :
    (table.insert i added).Founded := by
  intro id node hnode child hchild
  rcases eq_added_or_shift i added.length id with ⟨j, hj, rfl⟩ | ⟨old, rfl⟩
  · rw [node?_added hi hj] at hnode
    exact below j node hnode child hchild
  · rw [node?_shift hi, Option.map_eq_some_iff] at hnode
    obtain ⟨node, hnode, rfl⟩ := hnode
    rw [Node.children_relabel] at hchild
    obtain ⟨before, hbefore, rfl⟩ := List.mem_map.mp hchild
    exact NodeId.index_shift_lt (founded old node hnode before hbefore)

/-- The walk over a node in its new place makes the same moves at the new places. -/
theorem route_shift (founded : table.Founded) (hi : i ≤ table.size) (id : NodeId)
    {levels levels' : Nat} (hlevels : id.index < levels)
    (hlevels' : (id.shift i added.length).index < levels') :
    (table.insert i added).route levels' (id.shift i added.length) =
      (table.route levels id).map
        (Move.relabel (NodeId.shift i added.length) (NodeId.shift i added.length)) := by
  obtain ⟨j, hj⟩ : ∃ j, id.index = j := ⟨_, rfl⟩
  induction j using Nat.strongRecOn generalizing id levels levels' with
  | _ j ih =>
    obtain ⟨levels, rfl⟩ : ∃ k, levels = k + 1 := ⟨levels - 1, by omega⟩
    obtain ⟨levels', rfl⟩ : ∃ k, levels' = k + 1 := ⟨levels' - 1, by omega⟩
    have hplaced := node?_shift hi added id
    cases hnode : table.node? id with
    | none =>
      rw [hnode] at hplaced
      rw [route, route, hnode, hplaced]
      rfl
    | some node =>
      rw [hnode] at hplaced
      rw [route_succ hplaced, route_succ hnode]
      refine node.route_relabel id fun child hchild => ?_
      have hlt := founded id node hnode child hchild
      have hlt' := NodeId.index_shift_lt (i := i) (n := added.length) hlt
      exact ih child.index (hj ▸ hlt) child (by omega) (by omega) rfl

/-- Below a node in its new place lie the nodes in their new places. -/
theorem subtree_shift (founded : table.Founded) (hi : i ≤ table.size) (id : NodeId)
    {levels levels' : Nat} (hlevels : id.index < levels)
    (hlevels' : (id.shift i added.length).index < levels') :
    (table.insert i added).subtree levels' (id.shift i added.length) =
      (table.subtree levels id).map (NodeId.shift i added.length) := by
  obtain ⟨j, hj⟩ : ∃ j, id.index = j := ⟨_, rfl⟩
  induction j using Nat.strongRecOn generalizing id levels levels' with
  | _ j ih =>
    obtain ⟨levels, rfl⟩ : ∃ k, levels = k + 1 := ⟨levels - 1, by omega⟩
    obtain ⟨levels', rfl⟩ : ∃ k, levels' = k + 1 := ⟨levels' - 1, by omega⟩
    have hplaced := node?_shift hi added id
    cases hnode : table.node? id with
    | none =>
      rw [hnode] at hplaced
      rw [subtree, subtree, hnode, hplaced]
      rfl
    | some node =>
      rw [hnode] at hplaced
      rw [subtree, subtree, hnode, hplaced, Option.map_some, List.map_cons]
      refine congrArg (_ :: ·) ?_
      change (node.relabel _).children.flatMap _ = (node.children.flatMap _).map _
      rw [Node.children_relabel, List.flatMap_map, List.map_flatMap]
      refine List.flatMap_congr fun child hchild => ?_
      have hlt := founded id node hnode child hchild
      have hlt' := NodeId.index_shift_lt (i := i) (n := added.length) hlt
      exact ih child.index (hj ▸ hlt) child (by omega) (by omega) rfl

theorem isTree_insert (founded : table.Founded) (hi : i ≤ table.size) (added : List Node)
    {root : NodeId} (tree : table.IsTree root) :
    (table.insert i added).IsTree (root.shift i added.length) := by
  rw [IsTree, subtree_shift founded hi root (Nat.lt_succ_self _) (Nat.lt_succ_self _)]
  exact List.Nodup.map (NodeId.shift_injective i added.length) tree

/-- Resolution finds the same at the places where the nodes went. -/
theorem resolve_insert (founded : table.Founded) (hi : i ≤ table.size) (added : List Node)
    (root : NodeId) (predeclared : List Name) :
    resolve (table.insert i added) (root.shift i added.length) predeclared =
      (resolve table root predeclared).map (Resolution.relabel (NodeId.shift i added.length)) :=
  resolve_relabel (NodeId.shift_injective i added.length)
    (route_shift founded hi root (Nat.lt_succ_self _) (Nat.lt_succ_self _)) predeclared

end NodeTable

namespace Program

variable {program : Program} {i : Nat} {added : List Node}

/-- The program with spare nodes. -/
def insert (program : Program) (i : Nat) (added : List Node) : Program :=
  { program with nodes := program.nodes.insert i added }

theorem simulates_insert (hi : i ≤ program.nodes.size) (added : List Node) :
    (Mirroring.moving (NodeId.shift i added.length) (NodeId.shift i added.length)).Simulates 1 program
      (program.insert i added) where
  names := rfl
  node := NodeTable.node?_shift hi added
  literal _ _ _ _ _ := rfl
  positive := Nat.one_pos
  detour _ := .inl rfl

/-- The program with spare nodes ends in the same way with the same fuel. -/
theorem rel_insert (founded : program.nodes.Founded) (hi : i ≤ program.nodes.size)
    (added : List Node) {m m' : Machine}
    (rest : Mirroring.AtRest (NodeId.shift i added.length) (NodeId.shift i added.length) m m')
    (fuel : Nat) (root : NodeId) :
    Option.Rel (fun result result' => result'.1 = result.1 ∧
        Mirroring.AtRest (NodeId.shift i added.length) (NodeId.shift i added.length) result.2 result'.2)
      (program.evaluateWith fuel root m)
      ((program.insert i added).evaluateWith fuel (root.shift i added.length) m') := by
  have same : ∀ slack : Slack, slack.Agree (fun ending m ending' m' => ending' = ending ∧
      Mirroring.AtRest (NodeId.shift i added.length) (NodeId.shift i added.length) m m')
      (program.evaluateWith fuel root m)
      ((program.insert i added).evaluateWith fuel (root.shift i added.length) m') := fun _ =>
    rest.agree_evaluateWith (NodeId.shift_injective i added.length) (simulates_insert hi added) rfl
      (NodeTable.resolve_insert founded hi added root) (fun h => absurd h (Nat.lt_irrefl _))
      fun h => absurd h (by omega)
  exact (same ⟨False, False⟩).rel id id fun _ _ _ _ ends => ends

end Program

end ScriptSemantics
