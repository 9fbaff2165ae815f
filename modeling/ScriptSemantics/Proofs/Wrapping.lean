import ScriptSemantics.Proofs.Relabelling
import ScriptSemantics.Proofs.Route

/-!
# Wrapped expressions

An expression may be put inside of `begin` and `end`, or made the branch of a conditional that is
always taken.  The wrapper comes right after the expression in the table, so the nodes behind it
move up, and every operand that was the expression becomes the wrapper.

## Main Definitions

* `Wrapper`, `Wrapper.wrap` — what an expression is wrapped in, and the table with the wrapper
* `Wrapper.place`, `Wrapper.operand` — where a node goes, and what an operand becomes

## Main Results

* `Wrapper.node?_place` — the nodes of the table in the wrapped one
* `Wrapper.resolve_wrap` — resolution finds the same at the places where the nodes went
-/

namespace ScriptSemantics

/-- What an expression is wrapped in. -/
inductive Wrapper
  /-- `begin e end`. -/
  | begin
  /-- `if true then e end`. -/
  | cond
deriving DecidableEq

namespace Wrapper

/-- The nodes that follow the wrapped expression; the last one is the wrapper. -/
def nodes (e : NodeId) : Wrapper → List Node
  | begin => [.begin e [] none none]
  | cond => [.bool true, .cond ⟨e.index + 1⟩ e none]

/-- The number of nodes that follow the wrapped expression. -/
def size : Wrapper → Nat
  | begin => 1
  | cond => 2

/-- Where a node goes: those behind the wrapped expression move up. -/
def place (w : Wrapper) (e id : NodeId) : NodeId :=
  if id.index ≤ e.index then id else ⟨id.index + w.size⟩

/-- What an operand becomes: the wrapped expression is replaced by its wrapper. -/
def operand (w : Wrapper) (e id : NodeId) : NodeId :=
  if id = e then ⟨e.index + w.size⟩ else w.place e id

/-- The table in which an expression is wrapped. -/
def wrap (w : Wrapper) (e : NodeId) (table : NodeTable) : NodeTable :=
  let relabelled := table.nodes.toList.map (Node.relabel (w.operand e))
  ⟨(relabelled.take (e.index + 1) ++ (w.nodes e ++ relabelled.drop (e.index + 1))).toArray⟩

variable {w : Wrapper} {e id child : NodeId} {table : NodeTable}

@[simp]
theorem length_nodes (w : Wrapper) (e : NodeId) : (w.nodes e).length = w.size := by
  cases w <;> rfl

/-! ### Where nodes go -/

theorem place_self (w : Wrapper) (e : NodeId) : w.place e e = e :=
  if_pos (Nat.le_refl _)

theorem operand_self (w : Wrapper) (e : NodeId) : w.operand e e = ⟨e.index + w.size⟩ :=
  if_pos rfl

theorem operand_of_ne (h : id ≠ e) : w.operand e id = w.place e id :=
  if_neg h

theorem place_injective (w : Wrapper) (e : NodeId) : Function.Injective (w.place e) := by
  rintro ⟨i⟩ ⟨j⟩ h
  simp only [place] at h
  split at h <;> split at h <;> simp only [NodeId.mk.injEq] at h ⊢ <;> omega

/-- An operand that precedes its node still does. -/
theorem index_operand_lt (h : child.index < id.index) :
    (w.operand e child).index < (w.place e id).index := by
  rw [operand, place, place]
  split
  next heq =>
    subst heq
    rw [if_neg (Nat.not_le.mpr h)]
    exact Nat.add_lt_add_right h _
  next hne =>
    split
    · split
      · exact h
      · exact Nat.lt_of_lt_of_le h (Nat.le_add_right _ _)
    · rw [if_neg (by omega)]
      exact Nat.add_lt_add_right h _

/-! ### The wrapped table -/

theorem node?_wrap (w : Wrapper) (e : NodeId) (table : NodeTable) (i : Nat) :
    (w.wrap e table).node? ⟨i⟩ =
      ((table.nodes.toList.map (Node.relabel (w.operand e))).take (e.index + 1) ++
        (w.nodes e ++
          (table.nodes.toList.map (Node.relabel (w.operand e))).drop (e.index + 1)))[i]? := by
  rw [NodeTable.node?, wrap, List.getElem?_toArray]

/-- The nodes of the table in the wrapped one. -/
theorem node?_place (he : e.index < table.size) (id : NodeId) :
    (w.wrap e table).node? (w.place e id) = (table.node? id).map (Node.relabel (w.operand e)) := by
  have hlength : ((table.nodes.toList.map (Node.relabel (w.operand e))).take (e.index + 1)).length =
      e.index + 1 := by
    rw [List.length_take, List.length_map, Array.length_toList]
    exact Nat.min_eq_left he
  have hnode : (table.node? id).map (Node.relabel (w.operand e)) =
      (table.nodes.toList.map (Node.relabel (w.operand e)))[id.index]? := by
    rw [List.getElem?_map, Array.getElem?_toList]
    rfl
  rw [hnode, place]
  split
  next hle =>
    rw [← show NodeId.mk id.index = id from rfl, node?_wrap,
      List.getElem?_append_left (by rw [hlength]; exact Nat.lt_succ_of_le hle),
      List.getElem?_take_of_lt (Nat.lt_succ_of_le hle)]
  next hlt =>
    have hlt : e.index < id.index := Nat.lt_of_not_le hlt
    rw [node?_wrap, List.getElem?_append_right (by rw [hlength]; omega), hlength,
      List.getElem?_append_right (by rw [length_nodes]; omega), length_nodes, List.getElem?_drop]
    congr 1
    omega

/-- The nodes that follow the wrapped expression. -/
theorem node?_added (he : e.index < table.size) {i : Nat} (hi : i < w.size) :
    (w.wrap e table).node? ⟨e.index + 1 + i⟩ = (w.nodes e)[i]? := by
  have hlength : ((table.nodes.toList.map (Node.relabel (w.operand e))).take (e.index + 1)).length =
      e.index + 1 := by
    rw [List.length_take, List.length_map, Array.length_toList]
    exact Nat.min_eq_left he
  rw [node?_wrap, List.getElem?_append_right (by rw [hlength]; omega), hlength,
    Nat.add_sub_cancel_left, List.getElem?_append_left (by rw [length_nodes]; exact hi)]

end Wrapper

/-! ### Resolution at other places -/

/-- The same move at another node: operands are replaced by `operand`, places by `place`. -/
def Move.relabel (operand place : NodeId → NodeId) : Move → Move
  | visit id => visit (operand id)
  | read id name => read (place id) name
  | declare name => declare name
  | param name => param name
  | check params => check (params.relabel operand)
  | enter root seesEnclosing => enter (place root) seesEnclosing
  | leave => leave

/-- The moves at a node with other operands, in another place. -/
theorem Node.moves_relabel (operand place : NodeId → NodeId) (node : Node) (id : NodeId) :
    (node.relabel operand).moves (place id) = (node.moves id).map (Move.relabel operand place) := by
  have callable : ∀ params body sees,
      Move.ofCallable (place id) (ParamList.relabel operand params) (operand body) sees =
        (Move.ofCallable id params body sees).map (Move.relabel operand place) := by
    intro params body sees
    have param : ∀ param : Param, Move.ofParam (param.relabel operand) =
        (Move.ofParam param).map (Move.relabel operand place) := by
      rintro ⟨name, role⟩
      cases role <;> rfl
    simp [Move.ofCallable, ParamList.relabel, List.flatMap_map, List.map_flatMap, param, Move.relabel]
  have visits : ∀ node : Node, (node.relabel operand).children.map Move.visit =
      (node.children.map Move.visit).map (Move.relabel operand place) := by
    intro node
    rw [Node.children_relabel, List.map_map, List.map_map]
    rfl
  cases node with
  | define | block | lambda => exact callable _ _ _
  | ident | opAssign => rfl
  | loop kind test body bodyFirst => cases bodyFirst <;> rfl
  | assign name elems => simp [relabel, moves, Move.relabel]
  | begin body clauses elseBranch ensure =>
    have clause : ∀ clause : RescueClause, Move.ofClause (clause.relabel operand) =
        (Move.ofClause clause).map (Move.relabel operand place) := by
      rintro ⟨classes, binding, body⟩
      cases binding <;> rfl
    cases elseBranch <;> cases ensure <;>
      simp [relabel, moves, Move.relabel, List.flatMap_map, List.map_flatMap, clause]
  | _ => exact visits _

/-- The route over a node makes the same moves at other places, when those over its operands do. -/
theorem Node.route_relabel {operand place : NodeId → NodeId} {route route' : NodeId → List Move}
    (node : Node) (id : NodeId) (below : ∀ child ∈ node.children,
      route' (operand child) = (route child).map (Move.relabel operand place)) :
    ((node.relabel operand).moves (place id)).flatMap (Move.expand route') =
      ((node.moves id).flatMap (Move.expand route)).map (Move.relabel operand place) := by
  rw [Node.moves_relabel, List.flatMap_map, List.map_flatMap]
  refine List.flatMap_congr fun move hmove => ?_
  cases move with
  | visit child =>
    exact below child ((node.visited_moves_perm id).mem_iff.mp (List.mem_filterMap.mpr ⟨_, hmove, rfl⟩))
  | _ => rfl

/-! ### The route over a wrapped table -/

namespace Wrapper

variable {w : Wrapper} {e : NodeId} {table : NodeTable}

/-- The walk over an operand of the wrapped table makes the moves at the places where the nodes
went, when it does so over the node itself. -/
theorem route_operand (he : e.index < table.size) {id : NodeId} {levels : Nat} {list : List Move}
    (hroute : ∀ levels', (w.place e id).index < levels' →
      (w.wrap e table).route levels' (w.place e id) = list)
    (hlevels : (w.operand e id).index < levels) :
    (w.wrap e table).route levels (w.operand e id) = list := by
  by_cases hid : id = e
  · subst hid
    rw [place_self] at hroute
    rw [operand_self] at hlevels ⊢
    cases w with
    | begin =>
      obtain ⟨levels, rfl⟩ : ∃ k, levels = k + 1 := ⟨levels - 1, by omega⟩
      have hnode := node?_added (w := .begin) he (i := 0) (by decide)
      rw [show NodeId.mk (id.index + size .begin) = ⟨id.index + 1 + 0⟩ from rfl,
        NodeTable.route_succ hnode]
      show (NodeTable.route _ levels id ++ []) = list
      rw [List.append_nil]
      exact hroute levels (Nat.lt_of_succ_lt_succ hlevels)
    | cond =>
      have hlevels : id.index + 2 < levels := hlevels
      obtain ⟨levels, rfl⟩ : ∃ k, levels = k + 2 := ⟨levels - 2, by omega⟩
      have hnode := node?_added (w := .cond) he (i := 1) (by decide)
      have htest := node?_added (w := .cond) he (i := 0) (by decide)
      rw [show NodeId.mk (id.index + size .cond) = ⟨id.index + 1 + 1⟩ from rfl,
        NodeTable.route_succ hnode]
      show (NodeTable.route _ (levels + 1) ⟨id.index + 1 + 0⟩ ++
        (NodeTable.route _ (levels + 1) id ++ [])) = list
      rw [NodeTable.route_succ htest, List.append_nil]
      exact hroute (levels + 1) (by omega)
  · rw [operand_of_ne hid] at hlevels ⊢
    exact hroute levels hlevels

/-- The walk over a node in its new place makes the same moves at the new places. -/
theorem route_place (founded : table.Founded) (he : e.index < table.size) (id : NodeId)
    {levels levels' : Nat} (hlevels : id.index < levels) (hlevels' : (w.place e id).index < levels') :
    (w.wrap e table).route levels' (w.place e id) =
      (table.route levels id).map (Move.relabel (w.operand e) (w.place e)) := by
  obtain ⟨i, hi⟩ : ∃ i, id.index = i := ⟨_, rfl⟩
  induction i using Nat.strongRecOn generalizing id levels levels' with
  | _ i ih =>
    obtain ⟨levels, rfl⟩ : ∃ k, levels = k + 1 := ⟨levels - 1, by omega⟩
    obtain ⟨levels', rfl⟩ : ∃ k, levels' = k + 1 := ⟨levels' - 1, by omega⟩
    have hplaced := node?_place (w := w) he id
    cases hnode : table.node? id with
    | none =>
      have hne : id ≠ e := by
        rintro rfl
        obtain ⟨node, hsome⟩ := NodeTable.exists_node he
        rw [hsome] at hnode
        cases hnode
      rw [hnode] at hplaced
      rw [NodeTable.route, NodeTable.route, hnode, hplaced]
      simp [Move.relabel, operand_of_ne hne]
    | some node =>
      rw [hnode] at hplaced
      rw [NodeTable.route_succ hplaced, NodeTable.route_succ hnode]
      refine node.route_relabel id fun child hchild => ?_
      have hlt := founded id node hnode child hchild
      have hlt' := index_operand_lt (w := w) (e := e) hlt
      exact route_operand he (fun deep hdeep => ih child.index (hi ▸ hlt) child (by omega) hdeep rfl)
        (by omega)

end Wrapper

/-! ### The walk at other places -/

/-- The same open scope with its root in another place. -/
def OpenScope.relabel (place : NodeId → NodeId) (scope : OpenScope) : OpenScope :=
  { scope with root := place scope.root }

theorem OpenScope.insert_relabel (place : NodeId → NodeId) (scope : OpenScope) (name : Name) :
    (scope.relabel place).insert name = (scope.insert name).relabel place := by
  rw [insert, insert]
  show (if scope.declared.contains name then _ else _) = _
  split <;> rfl

namespace Walk

/-- The same state of the walk at other places. -/
def relabel (place : NodeId → NodeId) (walk : Walk) : Walk where
  scopes := walk.scopes.map (OpenScope.relabel place)
  found := walk.found.relabel place

variable {place : NodeId → NodeId} {walk : Walk}

theorem visibleIn_relabel (scopes : List OpenScope) (name : Name) :
    visibleIn (scopes.map (OpenScope.relabel place)) name = visibleIn scopes name := by
  induction scopes with
  | nil => rfl
  | cons scope rest ih => rw [List.map_cons, visibleIn, visibleIn, ih]; rfl

theorem insert_relabel (name : Name) :
    (walk.relabel place).insert name = (walk.insert name).relabel place := by
  obtain ⟨scopes, found⟩ := walk
  cases scopes with
  | nil => rfl
  | cons scope rest =>
    show Walk.mk ((scope.relabel place).insert name :: _) _ = _
    rw [OpenScope.insert_relabel]
    rfl

theorem declare_relabel (name : Name) :
    (walk.relabel place).declare name = (walk.declare name).relabel place := by
  rw [declare, declare, insert_relabel]
  show (if name.isEmpty || visibleIn (walk.scopes.map (OpenScope.relabel place)) name then _ else _) = _
  rw [visibleIn_relabel]
  split <;> rfl

theorem declareParam_relabel (name : Name) :
    (walk.relabel place).declareParam name = (walk.declareParam name).relabel place := by
  rw [declareParam, declareParam, insert_relabel]
  split <;> rfl

theorem read_relabel (injective : Function.Injective place) (id : NodeId) (name : Name) :
    (walk.relabel place).read (place id) name = (walk.read id name).relabel place := by
  have hunbound := Resolution.isUnbound_relabel injective walk.found id
  rw [read, read]
  show (if visibleIn (walk.scopes.map (OpenScope.relabel place)) name ||
    (walk.found.relabel place).isUnbound (place id) then _ else _) = _
  rw [visibleIn_relabel, hunbound]
  show _ = relabel place (if visibleIn walk.scopes name || walk.found.isUnbound id then _ else _)
  split
  · rfl
  · simp [relabel, Resolution.relabel]

theorem leave_relabel (injective : Function.Injective place) :
    (walk.relabel place).leave = walk.leave.relabel place := by
  obtain ⟨scopes, found⟩ := walk
  cases scopes with
  | nil => rfl
  | cons scope rest =>
    have hput := Assoc.put_map_fst injective found.owned scope.root scope.declared
    simp only [relabel, leave, List.map_cons, OpenScope.relabel, Resolution.relabel]
    rw [hput]

end Walk

/-- The same moves at other places lead to the same state at other places. -/
theorem WalkStep.moves_relabel {operand place : NodeId → NodeId}
    (injective : Function.Injective place) (list : List Move) (walk : Walk) :
    moves lost (list.map (Move.relabel operand place)) (walk.relabel place) =
      (moves lost list walk).map (Walk.relabel place) := by
  induction list generalizing walk with
  | nil => rfl
  | cons first rest ih =>
    have hfirst : move lost (first.relabel operand place) (walk.relabel place) =
        (move lost first walk).map (Walk.relabel place) := by
      cases first with
      | visit => rfl
      | read id name => exact congrArg Except.ok (Walk.read_relabel injective id name)
      | declare name => exact congrArg Except.ok (Walk.declare_relabel name)
      | param name => exact congrArg Except.ok (Walk.declareParam_relabel name)
      | check params =>
        simp only [Move.relabel, move, ParamList.validate_relabel]
        split <;> rfl
      | enter => rfl
      | leave => exact congrArg Except.ok (Walk.leave_relabel injective)
    rw [List.map_cons, moves, moves, hfirst]
    cases move lost first walk with
    | error => rfl
    | ok next => exact ih next

/-- A program whose walk makes the same moves at other places is rejected in the same way, or the
same is found at these places. -/
theorem resolve_relabel {operand place : NodeId → NodeId} (injective : Function.Injective place)
    {table table' : NodeTable} {root : NodeId}
    (hroute : table'.route ((place root).index + 1) (place root) =
      (table.route (root.index + 1) root).map (Move.relabel operand place))
    (predeclared : List Name) :
    resolve table' (place root) predeclared =
      (resolve table root predeclared).map (Resolution.relabel place) := by
  have hstart : Walk.start (place root) predeclared =
      (Walk.start root predeclared).relabel place := by
    have inserted : ∀ (names : List Name) (scope : OpenScope),
        names.foldl OpenScope.insert (scope.relabel place) =
          (names.foldl OpenScope.insert scope).relabel place := by
      intro names
      induction names with
      | nil => exact fun _ => rfl
      | cons name rest ih =>
        intro scope
        rw [List.foldl_cons, List.foldl_cons, OpenScope.insert_relabel]
        exact ih _
    have hscopes := inserted predeclared { root, declared := [], seesEnclosing := false }
    exact congrArg (fun scope => Walk.mk [scope] .empty) hscopes
  rw [resolve, resolve, WalkStep.visit_eq_route, WalkStep.visit_eq_route, hroute, hstart,
    WalkStep.moves_relabel injective]
  cases WalkStep.moves WalkStep.lost (table.route (root.index + 1) root)
      (Walk.start root predeclared) with
  | error => rfl
  | ok walk =>
    show Except.ok (walk.relabel place).leave.found = Except.ok _
    rw [Walk.leave_relabel injective]
    rfl

/-- Resolution of the program with a wrapped expression fails in the same way, or finds the same at
the places where the nodes went. -/
theorem Wrapper.resolve_wrap (w : Wrapper) {table : NodeTable} (founded : table.Founded) {e : NodeId}
    (he : e.index < table.size) (root : NodeId) (predeclared : List Name) :
    resolve (w.wrap e table) (w.place e root) predeclared =
      (resolve table root predeclared).map (Resolution.relabel (w.place e)) :=
  resolve_relabel (w.place_injective e)
    (w.route_place founded he root (Nat.lt_succ_self _) (Nat.lt_succ_self _)) predeclared

end ScriptSemantics
