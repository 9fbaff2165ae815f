import ScriptSemantics.Resolution
import Mathlib.Data.List.Nodup
import Mathlib.Data.List.Perm.Basic

/-!
# The walk of the resolver

What the walk over a node does to its state: it adds names to the innermost scope root only, it
leaves what it knew, and it records the scope roots below the node.

## Main Definitions

* `NodeTable.subtree` — a node and what lies below it
* `Node.callable?` — the parameters and the body of a node that is a scope root
* `Walk.Grows` — how the state may change

## Main Results

* `WalkStep.grows_visit` — the walk over a node changes the state in this way
* `WalkStep.owned_visit` — only scope roots below the node are recorded
-/

namespace ScriptSemantics

/-- A node and what lies below it, down to a number of levels. -/
def NodeTable.subtree (table : NodeTable) : Nat → NodeId → List NodeId
  | 0, _ => []
  | levels + 1, id =>
    id :: match table.node? id with
      | some node => node.children.flatMap (table.subtree levels)
      | none => []

/-- The parameters and the body of a node that is a scope root, and whether it sees the names around
it. -/
def Node.callable? : Node → Option (ParamList × NodeId × Bool)
  | .define _ params body => some (params, body, false)
  | .block params body | .lambda params body => some (params, body, true)
  | _ => none

/-- The names of the parameters of a scope root. -/
def NodeTable.paramNames (table : NodeTable) (id : NodeId) : List Name :=
  match (table.node? id).bind Node.callable? with
  | some (params, _, _) => params.map Param.name
  | none => []

/-! ### Moves -/

namespace Move

/-- The operand that a move walks. -/
def visited? : Move → Option NodeId
  | visit id => some id
  | _ => none

/-- The move neither enters nor leaves a scope root. -/
def IsInner : Move → Prop
  | enter _ _ | leave => False
  | _ => True

/-- The moves inside a callable. -/
def inside (params : ParamList) (body : NodeId) : List Move :=
  params.flatMap ofParam ++ [visit body]

/-- The walk over a callable checks its parameters, enters it, goes on inside and leaves it. -/
theorem ofCallable_eq (root : NodeId) (params : ParamList) (body : NodeId) (seesEnclosing : Bool) :
    ofCallable root params body seesEnclosing =
      check params :: enter root seesEnclosing :: (inside params body ++ [leave]) := by
  simp [ofCallable, inside]

/-- A parameter is walked inside of its callable. -/
theorem isInner_ofParam {param : Param} {move : Move} (h : move ∈ ofParam param) :
    move.IsInner := by
  rcases List.mem_append.mp h with h | h
  · obtain ⟨id, -, rfl⟩ := List.mem_map.mp h
    trivial
  · cases List.mem_singleton.mp h
    trivial

/-- The moves inside a callable neither enter nor leave it. -/
theorem isInner_inside {params : ParamList} {body : NodeId} {move : Move}
    (h : move ∈ inside params body) : move.IsInner := by
  rcases List.mem_append.mp h with h | h
  · obtain ⟨param, -, h⟩ := List.mem_flatMap.mp h
    exact isInner_ofParam h
  · cases List.mem_singleton.mp h
    trivial

/-- The parameters that are declared inside a callable are its own. -/
theorem param_of_mem_inside {params : ParamList} {body : NodeId} {name : Name}
    (h : .param name ∈ inside params body) : name ∈ params.map Param.name := by
  rcases List.mem_append.mp h with h | h
  · obtain ⟨param, hparam, h⟩ := List.mem_flatMap.mp h
    rcases List.mem_append.mp h with h | h
    · obtain ⟨id, -, h⟩ := List.mem_map.mp h
      cases h
    · cases List.mem_singleton.mp h
      exact List.mem_map_of_mem hparam
  · cases List.mem_singleton.mp h

/-- Every parameter of a callable is declared inside of it. -/
theorem param_mem_inside {params : ParamList} {body : NodeId} {name : Name}
    (h : name ∈ params.map Param.name) : .param name ∈ inside params body := by
  obtain ⟨param, hparam, rfl⟩ := List.mem_map.mp h
  refine List.mem_append_left _ (List.mem_flatMap.mpr ⟨param, hparam, ?_⟩)
  exact List.mem_append_right _ List.mem_cons_self

theorem visited_map_visit (ids : List NodeId) : (ids.map visit).filterMap visited? = ids := by
  induction ids with
  | nil => rfl
  | cons id rest ih => simpa [visited?] using ih

/-- Inside a callable the walk visits the defaults of its parameters and then the body. -/
theorem visited_inside (params : ParamList) (body : NodeId) :
    (inside params body).filterMap visited? = params.fallbacks ++ [body] := by
  have hparams : (params.flatMap ofParam).filterMap visited? = params.fallbacks := by
    induction params with
    | nil => rfl
    | cons param rest ih =>
      rw [List.flatMap_cons, List.filterMap_append, ih]
      cases hrole : param.role.fallback? <;>
        simp [ofParam, ParamList.fallbacks, visited?, hrole]
  rw [inside, List.filterMap_append, hparams]
  rfl

/-- The walk visits the bodies of rescue clauses. -/
theorem visited_clauses (clauses : List RescueClause) :
    (clauses.flatMap ofClause).filterMap visited? = clauses.map RescueClause.body := by
  induction clauses with
  | nil => rfl
  | cons clause rest ih =>
    rw [List.flatMap_cons, List.filterMap_append, ih, ofClause]
    cases clause.binding <;> rfl

end Move

namespace Node

/-- A node that is a scope root is walked as a callable. -/
theorem moves_of_callable {node : Node} {params : ParamList} {body : NodeId} {sees : Bool}
    (h : node.callable? = some (params, body, sees)) (id : NodeId) :
    node.moves id = .check params :: .enter id sees :: (Move.inside params body ++ [.leave]) := by
  cases node <;> cases h <;> exact Move.ofCallable_eq _ _ _ _

/-- The moves inside a scope root are among its moves. -/
theorem mem_moves_of_mem_inside {node : Node} {params : ParamList} {body : NodeId} {sees : Bool}
    (h : node.callable? = some (params, body, sees)) {id : NodeId} {move : Move}
    (hmove : move ∈ Move.inside params body) : move ∈ node.moves id := by
  rw [moves_of_callable h]
  exact List.mem_cons_of_mem _ (List.mem_cons_of_mem _ (List.mem_append_left _ hmove))

/-- A node that is no scope root neither enters nor leaves one, and has no parameters. -/
theorem moves_of_not_callable {node : Node} (h : node.callable? = none) (id : NodeId) :
    ∀ move ∈ node.moves id, move.IsInner ∧ ∀ name, move ≠ .param name := by
  intro move hmove
  have visits : ∀ ids : List NodeId, move ∈ ids.map .visit →
      move.IsInner ∧ ∀ name, move ≠ .param name := by
    intro ids hmem
    obtain ⟨child, -, rfl⟩ := List.mem_map.mp hmem
    exact ⟨trivial, by simp⟩
  cases node with
  | define | block | lambda => cases h
  | ident name =>
    cases List.mem_singleton.mp hmove
    exact ⟨trivial, by simp⟩
  | assign name value =>
    rcases List.mem_cons.mp hmove with rfl | hmove
    · exact ⟨trivial, by simp⟩
    · obtain ⟨elem, -, rfl⟩ := List.mem_map.mp hmove
      exact ⟨trivial, by simp⟩
  | opAssign name op value =>
    simp only [moves, List.mem_cons, List.not_mem_nil, or_false] at hmove
    rcases hmove with rfl | rfl <;> exact ⟨trivial, by simp⟩
  | loop kind test body bodyFirst =>
    simp only [moves] at hmove
    split at hmove <;> simp only [List.mem_cons, List.not_mem_nil, or_false] at hmove <;>
      rcases hmove with rfl | rfl <;> exact ⟨trivial, by simp⟩
  | begin body clauses elseBranch ensure =>
    rcases List.mem_cons.mp hmove with rfl | hmove
    · exact ⟨trivial, by simp⟩
    · rcases List.mem_append.mp hmove with hmove | hmove
      · obtain ⟨clause, -, hmove⟩ := List.mem_flatMap.mp hmove
        rcases List.mem_append.mp hmove with hmove | hmove
        · obtain ⟨name, -, rfl⟩ := List.mem_map.mp hmove
          exact ⟨trivial, by simp⟩
        · cases List.mem_singleton.mp hmove
          exact ⟨trivial, by simp⟩
      · exact visits _ hmove
  | _ => exact visits _ hmove

/-- Whether a node is a loop. -/
def isLoop : Node → Bool
  | loop .. => true
  | _ => false

/-- The walk visits the operands of a node as they are written, those of a loop apart. -/
theorem visited_moves_of_not_loop {node : Node} (h : node.isLoop = false) (id : NodeId) :
    (node.moves id).filterMap Move.visited? = node.children := by
  have callables : ∀ {params : ParamList} {body : NodeId} {sees : Bool},
      node.callable? = some (params, body, sees) →
      (node.moves id).filterMap Move.visited? = params.fallbacks ++ [body] := by
    intro params body sees h
    rw [moves_of_callable h, List.filterMap_cons_none rfl, List.filterMap_cons_none rfl,
      List.filterMap_append, Move.visited_inside]
    exact List.append_nil _
  cases node with
  | define | block | lambda => exact callables rfl
  | ident name => rfl
  | assign name value =>
    rw [moves, children, List.filterMap_cons_none rfl,
      ← Move.visited_map_visit (value.map Elem.expr), List.map_map]
    rfl
  | opAssign name op value => rfl
  | loop => cases h
  | begin body clauses elseBranch ensure =>
    refine congrArg (body :: ·) ?_
    rw [List.filterMap_append, Move.visited_clauses, Move.visited_map_visit, List.append_assoc]
  | _ => exact Move.visited_map_visit _

/-- The walk visits the operands of a node, perhaps in another order. -/
theorem visited_moves_perm (node : Node) (id : NodeId) :
    ((node.moves id).filterMap Move.visited?).Perm node.children := by
  cases hloop : node.isLoop with
  | false => exact .of_eq (visited_moves_of_not_loop hloop id)
  | true =>
    cases node with
    | loop kind test body bodyFirst =>
      cases bodyFirst
      · exact .refl _
      · exact .swap _ _ _
    | _ => cases hloop

/-- Only the name at a node is read by its moves. -/
theorem read_mem_moves {node : Node} {id other : NodeId} {name : Name}
    (h : .read other name ∈ node.moves id) : other = id ∧ node = .ident name := by
  have visits : ∀ ids : List NodeId, .read other name ∉ ids.map Move.visit := by
    intro ids hmem
    obtain ⟨child, -, heq⟩ := List.mem_map.mp hmem
    cases heq
  have ofParam : ∀ param : Param, .read other name ∉ Move.ofParam param := by
    intro param hmem
    rcases List.mem_append.mp hmem with hmem | hmem
    · exact visits _ hmem
    · cases List.mem_singleton.mp hmem
  cases node with
  | ident name =>
    cases List.mem_singleton.mp h
    exact ⟨rfl, rfl⟩
  | assign name value =>
    rcases List.mem_cons.mp h with h | h
    · cases h
    · obtain ⟨elem, -, heq⟩ := List.mem_map.mp h
      cases heq
  | opAssign name op value => simp [moves] at h
  | loop kind test body bodyFirst => cases bodyFirst <;> simp [moves] at h
  | begin body clauses elseBranch ensure => simp [moves, Move.ofClause] at h
  | define | block | lambda => simp [moves, Move.ofCallable, ofParam] at h
  | _ => exact absurd h (visits _)

end Node

/-! ### Growth -/

variable {params : List Name} {scopes scopes' : List OpenScope} {w w' w'' : Walk}

/-- A name that is inserted is declared, and so are those before. -/
theorem OpenScope.mem_insert {scope : OpenScope} {name other : Name} :
    other ∈ (scope.insert name).declared ↔ other ∈ scope.declared ∨ other = name := by
  unfold OpenScope.insert
  split
  next h =>
    rw [or_iff_left_of_imp]
    rintro rfl
    exact List.contains_iff_mem.mp h
  next => rw [List.mem_append, List.mem_singleton]

/-- Names are added to the innermost scope root.  Each is a parameter or was not visible. -/
inductive OpenScope.Grown (params : List Name) : List OpenScope → List OpenScope → Prop
  | nil : Grown params [] []
  | cons (top : OpenScope) (rest : List OpenScope) (names : List Name)
      (new : ∀ name ∈ names, name ∈ params ∨ visibleIn (top :: rest) name = false)
      (nonempty : ∀ name ∈ names, name.isEmpty = false) :
    Grown params (top :: rest) ({ top with declared := top.declared ++ names } :: rest)

namespace OpenScope.Grown

/-- Nothing was added. -/
theorem refl (scopes : List OpenScope) : Grown params scopes scopes := by
  cases scopes with
  | nil => exact .nil
  | cons top rest =>
    have h : Grown params (top :: rest) ({ top with declared := top.declared ++ [] } :: rest) :=
      .cons top rest [] (by simp) (by simp)
    rwa [List.append_nil] at h

/-- More names may be called parameters. -/
theorem mono {params' : List Name} (h : Grown params scopes scopes') (sub : params ⊆ params') :
    Grown params' scopes scopes' := by
  cases h with
  | nil => exact .nil
  | cons top rest names new nonempty =>
    exact .cons top rest names (fun name hname => (new name hname).imp_left fun h => sub h) nonempty

/-- What is visible stays visible. -/
theorem visible (h : Grown params scopes scopes') {name : Name}
    (hname : visibleIn scopes name = true) : visibleIn scopes' name = true := by
  cases h with
  | nil => exact hname
  | cons top rest names new =>
    simp only [visibleIn, List.contains_eq_mem, List.mem_append, Bool.or_eq_true,
      decide_eq_true_eq] at hname ⊢
    exact hname.imp_left .inl

/-- Names that were added one after the other were added. -/
theorem trans {scopes'' : List OpenScope} (h : Grown params scopes scopes')
    (h' : Grown params scopes' scopes'') : Grown params scopes scopes'' := by
  cases h with
  | nil => exact h'
  | cons top rest names new nonempty =>
    cases h' with
    | cons top' rest' names' new' nonempty' =>
      rw [List.append_assoc]
      refine cons top rest (names ++ names') (fun name hname => ?_) fun name hname => ?_
      · rcases List.mem_append.mp hname with hname | hname
        · exact new name hname
        · refine (new' name hname).imp_right fun hvisible => ?_
          rw [Bool.eq_false_iff] at hvisible ⊢
          exact fun h => hvisible ((cons top rest names new nonempty).visible h)
      · exact (List.mem_append.mp hname).elim (nonempty name) (nonempty' name)

/-- One name was added, unless it was declared before. -/
theorem insert (top : OpenScope) (rest : List OpenScope) {name : Name}
    (new : name ∈ params ∨ visibleIn (top :: rest) name = false) (hne : name.isEmpty = false) :
    Grown params (top :: rest) (top.insert name :: rest) := by
  unfold OpenScope.insert
  split
  · exact .refl _
  · exact .cons top rest [name] (fun other hother => List.mem_singleton.mp hother ▸ new)
      fun other hother => List.mem_singleton.mp hother ▸ hne

/-- The scope roots stay as they are. -/
theorem roots_eq (h : OpenScope.Grown params scopes scopes') :
    scopes'.map OpenScope.root = scopes.map OpenScope.root := by
  cases h <;> rfl

end OpenScope.Grown

/-! ### What single steps find out -/

namespace Walk

/-- A read declares nothing. -/
@[simp]
theorem scopes_read (w : Walk) (id : NodeId) (name : Name) :
    (w.read id name).scopes = w.scopes := by
  unfold read
  split <;> rfl

/-- A read records no scope root. -/
@[simp]
theorem owned_read (w : Walk) (id : NodeId) (name : Name) :
    (w.read id name).found.owned = w.found.owned := by
  unfold read
  split <;> rfl

/-- A read flags its own node, unless the name is visible. -/
theorem isUnbound_read (w : Walk) (id : NodeId) (name : Name) (other : NodeId) :
    (w.read id name).found.isUnbound other =
      (w.found.isUnbound other || (decide (other = id) && !visibleIn w.scopes name)) := by
  unfold read
  by_cases hother : other = id
  · subst hother
    cases hvisible : visibleIn w.scopes name <;>
      cases hflagged : w.found.unbound.contains other <;>
      simp_all [Resolution.isUnbound]
  · split <;> simp [Resolution.isUnbound, hother]

@[simp]
theorem found_insert (w : Walk) (name : Name) : (w.insert name).found = w.found := by
  unfold insert
  split <;> rfl

@[simp]
theorem found_declare (w : Walk) (name : Name) : (w.declare name).found = w.found := by
  unfold declare
  split
  · rfl
  · exact w.found_insert name

@[simp]
theorem found_declareParam (w : Walk) (name : Name) : (w.declareParam name).found = w.found := by
  unfold declareParam
  split
  · rfl
  · exact w.found_insert name

end Walk

/-! ### Growth of the scope roots around a place -/

/-- How moves that stay inside a scope root change the state of the walk. -/
structure Walk.Grows (params : List Name) (w w' : Walk) : Prop where
  scopes : OpenScope.Grown params w.scopes w'.scopes
  unbound : w.found.unbound ⊆ w'.found.unbound

namespace Walk.Grows

theorem refl (w : Walk) : Grows params w w :=
  ⟨.refl _, List.Subset.refl _⟩

theorem trans (h : Grows params w w') (h' : Grows params w' w'') : Grows params w w'' :=
  ⟨h.scopes.trans h'.scopes, List.Subset.trans h.unbound h'.unbound⟩

theorem mono {params' : List Name} (h : Grows params w w') (sub : params ⊆ params') :
    Grows params' w w' :=
  ⟨h.scopes.mono sub, h.unbound⟩

/-- A name that is a parameter or not visible is added to the innermost scope root. -/
theorem insert {name : Name} (new : name ∈ params ∨ visibleIn w.scopes name = false)
    (hne : name.isEmpty = false) : Grows params w (w.insert name) := by
  unfold Walk.insert
  cases hscopes : w.scopes with
  | nil => exact .refl w
  | cons top rest =>
    refine ⟨?_, List.Subset.refl _⟩
    rw [hscopes] at new ⊢
    exact .insert top rest new hne

/-- A name is declared only when it is not visible. -/
theorem declare (w : Walk) (name : Name) : Grows params w (w.declare name) := by
  unfold Walk.declare
  split
  next => exact .refl w
  next h =>
    rw [Bool.or_eq_true, not_or, Bool.not_eq_true, Bool.not_eq_true] at h
    exact .insert (.inr h.2) h.1

/-- A parameter is declared even when a name around it is visible. -/
theorem declareParam (w : Walk) {name : Name} (h : name ∈ params) :
    Grows params w (w.declareParam name) := by
  unfold Walk.declareParam
  split
  next => exact .refl w
  next hne => exact .insert (.inl h) (Bool.eq_false_iff.mpr hne)

/-- A read flags its node at most. -/
theorem read (w : Walk) (id : NodeId) (name : Name) : Grows params w (w.read id name) := by
  unfold Walk.read
  split
  · exact .refl w
  · exact ⟨.refl _, List.subset_append_left _ _⟩

end Walk.Grows

namespace WalkStep

section Moves

variable {step : NodeId → WalkStep}

/-- Moves go on from where the first one leads, or fail with it. -/
theorem moves_cons {first : Move} {rest : List Move} :
    moves step (first :: rest) w = .ok w'' ↔
      ∃ w', move step first w = .ok w' ∧ moves step rest w' = .ok w'' := by
  rw [moves]
  cases hmove : move step first w with
  | error fault =>
    constructor
    · intro h
      cases h
    · rintro ⟨w', h, -⟩
      cases h
  | ok mid =>
    constructor
    · exact fun h => ⟨mid, rfl, h⟩
    · rintro ⟨w', h, h'⟩
      cases h
      exact h'

/-- Moves go on from where those before them lead, or fail with them. -/
theorem moves_append {xs ys : List Move} :
    moves step (xs ++ ys) w = .ok w'' ↔
      ∃ w', moves step xs w = .ok w' ∧ moves step ys w' = .ok w'' := by
  induction xs generalizing w with
  | nil =>
    constructor
    · exact fun h => ⟨w, rfl, h⟩
    · rintro ⟨w', h, h'⟩
      cases h
      exact h'
  | cons first rest ih =>
    simp only [List.cons_append, moves_cons, ih]
    constructor
    · rintro ⟨w₁, h₁, w₂, h₂, h₃⟩
      exact ⟨w₂, ⟨w₁, h₁, h₂⟩, h₃⟩
    · rintro ⟨w₂, ⟨w₁, h₁, h₂⟩, h₃⟩
      exact ⟨w₁, h₁, w₂, h₂, h₃⟩

/-- A move inside a scope root adds names to it and flags reads, provided that visits do. -/
theorem grows_move {move : Move} (inner : move.IsInner)
    (hparam : ∀ name, move = .param name → name ∈ params)
    (visits : ∀ id w w', step id w = .ok w' → Walk.Grows [] w w')
    (h : WalkStep.move step move w = .ok w') : Walk.Grows params w w' := by
  cases move with
  | visit id => exact (visits id w w' h).mono (List.nil_subset _)
  | read id name =>
    cases h
    exact .read w id name
  | declare name =>
    cases h
    exact .declare w name
  | param name =>
    cases h
    exact .declareParam w (hparam name rfl)
  | check list =>
    rw [WalkStep.move] at h
    split at h <;> cases h
    exact .refl _
  | enter | leave => exact absurd inner id

/-- So do moves one after the other. -/
theorem grows_moves {list : List Move} (inner : ∀ move ∈ list, move.IsInner)
    (hparam : ∀ name, .param name ∈ list → name ∈ params)
    (visits : ∀ id w w', step id w = .ok w' → Walk.Grows [] w w')
    (h : moves step list w = .ok w') : Walk.Grows params w w' := by
  induction list generalizing w with
  | nil =>
    cases h
    exact .refl _
  | cons first rest ih =>
    obtain ⟨mid, hfirst, hrest⟩ := moves_cons.mp h
    refine (grows_move (inner first List.mem_cons_self) ?_ visits hfirst).trans
      (ih (fun move hmove => inner move (List.mem_cons_of_mem _ hmove))
        (fun name hname => hparam name (List.mem_cons_of_mem _ hname)) hrest)
    rintro name rfl
    exact hparam name List.mem_cons_self

end Moves

section Visits

variable {table : NodeTable} {levels : Nat} {id : NodeId}

/-- The walk over a node makes the moves of the node. -/
theorem visit_succ {node : Node} (hnode : table.node? id = some node) :
    visit table (levels + 1) id = moves (visit table levels) (node.moves id) := by
  rw [visit, hnode]

/-- The parameters of a callable that is walked are in order. -/
theorem checked_of_visit {node : Node} {list : ParamList} {body : NodeId} {sees : Bool}
    (hnode : table.node? id = some node) (hcallable : node.callable? = some (list, body, sees))
    (h : visit table (levels + 1) id w = .ok w') :
    move (visit table levels) (.check list) w = .ok w := by
  rw [visit_succ hnode, Node.moves_of_callable hcallable] at h
  obtain ⟨checked, hcheck, -⟩ := moves_cons.mp h
  have hchecked := hcheck
  rw [move] at hcheck
  split at hcheck <;> cases hcheck
  exact hchecked

/-- The walk over a callable goes on inside of it and records the names found there. -/
theorem visit_callable {node : Node} {list : ParamList} {body : NodeId} {sees : Bool}
    (hnode : table.node? id = some node) (hcallable : node.callable? = some (list, body, sees))
    (h : visit table (levels + 1) id w = .ok w')
    (visits : ∀ id w w', visit table levels id w = .ok w' → Walk.Grows [] w w') :
    ∃ inner names, moves (visit table levels) (Move.inside list body) (w.enter id sees) = .ok inner ∧
      Walk.Grows (list.map Param.name) (w.enter id sees) inner ∧
      inner.scopes = { root := id, declared := names, seesEnclosing := sees } :: w.scopes ∧
      w' = { scopes := w.scopes
             found := { inner.found with owned := inner.found.owned.put id names } } := by
  have hchecked := checked_of_visit hnode hcallable h
  rw [visit_succ hnode, Node.moves_of_callable hcallable] at h
  obtain ⟨checked, hcheck, h⟩ := moves_cons.mp h
  obtain ⟨entered, henter, h⟩ := moves_cons.mp h
  obtain ⟨inner, hinside, h⟩ := moves_append.mp h
  obtain ⟨left, hleave, h⟩ := moves_cons.mp h
  cases h
  cases hleave
  cases henter
  obtain rfl : w = checked := Except.ok.inj (hchecked.symm.trans hcheck)
  have grows : Walk.Grows (list.map Param.name) (w.enter id sees) inner :=
    grows_moves (fun _ => Move.isInner_inside) (fun _ => Move.param_of_mem_inside) visits hinside
  have hscopes := grows.scopes
  rw [Walk.enter] at hscopes
  -- the scope root of the callable is on top, with the names found inside
  cases hinner : inner.scopes with
  | nil =>
    rw [hinner] at hscopes
    cases hscopes
  | cons top rest =>
    rw [hinner] at hscopes
    cases hscopes with
    | cons _ _ names _ _ =>
      refine ⟨inner, names, hinside, grows, hinner, ?_⟩
      rw [Walk.leave, hinner]
      rfl

/-- The walk over a node adds names that were not visible to the innermost scope root, and leaves
the scope roots around it. -/
theorem grows_visit (h : visit table levels id w = .ok w') : Walk.Grows [] w w' := by
  induction levels generalizing id w w' with
  | zero => cases h
  | succ levels ih =>
    cases hnode : table.node? id with
    | none =>
      rw [visit, hnode] at h
      cases h
    | some node =>
      cases hcallable : node.callable? with
      | none =>
        have inner := Node.moves_of_not_callable hcallable id
        rw [visit_succ hnode] at h
        exact grows_moves (fun move hmove => (inner move hmove).1)
          (fun name hname => absurd rfl ((inner _ hname).2 name)) (fun _ _ _ => ih) h
      | some callable =>
        obtain ⟨list, body, sees⟩ := callable
        obtain ⟨inner, names, -, grows, -, rfl⟩ :=
          visit_callable hnode hcallable h fun _ _ _ => ih
        exact ⟨.refl _, grows.unbound⟩

end Visits

/-! ### What is found out -/

section Found

variable {β : Type} {f : Resolution → β}

/-- Moves inside a scope root find out nothing new, as far as their reads and visits do not. -/
theorem found_moves {step : NodeId → WalkStep} {list : List Move}
    (inner : ∀ move ∈ list, move.IsInner)
    (reads : ∀ id name, .read id name ∈ list → ∀ w : Walk, f (w.read id name).found = f w.found)
    (visits : ∀ id ∈ list.filterMap Move.visited?, ∀ w w', step id w = .ok w' →
      f w'.found = f w.found)
    (h : moves step list w = .ok w') : f w'.found = f w.found := by
  induction list generalizing w with
  | nil =>
    cases h
    rfl
  | cons first rest ih =>
    obtain ⟨mid, hfirst, hrest⟩ := moves_cons.mp h
    have hsub : ∀ id ∈ rest.filterMap Move.visited?,
        id ∈ (first :: rest).filterMap Move.visited? := by
      intro id hid
      rw [List.filterMap_cons]
      split
      · exact hid
      · exact List.mem_cons_of_mem _ hid
    rw [ih (fun move hmove => inner move (List.mem_cons_of_mem _ hmove))
      (fun id name hread => reads id name (List.mem_cons_of_mem _ hread))
      (fun id hid => visits id (hsub id hid)) hrest]
    cases first with
    | visit id => exact visits id List.mem_cons_self w mid hfirst
    | read id name =>
      cases hfirst
      exact reads id name List.mem_cons_self w
    | declare name =>
      cases hfirst
      rw [Walk.found_declare]
    | param name =>
      cases hfirst
      rw [Walk.found_declareParam]
    | check list =>
      rw [move] at hfirst
      split at hfirst <;> cases hfirst
      rfl
    | enter | leave => exact absurd (inner _ List.mem_cons_self) id

variable {table : NodeTable} {levels : Nat} {id : NodeId}

/-- The walk over a node finds out nothing new, as far as reads and scope roots at or below the node
have nothing to do with it. -/
theorem found_visit
    (reads : ∀ other ∈ table.subtree levels id, ∀ name (w : Walk),
      f (w.read other name).found = f w.found)
    (records : ∀ root ∈ table.subtree levels id, ∀ names (found : Resolution),
      f { found with owned := found.owned.put root names } = f found)
    (h : visit table levels id w = .ok w') : f w'.found = f w.found := by
  induction levels generalizing id w w' with
  | zero => cases h
  | succ levels ih =>
    cases hnode : table.node? id with
    | none =>
      rw [visit, hnode] at h
      cases h
    | some node =>
      rw [NodeTable.subtree, hnode] at reads records
      -- the operands lie below the node, so the hypotheses hold for them
      have visits : ∀ child ∈ (node.moves id).filterMap Move.visited?, ∀ w w',
          visit table levels child w = .ok w' → f w'.found = f w.found := by
        intro child hchild w w' hvisit
        have below : table.subtree levels child ⊆ node.children.flatMap (table.subtree levels) :=
          fun other hother => List.mem_flatMap.mpr
            ⟨child, (node.visited_moves_perm id).mem_iff.mp hchild, hother⟩
        exact ih (fun other hother => reads other (List.mem_cons_of_mem _ (below hother)))
          (fun other hother => records other (List.mem_cons_of_mem _ (below hother))) hvisit
      cases hcallable : node.callable? with
      | none =>
        rw [visit_succ hnode] at h
        refine found_moves (fun move hmove => (Node.moves_of_not_callable hcallable id move hmove).1)
          (fun other name hread => ?_) visits h
        obtain ⟨rfl, -⟩ := Node.read_mem_moves hread
        exact reads other List.mem_cons_self name
      | some callable =>
        obtain ⟨list, body, sees⟩ := callable
        obtain ⟨inner, names, hinside, -, -, rfl⟩ :=
          visit_callable hnode hcallable h fun _ _ _ => grows_visit
        have hmoves : ∀ move ∈ Move.inside list body, move ∈ node.moves id :=
          fun _ => Node.mem_moves_of_mem_inside hcallable
        rw [records id List.mem_cons_self names inner.found]
        refine found_moves (w := w.enter id sees) (fun _ => Move.isInner_inside)
          (fun other name hread => ?_) (fun child hchild => visits child ?_) hinside
        · obtain ⟨rfl, -⟩ := Node.read_mem_moves (hmoves _ hread)
          exact reads other List.mem_cons_self name
        · obtain ⟨move, hmove, hvisited⟩ := List.mem_filterMap.mp hchild
          exact List.mem_filterMap.mpr ⟨move, hmoves move hmove, hvisited⟩

end Found

section Recorded

variable {table : NodeTable} {levels : Nat} {id : NodeId}

/-- Only scope roots at or below a node are recorded by the walk over it. -/
theorem owned_visit {r : NodeId} (hr : r ∉ table.subtree levels id)
    (h : visit table levels id w = .ok w') : w'.found.owned.get? r = w.found.owned.get? r := by
  refine found_visit (f := fun found => found.owned.get? r) (fun id _ name w => ?_)
    (fun root hroot names found => ?_) h
  · rw [Walk.owned_read]
  · rw [Assoc.get?_put, if_neg]
    rintro rfl
    exact hr hroot

/-- Only reads at or below a node are flagged by the walk over it. -/
theorem unbound_visit {r : NodeId} (hr : r ∉ table.subtree levels id)
    (h : visit table levels id w = .ok w') :
    w'.found.isUnbound r = w.found.isUnbound r := by
  refine found_visit (f := fun found => found.isUnbound r) (fun id hid name w => ?_)
    (fun root hroot names found => rfl) h
  have hne : r ≠ id := fun heq => hr (heq ▸ hid)
  rw [Walk.isUnbound_read, decide_eq_false hne, Bool.false_and, Bool.or_false]

end Recorded

end WalkStep

end ScriptSemantics
