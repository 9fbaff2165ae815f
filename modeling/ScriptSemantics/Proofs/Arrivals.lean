import ScriptSemantics.Proofs.Walks

/-!
# Arrivals of the walk

The walk of the resolver comes to each node of a program in some state.

## Main Definitions

* `WalkStep.arrivals` — the nodes that the walk comes to and its state on each arrival

## Main Results

* `WalkStep.keys_arrivals_perm` — the walk comes to every node below its start
* `WalkStep.roots_arrivals` — the walk arrives inside of scope roots that lie below its start
* `WalkStep.declared_of_param` — inside of a callable the walk declares its parameters
-/

namespace ScriptSemantics

variable {table : NodeTable} {levels : Nat} {id : NodeId} {w w' : Walk}

namespace WalkStep

/-- The nodes that some moves come to, each with the state of the walk on its arrival. -/
def movesArrivals (visit : NodeId → WalkStep) (arrivals : NodeId → Walk → Assoc NodeId Walk) :
    List Move → Walk → Assoc NodeId Walk
  | [], _ => []
  | first :: rest, walk =>
    (match first.visited? with
      | some id => arrivals id walk
      | none => []) ++
      match move visit first walk with
      | .ok walk => movesArrivals visit arrivals rest walk
      | .error _ => []

/-- The nodes that the walk over a node comes to, each with the state of the walk on its arrival. -/
def arrivals (table : NodeTable) : Nat → NodeId → Walk → Assoc NodeId Walk
  | 0, _, _ => []
  | levels + 1, id, walk =>
    (id, walk) :: match table.node? id with
      | some node => movesArrivals (visit table levels) (arrivals table levels) (node.moves id) walk
      | none => []

theorem arrivals_succ {node : Node} (hnode : table.node? id = some node) :
    arrivals table (levels + 1) id w =
      (id, w) :: movesArrivals (visit table levels) (arrivals table levels) (node.moves id) w := by
  rw [arrivals, hnode]

/-- What lies at and below the nodes that some moves walk. -/
def reach (table : NodeTable) (levels : Nat) (list : List Move) : List NodeId :=
  (list.filterMap Move.visited?).flatMap (table.subtree levels)

theorem reach_cons (first : Move) (rest : List Move) :
    reach table levels (first :: rest) =
      (match first.visited? with
        | some id => table.subtree levels id
        | none => []) ++ reach table levels rest := by
  rw [reach, List.filterMap_cons]
  cases first.visited? <;> rfl

theorem reach_append (xs ys : List Move) :
    reach table levels (xs ++ ys) = reach table levels xs ++ reach table levels ys := by
  rw [reach, List.filterMap_append, List.flatMap_append]
  rfl

theorem reach_moves_perm {node : Node} (id : NodeId) :
    (reach table levels (node.moves id)).Perm (node.children.flatMap (table.subtree levels)) :=
  (node.visited_moves_perm id).flatMap_right _

/-- At and below a node lie the node and what its moves walk. -/
theorem subtree_perm {node : Node} (hnode : table.node? id = some node) :
    (table.subtree (levels + 1) id).Perm (id :: reach table levels (node.moves id)) := by
  rw [NodeTable.subtree, hnode]
  exact (reach_moves_perm id).symm.cons id

/-- All that a callable walks lies inside of it. -/
theorem reach_of_callable {node : Node} {list : ParamList} {body : NodeId} {sees : Bool}
    (hcallable : node.callable? = some (list, body, sees)) :
    reach table levels (node.moves id) = reach table levels (Move.inside list body) := by
  rw [Node.moves_of_callable hcallable, reach_cons, reach_cons, reach_append]
  exact List.append_nil _

theorem movesArrivals_cons {visit : NodeId → WalkStep}
    {arrivals : NodeId → Walk → Assoc NodeId Walk} {first : Move} {rest : List Move}
    (h : move visit first w = .ok w') :
    movesArrivals visit arrivals (first :: rest) w =
      (match first.visited? with
        | some id => arrivals id w
        | none => []) ++ movesArrivals visit arrivals rest w' := by
  rw [movesArrivals, h]

theorem keys_movesArrivals_perm {list : List Move}
    (visits : ∀ id w w', visit table levels id w = .ok w' →
      (arrivals table levels id w).keys.Perm (table.subtree levels id))
    (h : moves (visit table levels) list w = .ok w') :
    (movesArrivals (visit table levels) (arrivals table levels) list w).keys.Perm
      (reach table levels list) := by
  induction list generalizing w with
  | nil => exact .nil
  | cons first rest ih =>
    obtain ⟨mid, hfirst, hrest⟩ := moves_cons.mp h
    rw [movesArrivals_cons hfirst, reach_cons, Assoc.keys, List.map_append]
    refine .append ?_ (ih hrest)
    cases first with
    | visit child => exact visits child w mid hfirst
    | _ => exact .nil

/-- The walk comes to every node at or below its start, to each as often as it lies there. -/
theorem keys_arrivals_perm (h : visit table levels id w = .ok w') :
    (arrivals table levels id w).keys.Perm (table.subtree levels id) := by
  induction levels generalizing id w w' with
  | zero => cases h
  | succ levels ih =>
    cases hnode : table.node? id with
    | none =>
      rw [visit, hnode] at h
      cases h
    | some node =>
      rw [visit_succ hnode] at h
      rw [arrivals_succ hnode]
      exact ((keys_movesArrivals_perm (fun _ _ _ => ih) h).cons id).trans (subtree_perm hnode).symm

theorem movesArrivals_append {visit : NodeId → WalkStep}
    {arrivals : NodeId → Walk → Assoc NodeId Walk} {xs ys : List Move}
    (h : moves visit xs w = .ok w') :
    movesArrivals visit arrivals (xs ++ ys) w =
      movesArrivals visit arrivals xs w ++ movesArrivals visit arrivals ys w' := by
  induction xs generalizing w with
  | nil =>
    cases h
    rfl
  | cons first rest ih =>
    obtain ⟨mid, hfirst, hrest⟩ := moves_cons.mp h
    rw [List.cons_append, movesArrivals_cons hfirst, movesArrivals_cons hfirst, ih hrest,
      List.append_assoc]

/-- The walk over a callable arrives at it, and then inside of it. -/
theorem arrivals_callable {node : Node} {list : ParamList} {body : NodeId} {sees : Bool}
    {inner : Walk} (hnode : table.node? id = some node)
    (hcallable : node.callable? = some (list, body, sees))
    (hvisit : visit table (levels + 1) id w = .ok w')
    (hinside : moves (visit table levels) (Move.inside list body) (w.enter id sees) = .ok inner) :
    arrivals table (levels + 1) id w = (id, w) ::
      movesArrivals (visit table levels) (arrivals table levels) (Move.inside list body)
        (w.enter id sees) := by
  have hchecked : move (visit table levels) (.check list) w = .ok w :=
    checked_of_visit hnode hcallable hvisit
  rw [arrivals_succ hnode, Node.moves_of_callable hcallable, movesArrivals_cons hchecked,
    movesArrivals_cons rfl, movesArrivals_append hinside]
  exact congrArg ((id, w) :: ·) (List.append_nil _)

/-- What the walk is inside of when it arrives somewhere, it was inside of at the start, or it has
come to it since. -/
theorem roots_movesArrivals {list : List Move} {site : NodeId} {v : Walk}
    (inner : ∀ move ∈ list, move.IsInner)
    (visits : ∀ id w w', visit table levels id w = .ok w' → (site, v) ∈ arrivals table levels id w →
      v.scopes.map OpenScope.root ⊆ w.scopes.map OpenScope.root ++ table.subtree levels id)
    (h : moves (visit table levels) list w = .ok w')
    (hmem : (site, v) ∈ movesArrivals (visit table levels) (arrivals table levels) list w) :
    v.scopes.map OpenScope.root ⊆ w.scopes.map OpenScope.root ++ reach table levels list := by
  induction list generalizing w with
  | nil => cases hmem
  | cons first rest ih =>
    obtain ⟨mid, hfirst, hrest⟩ := moves_cons.mp h
    have grows : Walk.Grows (match first with | .param name => [name] | _ => []) w mid :=
      grows_move (inner first List.mem_cons_self)
        (fun name hname => hname ▸ List.mem_singleton_self name) (fun _ _ _ => grows_visit) hfirst
    rw [movesArrivals_cons hfirst] at hmem
    rw [reach_cons]
    rcases List.mem_append.mp hmem with hmem | hmem
    · cases first with
      | visit child =>
        refine List.Subset.trans (visits child w mid hfirst hmem) ?_
        rw [← List.append_assoc]
        exact List.subset_append_left _ _
      | _ => cases hmem
    · have below := ih (fun move hmove => inner move (List.mem_cons_of_mem _ hmove)) hrest hmem
      rw [grows.scopes.roots_eq] at below
      refine List.Subset.trans below (List.append_subset.mpr ⟨List.subset_append_left _ _, ?_⟩)
      rw [← List.append_assoc]
      exact List.subset_append_right _ _

theorem roots_arrivals {site : NodeId} {v : Walk} (h : visit table levels id w = .ok w')
    (hmem : (site, v) ∈ arrivals table levels id w) :
    v.scopes.map OpenScope.root ⊆ w.scopes.map OpenScope.root ++ table.subtree levels id := by
  induction levels generalizing id w w' with
  | zero => cases h
  | succ levels ih =>
    cases hnode : table.node? id with
    | none =>
      rw [visit, hnode] at h
      cases h
    | some node =>
      have below : reach table levels (node.moves id) ⊆ table.subtree (levels + 1) id :=
        fun root hroot => (subtree_perm hnode).mem_iff.mpr (List.mem_cons_of_mem _ hroot)
      -- a callable is a scope root around its parts, and no other node is
      cases hcallable : node.callable? with
      | none =>
        rw [visit_succ hnode] at h
        rw [arrivals_succ hnode] at hmem
        rcases List.mem_cons.mp hmem with heq | hmem
        · cases heq
          exact List.subset_append_left _ _
        · have inside := roots_movesArrivals
            (fun move hmove => (Node.moves_of_not_callable hcallable id move hmove).1)
            (fun _ _ _ => ih) h hmem
          exact List.Subset.trans inside
            (List.append_subset.mpr ⟨List.subset_append_left _ _,
              List.Subset.trans below (List.subset_append_right _ _)⟩)
      | some callable =>
        obtain ⟨list, body, sees⟩ := callable
        obtain ⟨inner, -, hinside, -⟩ := visit_callable hnode hcallable h fun _ _ _ => grows_visit
        rw [arrivals_callable hnode hcallable h hinside] at hmem
        rw [reach_of_callable hcallable] at below
        rcases List.mem_cons.mp hmem with heq | hmem
        · cases heq
          exact List.subset_append_left _ _
        · -- inside of the callable, the walk is inside of the callable as well
          have inside := roots_movesArrivals (fun _ => Move.isInner_inside) (fun _ _ _ => ih) hinside
            hmem
          have hself : id ∈ table.subtree (levels + 1) id :=
            (subtree_perm hnode).mem_iff.mpr List.mem_cons_self
          refine List.Subset.trans inside (List.append_subset.mpr ⟨?_,
            List.Subset.trans below (List.subset_append_right _ _)⟩)
          exact List.cons_subset.mpr ⟨List.mem_append_right _ hself, List.subset_append_left _ _⟩

/-- After its moves, every parameter of a callable is declared. -/
theorem declared_of_param {list : List Move} {params : List Name} {name : Name}
    (inner : ∀ move ∈ list, move.IsInner)
    (hparam : ∀ name, .param name ∈ list → name ∈ params)
    (h : moves (visit table levels) list w = .ok w') (hname : .param name ∈ list)
    (hne : name.isEmpty = false) {top : OpenScope} {rest : List OpenScope}
    (hscopes : w.scopes = top :: rest) :
    ∃ top', w'.scopes = top' :: rest ∧ name ∈ top'.declared := by
  -- the parameter is declared by one of the moves, and the moves after it only declare more
  obtain ⟨before, after, rfl⟩ := List.append_of_mem hname
  obtain ⟨mid, hbefore, hafter⟩ := moves_append.mp h
  obtain ⟨next, hmove, hafter⟩ := moves_cons.mp hafter
  have grows := grows_moves (fun move hmove => inner move (List.mem_append_left _ hmove))
    (fun name hname => hparam name (List.mem_append_left _ hname)) (fun _ _ _ => grows_visit)
    hbefore
  have grows' := grows_moves
    (fun move hmove => inner move (List.mem_append_right _ (List.mem_cons_of_mem _ hmove)))
    (fun name hname => hparam name (List.mem_append_right _ (List.mem_cons_of_mem _ hname)))
    (fun _ _ _ => grows_visit) hafter
  have hscopes₁ := grows.scopes
  have hscopes₂ := grows'.scopes
  rw [hscopes] at hscopes₁
  cases hmid : mid.scopes with
  | nil =>
    rw [hmid] at hscopes₁
    cases hscopes₁
  | cons top₁ rest₁ =>
    rw [hmid] at hscopes₁
    obtain rfl : rest₁ = rest := by
      cases hscopes₁
      rfl
    have hnext : next.scopes = top₁.insert name :: rest₁ := by
      cases hmove
      rw [Walk.declareParam, hne, Walk.insert, hmid]
      rfl
    have hdeclared : name ∈ (top₁.insert name).declared := OpenScope.mem_insert.mpr (.inr rfl)
    rw [hnext] at hscopes₂
    cases hend : w'.scopes with
    | nil =>
      rw [hend] at hscopes₂
      cases hscopes₂
    | cons top₂ rest₂ =>
      rw [hend] at hscopes₂
      cases hscopes₂
      exact ⟨_, rfl, List.mem_append_left _ hdeclared⟩

end WalkStep

end ScriptSemantics
