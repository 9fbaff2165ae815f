import ScriptSemantics.Proofs.Arrivals

/-!
# The walk as seen from its end

Between its arrival at a node and its end, the walk adds names.  A name that a scope root owns in
the end and has not declared yet was not visible yet, unless it is a parameter.  So what is visible
at some point can be told from what is owned in the end.

## Main Definitions

* `Settled` — a state of the walk as seen from the end
* `Stands` — the walk comes to a node, and the rest of it is known
* `holder?` — the innermost scope root that declares a name or has a parameter of this name

## Main Results

* `Stands.proceeds`, `Stands.inside`, `Proceeds.arrive` — from a node to its operands
* `Settled.holder?_eq` — the holder of a visible name is the innermost scope root that owns it
-/

namespace ScriptSemantics

/-- The callable at a node, if the node is a scope root. -/
def NodeTable.callable? (table : NodeTable) (id : NodeId) : Option (ParamList × NodeId × Bool) :=
  (table.node? id).bind Node.callable?

variable {table : NodeTable} {res : Resolution} {params : List Name}
  {scopes scopes' : List OpenScope}

/-! ### Settled states -/

/-- What is declared in a scope root is owned in the end; what is visible there and owned in the end
is declared or is a parameter; and the parameters are owned in the end. -/
structure OpenScope.Settled (table : NodeTable) (res : Resolution) (scope : OpenScope)
    (rest : List OpenScope) : Prop where
  owned : ∀ name ∈ scope.declared, name ∈ res.ownedNames scope.root
  declared : ∀ name, visibleIn (scope :: rest) name = true → name ∈ res.ownedNames scope.root →
    name ∈ scope.declared ∨ name ∈ table.paramNames scope.root
  params : ∀ name ∈ table.paramNames scope.root, name.isEmpty = false →
    name ∈ res.ownedNames scope.root

/-- A state of the walk as seen from the end. -/
def Settled (table : NodeTable) (res : Resolution) : List OpenScope → Prop
  | [] => True
  | scope :: rest => scope.Settled table res rest ∧ Settled table res rest

/-- The innermost scope root has parameters of these names. -/
def HasParams (table : NodeTable) (scopes : List OpenScope) (params : List Name) : Prop :=
  ∀ top ∈ scopes.head?, params ⊆ table.paramNames top.root

theorem hasParams_nil : HasParams table scopes [] :=
  fun _ _ => List.nil_subset _

theorem HasParams.grown {params' : List Name} (h : HasParams table scopes params)
    (grown : OpenScope.Grown params' scopes scopes') : HasParams table scopes' params := by
  intro top htop
  cases grown with
  | nil => cases htop
  | cons first rest names new nonempty =>
    cases htop
    exact h first rfl

/-- What is settled after some moves was settled before them. -/
theorem Settled.before (h : Settled table res scopes') (grown : OpenScope.Grown params scopes scopes')
    (own : HasParams table scopes params) : Settled table res scopes := by
  cases grown with
  | nil => trivial
  | cons top rest names new nonempty =>
    obtain ⟨htop, hrest⟩ := h
    refine ⟨⟨fun name hname => ?_, fun name hvisible howned => ?_, htop.params⟩, hrest⟩
    · exact htop.owned name (List.mem_append_left _ hname)
    · have hlater := (OpenScope.Grown.cons top rest names new nonempty).visible hvisible
      rcases htop.declared name hlater howned with hdeclared | hparam
      · rcases List.mem_append.mp hdeclared with hdeclared | hadded
        · exact .inl hdeclared
        · rcases new name hadded with hparam | hinvisible
          · exact .inr (own top rfl hparam)
          · rw [hvisible] at hinvisible
            cases hinvisible
      · exact .inr hparam

/-! ### Roots in sight -/

/-- The innermost scope root with some property, as far as names are seen. -/
def firstRoot? (p : OpenScope → Bool) : List OpenScope → Option NodeId
  | [] => none
  | scope :: rest =>
    if p scope then some scope.root
    else if scope.seesEnclosing then firstRoot? p rest else none

/-- The innermost scope root that declares a name, as far as names are seen. -/
def declarer? (scopes : List OpenScope) (name : Name) : Option NodeId :=
  firstRoot? (·.declared.contains name) scopes

/-- The innermost scope root that declares a name or has a parameter of this name, declared or not,
as far as names are seen. -/
def holder? (table : NodeTable) (scopes : List OpenScope) (name : Name) : Option NodeId :=
  firstRoot? (fun scope => scope.declared.contains name ||
    (table.paramNames scope.root).contains name) scopes

theorem declarer?_cons (scope : OpenScope) (rest : List OpenScope) (name : Name) :
    declarer? (scope :: rest) name =
      if scope.declared.contains name then some scope.root
      else if scope.seesEnclosing then declarer? rest name else none := rfl

theorem holder?_cons (scope : OpenScope) (rest : List OpenScope) (name : Name) :
    holder? table (scope :: rest) name =
      if scope.declared.contains name || (table.paramNames scope.root).contains name then
        some scope.root
      else if scope.seesEnclosing then holder? table rest name else none := rfl

/-- The scope roots whose names are seen, innermost first. -/
def seenRoots : List OpenScope → List NodeId
  | [] => []
  | scope :: rest => scope.root :: if scope.seesEnclosing then seenRoots rest else []

theorem seenRoots_sublist (scopes : List OpenScope) :
    (seenRoots scopes).Sublist (scopes.map OpenScope.root) := by
  induction scopes with
  | nil => exact .slnil
  | cons scope rest ih =>
    rw [seenRoots, List.map_cons]
    refine .cons_cons _ ?_
    split
    · exact ih
    · exact List.nil_sublist _

theorem OpenScope.Grown.seenRoots_eq (h : OpenScope.Grown params scopes scopes') :
    seenRoots scopes' = seenRoots scopes := by
  cases h <;> rfl

/-- The holder of a visible name is the innermost scope root that owns it in the end. -/
theorem Settled.holder?_eq (h : Settled table res scopes) {name : Name}
    (hne : name.isEmpty = false) (hvisible : visibleIn scopes name = true) :
    ∃ root, holder? table scopes name = some root ∧
      (seenRoots scopes).find? (fun root => (res.ownedNames root).contains name) = some root := by
  induction scopes with
  | nil => cases hvisible
  | cons scope rest ih =>
    obtain ⟨htop, hrest⟩ := h
    rw [holder?_cons, seenRoots, List.find?_cons]
    cases howned : (res.ownedNames scope.root).contains name with
    | true =>
      refine ⟨scope.root, if_pos ?_, rfl⟩
      rw [Bool.or_eq_true]
      exact (htop.declared name hvisible (List.contains_iff_mem.mp howned)).imp
        List.contains_iff_mem.mpr List.contains_iff_mem.mpr
    | false =>
      have hmem : name ∉ res.ownedNames scope.root := fun hmem => by
        rw [List.contains_iff_mem.mpr hmem] at howned
        cases howned
      have hdeclared : scope.declared.contains name = false :=
        Bool.eq_false_iff.mpr fun h => hmem (htop.owned name (List.contains_iff_mem.mp h))
      have hparam : (table.paramNames scope.root).contains name = false :=
        Bool.eq_false_iff.mpr fun h => hmem (htop.params name (List.contains_iff_mem.mp h) hne)
      rw [visibleIn, hdeclared, Bool.false_or, Bool.and_eq_true] at hvisible
      obtain ⟨root, hholder, hfind⟩ := ih hrest hvisible.2
      refine ⟨root, ?_, ?_⟩
      · rw [hdeclared, hparam, hvisible.1]
        exact hholder
      · rw [hvisible.1]
        exact hfind

/-! ### The end of the walk -/

variable {levels : Nat} {id : NodeId} {w w' : Walk} {ids : List NodeId} {list : List Move}

/-- A state of the walk from which some scope roots are not come to any more. -/
structure Walk.Agrees (table : NodeTable) (res : Resolution) (ids : List NodeId) (w : Walk) :
    Prop where
  settled : Settled table res w.scopes
  unbound : w.found.unbound ⊆ res.unbound
  owned : ∀ root ∈ ids, (table.callable? root).isSome →
    w.found.owned.get? root = res.owned.get? root

namespace Walk.Agrees

theorem mono {ids' : List NodeId} (h : w.Agrees table res ids) (sub : ids' ⊆ ids) :
    w.Agrees table res ids' :=
  ⟨h.settled, h.unbound, fun root hroot => h.owned root (sub hroot)⟩

/-- The moves after an agreement come to other nodes only. -/
theorem before (h : w'.Agrees table res ids) (inner : ∀ move ∈ list, move.IsInner)
    (hparam : ∀ name, .param name ∈ list → name ∈ params) (own : HasParams table w.scopes params)
    (apart : ∀ root ∈ ids, root ∉ WalkStep.reach table levels list)
    (hmoves : WalkStep.moves (.visit table levels) list w = .ok w') : w.Agrees table res ids := by
  have grows := WalkStep.grows_moves inner hparam (fun _ _ _ => WalkStep.grows_visit) hmoves
  refine ⟨h.settled.before grows.scopes own, List.Subset.trans grows.unbound h.unbound, ?_⟩
  intro root hroot hcallable
  rw [← h.owned root hroot hcallable]
  refine (WalkStep.found_moves (f := fun found => found.owned.get? root) inner (fun id name _ w => ?_)
    (fun child hchild _ _ => WalkStep.owned_visit ?_) hmoves).symm
  · rw [Walk.owned_read]
  · exact fun hmem => apart root hroot (List.mem_flatMap.mpr ⟨child, hchild, hmem⟩)

end Walk.Agrees

/-- The walk comes to a node and goes on to an end that is known: no node is come to twice, no scope
root at or below the node is around it, and all arrivals are among the given ones. -/
structure Stands (table : NodeTable) (res : Resolution) (entries : Assoc NodeId Walk) (levels : Nat)
    (id : NodeId) (w : Walk) : Prop where
  ends : ∃ w', WalkStep.visit table levels id w = .ok w' ∧
    w'.Agrees table res (table.subtree levels id)
  arrivals : WalkStep.arrivals table levels id w ⊆ entries
  nodup : (table.subtree levels id).Nodup
  apart : ∀ root ∈ w.scopes.map OpenScope.root, root ∈ table.subtree levels id →
    table.callable? root = none
  distinct : (w.scopes.map OpenScope.root).Nodup

/-- The same for moves that stay inside a scope root. -/
structure Proceeds (table : NodeTable) (res : Resolution) (entries : Assoc NodeId Walk)
    (levels : Nat) (params : List Name) (list : List Move) (w : Walk) : Prop where
  inner : ∀ move ∈ list, move.IsInner
  names : ∀ name, .param name ∈ list → name ∈ params
  own : HasParams table w.scopes params
  ends : ∃ w', WalkStep.moves (.visit table levels) list w = .ok w' ∧
    w'.Agrees table res (WalkStep.reach table levels list)
  arrivals : WalkStep.movesArrivals (.visit table levels) (WalkStep.arrivals table levels) list w ⊆
    entries
  nodup : (WalkStep.reach table levels list).Nodup
  apart : ∀ root ∈ w.scopes.map OpenScope.root, root ∈ WalkStep.reach table levels list →
    table.callable? root = none
  distinct : (w.scopes.map OpenScope.root).Nodup

variable {entries : Assoc NodeId Walk} {node : Node}

/-- The walk comes to an operand after the moves before it. -/
theorem Proceeds.arrive {before after : List Move} {child : NodeId}
    (h : Proceeds table res entries levels params (before ++ .visit child :: after) w) :
    ∃ mid, WalkStep.moves (.visit table levels) before w = .ok mid ∧
      OpenScope.Grown params w.scopes mid.scopes ∧ Stands table res entries levels child mid := by
  obtain ⟨w', hmoves, agrees⟩ := h.ends
  obtain ⟨mid, hbefore, hrest⟩ := WalkStep.moves_append.mp hmoves
  obtain ⟨next, hvisit, hafter⟩ := WalkStep.moves_cons.mp hrest
  have grown : OpenScope.Grown params w.scopes mid.scopes :=
    (WalkStep.grows_moves (fun move hmove => h.inner move (List.mem_append_left _ hmove))
      (fun name hname => h.names name (List.mem_append_left _ hname))
      (fun _ _ _ => WalkStep.grows_visit) hbefore).scopes
  have reach : WalkStep.reach table levels (before ++ .visit child :: after) =
      WalkStep.reach table levels before ++
        (table.subtree levels child ++ WalkStep.reach table levels after) := by
    rw [WalkStep.reach_append, WalkStep.reach_cons]
    rfl
  have hnodup := h.nodup
  rw [reach] at hnodup
  obtain ⟨-, hnodup, -⟩ := List.nodup_append.mp hnodup
  obtain ⟨hchild, -, hafterApart⟩ := List.nodup_append.mp hnodup
  have sub : table.subtree levels child ⊆
      WalkStep.reach table levels (before ++ .visit child :: after) := by
    rw [reach]
    exact fun root hroot => List.mem_append_right _ (List.mem_append_left _ hroot)
  refine ⟨mid, hbefore, grown, ⟨next, hvisit, ?_⟩, ?_, hchild, ?_, ?_⟩
  -- what is agreed on at the end holds after the operand as far as later moves record nothing at or
  -- below it
  · have own : HasParams table next.scopes params :=
      (h.own.grown grown).grown (WalkStep.grows_visit hvisit).scopes
    refine (agrees.mono sub).before
      (fun move hmove => h.inner move (List.mem_append_right _ (List.mem_cons_of_mem _ hmove)))
      (fun name hname => h.names name (List.mem_append_right _ (List.mem_cons_of_mem _ hname)))
      own ?_ hafter
    exact fun root hroot hmem => hafterApart root hroot root hmem rfl
  · refine List.Subset.trans ?_ h.arrivals
    rw [WalkStep.movesArrivals_append hbefore]
    exact fun entry hentry => List.mem_append_right _ (List.mem_append_left _ hentry)
  · intro root hroot hmem
    rw [grown.roots_eq] at hroot
    exact h.apart root hroot (sub hmem)
  · rw [grown.roots_eq]
    exact h.distinct

/-- The walk proceeds at a node that is no scope root. -/
theorem Stands.proceeds (h : Stands table res entries (levels + 1) id w)
    (hnode : table.node? id = some node) (hcallable : node.callable? = none) :
    Proceeds table res entries levels [] (node.moves id) w := by
  have inner := Node.moves_of_not_callable hcallable id
  have hperm : (table.subtree (levels + 1) id).Perm (id :: _) := WalkStep.subtree_perm hnode
  have below : WalkStep.reach table levels (node.moves id) ⊆ table.subtree (levels + 1) id :=
    fun root hroot => hperm.mem_iff.mpr (List.mem_cons_of_mem _ hroot)
  obtain ⟨w', hvisit, agrees⟩ := h.ends
  rw [WalkStep.visit_succ hnode] at hvisit
  refine ⟨fun move hmove => (inner move hmove).1,
    fun name hname => absurd rfl ((inner _ hname).2 name), hasParams_nil,
    ⟨w', hvisit, agrees.mono below⟩, ?_, (List.nodup_cons.mp (hperm.nodup_iff.mp h.nodup)).2,
    fun root hroot hmem => h.apart root hroot (below hmem), h.distinct⟩
  have harrivals := h.arrivals
  rw [WalkStep.arrivals_succ hnode] at harrivals
  exact List.Subset.trans (List.subset_cons_self _ _) harrivals

/-- In the end, a callable has declared what it owns, its parameters among it. -/
theorem Settled.inside {list : ParamList} {body : NodeId} {sees : Bool} {inner : Walk}
    {names : List Name} (settled : Settled table res w.scopes)
    (hnames : table.paramNames id = list.map Param.name) (howned : res.ownedNames id = names)
    (hinside : WalkStep.moves (.visit table levels) (Move.inside list body) (w.enter id sees) =
      .ok inner)
    (hscopes : inner.scopes = { root := id, declared := names, seesEnclosing := sees } :: w.scopes) :
    Settled table res inner.scopes := by
  rw [hscopes]
  refine ⟨⟨fun name hname => ?_, fun name _ hname => .inl ?_, fun name hname hne => ?_⟩, settled⟩
  · exact howned ▸ hname
  · exact howned ▸ hname
  · obtain ⟨top, htop, hdeclared⟩ := WalkStep.declared_of_param (fun _ => Move.isInner_inside)
      (fun _ => Move.param_of_mem_inside) hinside (Move.param_mem_inside (hnames ▸ hname)) hne rfl
    rw [hscopes] at htop
    cases htop
    exact howned ▸ hdeclared

/-- The walk proceeds inside a scope root. -/
theorem Stands.inside (h : Stands table res entries (levels + 1) id w)
    (hnode : table.node? id = some node) {list : ParamList} {body : NodeId} {sees : Bool}
    (hcallable : node.callable? = some (list, body, sees)) :
    Proceeds table res entries levels (list.map Param.name) (Move.inside list body)
      (w.enter id sees) := by
  have hcode : table.callable? id = some (list, body, sees) := by
    rw [NodeTable.callable?, hnode]
    exact hcallable
  have hnames : table.paramNames id = list.map Param.name := by
    rw [NodeTable.paramNames, hnode, Option.bind_some, hcallable]
  have hperm : (table.subtree (levels + 1) id).Perm
      (id :: WalkStep.reach table levels (Move.inside list body)) :=
    WalkStep.reach_of_callable hcallable ▸ WalkStep.subtree_perm hnode
  have hself : id ∈ table.subtree (levels + 1) id := hperm.mem_iff.mpr List.mem_cons_self
  have below : WalkStep.reach table levels (Move.inside list body) ⊆
      table.subtree (levels + 1) id :=
    fun root hroot => hperm.mem_iff.mpr (List.mem_cons_of_mem _ hroot)
  obtain ⟨hapart, hnodup⟩ := List.nodup_cons.mp (hperm.nodup_iff.mp h.nodup)
  -- no scope root lies inside of itself, since the nodes are apart
  have around : id ∉ w.scopes.map OpenScope.root := by
    intro hmem
    have hnone := h.apart id hmem hself
    rw [hcode] at hnone
    cases hnone
  obtain ⟨w', hvisit, agrees⟩ := h.ends
  obtain ⟨inner, names, hinside, -, hscopes, rfl⟩ :=
    WalkStep.visit_callable hnode hcallable hvisit fun _ _ _ => WalkStep.grows_visit
  -- the names declared on the way are those recorded for the scope root
  have howned : res.ownedNames id = names := by
    have hid := agrees.owned id hself (by rw [hcode]; rfl)
    rw [Assoc.get?_put, if_pos rfl] at hid
    rw [Resolution.ownedNames, ← hid]
    rfl
  have settled : Settled table res w.scopes := agrees.settled
  refine ⟨fun _ => Move.isInner_inside, fun _ => Move.param_of_mem_inside, ?_,
    ⟨inner, hinside, settled.inside hnames howned hinside hscopes, agrees.unbound, ?_⟩,
    List.Subset.trans (List.subset_cons_self _ _)
      (WalkStep.arrivals_callable hnode hcallable hvisit hinside ▸ h.arrivals),
    hnodup, ?_, List.nodup_cons.mpr ⟨around, h.distinct⟩⟩
  · intro top htop
    cases htop
    exact hnames ▸ List.Subset.refl _
  · intro root hroot hisSome
    rw [← agrees.owned root (below hroot) hisSome, Assoc.get?_put, if_neg]
    rintro rfl
    exact hapart hroot
  · intro root hroot hmem
    rcases List.mem_cons.mp hroot with rfl | hroot
    · exact absurd hmem hapart
    · exact h.apart root hroot (below hmem)

end ScriptSemantics
