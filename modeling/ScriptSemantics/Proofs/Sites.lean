import ScriptSemantics.Proofs.Regime
import ScriptSemantics.Proofs.Standing

/-!
# Where the walk stands

The walk of the resolver stands at the root of a program when it starts, and from a node at which it
stands it goes on to stand at the operands, at the literals and at the locals that are stored.

## Main Definitions

* `NodeTable.IsTree` — no node below a root is reached twice
* `Walked` — the walk over a program has ended

## Main Results

* `stands_start` — at the root of a program
* `Stands.child`, `Stands.codeOperand` — at the operands and literals of nodes and of callables
* `Stands.visible_of_read` — a read that is not flagged is of a visible name
* `Stands.target` — a local that is stored is visible where it is declared
-/

namespace ScriptSemantics

/-- No node below a root is reached twice. -/
def NodeTable.IsTree (table : NodeTable) (root : NodeId) : Prop :=
  (table.subtree (root.index + 1) root).Nodup

instance (table : NodeTable) (root : NodeId) : Decidable (table.IsTree root) :=
  inferInstanceAs (Decidable (List.Nodup _))

variable {table : NodeTable} {res : Resolution} {entries : Assoc NodeId Walk} {levels : Nat}
  {id : NodeId} {w : Walk} {node : Node}

namespace Stands

theorem settled (h : Stands table res entries levels id w) : Settled table res w.scopes := by
  obtain ⟨w', hvisit, agrees⟩ := h.ends
  exact agrees.settled.before (WalkStep.grows_visit hvisit).scopes hasParams_nil

/-- The parameters of a callable are owned by it. -/
theorem owned_params (h : Stands table res entries levels id w)
    {list : ParamList} {body : NodeId} {sees : Bool}
    (hcallable : table.callable? id = some (list, body, sees)) {name : Name}
    (hname : name ∈ list.map Param.name) (hne : name.isEmpty = false) :
    name ∈ res.ownedNames id := by
  obtain ⟨node, hnode, hcode⟩ := Option.bind_eq_some_iff.mp hcallable
  obtain ⟨w', hvisit, -⟩ := h.ends
  cases levels with
  | zero => cases hvisit
  | succ below =>
    have proceeds := h.inside hnode hcode
    obtain ⟨w', hmoves, agrees⟩ := proceeds.ends
    have settled := agrees.settled.before (WalkStep.grows_moves proceeds.inner proceeds.names
      (fun _ _ _ => WalkStep.grows_visit) hmoves).scopes proceeds.own
    refine settled.1.params name ?_ hne
    change name ∈ table.paramNames id
    rw [NodeTable.paramNames, hnode, Option.bind_some, hcode]
    exact hname

theorem exists_levels (h : Stands table res entries levels id w) :
    ∃ below, levels = below + 1 := by
  obtain ⟨w', hvisit, -⟩ := h.ends
  cases levels with
  | zero => cases hvisit
  | succ below => exact ⟨below, rfl⟩

theorem mem_entries (h : Stands table res entries levels id w) : (id, w) ∈ entries := by
  obtain ⟨below, rfl⟩ := h.exists_levels
  refine h.arrivals ?_
  rw [WalkStep.arrivals]
  exact List.mem_cons_self

/-- Where the walk stands at a node, it stands at each operand. -/
theorem child (h : Stands table res entries levels id w) (hnode : table.node? id = some node)
    (hcallable : node.callable? = none) {child : NodeId} (hchild : child ∈ node.children) :
    ∃ below mid, Stands table res entries below child mid ∧
      OpenScope.Grown [] w.scopes mid.scopes := by
  obtain ⟨below, rfl⟩ := h.exists_levels
  obtain ⟨move, hmove, hvisited⟩ :=
    List.mem_filterMap.mp ((node.visited_moves_perm id).mem_iff.mpr hchild)
  obtain rfl : move = .visit child := by
    cases move <;> cases hvisited
    rfl
  obtain ⟨before, after, hsplit⟩ := List.append_of_mem hmove
  have proceeds := h.proceeds hnode hcallable
  rw [hsplit] at proceeds
  obtain ⟨mid, -, grown, stands⟩ := proceeds.arrive
  exact ⟨below, mid, stands, grown⟩

/-- Where the walk stands at a callable, it stands at each fallback and at the body. -/
theorem codeOperand (h : Stands table res entries levels id w) (hnode : table.node? id = some node)
    {list : ParamList} {body : NodeId} {sees : Bool}
    (hcallable : node.callable? = some (list, body, sees)) {child : NodeId}
    (hchild : child ∈ list.fallbacks ++ [body]) :
    ∃ below mid, Stands table res entries below child mid ∧
      OpenScope.Grown (list.map Param.name) (w.enter id sees).scopes mid.scopes := by
  obtain ⟨below, rfl⟩ := h.exists_levels
  rw [← Move.visited_inside] at hchild
  obtain ⟨move, hmove, hvisited⟩ := List.mem_filterMap.mp hchild
  obtain rfl : move = .visit child := by
    cases move <;> cases hvisited
    rfl
  obtain ⟨before, after, hsplit⟩ := List.append_of_mem hmove
  have proceeds := h.inside hnode hcallable
  rw [hsplit] at proceeds
  obtain ⟨mid, -, grown, stands⟩ := proceeds.arrive
  exact ⟨below, mid, stands, grown⟩

/-- A read that is not flagged is of a visible name. -/
theorem visible_of_read (h : Stands table res entries levels id w) {name : Name}
    (hnode : table.node? id = some (.ident name)) (hbound : res.isUnbound id = false) :
    visibleIn w.scopes name = true := by
  obtain ⟨below, rfl⟩ := h.exists_levels
  obtain ⟨w', hvisit, agrees⟩ := h.ends
  rw [WalkStep.visit_succ hnode] at hvisit
  obtain rfl : w.read id name = w' := Except.ok.inj hvisit
  cases hvisible : visibleIn w.scopes name with
  | true => rfl
  | false =>
    have hflagged : id ∈ (w.read id name).found.unbound := by
      rw [Walk.read, hvisible, Bool.false_or]
      split
      next h => exact List.contains_iff_mem.mp h
      next => exact List.mem_append_right _ List.mem_cons_self
    rw [Resolution.isUnbound, List.contains_iff_mem.mpr (agrees.unbound hflagged)] at hbound
    cases hbound

end Stands

/-! ### Locals that are stored -/

/-- The walk stands where a local is stored: after the declaration of the local everything is as
seen from the end. -/
structure Sited (table : NodeTable) (res : Resolution) (entries : Assoc NodeId Walk)
    (site : NodeId) (name : Name) (w : Walk) : Prop where
  mem_entries : (site, w) ∈ entries
  settled : Settled table res (w.declare name).scopes
  distinct : (w.scopes.map OpenScope.root).Nodup

theorem visible_declare (w : Walk) {name : Name} (hne : name.isEmpty = false)
    (hscopes : w.scopes ≠ []) : visibleIn (w.declare name).scopes name = true := by
  rw [Walk.declare, hne, Bool.false_or]
  split
  next h => exact h
  next h =>
    cases hcase : w.scopes with
    | nil => exact absurd hcase hscopes
    | cons top rest =>
      have hdeclared : (top.insert name).declared.contains name = true :=
        List.contains_iff_mem.mpr (OpenScope.mem_insert.mpr (.inr rfl))
      rw [Walk.insert, hcase]
      simp only [visibleIn, hdeclared, Bool.true_or]

/-- A declaration that was made is not made again. -/
theorem declare_of_visible {name : Name}
    (h : name.isEmpty = true ∨ visibleIn w.scopes name = true) : w.declare name = w := by
  rw [Walk.declare, if_pos (Bool.or_eq_true_iff.mpr h)]

/-- Where the walk starts a node with a declaration, it stands after the declaration. -/
theorem Stands.sited_self (h : Stands table res entries levels id w) {name : Name}
    {rest : List Move} (hnode : table.node? id = some node) (hcallable : node.callable? = none)
    (hmoves : node.moves id = .declare name :: rest) : Sited table res entries id name w := by
  refine ⟨h.mem_entries, ?_, h.distinct⟩
  obtain ⟨below, rfl⟩ := h.exists_levels
  have proceeds := h.proceeds hnode hcallable
  obtain ⟨w', hends, agrees⟩ := proceeds.ends
  rw [hmoves] at hends
  obtain ⟨mid, hdeclare, hrest⟩ := WalkStep.moves_cons.mp hends
  cases hdeclare
  refine agrees.settled.before (WalkStep.grows_moves (fun move hmove => proceeds.inner move ?_)
    (fun name hname => proceeds.names name ?_) (fun _ _ _ => WalkStep.grows_visit) hrest).scopes
    hasParams_nil
  · exact hmoves ▸ List.mem_cons_of_mem _ hmove
  · exact hmoves ▸ List.mem_cons_of_mem _ hname

/-- The local of a rescue clause is declared when the walk comes to the body of the clause. -/
theorem Stands.sited_clause (h : Stands table res entries levels id w) {body : NodeId}
    {clauses : List RescueClause} {elseBranch ensure : Option NodeId}
    (hnode : table.node? id = some (.begin body clauses elseBranch ensure))
    {clause : RescueClause} (hclause : clause ∈ clauses) {name : Name}
    (hbinding : clause.binding = some name) (hscopes : w.scopes ≠ []) :
    ∃ mid, Sited table res entries clause.body name mid ∧
      OpenScope.Grown [] w.scopes mid.scopes := by
  obtain ⟨below, rfl⟩ := h.exists_levels
  obtain ⟨earlier, later, rfl⟩ := List.append_of_mem hclause
  -- the moves are cut just before the visit of the body
  have hmoves : (Node.begin body (earlier ++ clause :: later) elseBranch ensure).moves id =
      (.visit body :: earlier.flatMap Move.ofClause ++ [.declare name]) ++
        .visit clause.body :: (later.flatMap Move.ofClause ++
          (elseBranch.toList ++ ensure.toList).map .visit) := by
    have hof : Move.ofClause clause = [.declare name, .visit clause.body] := by
      rw [Move.ofClause, hbinding]
      rfl
    rw [Node.moves, List.flatMap_append, List.flatMap_cons, hof]
    simp
  have proceeds := h.proceeds hnode rfl
  rw [hmoves] at proceeds
  obtain ⟨mid, hbefore, grown, stands⟩ := proceeds.arrive
  obtain ⟨start, hstart, hdeclare⟩ := WalkStep.moves_append.mp hbefore
  obtain rfl : start.declare name = mid := by
    cases hdeclare
    rfl
  -- the walk has not left the scope roots around the node
  have hne : start.scopes ≠ [] := by
    have hgrown : OpenScope.Grown [] w.scopes start.scopes := (WalkStep.grows_moves
      (fun move hmove => proceeds.inner move
        (List.mem_append_left _ (List.mem_append_left _ hmove)))
      (fun name hname => proceeds.names name
        (List.mem_append_left _ (List.mem_append_left _ hname)))
      (fun _ _ _ => WalkStep.grows_visit) hstart).scopes
    intro hnil
    rw [hnil] at hgrown
    generalize w.scopes = scopes at hgrown hscopes
    cases hgrown
    exact hscopes rfl
  -- a name declared once more is declared as before
  have hagain : (start.declare name).declare name = start.declare name := by
    refine declare_of_visible ?_
    cases hempty : name.isEmpty with
    | true => exact .inl rfl
    | false => exact .inr (visible_declare start hempty hne)
  exact ⟨start.declare name, ⟨stands.mem_entries, hagain.symm ▸ stands.settled, stands.distinct⟩,
    grown⟩

/-- Where the walk stands at a node, it stands where each of its locals is stored. -/
theorem Stands.target (h : Stands table res entries levels id w)
    (hnode : table.node? id = some node) {site : NodeId} {name : Name}
    (htarget : (site, name) ∈ node.targets id) (hscopes : w.scopes ≠ []) :
    ∃ mid, Sited table res entries site name mid ∧ OpenScope.Grown [] w.scopes mid.scopes := by
  cases node with
  | assign | opAssign =>
    cases List.mem_singleton.mp htarget
    exact ⟨w, h.sited_self hnode rfl rfl, .refl _⟩
  | begin body clauses elseBranch ensure =>
    obtain ⟨clause, hclause, htarget⟩ := List.mem_filterMap.mp htarget
    obtain ⟨name', hbinding, heq⟩ := Option.map_eq_some_iff.mp htarget
    cases heq
    exact h.sited_clause hnode hclause hbinding hscopes
  | _ => cases htarget

/-! ### The start -/

theorem mem_declared_foldl_insert {names : List Name} {scope : OpenScope} {name : Name} :
    name ∈ (names.foldl OpenScope.insert scope).declared ↔
      name ∈ names ∨ name ∈ scope.declared := by
  induction names generalizing scope with
  | nil => simp
  | cons first rest ih =>
    rw [List.foldl_cons, ih, OpenScope.mem_insert, List.mem_cons]
    tauto

theorem foldl_insert_root (names : List Name) (scope : OpenScope) :
    (names.foldl OpenScope.insert scope).root = scope.root ∧
      (names.foldl OpenScope.insert scope).seesEnclosing = scope.seesEnclosing := by
  induction names generalizing scope with
  | nil => exact ⟨rfl, rfl⟩
  | cons name rest ih =>
    have hinsert : (scope.insert name).root = scope.root ∧
        (scope.insert name).seesEnclosing = scope.seesEnclosing := by
      unfold OpenScope.insert
      split <;> exact ⟨rfl, rfl⟩
    exact ⟨(ih _).1.trans hinsert.1, (ih _).2.trans hinsert.2⟩

/-- The walk starts in a single scope root, which declares what is predeclared. -/
theorem Walk.exists_start (root : NodeId) (predeclared : List Name) :
    ∃ declared, (Walk.start root predeclared).scopes =
        [{ root, declared, seesEnclosing := false }] ∧
      ∀ name, name ∈ declared ↔ name ∈ predeclared := by
  have hdeclared := @mem_declared_foldl_insert predeclared
    { root, declared := [], seesEnclosing := false }
  obtain ⟨hroot, hsees⟩ :=
    foldl_insert_root predeclared { root, declared := [], seesEnclosing := false }
  rw [Walk.start]
  generalize predeclared.foldl OpenScope.insert _ = scope at hdeclared hroot hsees
  obtain ⟨_, declared, _⟩ := scope
  cases hroot
  cases hsees
  exact ⟨declared, rfl, fun name => hdeclared.trans (or_iff_left List.not_mem_nil)⟩

section Programs

variable {root : NodeId} {predeclared : List Name}

/-- The walk over a program has ended, and this is what is known then. -/
structure Walked (table : NodeTable) (root : NodeId) (predeclared : List Name) (res : Resolution)
    (w : Walk) (declared : List Name) : Prop where
  visit : WalkStep.visit table (root.index + 1) root (.start root predeclared) = .ok w
  scopes : w.scopes = [{ root, declared, seesEnclosing := false }]
  kept : predeclared ⊆ declared
  new : ∀ name ∈ declared, name ∈ predeclared ∨ name.isEmpty = false
  top : res.ownedNames root = declared
  owned : ∀ other, other ≠ root → res.owned.get? other = w.found.owned.get? other
  unbound : ∀ id, res.isUnbound id = w.found.isUnbound id

theorem exists_walked (h : resolve table root predeclared = .ok res) :
    ∃ w declared, Walked table root predeclared res w declared := by
  rw [resolve] at h
  cases hvisit : WalkStep.visit table (root.index + 1) root (.start root predeclared) with
  | error fault =>
    rw [hvisit] at h
    cases h
  | ok w =>
    rw [hvisit] at h
    obtain rfl : w.leave.found = res := Except.ok.inj h
    obtain ⟨start, hstart, hpredeclared⟩ := Walk.exists_start root predeclared
    have grown := (WalkStep.grows_visit hvisit).scopes
    rw [hstart] at grown
    obtain ⟨names, hscopes, nonempty⟩ : ∃ names,
        w.scopes = [{ root, declared := start ++ names, seesEnclosing := false }] ∧
          ∀ name ∈ names, name.isEmpty = false := by
      generalize w.scopes = scopes at grown
      cases grown with
      | cons _ _ names _ nonempty => exact ⟨names, rfl, nonempty⟩
    refine ⟨w, start ++ names, hvisit, hscopes, fun name hname => ?_, fun name hname => ?_, ?_,
      fun other hne => ?_, fun id => ?_⟩
    · exact List.mem_append_left _ ((hpredeclared name).mpr hname)
    · exact (List.mem_append.mp hname).imp (hpredeclared name).mp (nonempty name)
    · rw [Walk.leave, hscopes, Resolution.ownedNames, Assoc.get?_put, if_pos rfl]
      rfl
    · rw [Walk.leave, hscopes, Assoc.get?_put, if_neg (Ne.symm hne)]
    · rw [Walk.leave, hscopes]
      rfl

/-- The end of the walk over a program that is no callable agrees with what is known then. -/
theorem Walked.agrees {w : Walk} {declared : List Name}
    (walked : Walked table root predeclared res w declared)
    (hroot : table.callable? root = none) (ids : List NodeId) : w.Agrees table res ids where
  settled := by
    -- a program has no parameters, so all that its root owns is declared in the end
    have hparams : table.paramNames root = [] := by
      rw [NodeTable.callable?] at hroot
      rw [NodeTable.paramNames, hroot]
    rw [walked.scopes]
    refine ⟨⟨fun name hname => ?_, fun name _ hname => .inl ?_, fun name hname => ?_⟩, trivial⟩
    · rwa [walked.top]
    · rwa [walked.top] at hname
    · rw [hparams] at hname
      cases hname
  unbound id hid := by
    have hflagged := walked.unbound id
    rw [Resolution.isUnbound, Resolution.isUnbound, List.contains_iff_mem.mpr hid] at hflagged
    exact List.contains_iff_mem.mp hflagged
  owned other _ hcallable := by
    refine (walked.owned other ?_).symm
    rintro rfl
    rw [hroot] at hcallable
    cases hcallable

/-- The walk stands at the root of a program that is a tree and no callable. -/
theorem stands_start (resolved : resolve table root predeclared = .ok res)
    (tree : table.IsTree root) (hroot : table.callable? root = none) :
    Stands table res
      (WalkStep.arrivals table (root.index + 1) root (.start root predeclared))
      (root.index + 1) root (.start root predeclared) := by
  obtain ⟨w, declared, walked⟩ := exists_walked resolved
  obtain ⟨start, hstart, -⟩ := Walk.exists_start root predeclared
  refine ⟨⟨w, walked.visit, walked.agrees hroot _⟩, List.Subset.refl _, tree, ?_, ?_⟩
  · rw [hstart]
    intro other hother _
    obtain rfl : other = root := List.mem_singleton.mp hother
    exact hroot
  · rw [hstart]
    exact List.nodup_singleton _

end Programs

end ScriptSemantics
