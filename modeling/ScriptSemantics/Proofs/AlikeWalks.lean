import ScriptSemantics.Proofs.Arrivals

/-!
# Walks that go alike

The walk over a node depends on what is around the node only through the names that are visible
there.  Two walks over the same node that see the same names flag the same reads and record the same
names for the scope roots below the node.

## Main Definitions

* `ScopesAlike` — the same scope roots inside of outermost ones that declare the same names
* `Walk.Alike` — two states of the walk that see the same names

## Main Results

* `WalkStep.alike_visit` — the walks over a node from two such states end in two such states

## Design Notes

Some names may be left out of the comparison.  The empty name can be bound by the host but is never
declared by the walk.
-/

namespace ScriptSemantics

/-- The same scope roots around a place, inside of outermost ones that declare the same of some
names. -/
inductive ScopesAlike (q : Name → Prop) : List OpenScope → List OpenScope → Prop
  | outermost {scope scope' : OpenScope} (sees : scope'.seesEnclosing = scope.seesEnclosing)
      (declared : ∀ name, q name → (name ∈ scope'.declared ↔ name ∈ scope.declared)) :
    ScopesAlike q [scope] [scope']
  | inside (scope : OpenScope) {rest rest' : List OpenScope} (h : ScopesAlike q rest rest') :
    ScopesAlike q (scope :: rest) (scope :: rest')

namespace ScopesAlike

variable {q : Name → Prop} {scopes scopes' : List OpenScope} {name : Name}

theorem visibleIn_eq (h : ScopesAlike q scopes scopes') (hname : q name) :
    visibleIn scopes' name = visibleIn scopes name := by
  induction h with
  | outermost sees declared =>
    simp only [visibleIn, Bool.and_false, Bool.or_false]
    rw [Bool.eq_iff_iff, List.contains_iff_mem, List.contains_iff_mem, declared name hname]
  | inside scope h ih => rw [visibleIn, visibleIn, ih]

theorem ne_nil (h : ScopesAlike q scopes scopes') : scopes ≠ [] := by
  cases h <;> simp

/-- Inside of alike scope roots, alike innermost ones are the same. -/
theorem of_cons {first first' : OpenScope} (h : ScopesAlike q (first :: scopes) (first' :: scopes'))
    (hne : scopes ≠ []) : first' = first ∧ ScopesAlike q scopes scopes' := by
  cases h with
  | outermost => exact absurd rfl hne
  | inside scope h => exact ⟨rfl, h⟩

end ScopesAlike

/-- Two states of the walk that see the same of some names around a place, and agree on some
nodes. -/
structure Walk.Alike (table : NodeTable) (q : Name → Prop) (ids : List NodeId) (w w' : Walk) :
    Prop where
  scopes : ScopesAlike q w.scopes w'.scopes
  unbound : ∀ id ∈ ids, (∀ name, table.node? id = some (.ident name) → q name) →
    w'.found.isUnbound id = w.found.isUnbound id
  owned : ∀ root ∈ ids, w'.found.owned.get? root = w.found.owned.get? root

variable {table : NodeTable} {q : Name → Prop} {ids : List NodeId} {w w' v : Walk} {id : NodeId}
  {name : Name}

namespace Walk.Alike

theorem insert (h : Alike table q ids w w') (name : Name) :
    Alike table q ids (w.insert name) (w'.insert name) := by
  obtain ⟨scopes, unbound, owned⟩ := h
  rw [Walk.insert, Walk.insert]
  generalize w.scopes = these at scopes
  generalize w'.scopes = those at scopes
  cases scopes with
  | outermost sees declared =>
    refine ⟨.outermost ?_ fun other hother => ?_, unbound, owned⟩
    · unfold OpenScope.insert
      split <;> split <;> exact sees
    · rw [OpenScope.mem_insert, OpenScope.mem_insert, declared other hother]
  | inside scope rest => exact ⟨.inside _ rest, unbound, owned⟩

theorem declare (h : Alike table q ids w w') (hq : ∀ name, name.isEmpty = false → q name) :
    Alike table q ids (w.declare name) (w'.declare name) := by
  rw [Walk.declare, Walk.declare]
  cases hempty : name.isEmpty with
  | true => exact h
  | false =>
    rw [h.scopes.visibleIn_eq (hq name hempty)]
    split
    · exact h
    · exact h.insert name

theorem declareParam (h : Alike table q ids w w') :
    Alike table q ids (w.declareParam name) (w'.declareParam name) := by
  rw [Walk.declareParam, Walk.declareParam]
  split
  · exact h
  · exact h.insert name

theorem read (h : Alike table q ids w w') (hnode : table.node? id = some (.ident name)) :
    Alike table q ids (w.read id name) (w'.read id name) := by
  refine ⟨?_, fun other hother hnames => ?_, fun root hroot => ?_⟩
  · rw [scopes_read, scopes_read]
    exact h.scopes
  · rw [isUnbound_read, isUnbound_read, h.unbound other hother hnames]
    by_cases heq : other = id
    · subst heq
      rw [h.scopes.visibleIn_eq (hnames name hnode)]
    · simp [heq]
  · rw [owned_read, owned_read]
    exact h.owned root hroot

theorem enter (h : Alike table q ids w w') (root : NodeId) (sees : Bool) :
    Alike table q ids (w.enter root sees) (w'.enter root sees) :=
  ⟨.inside _ h.scopes, h.unbound, h.owned⟩

end Walk.Alike

namespace WalkStep

/-! ### Moves -/

theorem move_check {step : NodeId → WalkStep} {list : ParamList} :
    move step (.check list) w = .ok v ↔ list.validate = .ok () ∧ v = w := by
  rw [move]
  cases hvalid : list.validate with
  | error fault => simp
  | ok => simp [eq_comm]

theorem alike_moves {step step' : NodeId → WalkStep} {list : List Move}
    (hq : ∀ name, name.isEmpty = false → q name) (inner : ∀ move ∈ list, move.IsInner)
    (reads : ∀ id name, .read id name ∈ list → table.node? id = some (.ident name))
    (visits : ∀ id w w' v, step id w = .ok v → w.Alike table q ids w' →
      ∃ v', step' id w' = .ok v' ∧ v.Alike table q ids v')
    (h : moves step list w = .ok v) (alike : w.Alike table q ids w') :
    ∃ v', moves step' list w' = .ok v' ∧ v.Alike table q ids v' := by
  induction list generalizing w w' with
  | nil =>
    cases h
    exact ⟨w', rfl, alike⟩
  | cons first rest ih =>
    obtain ⟨mid, hfirst, hrest⟩ := moves_cons.mp h
    have first' : ∃ mid', move step' first w' = .ok mid' ∧ mid.Alike table q ids mid' := by
      cases first with
      | visit id => exact visits id w w' mid hfirst alike
      | read id name =>
        cases hfirst
        exact ⟨_, rfl, alike.read (reads id name List.mem_cons_self)⟩
      | declare name =>
        cases hfirst
        exact ⟨_, rfl, alike.declare hq⟩
      | param name =>
        cases hfirst
        exact ⟨_, rfl, alike.declareParam⟩
      | check list =>
        obtain ⟨hvalid, rfl⟩ := move_check.mp hfirst
        exact ⟨w', move_check.mpr ⟨hvalid, rfl⟩, alike⟩
      | enter | leave => exact absurd (inner _ List.mem_cons_self) id
    obtain ⟨mid', hfirst', alike'⟩ := first'
    obtain ⟨v', hrest', halike⟩ := ih
      (fun move hmove => inner move (List.mem_cons_of_mem _ hmove))
      (fun id name hread => reads id name (List.mem_cons_of_mem _ hread)) hrest alike'
    exact ⟨v', moves_cons.mpr ⟨mid', hfirst', hrest'⟩, halike⟩

/-! ### Nodes -/

/-- Both walks declare the same inside of a callable. -/
theorem scopes_of_alike {step : NodeId → WalkStep} {list : ParamList} {body : NodeId} {sees : Bool}
    {inner inner' : Walk} {names : List Name} (alike : w.Alike table q ids w')
    (visits : ∀ id w v, step id w = .ok v → Walk.Grows [] w v)
    (hscopes : inner.scopes = { root := id, declared := names, seesEnclosing := sees } :: w.scopes)
    (hinside' : moves step (Move.inside list body) (w'.enter id sees) = .ok inner')
    (alike' : inner.Alike table q ids inner') :
    inner'.scopes = { root := id, declared := names, seesEnclosing := sees } :: w'.scopes := by
  have hgrows : Walk.Grows (list.map Param.name) _ inner' :=
    grows_moves (fun _ => Move.isInner_inside) (fun _ => Move.param_of_mem_inside) visits hinside'
  have grown := hgrows.scopes
  have halike := alike'.scopes
  rw [hscopes] at halike
  generalize inner'.scopes = result at grown halike
  cases grown with
  | cons _ _ names' =>
    rw [(halike.of_cons alike.scopes.ne_nil).1]

/-- What both walks have declared inside of a callable, they record for it. -/
theorem alike_leave {names : List Name} {sees : Bool} {inner inner' : Walk}
    (alike : w.Alike table q ids w') (alike' : inner.Alike table q ids inner')
    (hscopes' : inner'.scopes =
      { root := id, declared := names, seesEnclosing := sees } :: w'.scopes) :
    Walk.Alike table q ids
      { scopes := w.scopes
        found := { inner.found with owned := inner.found.owned.put id names } } inner'.leave := by
  rw [Walk.leave, hscopes']
  refine ⟨alike.scopes, alike'.unbound, fun root hroot => ?_⟩
  dsimp only
  rw [Assoc.get?_put, Assoc.get?_put, alike'.owned root hroot]

/-- The walks over a node from states that see the same names end in states that see the same names.
The second one may go down further. -/
theorem alike_visit (hq : ∀ name, name.isEmpty = false → q name) {levels levels' : Nat}
    (hle : levels ≤ levels') (h : visit table levels id w = .ok v)
    (alike : w.Alike table q ids w') :
    ∃ v', visit table levels' id w' = .ok v' ∧ v.Alike table q ids v' := by
  induction levels generalizing levels' id w w' v with
  | zero => cases h
  | succ levels ih =>
    obtain ⟨levels', rfl⟩ : ∃ below, levels' = below + 1 := ⟨levels' - 1, by omega⟩
    have visits : ∀ id w w' v, visit table levels id w = .ok v → w.Alike table q ids w' →
        ∃ v', visit table levels' id w' = .ok v' ∧ v.Alike table q ids v' :=
      fun _ _ _ _ h alike => ih (Nat.le_of_succ_le_succ hle) h alike
    cases hnode : table.node? id with
    | none =>
      rw [visit, hnode] at h
      cases h
    | some node =>
      -- a read among the moves is the node itself
      have reads : ∀ other name, .read other name ∈ node.moves id →
          table.node? other = some (.ident name) := by
        intro other name hread
        obtain ⟨rfl, rfl⟩ := Node.read_mem_moves hread
        exact hnode
      cases hcallable : node.callable? with
      | none =>
        rw [visit_succ hnode] at h ⊢
        exact alike_moves hq
          (fun move hmove => (Node.moves_of_not_callable hcallable id move hmove).1) reads visits h
          alike
      | some callable =>
        obtain ⟨list, body, sees⟩ := callable
        have hchecked := checked_of_visit hnode hcallable h
        obtain ⟨inner, names, hinside, -, hscopes, rfl⟩ :=
          visit_callable hnode hcallable h fun _ _ _ => grows_visit
        obtain ⟨inner', hinside', alike'⟩ := alike_moves hq (fun _ => Move.isInner_inside)
          (fun other name hread => reads other name (Node.mem_moves_of_mem_inside hcallable hread))
          visits hinside (alike.enter id sees)
        -- the callable is left with the same names recorded on both sides
        have hscopes' := scopes_of_alike alike (fun _ _ _ => grows_visit) hscopes hinside' alike'
        have hchecked' : move (visit table levels') (.check list) w' = .ok w' :=
          move_check.mpr ⟨(move_check.mp hchecked).1, rfl⟩
        refine ⟨inner'.leave, ?_, alike_leave alike alike' hscopes'⟩
        rw [visit_succ hnode, Node.moves_of_callable hcallable]
        exact moves_cons.mpr ⟨w', hchecked', moves_cons.mpr ⟨w'.enter id sees, rfl,
          moves_append.mpr ⟨inner', hinside', rfl⟩⟩⟩

end WalkStep

end ScriptSemantics
