import ScriptSemantics.Proofs.AlikeWalks
import ScriptSemantics.Proofs.Sites

/-!
# The walk over a sequence

Two programs can be resolved one after the other, the second one with the names that the first one
owns predeclared, or as the two statements of one sequence.

## Main Definitions

* `NodeTable.tree` — a root and what lies below it
* `Resolution.Composes` — what is known about a sequence is what is known about its two statements

## Main Results

* `Resolution.composes` — this holds when all three are resolved
* `not_mem_first_of_arrival` — the second statement lies outside of the callables of the first one

## Design Notes

A program is recorded under its root, and so is a callable.  A program that is a single callable is
recorded over it, so nothing is said here about the names of the two roots as callables.
-/

namespace ScriptSemantics

/-- A root and what lies below it. -/
def NodeTable.tree (table : NodeTable) (root : NodeId) : List NodeId :=
  table.subtree (root.index + 1) root

variable {table : NodeTable} {q : Name → Prop} {ids : List NodeId} {w w' v v' : Walk} {id : NodeId}
  {levels levels' : Nat}

/-! ### Levels -/

theorem ScopesAlike.symm {scopes scopes' : List OpenScope} (h : ScopesAlike q scopes scopes') :
    ScopesAlike q scopes' scopes := by
  induction h with
  | outermost sees declared =>
    exact .outermost sees.symm fun name hname => (declared name hname).symm
  | inside scope h ih => exact .inside scope ih

theorem Walk.Alike.symm (h : Walk.Alike table q ids w w') : Walk.Alike table q ids w' w :=
  ⟨h.scopes.symm, fun id hid hq => (h.unbound id hid hq).symm,
    fun root hroot => (h.owned root hroot).symm⟩

namespace WalkStep

/-- Walks that end go alike, however far they may go down. -/
theorem alike_of_visit (hq : ∀ name, name.isEmpty = false → q name)
    (h : visit table levels id w = .ok v) (h' : visit table levels' id w' = .ok v')
    (alike : w.Alike table q ids w') : v.Alike table q ids v' := by
  rcases Nat.le_total levels levels' with hle | hle
  · obtain ⟨u, hu, halike⟩ := alike_visit hq hle h alike
    rw [h'] at hu
    cases hu
    exact halike
  · obtain ⟨u, hu, halike⟩ := alike_visit hq hle h' alike.symm
    rw [h] at hu
    cases hu
    exact halike.symm

/-- A walk that ends has come to the bottom. -/
theorem subtree_of_visit (h : visit table levels id w = .ok v) (hle : levels ≤ levels') :
    table.subtree levels' id = table.subtree levels id := by
  induction levels generalizing levels' id w v with
  | zero => cases h
  | succ levels ih =>
    obtain ⟨levels', rfl⟩ : ∃ below, levels' = below + 1 := ⟨levels' - 1, by omega⟩
    cases hnode : table.node? id with
    | none =>
      rw [visit, hnode] at h
      cases h
    | some node =>
      have visited : ∀ {list : List Move} {w v : Walk}, moves (visit table levels) list w = .ok v →
          ∀ child ∈ list.filterMap Move.visited?, ∃ w v, visit table levels child w = .ok v := by
        intro list
        induction list with
        | nil => exact fun _ _ hchild => absurd hchild List.not_mem_nil
        | cons first rest ihRest =>
          intro w v hmoves child hchild
          obtain ⟨mid, hfirst, hrest⟩ := moves_cons.mp hmoves
          obtain ⟨move, hmove, hvisited⟩ := List.mem_filterMap.mp hchild
          rcases List.mem_cons.mp hmove with rfl | hmove
          · cases move <;> cases hvisited
            exact ⟨w, mid, hfirst⟩
          · exact ihRest hrest child (List.mem_filterMap.mpr ⟨move, hmove, hvisited⟩)
      rw [visit_succ hnode] at h
      rw [NodeTable.subtree, NodeTable.subtree, hnode]
      refine congrArg (id :: ·) (List.flatMap_congr fun child hchild => ?_)
      obtain ⟨w, v, hvisit⟩ := visited h child ((node.visited_moves_perm id).mem_iff.mpr hchild)
      exact ih hvisit (Nat.le_of_succ_le_succ hle)

theorem subtree_eq (h : visit table levels id w = .ok v) (h' : visit table levels' id w' = .ok v') :
    table.subtree levels id = table.subtree levels' id := by
  rcases Nat.le_total levels levels' with hle | hle
  · exact (subtree_of_visit h hle).symm
  · exact subtree_of_visit h' hle

end WalkStep

/-- Alike states with a single scope root declare the same names there. -/
theorem ScopesAlike.exists_of_singleton {scope : OpenScope} {scopes : List OpenScope}
    (h : ScopesAlike q [scope] scopes) :
    ∃ scope', scopes = [scope'] ∧ scope'.seesEnclosing = scope.seesEnclosing ∧
      ∀ name, q name → (name ∈ scope'.declared ↔ name ∈ scope.declared) := by
  cases h with
  | outermost sees declared => exact ⟨_, rfl, sees, declared⟩
  | inside scope h => exact absurd rfl h.ne_nil

/-- The walks over two programs start alike. -/
theorem Walk.alike_start (root root' : NodeId) (names : List Name) :
    (Walk.start root names).Alike table q ids (.start root' names) where
  scopes := by
    obtain ⟨declared, hstart, hnames⟩ := Walk.exists_start root names
    obtain ⟨declared', hstart', hnames'⟩ := Walk.exists_start root' names
    rw [hstart, hstart']
    exact .outermost rfl fun name _ => (hnames' name).trans (hnames name).symm
  unbound _ _ _ := rfl
  owned _ _ := rfl

/-! ### Programs -/

/-- Only what is at or below the root is known. -/
theorem known_of_mem_tree {root : NodeId} {predeclared : List Name} {res : Resolution}
    (h : resolve table root predeclared = .ok res) (hid : id ∉ table.tree root) :
    res.isUnbound id = false ∧ (id ≠ root → res.ownedNames id = []) := by
  obtain ⟨w, declared, walked⟩ := exists_walked h
  refine ⟨?_, fun hne => ?_⟩
  · rw [walked.unbound, WalkStep.unbound_visit hid walked.visit]
    rfl
  · rw [Resolution.ownedNames, walked.owned id hne, WalkStep.owned_visit hid walked.visit]
    rfl

/-! ### Sequences -/

section Sequences

variable {first second whole : NodeId} {keys keys₂ : List Name} {res₁ res₂ res : Resolution}

/-- The walk over a sequence is the walk over its first statement and then that over its second. -/
theorem exists_between (hwhole : table.node? whole = some (.seq [first, second]))
    (h : WalkStep.visit table (whole.index + 1) whole w = .ok w') :
    ∃ mid, WalkStep.visit table whole.index first w = .ok mid ∧
      WalkStep.visit table whole.index second mid = .ok w' := by
  rw [WalkStep.visit_succ hwhole] at h
  obtain ⟨mid, hfirst, hrest⟩ := WalkStep.moves_cons.mp h
  obtain ⟨_, hsecond, hnil⟩ := WalkStep.moves_cons.mp hrest
  cases hnil
  exact ⟨mid, hfirst, hsecond⟩

/-- After the walk over the first statement, the walk over a sequence stands where the walk over the
second program starts. -/
theorem Walked.alike_second {declared : List Name} (walked : Walked table first keys res₁ w declared)
    (alike : w.Alike table (fun _ => True) ids w')
    (hkeys : ∀ name, name ∈ keys₂ ↔ name ∈ res₁.ownedNames first) :
    ScopesAlike (fun _ => True) (Walk.start second keys₂).scopes w'.scopes := by
  obtain ⟨between, hbetween, hsees, hsame⟩ :=
    (walked.scopes ▸ alike.scopes).exists_of_singleton
  obtain ⟨start, hstart, hnames⟩ := Walk.exists_start second keys₂
  rw [hstart, hbetween]
  refine .outermost hsees fun name _ => ?_
  rw [hsame name trivial, ← walked.top, ← hkeys, hnames]

/-- A sequence is resolved when its statements are resolved one after the other. -/
theorem exists_resolved (hwhole : table.node? whole = some (.seq [first, second]))
    (below₁ : first.index < whole.index) (below₂ : second.index < whole.index)
    (resolved₁ : resolve table first keys = .ok res₁)
    (resolved₂ : resolve table second keys₂ = .ok res₂)
    (hkeys : ∀ name, name ∈ keys₂ ↔ name ∈ res₁.ownedNames first) :
    ∃ res, resolve table whole keys = .ok res := by
  obtain ⟨w₁, declared₁, walked₁⟩ := exists_walked resolved₁
  obtain ⟨w₂, declared₂, walked₂⟩ := exists_walked resolved₂
  obtain ⟨mid, hfirst, alike₁⟩ := WalkStep.alike_visit (fun _ _ => trivial) below₁ walked₁.visit
    (Walk.alike_start first whole keys : Walk.Alike table (fun _ => True) [] _ _)
  have alike₂ : (Walk.start second keys₂).Alike table (fun _ => True) [] mid :=
    ⟨walked₁.alike_second alike₁ hkeys, fun _ hid => absurd hid List.not_mem_nil,
      fun _ hid => absurd hid List.not_mem_nil⟩
  obtain ⟨last, hsecond, -⟩ :=
    WalkStep.alike_visit (fun _ _ => trivial) below₂ walked₂.visit alike₂
  have hvisit : WalkStep.visit table (whole.index + 1) whole (.start whole keys) = .ok last := by
    rw [WalkStep.visit_succ hwhole]
    exact WalkStep.moves_cons.mpr ⟨mid, hfirst, WalkStep.moves_cons.mpr ⟨last, hsecond, rfl⟩⟩
  refine ⟨last.leave.found, ?_⟩
  rw [resolve, hvisit]
  rfl

/-- Below a sequence lie the trees of its statements. -/
theorem tree_sequence (hwhole : table.node? whole = some (.seq [first, second]))
    (resolved : resolve table whole keys = .ok res)
    (resolved₁ : resolve table first keys = .ok res₁)
    (resolved₂ : resolve table second keys₂ = .ok res₂) :
    table.tree whole = whole :: (table.tree first ++ table.tree second) := by
  obtain ⟨_, _, walked⟩ := exists_walked resolved
  obtain ⟨_, _, walked₁⟩ := exists_walked resolved₁
  obtain ⟨_, _, walked₂⟩ := exists_walked resolved₂
  obtain ⟨mid, hfirst, hsecond⟩ := exists_between hwhole walked.visit
  rw [NodeTable.tree, NodeTable.subtree, hwhole]
  change whole :: [first, second].flatMap _ = _
  rw [List.flatMap_cons, List.flatMap_cons, List.flatMap_nil, List.append_nil,
    WalkStep.subtree_eq hfirst walked₁.visit, WalkStep.subtree_eq hsecond walked₂.visit]
  rfl

/-- The first statement of a tree is a tree. -/
theorem isTree_first (hwhole : table.node? whole = some (.seq [first, second]))
    (below : first.index < whole.index) (tree : table.IsTree whole)
    (resolved₁ : resolve table first keys = .ok res₁) : table.IsTree first := by
  obtain ⟨_, _, walked₁⟩ := exists_walked resolved₁
  rw [NodeTable.IsTree, NodeTable.subtree, hwhole] at tree
  have hnodup : (table.subtree whole.index first ++ _).Nodup := (List.nodup_cons.mp tree).2
  rw [WalkStep.subtree_of_visit walked₁.visit below] at hnodup
  exact (List.nodup_append.mp hnodup).1

/-- The walk over a sequence, beside the walks over its statements as programs. -/
structure SplitWalk (table : NodeTable) (first second whole : NodeId) (w₁ w₂ mid w : Walk) :
    Prop where
  visitSecond : WalkStep.visit table whole.index second mid = .ok w
  alikeFirst : w₁.Alike table (fun _ => True) (table.tree first) mid
  alikeSecond : w₂.Alike table (fun _ => True) (table.tree second) w
  subtreeSecond : table.subtree whole.index second = table.tree second

theorem exists_splitWalk (hwhole : table.node? whole = some (.seq [first, second]))
    {w w₁ w₂ : Walk} {declared declared₁ declared₂ : List Name}
    (walked : Walked table whole keys res w declared)
    (walked₁ : Walked table first keys res₁ w₁ declared₁)
    (walked₂ : Walked table second keys₂ res₂ w₂ declared₂)
    (hkeys : ∀ name, name ∈ keys₂ ↔ name ∈ res₁.ownedNames first)
    (apart : ∀ id ∈ table.tree first, id ∉ table.tree second) :
    ∃ mid, SplitWalk table first second whole w₁ w₂ mid w := by
  obtain ⟨mid, hfirst, hsecond⟩ := exists_between hwhole walked.visit
  have subtree₁ : table.subtree whole.index first = table.tree first :=
    WalkStep.subtree_eq hfirst walked₁.visit
  have alike₁ : w₁.Alike table (fun _ => True) (table.tree first) mid :=
    WalkStep.alike_of_visit (fun _ _ => trivial) walked₁.visit hfirst
      (Walk.alike_start first whole keys)
  refine ⟨mid, hsecond, alike₁, ?_, WalkStep.subtree_eq hsecond walked₂.visit⟩
  -- the second statement is walked with nothing found out about it, after the first one declared
  -- the names that the second program has predeclared
  refine WalkStep.alike_of_visit (fun _ _ => trivial) walked₂.visit hsecond
    ⟨walked₁.alike_second alike₁ hkeys, fun id hid _ => ?_, fun root hroot => ?_⟩
  · rw [WalkStep.unbound_visit (fun hid' => apart id (subtree₁ ▸ hid') hid) hfirst]
    rfl
  · rw [WalkStep.owned_visit (fun hroot' => apart root (subtree₁ ▸ hroot') hroot) hfirst]
    rfl

namespace SplitWalk

variable {w w₁ w₂ mid : Walk} {declared declared₁ declared₂ : List Name}

/-- The second statement only declares more. -/
theorem subset_declared (split : SplitWalk table first second whole w₁ w₂ mid w)
    (walked : Walked table whole keys res w declared)
    (walked₁ : Walked table first keys res₁ w₁ declared₁) : declared₁ ⊆ declared := by
  obtain ⟨between, hbetween, -, hsame⟩ :=
    (walked₁.scopes ▸ split.alikeFirst.scopes).exists_of_singleton
  have grown := (WalkStep.grows_visit split.visitSecond).scopes
  have hlast := walked.scopes
  rw [hbetween] at grown
  intro name hname
  rw [← hsame name trivial] at hname
  generalize w.scopes = scopes at grown hlast
  cases grown with
  | cons _ _ names _ _ =>
    obtain ⟨-, rfl, -⟩ := OpenScope.mk.inj (List.head_eq_of_cons_eq hlast)
    exact List.mem_append_left _ hname

/-- The sequence declares what the second program declares. -/
theorem mem_declared_iff (split : SplitWalk table first second whole w₁ w₂ mid w)
    (walked : Walked table whole keys res w declared)
    (walked₂ : Walked table second keys₂ res₂ w₂ declared₂) (name : Name) :
    name ∈ declared ↔ name ∈ declared₂ := by
  have alike := split.alikeSecond.scopes
  rw [walked.scopes, walked₂.scopes] at alike
  cases alike with
  | outermost sees same => exact same name trivial
  | inside scope h => exact absurd rfl h.ne_nil

end SplitWalk

end Sequences

/-- What is known about a sequence is what is known about its two statements as programs of their
own, and the second program owns what the sequence owns. -/
structure Resolution.Composes (table : NodeTable) (first second whole : NodeId)
    (res₁ res₂ res : Resolution) : Prop where
  firstReads : ∀ id ∈ table.tree first, res.isUnbound id = res₁.isUnbound id
  firstOwned : ∀ root ∈ table.tree first, root ≠ first →
    res.ownedNames root = res₁.ownedNames root
  firstTop : res₁.ownedNames first ⊆ res.ownedNames whole
  /-- The empty name is never declared. -/
  anonymous : ∀ name ∈ res.ownedNames whole, name.isEmpty = true → name ∈ res₁.ownedNames first
  secondReads : ∀ id ∈ table.tree second, res.isUnbound id = res₂.isUnbound id
  secondOwned : ∀ root ∈ table.tree second, root ≠ second →
    res.ownedNames root = res₂.ownedNames root
  secondTop : ∀ name, name ∈ res.ownedNames whole ↔ name ∈ res₂.ownedNames second
  apart : ∀ id ∈ table.tree first, id ∉ table.tree second
  parts : ∀ id ∈ table.tree whole, id = whole ∨ id ∈ table.tree first ∨ id ∈ table.tree second

/-- A sequence and its statements are resolved alike, when the second statement is resolved with
the names predeclared that the first one owns. -/
theorem Resolution.composes {first second whole : NodeId} {keys keys₂ : List Name}
    {res₁ res₂ res : Resolution} (hwhole : table.node? whole = some (.seq [first, second]))
    (tree : table.IsTree whole) (resolved : resolve table whole keys = .ok res)
    (resolved₁ : resolve table first keys = .ok res₁)
    (resolved₂ : resolve table second keys₂ = .ok res₂)
    (hkeys : ∀ name, name ∈ keys₂ ↔ name ∈ res₁.ownedNames first) :
    Resolution.Composes table first second whole res₁ res₂ res := by
  obtain ⟨w, declared, walked⟩ := exists_walked resolved
  obtain ⟨w₁, declared₁, walked₁⟩ := exists_walked resolved₁
  obtain ⟨w₂, declared₂, walked₂⟩ := exists_walked resolved₂
  -- the tree is the sequence and, apart from each other, the trees of the statements
  have subtree := tree_sequence hwhole resolved resolved₁ resolved₂
  have hnodup : (table.tree whole).Nodup := tree
  rw [subtree, List.nodup_cons, List.nodup_append, List.mem_append, not_or] at hnodup
  obtain ⟨hnotin, -, -, disjoint⟩ := hnodup
  have apart : ∀ id ∈ table.tree first, id ∉ table.tree second :=
    fun id hid hid' => disjoint id hid id hid' rfl
  -- between the statements, the walk sees what the second one is resolved with alone
  obtain ⟨mid, split⟩ := exists_splitWalk hwhole walked walked₁ walked₂ hkeys apart
  have top₂ : ∀ name, name ∈ res.ownedNames whole ↔ name ∈ res₂.ownedNames second := fun name => by
    rw [walked.top, walked₂.top]
    exact split.mem_declared_iff walked walked₂ name
  have ne_whole : ∀ root, root ∈ table.tree first ∨ root ∈ table.tree second → root ≠ whole := by
    rintro root hroot rfl
    exact hroot.elim hnotin.1 hnotin.2
  exact {
    firstReads := fun id hid => by
      rw [walked.unbound, walked₁.unbound,
        WalkStep.unbound_visit (split.subtreeSecond ▸ apart id hid) split.visitSecond]
      exact split.alikeFirst.unbound id hid fun _ _ => trivial
    firstOwned := fun root hroot hne => by
      rw [Resolution.ownedNames, Resolution.ownedNames, walked.owned root (ne_whole root (.inl hroot)),
        walked₁.owned root hne,
        WalkStep.owned_visit (split.subtreeSecond ▸ apart root hroot) split.visitSecond,
        split.alikeFirst.owned root hroot]
    firstTop := by
      rw [walked.top, walked₁.top]
      exact split.subset_declared walked walked₁
    anonymous := fun name hname hempty => by
      rw [top₂, walked₂.top] at hname
      refine (hkeys name).mp ((walked₂.new name hname).resolve_right fun hne => ?_)
      rw [hempty] at hne
      cases hne
    secondReads := fun id hid => by
      rw [walked.unbound, walked₂.unbound]
      exact split.alikeSecond.unbound id hid fun _ _ => trivial
    secondOwned := fun root hroot hne => by
      rw [Resolution.ownedNames, Resolution.ownedNames, walked.owned root (ne_whole root (.inr hroot)),
        walked₂.owned root hne, split.alikeSecond.owned root hroot]
    secondTop := top₂
    apart := apart
    parts := fun id hid => by
      rwa [subtree, List.mem_cons, List.mem_append] at hid }

/-- Outside of the first statement of a tree, the walk over a sequence is not inside of scope roots
of this statement. -/
theorem not_mem_first_of_arrival {first second whole : NodeId} {keys keys₂ : List Name}
    {res₁ res₂ res : Resolution} (hwhole : table.node? whole = some (.seq [first, second]))
    (tree : table.IsTree whole) (resolved : resolve table whole keys = .ok res)
    (resolved₁ : resolve table first keys = .ok res₁)
    (resolved₂ : resolve table second keys₂ = .ok res₂) {site : NodeId}
    (harrival : (site, w) ∈ WalkStep.arrivals table (whole.index + 1) whole (.start whole keys))
    (hsite : site ∉ table.tree first) :
    ∀ root ∈ w.scopes.map OpenScope.root, root ∉ table.tree first := by
  obtain ⟨last, _, walked⟩ := exists_walked resolved
  obtain ⟨_, _, walked₁⟩ := exists_walked resolved₁
  obtain ⟨_, _, walked₂⟩ := exists_walked resolved₂
  obtain ⟨mid, hfirst, hsecond⟩ := exists_between hwhole walked.visit
  obtain ⟨declared, hstart, -⟩ := Walk.exists_start whole keys
  have start : (Walk.start whole keys).scopes.map OpenScope.root = [whole] := by
    rw [hstart]
    rfl
  have hnodup : (table.tree whole).Nodup := tree
  rw [tree_sequence hwhole resolved resolved₁ resolved₂, List.nodup_cons, List.nodup_append,
    List.mem_append, not_or] at hnodup
  obtain ⟨⟨hwholeFirst, -⟩, -, -, disjoint⟩ := hnodup
  have visitFirst : WalkStep.move (WalkStep.visit table whole.index) (.visit first)
      (.start whole keys) = .ok mid := hfirst
  have visitSecond : WalkStep.move (WalkStep.visit table whole.index) (.visit second) mid =
      .ok last := hsecond
  -- only the sequence and scope roots of the second statement are around such a place
  suffices w.scopes.map OpenScope.root ⊆ whole :: table.tree second by
    intro root hroot hmem
    rcases List.mem_cons.mp (this hroot) with rfl | hsecond
    · exact hwholeFirst hmem
    · exact disjoint root hmem root hsecond rfl
  rw [WalkStep.arrivals_succ hwhole] at harrival
  rcases List.mem_cons.mp harrival with heq | harrival
  · cases heq
    rw [start]
    exact List.cons_subset_cons _ (List.nil_subset _)
  change (site, w) ∈ WalkStep.movesArrivals _ _ [.visit first, .visit second] _ at harrival
  rw [WalkStep.movesArrivals_cons visitFirst, WalkStep.movesArrivals_cons visitSecond] at harrival
  -- the visit of the first statement arrives at nodes of it only
  rcases List.mem_append.mp harrival with harrival | harrival
  · have hsite' := (WalkStep.keys_arrivals_perm hfirst).mem_iff.mp (List.mem_map_of_mem harrival)
    rw [WalkStep.subtree_eq hfirst walked₁.visit] at hsite'
    exact absurd hsite' hsite
  · rcases List.mem_append.mp harrival with harrival | harrival
    · have roots := WalkStep.roots_arrivals hsecond harrival
      rwa [(WalkStep.grows_visit hfirst).scopes.roots_eq, start,
        WalkStep.subtree_eq hsecond walked₂.visit] at roots
    · cases harrival

end ScriptSemantics
