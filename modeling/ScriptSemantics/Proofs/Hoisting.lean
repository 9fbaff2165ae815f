import ScriptSemantics.Proofs.Drafts
import ScriptSemantics.Proofs.Sites

/-!
# Hoisting

The resolver finds out which names belong to which region and which reads come too early.  Both can
be told from a listing of the program in source order.

## Main Definitions

* `Tracks` — what is declared in the scope roots around a place, told from the listing so far
* `Draft.Follows` — the state of the walk, told from the listing so far

## Main Results

* `Draft.Follows.step`, `Draft.Follows.run` — the state of the walk and the listing go on together
* `resolve_hoists` — owned names and unbound reads are as the listing gives them
* `root_owns_too_little` — not so the names of a callable that is the whole program

## Design Notes

A scope root declares a name unless it is visible, so what is visible has to be known at every move.
It can be told from the entries so far, since the regions around the present place keep what they
have while the walk is inside of the innermost one.
-/

namespace ScriptSemantics

variable {predeclared : List Name} {root : NodeId} {entries before : List Entry} {entry : Entry}
  {region : Region} {around : List Region} {name : Name}

/-! ### One more entry -/

/-- The entry declares a name in a region. -/
def Entry.Declares (entry : Entry) (region : Region) (name : Name) : Prop :=
  name.isEmpty = false ∧ ∃ around, entry = ⟨.target name, region :: around⟩ ∨
    entry = ⟨.param name, region :: around⟩

theorem Entry.Declares.head (h : entry.Declares region name) : entry.around.head? = some region := by
  obtain ⟨-, around, rfl | rfl⟩ := h <;> rfl

theorem declares_append : Declares predeclared (entries ++ [entry]) region name ↔
    Declares predeclared entries region name ∨ entry.Declares region name := by
  simp only [Declares, Entry.Declares, List.mem_append, List.mem_singleton, eq_comm (a := entry)]
  constructor
  · rintro (h | ⟨hne, around, (h | h) | (h | h)⟩)
    · exact .inl (.inl h)
    · exact .inl (.inr ⟨hne, around, .inl h⟩)
    · exact .inr ⟨hne, around, .inl h⟩
    · exact .inl (.inr ⟨hne, around, .inr h⟩)
    · exact .inr ⟨hne, around, .inr h⟩
  · rintro ((h | ⟨hne, around, h | h⟩) | ⟨hne, around, h | h⟩)
    · exact .inl h
    · exact .inr ⟨hne, around, .inl (.inl h)⟩
    · exact .inr ⟨hne, around, .inr (.inl h)⟩
    · exact .inr ⟨hne, around, .inl (.inr h)⟩
    · exact .inr ⟨hne, around, .inr (.inr h)⟩

theorem seen_append : Seen predeclared (entries ++ [entry]) around name ↔
    Seen predeclared entries around name ∨ ∃ region ∈ around, entry.Declares region name := by
  simp only [Seen, declares_append, and_or_left, exists_or]

/-- An entry of another region changes nothing about what is seen. -/
theorem seen_append_of_head (h : ∀ region ∈ around, entry.around.head? ≠ some region) :
    Seen predeclared (entries ++ [entry]) around name ↔ Seen predeclared entries around name := by
  rw [seen_append, or_iff_left]
  rintro ⟨region, hregion, hdeclares⟩
  exact h region hregion hdeclares.head

/-- The name comes to belong to a region by an entry. -/
def Entry.Gives (predeclared : List Name) (entry : Entry) (before : List Entry) (region : Region)
    (name : Name) : Prop :=
  name.isEmpty = false ∧ ((∃ around, entry = ⟨.param name, region :: around⟩) ∨
    ∃ around, entry = ⟨.target name, region :: around⟩ ∧ ¬ Seen predeclared before around name)

theorem Entry.Gives.head (h : entry.Gives predeclared before region name) :
    entry.around.head? = some region := by
  obtain ⟨-, ⟨around, rfl⟩ | ⟨around, rfl, -⟩⟩ := h <;> rfl

theorem ownedBy_append : OwnedBy predeclared (entries ++ [entry]) before region name ↔
    OwnedBy predeclared entries before region name ∨ entry.Gives predeclared before region name := by
  simp only [OwnedBy, Entry.Gives, List.mem_append, List.mem_singleton, eq_comm (a := entry)]
  constructor
  · rintro (h | ⟨hne, ⟨around, h | h⟩ | ⟨around, h | h, hseen⟩⟩)
    · exact .inl (.inl h)
    · exact .inl (.inr ⟨hne, .inl ⟨around, h⟩⟩)
    · exact .inr ⟨hne, .inl ⟨around, h⟩⟩
    · exact .inl (.inr ⟨hne, .inr ⟨around, h, hseen⟩⟩)
    · exact .inr ⟨hne, .inr ⟨around, h, hseen⟩⟩
  · rintro ((h | ⟨hne, ⟨around, h⟩ | ⟨around, h, hseen⟩⟩) | ⟨hne, ⟨around, h⟩ | ⟨around, h, hseen⟩⟩)
    · exact .inl h
    · exact .inr ⟨hne, .inl ⟨around, .inl h⟩⟩
    · exact .inr ⟨hne, .inr ⟨around, .inl h, hseen⟩⟩
    · exact .inr ⟨hne, .inl ⟨around, .inr h⟩⟩
    · exact .inr ⟨hne, .inr ⟨around, .inr h, hseen⟩⟩

theorem ownedBy_append_of_head (h : entry.around.head? ≠ some region) :
    OwnedBy predeclared (entries ++ [entry]) before region name ↔
      OwnedBy predeclared entries before region name := by
  rw [ownedBy_append, or_iff_left fun hgives => h hgives.head]

theorem OwnedBy.declares (h : OwnedBy predeclared entries before region name) :
    Declares predeclared entries region name := by
  rcases h with h | ⟨hne, ⟨around, h⟩ | ⟨around, h, -⟩⟩
  · exact .inl h
  · exact .inr ⟨hne, around, .inr h⟩
  · exact .inr ⟨hne, around, .inl h⟩

/-! ### The scope roots around a place -/

/-- The innermost scope root around a place, told from the entries so far. -/
structure OpenRegion.Tracks (predeclared : List Name) (root : NodeId) (entries : List Entry)
    (top : OpenRegion) (rest : List OpenRegion) (scope : OpenScope) : Prop where
  sees : scope.seesEnclosing = top.seesEnclosing
  root : scope.root = top.region.getD root
  nodup : scope.declared.Nodup
  declared : ∀ name, name ∈ scope.declared ↔
    OwnedBy predeclared entries top.before top.region name
  /-- All entries of the region see the same around it. -/
  tails : ∀ mention around, ⟨mention, top.region :: around⟩ ∈ entries → around = top.around rest
  /-- Around the region, nothing has been declared since it was entered. -/
  still : ∀ name, Seen predeclared entries (top.around rest) name ↔
    Seen predeclared top.before (top.around rest) name
  listed : ∀ id, top.region = some id →
    ∃ around after, entries = top.before ++ ⟨.callable id, around⟩ :: after

/-- The scope roots around a place, told from the entries so far. -/
def Tracks (predeclared : List Name) (root : NodeId) (entries : List Entry) :
    List OpenRegion → List OpenScope → Prop
  | [], [] => True
  | top :: rest, scope :: scopes =>
    top.Tracks predeclared root entries rest scope ∧ Tracks predeclared root entries rest scopes
  | _, _ => False

variable {stack rest : List OpenRegion} {scopes : List OpenScope} {top : OpenRegion}
  {scope scope' : OpenScope} {mention : Mention}

/-- What is visible around the innermost scope root, if what is visible there is what is seen. -/
theorem OpenRegion.Tracks.outside_iff_of (h : top.Tracks predeclared root entries rest scope)
    (hrest : visibleIn scopes name = true ↔ Seen predeclared entries (seenRegions rest) name) :
    (scope.seesEnclosing && visibleIn scopes name) = true ↔
      Seen predeclared entries (top.around rest) name := by
  rw [h.sees, OpenRegion.around]
  cases top.seesEnclosing
  · simp [Seen]
  · simpa using hrest

/-- What is visible is what is seen. -/
theorem Tracks.visibleIn_iff (h : Tracks predeclared root entries stack scopes) (name : Name) :
    visibleIn scopes name = true ↔ Seen predeclared entries (seenRegions stack) name := by
  induction stack generalizing scopes with
  | nil =>
    cases scopes with
    | nil => simp [visibleIn, seenRegions, Seen]
    | cons => cases h
  | cons top rest ih =>
    cases scopes with
    | nil => cases h
    | cons scope scopes =>
      obtain ⟨htop, hrest⟩ := h
      have outside := htop.outside_iff_of (ih hrest)
      have hseen : Seen predeclared entries (seenRegions (top :: rest)) name ↔
          Declares predeclared entries top.region name ∨
            Seen predeclared entries (top.around rest) name := by
        simp [Seen, seenRegions_cons]
      rw [visibleIn, Bool.or_eq_true, outside, hseen, List.contains_iff_mem, htop.declared]
      constructor
      · exact fun h => h.imp_left OwnedBy.declares
      · rintro (h | h)
        · rcases h with h | ⟨hne, around, htarget | hparam⟩
          · exact .inl (.inl h)
          · obtain rfl := htop.tails _ around htarget
            by_cases hbefore : Seen predeclared top.before (top.around rest) name
            · exact .inr ((htop.still name).mpr hbefore)
            · exact .inl (.inr ⟨hne, .inr ⟨_, htarget, hbefore⟩⟩)
          · exact .inl (.inr ⟨hne, .inl ⟨around, hparam⟩⟩)
        · exact .inr h

theorem OpenRegion.Tracks.outside_iff (h : top.Tracks predeclared root entries rest scope)
    (hrest : ScriptSemantics.Tracks predeclared root entries rest scopes) (name : Name) :
    (scope.seesEnclosing && visibleIn scopes name) = true ↔
      Seen predeclared entries (top.around rest) name :=
  h.outside_iff_of (hrest.visibleIn_iff name)

/-- An entry of another region leaves the scope roots as they are. -/
theorem Tracks.append (h : Tracks predeclared root entries stack scopes)
    (apart : ∀ region ∈ stack.map OpenRegion.region, entry.around.head? ≠ some region) :
    Tracks predeclared root (entries ++ [entry]) stack scopes := by
  induction stack generalizing scopes with
  | nil =>
    cases scopes with
    | nil => trivial
    | cons => cases h
  | cons top rest ih =>
    cases scopes with
    | nil => cases h
    | cons scope scopes =>
      obtain ⟨htop, hrest⟩ := h
      have hregion : entry.around.head? ≠ some top.region := apart _ List.mem_cons_self
      refine ⟨⟨htop.sees, htop.root, htop.nodup, fun name => ?_, fun mention around hmem => ?_,
        fun name => ?_, fun id hid => ?_⟩,
        ih hrest fun region hmem => apart region (List.mem_cons_of_mem _ hmem)⟩
      · rw [ownedBy_append_of_head hregion, htop.declared]
      · rcases List.mem_append.mp hmem with hmem | hmem
        · exact htop.tails mention around hmem
        · cases List.mem_singleton.mp hmem
          exact absurd rfl hregion
      · rw [seen_append_of_head, htop.still]
        intro region hmem
        exact apart region (List.mem_cons_of_mem _ (OpenRegion.mem_around hmem))
      · obtain ⟨around, after, rfl⟩ := htop.listed id hid
        exact ⟨around, after ++ [entry], by simp⟩

/-- An entry of the innermost region may declare something in the innermost scope root. -/
theorem OpenRegion.Tracks.append (h : top.Tracks predeclared root entries rest scope)
    (distinct : top.region ∉ rest.map OpenRegion.region)
    (sees : scope'.seesEnclosing = scope.seesEnclosing)
    (hroot : scope'.root = scope.root) (nodup : scope'.declared.Nodup)
    (declared : ∀ name, name ∈ scope'.declared ↔ name ∈ scope.declared ∨
      (⟨mention, seenRegions (top :: rest)⟩ : Entry).Gives predeclared top.before top.region name) :
    top.Tracks predeclared root (entries ++ [⟨mention, seenRegions (top :: rest)⟩]) rest scope' := by
  refine ⟨sees.trans h.sees, hroot.trans h.root, nodup, fun name => ?_, fun mention around hmem => ?_,
    fun name => ?_, fun id hid => ?_⟩
  · rw [declared, ownedBy_append, h.declared]
  · rcases List.mem_append.mp hmem with hmem | hmem
    · exact h.tails mention around hmem
    · cases List.mem_singleton.mp hmem
      rfl
  · rw [seen_append_of_head, h.still]
    rintro region hmem heq
    cases heq
    exact distinct (OpenRegion.mem_around hmem)
  · obtain ⟨around, after, rfl⟩ := h.listed id hid
    exact ⟨around, after ++ [⟨mention, seenRegions (top :: rest)⟩], by simp⟩

theorem OpenScope.nodup_insert (h : scope.declared.Nodup) (name : Name) :
    (scope.insert name).declared.Nodup := by
  rw [insert]
  split
  next => exact h
  next hnot =>
    refine List.nodup_append.mpr ⟨h, List.nodup_singleton name, ?_⟩
    rintro other hother _ hname rfl
    cases List.mem_singleton.mp hname
    exact hnot (List.contains_iff_mem.mpr hother)

/-! ### The walk and the listing -/

/-- A list that ends with an entry is cut at this entry or before. -/
theorem append_singleton_eq_append_cons {α : Type} {xs before after : List α} {x y : α} :
    xs ++ [x] = before ++ y :: after ↔
      (after = [] ∧ xs = before ∧ x = y) ∨ ∃ after', after = after' ++ [x] ∧
        xs = before ++ y :: after' := by
  constructor
  · intro h
    rcases List.eq_nil_or_concat after with rfl | ⟨after', z, rfl⟩
    · obtain ⟨hxs, hx⟩ := List.append_inj' h rfl
      exact .inl ⟨rfl, hxs, List.head_eq_of_cons_eq hx⟩
    · rw [List.concat_eq_append, ← List.cons_append, ← List.append_assoc] at h
      obtain ⟨hxs, hx⟩ := List.append_inj' h rfl
      cases hx
      exact .inr ⟨after', List.concat_eq_append, hxs⟩
  · rintro (⟨rfl, rfl, rfl⟩ | ⟨after', rfl, rfl⟩)
    · rfl
    · simp

/-- The state of the walk, told from the listing so far. -/
structure Draft.Follows (predeclared : List Name) (root : NodeId) (draft : Draft) (w : Walk) : Prop
    where
  tracks : Tracks predeclared root draft.entries draft.stack w.scopes
  distinct : (draft.stack.map OpenRegion.region).Nodup
  /-- Whatever is listed inside of a callable comes after the callable. -/
  entered : ∀ mention id around, ⟨mention, some id :: around⟩ ∈ draft.entries →
    ∃ around, ⟨.callable id, around⟩ ∈ draft.entries
  flagged : ∀ id, w.found.isUnbound id = true ↔ ∃ before name around after,
    draft.entries = before ++ ⟨.read id name, around⟩ :: after ∧
      ¬ Seen predeclared before around name
  /-- What belongs to a callable is settled when the callable has been left. -/
  closed : ∀ id around, ⟨.callable id, around⟩ ∈ draft.entries → id ≠ root →
    some id ∉ draft.stack.map OpenRegion.region →
    ∃ before around after names, draft.entries = before ++ ⟨.callable id, around⟩ :: after ∧
      w.found.owned.get? id = some names ∧ names.Nodup ∧
      ∀ name, name ∈ names ↔ OwnedBy predeclared draft.entries before (some id) name

namespace Draft.Follows

variable {draft : Draft} {w w' : Walk} {id : NodeId}

theorem listed_of_open (h : draft.Follows predeclared root w)
    (hid : some id ∈ draft.stack.map OpenRegion.region) :
    ∃ around, ⟨.callable id, around⟩ ∈ draft.entries := by
  have listed : ∀ {stack : List OpenRegion} {scopes : List OpenScope},
      Tracks predeclared root draft.entries stack scopes →
      some id ∈ stack.map OpenRegion.region → ∃ around, ⟨.callable id, around⟩ ∈ draft.entries := by
    intro stack
    induction stack with
    | nil => exact fun _ hmem => nomatch hmem
    | cons top rest ih =>
      intro scopes htracks hmem
      cases scopes with
      | nil => cases htracks
      | cons scope scopes =>
        rcases List.mem_cons.mp hmem with htop | hrest
        · obtain ⟨around, after, hentries⟩ := htracks.1.listed id htop.symm
          exact ⟨around, hentries ▸ List.mem_append_right _ List.mem_cons_self⟩
        · exact ih htracks.2 hrest
  exact listed h.tracks hid

/-- The innermost region of an entry is open. -/
theorem open_of_head (hhead : (seenRegions draft.stack).head? = some region) :
    region ∈ draft.stack.map OpenRegion.region :=
  mem_seenRegions (List.mem_of_head? hhead)

theorem entered_add (h : draft.Follows predeclared root w) {other : Mention}
    (hmem : ⟨other, some id :: around⟩ ∈ (draft.add mention).entries) :
    ∃ around, ⟨.callable id, around⟩ ∈ (draft.add mention).entries := by
  have hcallable : ∃ around, ⟨.callable id, around⟩ ∈ draft.entries := by
    rcases List.mem_append.mp hmem with hmem | hmem
    · exact h.entered other id around hmem
    · have haround : some id :: around = seenRegions draft.stack :=
        congrArg Entry.around (List.mem_singleton.mp hmem)
      refine h.listed_of_open (open_of_head ?_)
      rw [← haround]
      rfl
  obtain ⟨around', hmem'⟩ := hcallable
  exact ⟨around', List.mem_append_left _ hmem'⟩

theorem flagged_add (h : draft.Follows predeclared root w)
    (flagged : w'.found.isUnbound id = true ↔ w.found.isUnbound id = true ∨
      ∃ name, mention = .read id name ∧
        ¬ Seen predeclared draft.entries (seenRegions draft.stack) name) :
    w'.found.isUnbound id = true ↔ ∃ before name around after,
      (draft.add mention).entries = before ++ ⟨.read id name, around⟩ :: after ∧
        ¬ Seen predeclared before around name := by
  rw [flagged, h.flagged]
  constructor
  · rintro (⟨before, name, around, after, hsplit, hseen⟩ | ⟨name, rfl, hseen⟩)
    · refine ⟨before, name, around, after ++ [⟨mention, seenRegions draft.stack⟩], ?_, hseen⟩
      rw [Draft.add, hsplit]
      simp
    · exact ⟨draft.entries, name, _, [], rfl, hseen⟩
  · rintro ⟨before, name, around, after, hsplit, hseen⟩
    rcases append_singleton_eq_append_cons.mp hsplit with ⟨rfl, rfl, heq⟩ | ⟨after', -, hbefore⟩
    · cases heq
      exact .inr ⟨name, rfl, hseen⟩
    · exact .inl ⟨before, name, around, after', hbefore, hseen⟩

theorem closed_add (h : draft.Follows predeclared root w)
    (hmem : ⟨.callable id, around⟩ ∈ draft.entries) (hroot : id ≠ root)
    (hclosed : some id ∉ draft.stack.map OpenRegion.region) :
    ∃ before around after names,
      (draft.add mention).entries = before ++ ⟨.callable id, around⟩ :: after ∧
        w.found.owned.get? id = some names ∧ names.Nodup ∧
        ∀ name, name ∈ names ↔ OwnedBy predeclared (draft.add mention).entries before (some id) name := by
  obtain ⟨before, around', after, names, hsplit, hget, hnodup, hnames⟩ :=
    h.closed id around hmem hroot hclosed
  refine ⟨before, around', after ++ [⟨mention, seenRegions draft.stack⟩], names, ?_, hget, hnodup,
    fun name => ?_⟩
  · rw [Draft.add, hsplit]
    simp
  · rw [Draft.add, ownedBy_append_of_head fun hhead => hclosed (open_of_head hhead), hnames]

/-- An entry that is no callable. -/
theorem add (h : draft.Follows predeclared root w) (hmention : ∀ id, mention ≠ .callable id)
    (tracks : Tracks predeclared root (draft.add mention).entries draft.stack w'.scopes)
    (owned : w'.found.owned = w.found.owned)
    (flagged : ∀ id, w'.found.isUnbound id = true ↔ w.found.isUnbound id = true ∨
      ∃ name, mention = .read id name ∧
        ¬ Seen predeclared draft.entries (seenRegions draft.stack) name) :
    (draft.add mention).Follows predeclared root w' := by
  refine ⟨tracks, h.distinct, fun _ _ _ => h.entered_add, fun id => h.flagged_add (flagged id),
    fun id around hmem hroot hclosed => ?_⟩
  have hmem' : ⟨.callable id, around⟩ ∈ draft.entries := by
    rcases List.mem_append.mp hmem with hmem | hmem
    · exact hmem
    · cases List.mem_singleton.mp hmem
      exact absurd rfl (hmention id)
  rw [owned]
  exact h.closed_add hmem' hroot hclosed

/-- An entry changes the scope roots when it changes the innermost one. -/
theorem tracks_add (h : draft.Follows predeclared root w)
    (outermost : w.scopes = [] → w'.scopes = [])
    (inner : ∀ top rest scope scopes, draft.stack = top :: rest → w.scopes = scope :: scopes →
      ∃ scope', w'.scopes = scope' :: scopes ∧ scope'.seesEnclosing = scope.seesEnclosing ∧
        scope'.root = scope.root ∧ scope'.declared.Nodup ∧
        ∀ name, name ∈ scope'.declared ↔ name ∈ scope.declared ∨
          (⟨mention, seenRegions draft.stack⟩ : Entry).Gives predeclared top.before top.region name) :
    Tracks predeclared root (draft.add mention).entries draft.stack w'.scopes := by
  have htracks := h.tracks
  have hdistinct := h.distinct
  cases hstack : draft.stack with
  | nil =>
    cases hscopes : w.scopes with
    | nil =>
      rw [outermost hscopes]
      trivial
    | cons scope scopes =>
      rw [hstack, hscopes] at htracks
      cases htracks
  | cons top rest =>
    cases hscopes : w.scopes with
    | nil =>
      rw [hstack, hscopes] at htracks
      cases htracks
    | cons scope scopes =>
      obtain ⟨scope', hscopes', hsees, hroot, hnodup, hdeclared⟩ :=
        inner top rest scope scopes hstack hscopes
      rw [hstack, hscopes] at htracks
      rw [hstack] at hdistinct hdeclared
      rw [Draft.add, hstack, hscopes']
      obtain ⟨hfirst, hrest⟩ := List.nodup_cons.mp hdistinct
      refine ⟨htracks.1.append hfirst hsees hroot hnodup hdeclared, htracks.2.append ?_⟩
      rintro region hregion heq
      cases heq
      exact hfirst hregion

theorem read (h : draft.Follows predeclared root w) (id : NodeId) (name : Name) :
    (draft.add (.read id name)).Follows predeclared root (w.read id name) := by
  have scopes := w.scopes_read id name
  refine h.add (by simp) ?_ ?_ fun other => ?_
  · refine h.tracks_add (fun hnil => scopes.trans hnil) fun top rest scope outer hstack hscopes => ?_
    have htracks := h.tracks
    rw [hstack, hscopes] at htracks
    refine ⟨scope, scopes.trans hscopes, rfl, rfl, htracks.1.nodup, fun other => ?_⟩
    simp [Entry.Gives]
  · rw [Walk.owned_read]
  · rw [Walk.isUnbound_read]
    have hseen := h.tracks.visibleIn_iff name
    constructor
    · intro hflag
      simp only [Bool.or_eq_true, Bool.and_eq_true, decide_eq_true_eq, Bool.not_eq_true'] at hflag
      rcases hflag with hflag | ⟨rfl, hinvisible⟩
      · exact .inl hflag
      · refine .inr ⟨name, rfl, fun hmem => ?_⟩
        rw [hseen.mpr hmem] at hinvisible
        cases hinvisible
    · rintro (hflag | ⟨_, heq, hunseen⟩)
      · simp [hflag]
      · cases heq
        simp [Bool.eq_false_iff.mpr fun hvisible => hunseen (hseen.mp hvisible)]

/-- An entry that may declare a name in the innermost scope root. -/
theorem insert (h : draft.Follows predeclared root w) (hread : ∀ id name, mention ≠ .read id name)
    (hcallable : ∀ id, mention ≠ .callable id) (new : Bool)
    (hgives : ∀ top rest scope scopes, draft.stack = top :: rest → w.scopes = scope :: scopes →
      ∀ other, other ∈ scope.declared ∨ (⟨mention, seenRegions draft.stack⟩ : Entry).Gives
        predeclared top.before top.region other ↔
          other ∈ scope.declared ∨ (new = true ∧ other = name)) :
    (draft.add mention).Follows predeclared root (if new then w.insert name else w) := by
  have found : (if new then w.insert name else w).found = w.found := by
    split
    · exact w.found_insert name
    · rfl
  refine h.add hcallable (h.tracks_add (fun hnil => ?_) ?_) (by rw [found]) fun id => ?_
  · split
    · rw [Walk.insert, hnil]
      exact hnil
    · exact hnil
  · intro top rest scope scopes hstack hscopes
    have htracks := h.tracks
    rw [hstack, hscopes] at htracks
    have hmem := hgives top rest scope scopes hstack hscopes
    -- unless the name is new, the scope root stays as it is
    cases new with
    | false =>
      refine ⟨scope, hscopes, rfl, rfl, htracks.1.nodup, fun other => ?_⟩
      rw [hmem]
      simp
    | true =>
      refine ⟨scope.insert name, ?_, ?_, ?_, ?_, fun other => ?_⟩
      · rw [if_pos rfl, Walk.insert, hscopes]
      · rw [OpenScope.insert]
        split <;> rfl
      · rw [OpenScope.insert]
        split <;> rfl
      · exact OpenScope.nodup_insert htracks.1.nodup name
      · rw [hmem, OpenScope.mem_insert]
        simp
  · rw [found]
    constructor
    · exact .inl
    · rintro (hflag | ⟨other, hother, -⟩)
      · exact hflag
      · exact absurd hother (hread id other)

theorem declareParam (h : draft.Follows predeclared root w) (name : Name) :
    (draft.add (.param name)).Follows predeclared root (w.declareParam name) := by
  have hinsert := @insert _ _ name (.param name) _ _ h (by simp) (by simp) (!name.isEmpty)
    fun top rest scope scopes hstack hscopes other => by
      rw [hstack, seenRegions_cons]
      simp only [Entry.Gives, Entry.mk.injEq, Mention.param.injEq, reduceCtorEq, false_and,
        exists_false, or_false, Bool.not_eq_true']
      constructor
      · rintro (hmem | ⟨hne, around, rfl, -⟩)
        · exact .inl hmem
        · exact .inr ⟨hne, rfl⟩
      · rintro (hmem | ⟨hne, rfl⟩)
        · exact .inl hmem
        · exact .inr ⟨hne, _, rfl, rfl⟩
  rw [Walk.declareParam]
  cases hempty : name.isEmpty
  · simpa [hempty] using hinsert
  · simpa [hempty] using hinsert

theorem declare (h : draft.Follows predeclared root w) (name : Name) :
    (draft.add (.target name)).Follows predeclared root (w.declare name) := by
  have hinsert := @insert _ _ name (.target name) _ _ h (by simp) (by simp)
    (!(name.isEmpty || visibleIn w.scopes name))
    fun top rest scope scopes hstack hscopes other => by
      have htracks := h.tracks
      rw [hstack, hscopes] at htracks
      have houtside := (htracks.1.outside_iff htracks.2 name).trans (htracks.1.still name)
      rw [hstack, hscopes, seenRegions_cons, visibleIn]
      simp only [Entry.Gives, Entry.mk.injEq, Mention.target.injEq, reduceCtorEq, false_and,
        exists_false, false_or, List.cons.injEq, true_and]
      constructor
      · rintro (hmem | ⟨hne, around, ⟨rfl, rfl⟩, hunseen⟩)
        · exact .inl hmem
        · by_cases hdeclared : name ∈ scope.declared
          · exact .inl hdeclared
          · refine .inr ⟨?_, rfl⟩
            rw [← houtside, Bool.not_eq_true] at hunseen
            have hcontains : scope.declared.contains name = false := by simpa using hdeclared
            rw [hne, hcontains, hunseen]
            rfl
      · rintro (hmem | ⟨hnew, rfl⟩)
        · exact .inl hmem
        · simp only [Bool.not_eq_true', Bool.or_eq_false_iff] at hnew
          refine .inr ⟨hnew.1, _, ⟨rfl, rfl⟩, ?_⟩
          rw [← houtside, hnew.2.2]
          exact Bool.false_ne_true
  rw [Walk.declare]
  cases hskip : name.isEmpty || visibleIn w.scopes name
  · simpa [hskip] using hinsert
  · simpa [hskip] using hinsert

/-- A callable is entered that has not been listed before. -/
theorem enter (h : draft.Follows predeclared root w)
    (hfresh : ∀ around, ⟨.callable id, around⟩ ∉ draft.entries) (sees : Bool) :
    (draft.step (.enter id sees)).Follows predeclared root (w.enter id sees) := by
  -- a new callable is neither open nor mentioned yet
  have hnotOpen : some id ∉ draft.stack.map OpenRegion.region := by
    intro hmem
    obtain ⟨around, hmem⟩ := h.listed_of_open hmem
    exact hfresh around hmem
  have hnotMentioned : ∀ mention around, ⟨mention, some id :: around⟩ ∉ draft.entries := by
    intro mention around hmem
    obtain ⟨around, hmem⟩ := h.entered mention id around hmem
    exact hfresh around hmem
  -- the entry of a callable declares nothing in the scope roots around
  have houter : Tracks predeclared root (draft.add (.callable id)).entries draft.stack w.scopes := by
    refine h.tracks_add (fun hnil => hnil) fun top rest scope scopes hstack hscopes => ?_
    have htracks := h.tracks
    rw [hstack, hscopes] at htracks
    exact ⟨scope, hscopes, rfl, rfl, htracks.1.nodup, by simp [Entry.Gives]⟩
  refine ⟨⟨⟨rfl, rfl, List.nodup_nil, fun name => ?_, fun mention around hmem => ?_, fun name => ?_,
    fun other hother => ?_⟩, houter⟩, List.nodup_cons.mpr ⟨hnotOpen, h.distinct⟩,
    fun _ _ _ => h.entered_add, fun other => h.flagged_add (by simp [Walk.enter]),
    fun other around hmem hroot hclosed => ?_⟩
  · rw [iff_false_left List.not_mem_nil]
    rintro (⟨hnone, -⟩ | ⟨-, ⟨around, hmem⟩ | ⟨around, hmem, -⟩⟩)
    · cases hnone
    · rcases List.mem_append.mp hmem with hmem | hmem
      · exact hnotMentioned _ _ hmem
      · cases List.mem_singleton.mp hmem
    · rcases List.mem_append.mp hmem with hmem | hmem
      · exact hnotMentioned _ _ hmem
      · cases List.mem_singleton.mp hmem
  · rcases List.mem_append.mp hmem with hmem | hmem
    · exact absurd hmem (hnotMentioned _ _)
    · have haround : some id :: around = seenRegions draft.stack :=
        congrArg Entry.around (List.mem_singleton.mp hmem)
      refine absurd (open_of_head ?_) hnotOpen
      rw [← haround]
      rfl
  · rw [Draft.step, Draft.add, seen_append, or_iff_left]
    rintro ⟨region, -, -, around, heq | heq⟩ <;> cases heq
  · cases hother
    exact ⟨_, [], rfl⟩
  · obtain ⟨hne, hclosed⟩ := not_or.mp (mt List.mem_cons.mpr hclosed)
    have hmem' : ⟨.callable other, around⟩ ∈ draft.entries := by
      rcases List.mem_append.mp hmem with hmem | hmem
      · exact hmem
      · cases List.mem_singleton.mp hmem
        exact absurd rfl hne
    exact h.closed_add hmem' hroot hclosed

/-- The innermost region is left. -/
theorem leave (h : draft.Follows predeclared root w) :
    (draft.step .leave).Follows predeclared root w.leave := by
  have htracks := h.tracks
  have hdistinct := h.distinct
  cases hstack : draft.stack with
  | nil =>
    cases hscopes : w.scopes with
    | cons =>
      rw [hstack, hscopes] at htracks
      cases htracks
    | nil =>
      have hdraft : draft.step .leave = draft := by
        rw [Draft.step, hstack, List.tail_nil, ← hstack]
      rw [hdraft, Walk.leave, hscopes]
      exact h
  | cons top rest =>
    cases hscopes : w.scopes with
    | nil =>
      rw [hstack, hscopes] at htracks
      cases htracks
    | cons scope scopes =>
      rw [hstack, hscopes] at htracks
      rw [hstack] at hdistinct
      rw [Walk.leave, hscopes, Draft.step, hstack]
      refine ⟨htracks.2, (List.nodup_cons.mp hdistinct).2, h.entered, h.flagged,
        fun id around hmem hroot hclosed => ?_⟩
      dsimp only
      rw [Assoc.get?_put, htracks.1.root]
      -- what belongs to this region is settled now, and for other ones nothing changes
      by_cases hid : top.region = some id
      · obtain ⟨around', after, hsplit⟩ := htracks.1.listed id hid
        refine ⟨top.before, around', after, scope.declared, hsplit, ?_, htracks.1.nodup, ?_⟩
        · rw [hid, Option.getD_some, if_pos rfl]
        · exact hid ▸ htracks.1.declared
      · have hne : top.region.getD root ≠ id := by
          cases hregion : top.region with
          | none => exact hroot.symm
          | some other =>
            rintro rfl
            exact hid hregion
        rw [if_neg hne]
        refine h.closed id around hmem hroot ?_
        rw [hstack]
        exact fun hopen => (List.mem_cons.mp hopen).elim (fun heq => hid heq.symm) hclosed

/-- The walk and the listing go on together with every move. -/
theorem step (h : draft.Follows predeclared root w) {move : Move}
    (hfresh : ∀ id, move.mark? = some id → id ∉ Entry.marks draft.entries)
    (hmove : WalkStep.move WalkStep.lost move w = .ok w') :
    (draft.step move).Follows predeclared root w' := by
  cases move with
  | visit id => cases hmove
  | check params =>
    obtain ⟨-, rfl⟩ := WalkStep.move_check.mp hmove
    exact h
  | read id name =>
    cases hmove
    exact h.read id name
  | declare name =>
    cases hmove
    exact h.declare name
  | param name =>
    cases hmove
    exact h.declareParam name
  | enter id sees =>
    cases hmove
    refine h.enter (fun around hmem => hfresh id rfl ?_) sees
    exact List.mem_filterMap.mpr ⟨_, hmem, rfl⟩
  | leave =>
    cases hmove
    exact h.leave

/-- The walk and the listing go on together along any moves that come to no callable twice. -/
theorem run (h : draft.Follows predeclared root w) {list : List Move}
    (hnodup : (Entry.marks draft.entries ++ list.filterMap Move.mark?).Nodup)
    (hmoves : WalkStep.moves WalkStep.lost list w = .ok w') :
    (draft.run list).Follows predeclared root w' := by
  induction list generalizing draft w with
  | nil =>
    cases hmoves
    exact h
  | cons first rest ih =>
    obtain ⟨mid, hfirst, hrest⟩ := WalkStep.moves_cons.mp hmoves
    have hmarks : (first :: rest).filterMap Move.mark? =
        first.mark?.toList ++ rest.filterMap Move.mark? := by
      rw [List.filterMap_cons]
      cases first.mark? <;> rfl
    rw [hmarks, ← List.append_assoc] at hnodup
    have hfresh : ∀ id, first.mark? = some id → id ∉ Entry.marks draft.entries := by
      intro id hid hmem
      have hdisjoint := (List.nodup_append.mp (List.nodup_append.mp hnodup).1).2.2
      exact hdisjoint id hmem id (by rw [hid]; exact List.mem_cons_self) rfl
    refine ih (h.step hfresh hfirst) ?_ hrest
    rwa [Draft.marks_step]

/-- Before a program, nothing but the predeclared names is declared. -/
theorem start (predeclared : List Name) (root : NodeId) :
    Draft.start.Follows predeclared root (.start root predeclared) := by
  have nodup : ∀ (names : List Name) (scope : OpenScope), scope.declared.Nodup →
      (names.foldl OpenScope.insert scope).declared.Nodup := by
    intro names
    induction names with
    | nil => exact fun _ h => h
    | cons name rest ih => exact fun scope h => ih _ (OpenScope.nodup_insert h name)
  obtain ⟨hroot, hsees⟩ :=
    foldl_insert_root predeclared { root, declared := [], seesEnclosing := false }
  refine ⟨⟨⟨hsees, hroot, nodup _ _ List.nodup_nil, fun name => ?_, nofun, fun name => Iff.rfl,
    nofun⟩, trivial⟩, List.nodup_singleton _, nofun, fun id => ?_, nofun⟩
  · rw [mem_declared_foldl_insert]
    simp [OwnedBy, Draft.start]
  · simp [Walk.start, Resolution.isUnbound, Resolution.empty, Draft.start]

/-- When the program is left, its names are settled too. -/
theorem owned_root (h : draft.Follows predeclared root w) {top : OpenRegion} {rest : List OpenRegion}
    (hstack : draft.stack = top :: rest) (hregion : top.region = none) :
    (w.leave.found.ownedNames root).Nodup ∧ ∀ name, name ∈ w.leave.found.ownedNames root ↔
      OwnedBy predeclared draft.entries top.before none name := by
  have htracks := h.tracks
  rw [hstack] at htracks
  cases hscopes : w.scopes with
  | nil =>
    rw [hscopes] at htracks
    cases htracks
  | cons scope scopes =>
    rw [hscopes] at htracks
    have hscope : scope.root = root := by rw [htracks.1.root, hregion, Option.getD_none]
    have hget : w.leave.found.owned.get? root = some scope.declared := by
      rw [Walk.leave, hscopes]
      dsimp only
      rw [Assoc.get?_put, if_pos hscope]
    rw [Resolution.ownedNames, hget, ← hregion]
    exact ⟨htracks.1.nodup, htracks.1.declared⟩

end Draft.Follows

/-! ### Entries of a listing -/

/-- What a mention says of its node. -/
def Mention.IsOf (table : NodeTable) : Mention → Prop
  | read id name => table.node? id = some (.ident name)
  | callable id => (table.callable? id).isSome
  | _ => True

variable {table : NodeTable} {levels : Nat} {id : NodeId}

theorem NodeTable.isOf_of_mem_listing (h : entry ∈ table.listing levels around id) :
    entry.mention.IsOf table := by
  induction levels generalizing around id with
  | zero => cases h
  | succ levels ih =>
    rw [listing] at h
    cases hnode : table.node? id with
    | none =>
      rw [hnode] at h
      cases h
    | some node =>
      rw [hnode] at h
      rcases List.mem_append.mp h with h | h
      · obtain ⟨mention, hmention, rfl⟩ := List.mem_map.mp h
        cases node with
        | ident name =>
          cases List.mem_singleton.mp hmention
          exact hnode
        | define | block | lambda =>
          cases List.mem_singleton.mp hmention
          rw [Mention.IsOf, callable?, hnode]
          rfl
        | _ => cases hmention
      · obtain ⟨part, -, hentry⟩ := List.mem_flatMap.mp h
        cases part with
        | operand child => exact ih hentry
        | target | param =>
          cases List.mem_singleton.mp hentry
          trivial

/-- Every read and every callable of a program is listed. -/
theorem NodeTable.exists_entry {root : NodeId} (hid : id ∈ table.subtree (root.index + 1) root)
    {node : Node} (hnode : table.node? id = some node) (hmarked : node.isMarked = true) :
    ∃ entry ∈ table.program root, entry.mention.mark? = some id := by
  have hmem : id ∈ Entry.marks (table.program root) := by
    refine (table.marks_listing_perm _ root).mem_iff.mpr (List.mem_filter.mpr ⟨hid, ?_⟩)
    rw [hnode, Option.any_some, hmarked]
  exact List.mem_filterMap.mp hmem

/-- Every callable of a program has an entry of its own. -/
theorem NodeTable.exists_callable_entry {root : NodeId}
    (hid : id ∈ table.subtree (root.index + 1) root) (hcallable : (table.callable? id).isSome) :
    ∃ around, ⟨.callable id, around⟩ ∈ table.program root := by
  obtain ⟨callable, hcallable⟩ := Option.isSome_iff_exists.mp hcallable
  obtain ⟨node, hnode, hcode⟩ := Option.bind_eq_some_iff.mp hcallable
  have hmarked : node.isMarked = true := by
    cases node with
    | define | block | lambda => rfl
    | _ => cases hcode
  obtain ⟨⟨mention, around⟩, hentry, hmark⟩ := NodeTable.exists_entry hid hnode hmarked
  have hof := table.isOf_of_mem_listing hentry
  cases mention with
  | read other name =>
    cases hmark
    cases hnode.symm.trans hof
    cases hcode
  | callable other =>
    cases hmark
    exact ⟨around, hentry⟩
  | _ => cases hmark

/-- Every read of a program has an entry of its own, under the name it reads. -/
theorem NodeTable.exists_read_entry {root : NodeId}
    (hid : id ∈ table.subtree (root.index + 1) root) (hnode : table.node? id = some (.ident name)) :
    ∃ around, ⟨.read id name, around⟩ ∈ table.program root := by
  obtain ⟨⟨mention, around⟩, hentry, hmark⟩ := NodeTable.exists_entry hid hnode rfl
  have hof := table.isOf_of_mem_listing hentry
  cases mention with
  | read other name' =>
    cases hmark
    cases hnode.symm.trans hof
    exact ⟨around, hentry⟩
  | callable other =>
    cases hmark
    rw [Mention.IsOf, NodeTable.callable?, hnode] at hof
    cases hof
  | _ => cases hmark

/-- A list is cut at an element in one way when its elements are told apart by their marks. -/
theorem cut_eq_of_nodup {α β : Type} {mark? : α → Option β} {xs before after before' after' : List α}
    {x x' : α} {b : β} (nodup : (xs.filterMap mark?).Nodup) (h : xs = before ++ x :: after)
    (h' : xs = before' ++ x' :: after') (hx : mark? x = some b) (hx' : mark? x' = some b) :
    before = before' ∧ x = x' ∧ after = after' := by
  subst h
  induction before generalizing before' with
  | nil =>
    cases before' with
    | nil =>
      cases h'
      exact ⟨rfl, rfl, rfl⟩
    | cons y before' =>
      simp only [List.nil_append, List.cons_append, List.cons.injEq] at h'
      obtain ⟨rfl, rfl⟩ := h'
      rw [List.nil_append, List.filterMap_cons_some hx] at nodup
      refine absurd ?_ (List.nodup_cons.mp nodup).1
      exact List.mem_filterMap.mpr ⟨x', List.mem_append_right _ List.mem_cons_self, hx'⟩
  | cons y before ih =>
    cases before' with
    | nil =>
      simp only [List.nil_append, List.cons_append, List.cons.injEq] at h'
      obtain ⟨rfl, rfl⟩ := h'
      rw [List.cons_append, List.filterMap_cons_some hx'] at nodup
      refine absurd ?_ (List.nodup_cons.mp nodup).1
      exact List.mem_filterMap.mpr ⟨x, List.mem_append_right _ List.mem_cons_self, hx⟩
    | cons y' before' =>
      simp only [List.cons_append, List.cons.injEq] at h'
      obtain ⟨rfl, hrest⟩ := h'
      have hnodup : ((before ++ x :: after).filterMap mark?).Nodup :=
        nodup.sublist ((List.sublist_cons_self y _).filterMap mark?)
      obtain ⟨rfl, hx, hafter⟩ := ih hnodup hrest
      exact ⟨rfl, hx, hafter⟩

/-! ### The resolver -/

/-- Owned names and unbound reads are as the listing of the program gives them. -/
theorem resolve_hoists (founded : table.Founded) (hroot : root.index < table.size)
    (tree : table.IsTree root)
    (valid : ∀ id ∈ table.subtree (root.index + 1) root, ∀ callable ∈ table.callable? id,
      callable.1.validate = .ok ())
    (predeclared : List Name) :
    ∃ res, resolve table root predeclared = .ok res ∧ res.Hoists predeclared table root := by
  obtain ⟨w, hvisit⟩ := WalkStep.exists_visit founded (Nat.lt_succ_self _) hroot valid
    (.start root predeclared)
  have hmarks : (Entry.marks (table.program root)).Nodup :=
    (table.marks_listing_perm _ root).nodup_iff.mpr (tree.filter _)
  have hroute : (table.route (root.index + 1) root).filterMap Move.mark? |>.Nodup :=
    (table.marks_route_perm _ root).nodup_iff.mpr (tree.filter _)
  have follows : (Draft.start.append (table.program root)).Follows predeclared root w := by
    have hrun := (Draft.Follows.start predeclared root).run (by simpa [Draft.start, Entry.marks])
      (WalkStep.visit_eq_route table _ root ▸ hvisit)
    rwa [Draft.run_route] at hrun
  have left := follows.leave
  refine ⟨w.leave.found, by rw [resolve, hvisit]; rfl,
    fun id hid hcallable hne => ?_, ?_, fun id hid name hnode => ?_, fun id hflag => ?_⟩
  -- a callable has been left by the end, so what it owns is settled
  · obtain ⟨around, hentry⟩ := NodeTable.exists_callable_entry hid hcallable
    obtain ⟨before, around', after, names, hsplit, hget, hnodup, hnames⟩ :=
      left.closed id around hentry hne List.not_mem_nil
    rw [Resolution.ownedNames, hget]
    refine ⟨hnodup, ⟨around, hentry⟩, fun before' around'' after' hsplit' name => ?_⟩
    obtain ⟨rfl, -, -⟩ := cut_eq_of_nodup hmarks hsplit hsplit' rfl rfl
    exact hnames name
  · exact follows.owned_root rfl rfl
  -- the marks of a listing differ, so a read stands at one place of it
  · obtain ⟨around, hentry⟩ := NodeTable.exists_read_entry hid hnode
    refine ⟨⟨around, hentry⟩, fun before around after hsplit => ?_⟩
    rw [left.flagged]
    constructor
    · rintro ⟨before', name', around', after', hsplit', hunseen⟩
      obtain ⟨rfl, heq, -⟩ := cut_eq_of_nodup hmarks hsplit hsplit' rfl rfl
      cases heq
      exact hunseen
    · exact fun hunseen => ⟨before, name, around, after, hsplit, hunseen⟩
  · obtain ⟨before, name, around, after, hsplit, -⟩ := (left.flagged id).mp hflag
    have hmem : ⟨.read id name, around⟩ ∈ table.program root := by
      change table.program root = _ at hsplit
      rw [hsplit]
      exact List.mem_append_right _ List.mem_cons_self
    have hmark : id ∈ Entry.marks (table.program root) := List.mem_filterMap.mpr ⟨_, hmem, rfl⟩
    have hmarked := (table.marks_listing_perm _ root).mem_iff.mp hmark
    exact ⟨(List.mem_filter.mp hmarked).1, name, table.isOf_of_mem_listing hmem⟩

/-- In `x = 1; f = lambda { |a, b = x| y = a; x = y; z }; y` the lambda owns its parameters and `y`,
which is not seen around it; `z` is declared nowhere and the last `y` is out of reach. -/
theorem resolve_hoists_lambda :
    let table : NodeTable := ⟨#[.int 1, .assign ⟨34⟩ [.plain ⟨0⟩], .ident ⟨34⟩, .ident ⟨36⟩,
      .assign ⟨38⟩ [.plain ⟨3⟩], .ident ⟨38⟩, .assign ⟨34⟩ [.plain ⟨5⟩], .ident ⟨39⟩,
      .seq [⟨4⟩, ⟨6⟩, ⟨7⟩], .lambda [⟨⟨36⟩, .required⟩, ⟨⟨37⟩, .optional ⟨2⟩⟩] ⟨8⟩,
      .assign ⟨35⟩ [.plain ⟨9⟩], .ident ⟨38⟩, .seq [⟨1⟩, ⟨10⟩, ⟨11⟩]]⟩
    let res : Resolution :=
      { owned := [(⟨9⟩, [⟨36⟩, ⟨37⟩, ⟨38⟩]), (⟨12⟩, [⟨34⟩, ⟨35⟩])], unbound := [⟨7⟩, ⟨11⟩] }
    table.Founded ∧ table.IsTree ⟨12⟩ ∧ resolve table ⟨12⟩ [] = .ok res ∧
      res.Hoists [] table ⟨12⟩ := by
  intro table res
  have founded : table.Founded := by decide
  have tree : table.IsTree ⟨12⟩ := by decide
  have resolved : resolve table ⟨12⟩ [] = .ok res := rfl
  obtain ⟨res', resolved', hoists⟩ := @resolve_hoists ⟨12⟩ table founded (by decide) tree
    (by decide) []
  obtain rfl : res = res' := Except.ok.inj (resolved.symm.trans resolved')
  exact ⟨founded, tree, resolved, hoists⟩

/-- The program `def m; x = 1; end`: what belongs to the program is recorded in place of what
belongs to the method, so the method does not own its local. -/
theorem root_owns_too_little :
    let table : NodeTable := ⟨#[.int 1, .assign ⟨35⟩ [.plain ⟨0⟩], .define ⟨34⟩ [] ⟨1⟩]⟩
    table.Founded ∧ table.IsTree ⟨2⟩ ∧
      ∃ res, resolve table ⟨2⟩ [] = .ok res ∧ ∃ before around after,
        table.program ⟨2⟩ = before ++ ⟨.callable ⟨2⟩, around⟩ :: after ∧
        OwnedBy [] (table.program ⟨2⟩) before (some ⟨2⟩) ⟨35⟩ ∧ ⟨35⟩ ∉ res.ownedNames ⟨2⟩ := by
  intro table
  refine ⟨by decide, by decide, _, rfl, [], _, _, rfl, .inr ⟨rfl, .inr ⟨[], ?_, ?_⟩⟩, by decide⟩
  · exact List.mem_cons_of_mem _ List.mem_cons_self
  · rintro ⟨region, hmem, -⟩
    cases hmem

end ScriptSemantics
