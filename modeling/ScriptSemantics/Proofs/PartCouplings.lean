import Mathlib.Data.List.Find
import ScriptSemantics.Proofs.Lockstep
import ScriptSemantics.Proofs.SequenceWalk
import ScriptSemantics.Proofs.StaticSlots

/-!
# Running the parts of a sequence

Two programs that run one after the other on one machine, and the sequence of both that runs on
another machine, go in lock step.  While the first program runs, the machine of the sequence has
more names bound to nil at the top level.  While the second one runs, the frame of the program has
another identity, the resolver is asked about the second program alone, and calls of the callables
of the first program declare no locals.

## Main Definitions

* `Ledger.Owes`, `Ledger.keeper?` — where a local belongs, although it may be missing there
* `Task.IsIndifferent` — a task finds the locals of some code where they belong
* `Coupling.ofFirst`, `Coupling.ofSecond` — in what the machines differ

## Main Results

* `Coupling.binder?_ofSecond` — the machine of the sequence binds locals where they belong
* `Coupling.lawful_ofFirst`, `Coupling.lawful_ofSecond` — the machines agree on what the code sees
-/

namespace ScriptSemantics

/-! ### Locals of code that was resolved before -/

/-- A scope other than the top-level one ought to bind a name: it was made for a call of a callable
that owns the name. -/
def Ledger.Owes (g : Ledger) (res : Resolution) (m : Machine) (s : ScopeId) (name : Name) : Prop :=
  s ≠ m.env.top ∧ ∃ root ∈ g.root? s, name ∈ res.ownedNames root

instance (g : Ledger) (res : Resolution) (m : Machine) (s : ScopeId) (name : Name) :
    Decidable (g.Owes res m s name) :=
  inferInstanceAs (Decidable (s ≠ m.env.top ∧ ∃ root ∈ g.root? s, name ∈ res.ownedNames root))

/-- The scope that a local belongs to: the innermost one in sight that binds the name or ought
to. -/
def Ledger.keeper? (g : Ledger) (res : Resolution) (m : Machine) (name : Name) : Option ScopeId :=
  (m.env.store.owners m.env.current).find? fun s =>
    m.env.store.binds s name || decide (g.Owes res m s name)

/-- A node finds a local where it belongs.  A read finds it there, or nothing if the resolver has
flagged the read; an update may also find nothing, which it takes for nil. -/
def Ledger.Serves (g : Ledger) (res : Resolution) (m : Machine) (id : NodeId) : Node → Prop
  | .ident name =>
    m.env.store.binder? m.env.current name = if res.isUnbound id then none else g.keeper? res m name
  | .opAssign name _ _ =>
    ∀ s ∈ m.env.store.binder? m.env.current name, g.keeper? res m name = some s
  | _ => True

instance (g : Ledger) (res : Resolution) (m : Machine) (id : NodeId) (node : Node) :
    Decidable (g.Serves res m id node) := by
  cases node with
  | ident | opAssign =>
    unfold Ledger.Serves
    infer_instance
  | _ => exact .isTrue trivial

/-- A task goes on in the same way if the resolver has forgotten about some code, since no local of
this code is read before it is assigned, or taken for an outer one: where a node of the code reads a
local, it finds it where it belongs, and where the code assigns a local, the assignment goes
there. -/
def Task.IsIndifferent (nodes : NodeTable) (res : Resolution) (code : List NodeId) (g : Ledger) :
    Task → Machine → Prop
  | node id, m => id ∈ code → ∀ node ∈ nodes.node? id, g.Serves res m id node
  | store site name _, m => site ∈ code →
    m.env.target name = (g.keeper? res m name).getD (m.env.store.owner m.env.current)
  | _, _ => True

instance (nodes : NodeTable) (res : Resolution) (code : List NodeId) (g : Ledger) (task : Task)
    (m : Machine) : Decidable (task.IsIndifferent nodes res code g m) :=
  match task with
  | .node id => inferInstanceAs (Decidable (id ∈ code → ∀ node ∈ nodes.node? id, g.Serves res m id node))
  | .store site name _ => inferInstanceAs (Decidable (site ∈ code →
      m.env.target name = (g.keeper? res m name).getD (m.env.store.owner m.env.current)))
  | .program .. | .method .. | .closure .. | .loop .. => .isTrue trivial

/-! ### Places in a tree -/

/-- The nodes at which the walk over a program stands are at or below its root. -/
theorem Stands.mem_tree {table : NodeTable} {root id : NodeId} {predeclared : List Name}
    {res : Resolution} {levels : Nat} {w : Walk} (resolved : resolve table root predeclared = .ok res)
    (h : Stands table res
      (WalkStep.arrivals table (root.index + 1) root (.start root predeclared)) levels id w) :
    id ∈ table.tree root := by
  obtain ⟨last, declared, walked⟩ := exists_walked resolved
  exact (WalkStep.keys_arrivals_perm walked.visit).mem_iff.mp (List.mem_map_of_mem h.mem_entries)

/-! ### The first part -/

/-- Every identity keeps its number. -/
def FrameRenaming.identity : FrameRenaming where
  new id := id
  Occurs _ := True
  injective _ _ h := h

namespace Coupling

/-- While the first part runs, the machine of the sequence has the names at the top level that only
the second part declares. -/
def ofFirst (top : ScopeId) (first whole : NodeId) (res₁ res : Resolution) : Coupling where
  ids := .identity
  top := top
  left := res₁
  right := res
  full _ s name := s = top → name ∈ res.ownedNames whole → name ∈ res₁.ownedNames first

variable {program : Program} {first second whole : NodeId} {keys : List Name}
  {res₁ res₂ res : Resolution} {top : ScopeId} {g g' : Ledger} {m m' : Machine} {name : Name}

/-- What holds when a task of the first part is entered. -/
def FirstPre (program : Program) (first : NodeId) (keys : List Name) (res₁ : Resolution) (g : Ledger)
    (task : Task) (m : Machine) : Prop :=
  (program.nodes.callable? first = none →
    (Slots.regimeOf program first keys res₁).contract.pre g task m) ∧
  ((program.nodes.callable? first).isSome = true → task = .node first)

section First

variable (composes : Resolution.Composes program.nodes first second whole res₁ res₂ res)

include composes

/-- A name is found in the same scope on both machines, if the first one finds it at all. -/
theorem binder?_ofFirst (related : (ofFirst top first whole res₁ res).Related g m g' m')
    (accurate : g.Accurate m)
    (found : name.isEmpty = false → ∃ s, m.env.store.binder? m.env.current name = some s) :
    m'.env.store.binder? m'.env.current name = m.env.store.binder? m.env.current name := by
  rw [related.current]
  cases hempty : name.isEmpty with
  | true =>
    exact related.store.binder?_eq_of_full fun _ _ hname => composes.anonymous name hname hempty
  | false =>
    obtain ⟨s, hs⟩ := found hempty
    rw [hs]
    refine related.store.binder?_of_outermost accurate.founded ?_ (fun s hne heq => absurd heq hne) hs
    have outermost := accurate.topParent
    rwa [related.top] at outermost

theorem agreesAt_ofFirst (resolved₁ : resolve program.nodes first keys = .ok res₁)
    (related : (ofFirst top first whole res₁ res).Related g m g' m') {id : NodeId}
    (hpre : FirstPre program first keys res₁ g (.node id) m) : AgreesAt program id m m' := by
  cases hcallable : program.nodes.callable? first with
  | some callable =>
    -- a program that is a single callable only makes a method or a closure
    obtain rfl : id = first := Task.node.inj (hpre.2 (by rw [hcallable]; rfl))
    obtain ⟨node, hnode, hcode⟩ := Option.bind_eq_some_iff.mp hcallable
    refine ⟨fun name hread => ?_, fun name op expr hupdate => ?_⟩
    · rw [hnode] at hread
      cases hread
      cases hcode
    · rw [hnode] at hupdate
      cases hupdate
      cases hcode
  | none =>
    obtain ⟨ready, agreement, placed⟩ := hpre.1 hcallable
    have same : ∀ {name : Name}, (name.isEmpty = false →
        ∃ s, m.env.store.binder? m.env.current name = some s) →
        m'.env.lookup name = m.env.lookup name :=
      fun found => related.lookup_eq (binder?_ofFirst composes related ready.accurate found)
    refine ⟨fun name hread => ?_, fun name op expr hupdate => ?_⟩
    · obtain ⟨levels, w, stands, hscopes, faces⟩ := placed
      have hflag : m'.resolution.isUnbound id = m.resolution.isUnbound id := by
        rw [related.left, related.right]
        exact composes.firstReads id (stands.mem_tree resolved₁)
      rw [Machine.read?, Machine.read?, hflag]
      cases bound : m.resolution.isUnbound id with
      | true => rfl
      | false =>
        refine same fun hne => ?_
        have hvisible := stands.visible_of_read hread (agreement.resolution ▸ bound)
        obtain ⟨-, s, -, -, hs⟩ :=
          agreement.binder?_of_visible stands.settled stands.distinct hne hvisible faces
        exact ⟨s, hs⟩
    · obtain ⟨w, sited, hscopes, faces⟩ := placed.target hupdate List.mem_cons_self
      refine congrArg (·.getD .nil) (same fun hne => ?_)
      obtain ⟨-, s, -, -, hs⟩ := Storing.binder? agreement sited hscopes faces hne
      exact ⟨s, hs⟩

/-- While the first part runs, both machines agree on what its code sees. -/
theorem lawful_ofFirst (resolved₁ : resolve program.nodes first keys = .ok res₁) :
    (ofFirst top first whole res₁ res).Lawful program (FirstPre program first keys res₁)
      fun _ _ _ => True where
  agrees related hpre _ := agreesAt_ofFirst composes resolved₁ related hpre
  target {g m g' m' site name value} related hpre _ := by
    cases hcallable : program.nodes.callable? first with
    | some callable => cases hpre.2 (by rw [hcallable]; rfl)
    | none =>
      obtain ⟨ready, agreement, w, sited, hscopes, faces⟩ := hpre.1 hcallable
      refine related.target_eq (binder?_ofFirst composes related ready.accurate fun hne => ?_)
      obtain ⟨-, s, -, -, hs⟩ := Storing.binder? agreement sited hscopes faces hne
      exact ⟨s, hs⟩
  owned {g m g' m' task frame parent code} related hpre _ opens := by
    cases hcallable : program.nodes.callable? first with
    | some callable =>
      obtain rfl := hpre.2 (by rw [hcallable]; rfl)
      cases opens
    | none =>
      obtain ⟨levels, w, sees, stands, hcode, -⟩ := Slots.code_of_opens (hpre.1 hcallable) opens
      have hne : code.root ≠ first := by
        rintro heq
        rw [heq, hcallable] at hcode
        cases hcode
      have howned := composes.firstOwned code.root (stands.mem_tree resolved₁) hne
      exact ⟨fun name hname => howned ▸ hname, fun name hname _ => howned ▸ hname⟩

end First

end Coupling

/-! ### The second part -/

/-- The identity `n` is that of the second program, and stands for the identity `0` of the sequence.
Later identities come one earlier in the sequence. -/
def FrameRenaming.renumber (n : Nat) : FrameRenaming where
  new id := ⟨if id.index < n then id.index else if id.index = n then 0 else id.index - 1⟩
  Occurs id := id.index ≠ 0
  injective {a b} ha hb h := by
    obtain ⟨i⟩ := a
    obtain ⟨j⟩ := b
    simp only [FrameId.mk.injEq] at h ha hb ⊢
    split at h <;> split at h <;> (try split at h) <;> (try split at h) <;> omega

theorem FrameRenaming.renumber_of_lt {n : Nat} {id : FrameId} (h : id.index < n) :
    (renumber n).new id = id :=
  congrArg FrameId.mk (if_pos h)

/-- A closure keeps identities that are older than the second program, and does not carry that of
the sequence. -/
theorem Closure.rename_renumber {n : Nat} {c : Closure}
    (known : ∀ id, c.home = some id ∨ c.breakTag = some id → id.index ≠ 0 ∧ id.index < n) :
    c.rename (.renumber n) = c.rename .identity ∧ c.Proper (.renumber n) := by
  have home : c.home.map (FrameRenaming.renumber n).new = c.home.map FrameRenaming.identity.new :=
    Option.map_congr fun id hid => FrameRenaming.renumber_of_lt (known id (.inl hid)).2
  have tag : c.breakTag.map (FrameRenaming.renumber n).new =
      c.breakTag.map FrameRenaming.identity.new :=
    Option.map_congr fun id hid => FrameRenaming.renumber_of_lt (known id (.inr hid)).2
  refine ⟨?_, fun id hid => (known id (.inl hid)).1, fun id hid => (known id (.inr hid)).1⟩
  rw [Closure.rename, Closure.rename, home, tag]

theorem FrameRenaming.renumber_self (n : Nat) : (renumber n).new ⟨n⟩ = ⟨0⟩ := by
  simp [renumber]

theorem FrameRenaming.renumber_later (n k : Nat) : (renumber n).new ⟨n + 1 + k⟩ = ⟨n + k⟩ := by
  simp only [renumber, FrameId.mk.injEq]
  split <;> (try split) <;> omega

namespace Coupling

/-- While the second part runs, its frame has the identity `n`, and the resolver knows this part
only.  The machine of the sequence has the names as well that the callables of the first part
own. -/
def ofSecond (top : ScopeId) (n : Nat) (code : List NodeId) (res₂ res : Resolution) : Coupling where
  ids := .renumber n
  top := top
  left := res₂
  right := res
  full root s name := s = top ∨ ∀ r ∈ root, r ∈ code → name ∉ res.ownedNames r

/-- What holds when a task of the second part is entered. -/
def SecondPre (program : Program) (first second : NodeId) (res : Resolution) (g : Ledger)
    (task : Task) (m : Machine) : Prop :=
  task.IsIndifferent program.nodes res (program.nodes.tree first) g m ∧
  ((program.nodes.callable? second).isSome = true → task = .node second)

/-- What holds when a task of the sequence is entered. -/
def SequencePre (program : Program) (whole : NodeId) (keys : List Name) (res : Resolution) :
    Ledger → Task → Machine → Prop :=
  (Slots.regimeOf program whole keys res).contract.pre

variable {program : Program} {first second whole : NodeId} {keys keys₂ : List Name}
  {res₁ res₂ res : Resolution} {top : ScopeId} {n : Nat} {g g' : Ledger} {m m' : Machine}
  {name : Name} {entries : Assoc NodeId Walk}

section Scopes

variable {code : List NodeId} (related : (ofSecond top n code res₂ res).Related g m g' m')
  (agreement : Scoped program res entries g' m')

include related agreement

/-- The machine of the sequence binds a name where the other machine binds it or ought to. -/
theorem binds_ofSecond {s : ScopeId} (howning : m.env.store.isOwning s = true) :
    m'.env.store.binds s name = (m.env.store.binds s name || decide (g.Owes res m s name)) := by
  rw [Bool.eq_iff_iff, Bool.or_eq_true, decide_eq_true_iff]
  constructor
  · intro hbinds
    by_cases howes : g.Owes res m s name
    · exact .inr howes
    · refine .inl (related.store.full s name ?_ hbinds)
      by_cases hs : s = m.env.top
      · exact .inl (hs.trans related.top)
      · exact .inr fun root hroot _ hname => howes ⟨hs, root, hroot, hname⟩
  · rintro (hbinds | ⟨hne, root, hroot, hname⟩)
    · exact related.store.binds hbinds
    · exact agreement.bound s root ((related.isOwning_eq s).trans howning)
        ((related.roots s howning hne).trans hroot) name hname

/-- On the machine of the sequence, a local is found where it belongs. -/
theorem binder?_ofSecond :
    m'.env.store.binder? m'.env.current name = g.keeper? res m name := by
  rw [ScopeStore.binder?_eq_find?_owners (agreement.transparent · name), related.current,
    ScopeStore.owners_of_shape_eq related.store.shape]
  exact List.find?_congr fun s hs =>
    binds_ofSecond related agreement (ScopeStore.isOwning_of_mem_owners hs)

/-- Outside of the callables of the code, a local is found in the same scope on both machines. -/
theorem binder?_outside {roots : List NodeId} (faces : g'.Faces m'.env.store m'.env.current roots)
    (outside : ∀ root ∈ roots, root ∉ code) :
    m'.env.store.binder? m'.env.current name = m.env.store.binder? m.env.current name := by
  have transparent : ∀ s, m.env.store.isOwning s = false → m.env.store.binds s name = false := by
    intro s hs
    have hnot := agreement.transparent s name ((related.isOwning_eq s).trans hs)
    exact Bool.eq_false_iff.mpr fun hbinds =>
      Bool.eq_false_iff.mp hnot (related.store.binds hbinds)
  rw [ScopeStore.binder?_eq_find?_owners (agreement.transparent · name),
    ScopeStore.binder?_eq_find?_owners transparent, related.current,
    ScopeStore.owners_of_shape_eq related.store.shape]
  refine List.find?_congr fun s hs => related.store.binds_eq ?_
  by_cases htop : s = m.env.top
  · exact .inl (htop.trans related.top)
  · refine .inr fun root hroot hcode => absurd hcode (outside root ?_)
    have howners : s ∈ m'.env.store.owners m'.env.current := by
      rw [related.current, ScopeStore.owners_of_shape_eq related.store.shape]
      exact hs
    have hmem : g'.root? s ∈ (m'.env.store.owners m'.env.current).map g'.root? :=
      List.mem_map_of_mem howners
    rw [show (m'.env.store.owners m'.env.current).map g'.root? = roots.map some from faces,
      related.roots s (ScopeStore.isOwning_of_mem_owners hs) htop, hroot] at hmem
    obtain ⟨root', hroot', heq⟩ := List.mem_map.mp hmem
    exact Option.some.inj heq ▸ hroot'

end Scopes

/-- The scope that is made for a call is not the top-level one. -/
theorem fresh_ne_top {codes : List NodeId} {task : Task} {frame : Frame} {parent : Option ScopeId}
    {code : Code} (related : (ofSecond top n codes res₂ res).Related g m g' m')
    (hpre' : SequencePre program whole keys res g' (task.rename (FrameRenaming.renumber n)) m')
    (opens : task.Opens m frame parent (some code)) : (⟨m.env.store.size⟩ : ScopeId) ≠ top := by
  have accurate : g'.Accurate m' := by
    cases opens with
    | method | closure => exact (Slots.pre_ledger hpre').1.accurate
  have hlt := ScopeStore.isOwning_lt accurate.top
  rw [related.top', related.size_eq] at hlt
  rintro rfl
  exact Nat.lt_irrefl _ hlt

section Second

variable (composes : Resolution.Composes program.nodes first second whole res₁ res₂ res)
  (hwhole : program.nodes.node? whole = some (.seq [first, second]))
  (tree : program.nodes.IsTree whole)
  (resolved : resolve program.nodes whole keys = .ok res)
  (resolved₁ : resolve program.nodes first keys = .ok res₁)
  (resolved₂ : resolve program.nodes second keys₂ = .ok res₂)

include composes hwhole tree resolved resolved₁ resolved₂

omit tree resolved₁ in
/-- A callable owns the same names in both resolutions, unless it is a callable of the first part,
of which the second resolution knows nothing, or the second program itself. -/
theorem ownedNames_ofSecond {code : Code} {levels : Nat} {w : Walk} {sees : Bool}
    (stands : Stands program.nodes res (WalkStep.arrivals program.nodes (whole.index + 1) whole
      (.start whole keys)) levels code.root w)
    (hcode : program.nodes.callable? code.root = some (code.params, code.body, sees))
    (hne : code.root ≠ second) :
    res.ownedNames code.root = res₂.ownedNames code.root ∨
      code.root ∈ program.nodes.tree first ∧ res₂.ownedNames code.root = [] := by
  rcases composes.parts code.root (stands.mem_tree resolved) with hroot | hroot | hroot
  · rw [hroot, NodeTable.callable?, hwhole] at hcode
    cases hcode
  · exact .inr ⟨hroot, (known_of_mem_tree resolved₂ (composes.apart _ hroot)).2 hne⟩
  · exact .inl (composes.secondOwned code.root hroot hne)

omit composes in
/-- Outside of the first part, a local is found in the same scope on both machines. -/
theorem binder?_second
    (related : (ofSecond top n (program.nodes.tree first) res₂ res).Related g m g' m')
    (agreement : Scoped program res entries g' m') {site : NodeId} {w : Walk}
    (harrival : (site, w) ∈ WalkStep.arrivals program.nodes (whole.index + 1) whole
      (.start whole keys))
    (faces : g'.Faces m'.env.store m'.env.current (seenRoots w.scopes))
    (hsite : site ∉ program.nodes.tree first) (name : Name) :
    m'.env.store.binder? m'.env.current name = m.env.store.binder? m.env.current name :=
  binder?_outside related agreement faces fun root hroot =>
    not_mem_first_of_arrival hwhole tree resolved resolved₁ resolved₂ harrival hsite root
      ((seenRoots_sublist w.scopes).subset hroot)

/-- While the second part runs, a read or an update finds the same on both machines. -/
theorem agreesAt_ofSecond {id : NodeId}
    (related : (ofSecond top n (program.nodes.tree first) res₂ res).Related g m g' m')
    (hpre : SecondPre program first second res g (.node id) m)
    (hpre' : SequencePre program whole keys res g' (.node id) m') : AgreesAt program id m m' := by
  obtain ⟨-, agreement, levels, w, stands, -, faces⟩ := hpre'
  by_cases hid : id ∈ program.nodes.tree first
  · -- the second resolution flags no read of the first part
    have hflag : m.resolution.isUnbound id = false := by
      rw [related.left]
      exact (known_of_mem_tree resolved₂ (composes.apart id hid)).1
    -- on the right, a name is found where the ledger has it kept
    have hkeeper : ∀ name, m'.env.store.binder? m'.env.current name = g.keeper? res m name :=
      fun name => binder?_ofSecond related agreement
    refine ⟨fun name hread => ?_, fun name op expr hupdate => ?_⟩
    · have serves := hpre.1 hid _ hread
      change _ = if res.isUnbound id then none else g.keeper? res m name at serves
      have hright : m'.resolution.isUnbound id = res.isUnbound id :=
        congrArg (·.isUnbound id) related.right
      rw [Machine.read?, Machine.read?, hflag, hright]
      -- where the sequence flags the read, nothing serves it on the left either
      cases hbound : res.isUnbound id with
      | true =>
        rw [hbound, if_pos rfl] at serves
        rw [if_pos rfl, if_neg Bool.false_ne_true, Environment.lookup, ScopeStore.lookup_eq, serves]
        rfl
      | false =>
        rw [hbound, if_neg Bool.false_ne_true] at serves
        exact related.lookup_eq ((hkeeper name).trans serves.symm)
    · have serves := hpre.1 hid _ hupdate
      cases hbinder : m.env.store.binder? m.env.current name with
      | none =>
        rw [Environment.lookup, Environment.lookup, related.current,
          related.store.lookup_of_unbound hbinder, ScopeStore.lookup_eq, hbinder]
        rfl
      | some s =>
        exact congrArg (·.getD .nil) (related.lookup_eq
          ((hkeeper name).trans ((serves s hbinder).trans hbinder.symm)))
  -- outside of the first part, every name is found alike
  · have same : ∀ name, m'.env.lookup name = m.env.lookup name := fun name => related.lookup_eq
      (binder?_second hwhole tree resolved resolved₁ resolved₂ related agreement
        stands.mem_entries faces hid name)
    refine ⟨fun name hread => ?_, fun name op expr _ => congrArg (·.getD .nil) (same name)⟩
    have hflag : res.isUnbound id = res₂.isUnbound id := by
      rcases composes.parts id (stands.mem_tree resolved) with rfl | hid' | hid'
      · rw [hwhole] at hread
        cases hread
      · exact absurd hid' hid
      · exact composes.secondReads id hid'
    rw [Machine.read?, Machine.read?, related.left, related.right, same]
    exact congrArg (fun flag => if flag = true then none else m.env.lookup name) hflag

/-- While the second part runs, both machines agree on what its code sees, and on what the code of
the first part sees where this does not depend on the resolver. -/
theorem lawful_ofSecond :
    (ofSecond top n (program.nodes.tree first) res₂ res).Lawful program
      (SecondPre program first second res) (SequencePre program whole keys res) where
  agrees := agreesAt_ofSecond composes hwhole tree resolved resolved₁ resolved₂
  target {g m g' m' site name value} related hpre hpre' := by
    obtain ⟨-, agreement, w, sited, -, faces⟩ := hpre'
    by_cases hsite : site ∈ program.nodes.tree first
    · rw [Environment.target, binder?_ofSecond related agreement, related.current,
        ScopeStore.owner_of_shape_eq related.store.shape]
      exact (hpre.1 hsite).symm
    · exact related.target_eq (binder?_second hwhole tree resolved resolved₁ resolved₂ related
        agreement sited.mem_entries faces hsite name)
  owned {g m g' m' task frame parent code} related hpre hpre' opens := by
    obtain ⟨levels, w, sees, stands, hcode, -⟩ :=
      Slots.code_of_opens hpre' (related.opens opens)
    have hne : code.root ≠ second := by
      rintro heq
      obtain rfl := hpre.2 (by rw [← heq, hcode]; rfl)
      cases opens
    rcases ownedNames_ofSecond composes hwhole resolved resolved₂ stands hcode hne with
      howned | ⟨hroot, howned⟩
    · exact ⟨fun name hname => howned ▸ hname, fun name hname _ => howned ▸ hname⟩
    -- the second resolution knows no names here, so they are missing in the new scope
    · have hnil : (ofSecond top n (program.nodes.tree first) res₂ res).left.ownedNames code.root =
          [] := howned
      refine ⟨hnil ▸ List.nil_subset _, fun name hname hfull => ?_⟩
      rcases hfull with heq | hfull
      · exact absurd heq (fresh_ne_top related hpre' opens)
      · exact absurd hname (hfull code.root rfl hroot)

end Second

end Coupling

end ScriptSemantics
