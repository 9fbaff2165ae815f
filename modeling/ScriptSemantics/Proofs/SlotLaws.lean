import ScriptSemantics.Proofs.SlotRegime

/-!
# The laws of slots

The operations of the machine respect the conditions of the ledger together with the agreement of
scopes, closures and methods with what the walk of the resolver has found.

## Main Definitions

* `Slots.regime` — the conditions
* `Slots.Fresh` — a machine on which nothing was run

## Main Results

* `Storing.binder?` — a local that is stored goes to the slot of its holder
* `Slots.lawful` — the operations of the machine respect the conditions
-/

namespace ScriptSemantics

variable {program : Program} {res : Resolution} {entries : Assoc NodeId Walk} {root : NodeId}
  {g g' : Ledger} {m m' : Machine} {n : Nat}

/-- A local that is stored is bound already, in the slot of its holder. -/
theorem Storing.binder? {site : NodeId} {name : Name} {w : Walk}
    (h : Scoped program res entries g m) (sited : Sited program.nodes res entries site name w)
    (hscopes : w.scopes ≠ []) (faces : g.Faces m.env.store m.env.current (seenRoots w.scopes))
    (hne : name.isEmpty = false) :
    ∃ root slot, holder? program.nodes (w.declare name).scopes name = some root ∧
      g.slot? m.env.store m.env.current root = some slot ∧
      m.env.store.binder? m.env.current name = some slot := by
  have grown : OpenScope.Grown [] w.scopes (w.declare name).scopes :=
    (Walk.Grows.declare w name).scopes
  refine h.binder?_of_visible sited.settled ?_ hne (visible_declare w hne hscopes) ?_
  · rw [grown.roots_eq]
    exact sited.distinct
  · rw [grown.seenRoots_eq]
    exact faces

/-- A place inside of some scope root has an owning scope that keeps its locals. -/
theorem isOwning_owner {scopes : List OpenScope} (hscopes : scopes ≠ [])
    (faces : g.Faces m.env.store m.env.current (seenRoots scopes)) :
    m.env.store.isOwning (m.env.store.owner m.env.current) = true := by
  cases scopes with
  | nil => exact absurd rfl hscopes
  | cons top rest =>
    obtain ⟨others, howners, -⟩ := faces.exists_owner
    exact ScopeStore.isOwning_of_mem_owners (howners ▸ List.mem_cons_self)

/-- The agreement survives an assignment where the walk stands. -/
theorem Scoped.assignLocal (h : Scoped program res entries g m) (accurate : g.Accurate m)
    {site : NodeId} {name : Name} {value : Value}
    (storing : Storing program res entries g site name m) :
    Scoped program res entries g (m.mapEnv (·.assignLocal name value)) := by
  obtain ⟨w, sited, hscopes, faces⟩ := storing
  cases hbinder : m.env.store.binder? m.env.current name with
  | some s =>
    rw [Machine.mapEnv, Environment.assignLocal_eq hbinder]
    exact h.defineIn accurate (.inl (ScopeStore.binds_of_binder? hbinder))
  | none =>
    cases hempty : name.isEmpty with
    | false =>
      obtain ⟨-, slot, -, -, hslot⟩ := Storing.binder? h sited hscopes faces hempty
      rw [hbinder] at hslot
      cases hslot
    | true =>
      rw [Machine.mapEnv, Environment.assignLocal, hbinder]
      exact h.defineIn accurate (.inr ⟨hempty, isOwning_owner hscopes faces⟩)

namespace Slots

/-- A machine on which nothing was run: there is only the top-level scope, which binds locals of the
host. -/
structure Fresh (res : Resolution) (root : NodeId) (m : Machine) : Prop where
  resolution : m.resolution = res
  closures : ∀ proc, m.closures.get? proc = none
  methods : ∀ name, m.methods.get? name = none
  scopes : ∀ s : ScopeId, s.index < m.env.store.size → s = m.env.top
  bound : ∀ name, name.isEmpty = false → m.env.store.binds m.env.top name = true →
    name ∈ res.ownedNames root

/-- The conditions of the ledger and the agreement with the walk. -/
def regime (program : Program) (res : Resolution) (entries : Assoc NodeId Walk) (root : NodeId) :
    Regime Ledger where
  note := Ledger.note
  ready g m := g.Ready m ∧ Scoped program res entries g m
  here g id m := g.Ready m ∧ Scoped program res entries g m ∧ Placed program res entries g id m
  stores g site name m :=
    g.Ready m ∧ Scoped program res entries g m ∧ Storing program res entries g site name m
  inside g code m := g.Ready m ∧ Scoped program res entries g m ∧ Within program res entries g code m
  reserved := Ledger.Reserved
  start g root' id m := g.Start id m ∧ root' = root ∧ Fresh res root m
  finish _ _ _ _ _ := True
  step n g m g' m' := Ledger.Step n g m g' m' ∧ Scoped program res entries g' m'
  exits e m := e.Addressee m.calls
  crosses e := ∀ value, e ≠ .breakTo .loop value

theorem steps : (regime program res entries root).Steps where
  refl h := ⟨.refl h.1.accurate, h.2⟩
  trans h h' := ⟨h.1.trans h'.1, h'.2⟩
  mono hle h := ⟨Ledger.steps.mono hle h.1, h.2⟩
  nextId_le h := h.1.grows.nextId
  ready hstep h := ⟨h.1.step hstep.1, hstep.2⟩
  here hstep h := by
    obtain ⟨ready, -, levels, w, stands, hscopes, faces⟩ := h
    exact ⟨ready.step hstep.1, hstep.2, levels, w, stands, hscopes,
      faces_grows faces ready hstep.1.grows hstep.1.agree⟩
  inside hstep h := by
    obtain ⟨ready, -, levels, w, sees, stands, hcode, faces⟩ := h
    exact ⟨ready.step hstep.1, hstep.2, levels, w, sees, stands, hcode,
      faces_grows faces ready hstep.1.grows hstep.1.agree⟩
  reserved hstep hid h := h.step hstep.1 hid
  exits hstep h := Ledger.steps.exits hstep.1 h

/-- A state of these conditions is a state of the conditions of the ledger. -/
theorem pre_ledger {task : Task}
    (h : (regime program res entries root).contract.pre g task m) :
    (Ledger.regime : Regime Ledger).contract.pre g task m := by
  cases task with
  | node | store | program => exact h.1
  | method => exact ⟨h.1.1, h.2⟩
  | closure | loop => exact ⟨h.1.1, h.2⟩

theorem here_ledger {id : NodeId} (h : (regime program res entries root).here g id m) :
    (Ledger.regime : Regime Ledger).here g id m :=
  h.1

/-! ### Nodes -/

theorem nodeLaws : (regime program res entries root).NodeLaws program where
  note := rfl
  noteStore := rfl
  ready h := ⟨h.1, h.2.1⟩
  operand here hnode hchild := ⟨here.1, here.2.1, here.2.2.child hnode (.inl hchild)⟩
  target here hnode htarget := ⟨here.1, here.2.1, here.2.2.target hnode htarget⟩
  store stores := ⟨.keep stores.1.accurate (Environment.sameShape_assignLocal _ _) rfl rfl
    rfl (Nat.le_refl _) rfl, stores.2.1.assignLocal stores.1.accurate stores.2.2⟩
  define {n g id m name params body} here hnode := by
    obtain ⟨ready, agreement, levels, w, stands, -, -⟩ := here
    refine ⟨(Ledger.nodeLaws program).define ready hnode, agreement.define stands ?_⟩
    rw [NodeTable.callable?, hnode]
    rfl
  close {n g id m node literal params body isLambda tag} here hnode hliteral hlookup htag := by
    refine ⟨here.1.makeClosure htag, ?_⟩
    have placed : Placed program res entries g literal m := by
      rcases hliteral with rfl | hliteral
      · exact here.2.2
      · exact here.2.2.child hnode (.inr hliteral)
    obtain ⟨levels, w, stands, -, faces⟩ := placed
    refine here.2.1.addClosure stands ?_ faces
    rw [NodeTable.callable?, hlookup]
    cases isLambda <;> rfl
  addLambda ready := ⟨ready.1.addLambda, ready.2.addLambda _⟩
  allocate ready := by
    obtain ⟨hstep, hreserved⟩ := ready.1.allocate
    exact ⟨⟨hstep, ready.2.congr rfl rfl rfl rfl⟩, hreserved⟩
  enterScope {g id m} here := by
    obtain ⟨ready, agreement, levels, w, stands, hscopes, faces⟩ := here
    have binds : ∀ s name, (m.mapEnv .enterTransparent).env.store.binds s name =
        m.env.store.binds s name := fun s name => ScopeStore.binds_add _ _ _ s name
    refine ⟨ready.enterTransparent, ?_, levels, w, stands, hscopes,
      faces.addTransparent ready.accurate.founded ready.current_lt⟩
    -- the new scope is transparent and empty, so it is nobody's slot
    refine agreement.extend ready.accurate (ScopeStore.extends_add _ _ _) (.refl _ _) rfl rfl rfl
      (fun s name h => (binds s name).trans h) (fun s name _ _ h => (binds s name).symm.trans h)
      (fun s name hle _ => (binds s name).trans (ScopeStore.binds_eq_false hle name))
      fun s _ hle howning => ?_
    cases (ScopeStore.eq_of_size_le hle howning).2
  leaveScope here hstep := by
    obtain ⟨hleave, hexits⟩ := (Ledger.nodeLaws program).leaveScope (here_ledger here) hstep.1
    exact ⟨⟨hleave, hstep.2.congr rfl rfl rfl rfl⟩, hexits⟩
  beginLoop here := by
    obtain ⟨ready, agreement, placed⟩ := here
    exact ⟨ready.beginLoop, agreement.congr rfl rfl rfl rfl, placed⟩
  endLoop here hstep := by
    obtain ⟨hleave, hexits⟩ := (Ledger.nodeLaws program).endLoop (here_ledger here) hstep.1
    exact ⟨⟨hleave, hstep.2.congr rfl rfl rfl rfl⟩, hexits⟩

theorem exitLaws : (regime program res entries root).ExitLaws where
  error := trivial
  returnTo here := Ledger.exitLaws.returnTo (here_ledger here)
  breakLoop here := Ledger.exitLaws.breakLoop (here_ledger here)
  breakLambda here := Ledger.exitLaws.breakLambda (here_ledger here)
  breakBlock here := Ledger.exitLaws.breakBlock (here_ledger here)
  next _ _ := trivial
  redo _ _ := trivial

/-! ### Activations -/

section Activations

variable {task : Task} {frame : Frame} {parent : Option ScopeId} {code : Code}

/-- The note of a task names the scope root of its code. -/
theorem root?_note {code : Option Code} (opens : task.Opens m frame parent code) :
    (g.note task m).root? ⟨m.env.store.size⟩ = code.map Code.root := by
  cases opens with
  | method | loop =>
    rw [Ledger.root?, Ledger.note, Ledger.set_self]
    rfl
  | closure proc id given block found =>
    rw [Ledger.root?, Ledger.note, found]
    change (g.set _ _ _).bind _ = _
    rw [Ledger.set_self]
    rfl

/-- The code of an activation was found by the walk, in sight of what its parent faces. -/
theorem code_of_opens (hpre : (regime program res entries root).contract.pre g task m)
    (opens : task.Opens m frame parent (some code)) :
    ∃ levels w sees, Stands program.nodes res entries levels code.root w ∧
      program.nodes.callable? code.root = some (code.params, code.body, sees) ∧
      g.FacesAround m.env.store parent (if sees then seenRoots w.scopes else []) := by
  obtain ⟨-, agreement⟩ := (Regime.ready_of_opens hpre opens).1
  cases opens with
  | method callee id given block =>
    obtain ⟨name, hname⟩ := hpre.2.2
    obtain ⟨levels, w, stands, hcode⟩ := agreement.methods name callee hname
    exact ⟨levels, w, false, stands, hcode, rfl⟩
  | closure proc id given block found =>
    obtain ⟨levels, w, stands, hcode, faces⟩ := agreement.closures proc _ found
    exact ⟨levels, w, true, stands, hcode, faces⟩

/-- A new activation binds the names that its scope root owns. -/
theorem scoped_enter (hpre : (regime program res entries root).contract.pre g task m)
    (opens : task.Opens m frame parent (some code)) {calls : CallStack} :
    Scoped program res entries (g.note task m)
      ((m.activate calls parent).declareOwned code.root) := by
  obtain ⟨ready, agreement⟩ := (Regime.ready_of_opens hpre opens).1
  obtain ⟨a, -, announces⟩ := Ledger.announces_of_opens ready.accurate opens
  have founded : (m.env.enterOwning parent).store.Founded :=
    ready.accurate.founded.add announces.older
  have hnew : (m.env.enterOwning parent).store.isOwning ⟨m.env.store.size⟩ = true :=
    ScopeStore.isOwning_added m.env.store .owning parent
  have same : (m.env.enterOwning parent).SameShape
      ((m.activate calls parent).declareOwned code.root).env :=
    Environment.sameShape_declareAll _ (m.resolution.ownedNames code.root)
  have binds : ∀ s name, ((m.activate calls parent).declareOwned code.root).env.store.binds s name =
      true ↔ (s = ⟨m.env.store.size⟩ ∧ name ∈ res.ownedNames code.root) ∨
        m.env.store.binds s name = true := by
    intro s name
    rw [← ScopeStore.binds_add m.env.store .owning parent s name, ← agreement.resolution]
    exact Environment.binds_declareAll_of_isOwning founded hnew (m.resolution.ownedNames code.root)
  have isOwning : ∀ s, ((m.activate calls parent).declareOwned code.root).env.store.isOwning s =
      (m.env.store.add .owning parent).2.isOwning s := ScopeStore.isOwning_of_shape_eq same.shape
  have scopes : m.env.store.Extends
      ((m.activate calls parent).declareOwned code.root).env.store :=
    (ScopeStore.extends_add m.env.store .owning parent).trans (.of_shape_eq same.shape)
  -- the one new scope is an owning one, and belongs to the scope root of the code
  refine agreement.extend ready.accurate scopes (Ledger.agreeOn_note opens.ne_program) rfl rfl rfl
    (fun s name h => (binds s name).mpr (.inr h)) (fun s name hlt _ h => ?_)
    (fun s name hle howning => ?_) fun s r hle howning hr name => ?_
  · rcases (binds s name).mp h with ⟨rfl, -⟩ | h
    · exact absurd hlt (Nat.lt_irrefl _)
    · exact h
  · rw [Bool.eq_false_iff, ne_eq, binds, ScopeStore.binds_eq_false hle]
    rintro (⟨rfl, -⟩ | h)
    · rw [isOwning] at howning
      exact Bool.false_ne_true (howning.symm.trans hnew)
    · cases h
  · rw [isOwning] at howning
    obtain ⟨rfl, -⟩ := ScopeStore.eq_of_size_le hle howning
    rw [root?_note opens] at hr
    cases hr
    rw [binds, ScopeStore.binds_eq_false hle]
    simp

/-- The scope of a new activation faces the scope root of its code and what lies around it. -/
theorem within_enter (hpre : (regime program res entries root).contract.pre g task m)
    (opens : task.Opens m frame parent (some code)) {calls : CallStack} :
    Within program res entries (g.note task m) code
      ((m.activate calls parent).declareOwned code.root) := by
  obtain ⟨ready, -⟩ := (Regime.ready_of_opens hpre opens).1
  obtain ⟨a, hnote, announces⟩ := Ledger.announces_of_opens ready.accurate opens
  obtain ⟨levels, w, sees, stands, hcode, around⟩ := code_of_opens hpre opens
  have hroot : a.root = some code.root := by
    have hroot := root?_note (g := g) opens
    rw [hnote, Ledger.root?, Ledger.set_self] at hroot
    exact hroot
  have founded : (m.env.store.add .owning parent).2.Founded :=
    ready.accurate.founded.add announces.older
  have same := Environment.sameShape_declareAll (m.env.enterOwning parent)
    (m.resolution.ownedNames code.root)
  have faces := Ledger.Faces.addOwning ready.accurate.founded hroot announces.older around
  have hsize : m.env.store.size < (m.env.store.add .owning parent).2.size :=
    ScopeStore.size_added m.env.store .owning parent ▸ Nat.lt_succ_self _
  refine ⟨levels, w, sees, stands, hcode, ?_⟩
  have hcurrent : ((m.activate calls parent).declareOwned code.root).env.current =
      ⟨m.env.store.size⟩ := same.current
  rw [hcurrent, hnote]
  exact faces.extend (.of_shape_eq same.shape) founded hsize (.refl _ _)

end Activations

theorem activationLaws : (regime program res entries root).ActivationLaws where
  reserved h := h.1
  note {n g task m} hpre hne := by
    obtain ⟨ready, agreement⟩ : g.Ready m ∧ Scoped program res entries g m := by
      cases task with
      | node | store => exact ⟨hpre.1, hpre.2.1⟩
      | program root id => exact absurd rfl (hne root id)
      | method | closure | loop => exact hpre.1
    refine ⟨Ledger.activationLaws.note (pre_ledger hpre) hne, ?_⟩
    exact agreement.keep ready.accurate rfl (Ledger.agreeOn_note hne) rfl rfl rfl
      (fun _ _ => id) fun _ _ _ => id
  enterLoop {g task m frame parent calls} hpre opens hpush := by
    refine ⟨Ledger.activationLaws.enterLoop (pre_ledger hpre) opens hpush, ?_⟩
    obtain ⟨ready, agreement⟩ := (Regime.ready_of_opens hpre opens).1
    -- a built-in loop has a scope of its own, which binds nothing and has no scope root
    have binds : ∀ s name, (m.activate calls parent).env.store.binds s name =
        m.env.store.binds s name := fun s name => ScopeStore.binds_add _ _ _ s name
    refine agreement.extend ready.accurate (ScopeStore.extends_add _ _ _)
      (Ledger.agreeOn_note opens.ne_program) rfl rfl rfl
      (fun s name h => (binds s name).trans h) (fun s name _ _ h => (binds s name).symm.trans h)
      (fun s name hle _ => (binds s name).trans (ScopeStore.binds_eq_false hle name))
      fun s r hle howning hr => ?_
    obtain ⟨rfl, -⟩ := ScopeStore.eq_of_size_le hle howning
    have hroot : (g.note task m).root? ⟨m.env.store.size⟩ = some r := hr
    rw [root?_note opens] at hroot
    cases hroot
  enterCode {n g task m frame parent code calls} hpre opens hpush := by
    obtain ⟨hstep, ready⟩ := Ledger.activationLaws.enterCode (n := n) (pre_ledger hpre) opens hpush
    exact ⟨⟨hstep, scoped_enter hpre opens⟩, ready, scoped_enter hpre opens,
      within_enter hpre opens⟩
  operand inside hchild := ⟨inside.1, inside.2.1, inside.2.2.operand hchild⟩
  define {n g code m name value} inside hname hne := by
    obtain ⟨ready, agreement, levels, w, sees, stands, hcode, faces⟩ := inside
    refine ⟨.keep ready.accurate (Environment.sameShape_define _ _) rfl rfl rfl (Nat.le_refl _) rfl, ?_⟩
    -- parameters belong to the scope root, so the innermost owning scope binds them already
    obtain ⟨others, howners, hroot⟩ := faces.exists_owner
    have howning : m.env.store.isOwning (m.env.store.owner m.env.current) = true :=
      ScopeStore.isOwning_of_mem_owners (howners ▸ List.mem_cons_self)
    refine agreement.defineIn ready.accurate (.inl ?_)
    exact agreement.bound _ _ howning hroot name (stands.owned_params hcode hname hne)
  leave {n g task m frame parent code calls g' m'} hpre opens hpush hlt hstep := by
    obtain ⟨hleave, hexits⟩ :=
      Ledger.activationLaws.leave (pre_ledger hpre) opens hpush hlt hstep.1
    exact ⟨⟨hleave, hstep.2.congr rfl rfl rfl rfl⟩, hexits⟩
  crosses := Ledger.activationLaws.crosses

/-! ### Programs -/

section Programs

variable {id : FrameId} {calls : CallStack}

/-- The top-level scope is alone. -/
theorem owners_start (hstart : g.Start id m) :
    m.env.current = m.env.top ∧ m.env.store.owners m.env.top = [m.env.top] := by
  refine ⟨?_, ?_⟩
  · rw [Environment.current, hstart.entered]
    rfl
  · rw [ScopeStore.owners_eq hstart.accurate.founded, hstart.accurate.top,
      hstart.accurate.topParent]
    rfl

theorem root?_start : (g.note (.program root id) m).root? m.env.top = some root := by
  rw [Ledger.root?, Ledger.note, Ledger.set_self]
  rfl

/-- The top-level scope binds the names that the root of the program owns. -/
theorem scoped_start (hstart : g.Start id m) (fresh : Fresh res root m) :
    Scoped program res entries (g.note (.program root id) m)
      ({ m with calls }.declareOwned root) := by
  have accurate := hstart.accurate
  obtain ⟨hcurrent, -⟩ := owners_start hstart
  have same : m.env.SameShape ({ m with calls }.declareOwned root).env :=
    Environment.sameShape_declareAll m.env (m.resolution.ownedNames root)
  have binds : ∀ s name, ({ m with calls }.declareOwned root).env.store.binds s name = true ↔
      (s = m.env.top ∧ name ∈ res.ownedNames root) ∨ m.env.store.binds s name = true := by
    intro s name
    rw [← fresh.resolution, ← hcurrent]
    exact Environment.binds_declareAll_of_isOwning accurate.founded (hcurrent ▸ accurate.top)
      (m.resolution.ownedNames root)
  -- before a first program there is no scope but the top-level one
  have only : ∀ s : ScopeId,
      s.index < ({ m with calls }.declareOwned root).env.store.size → s = m.env.top := by
    intro s hs
    rw [ScopeStore.size_of_shape_eq same.shape] at hs
    exact fresh.scopes s hs
  refine ⟨fresh.resolution, ?_, ?_, ?_, ?_, ?_⟩
  · intro s name howning
    rw [Bool.eq_false_iff]
    intro hbinds
    obtain rfl := only s (ScopeStore.lt_of_binds hbinds)
    rw [ScopeStore.isOwning_of_shape_eq same.shape] at howning
    exact Bool.false_ne_true (howning.symm.trans accurate.top)
  · intro s r howning hr name howned
    obtain rfl := only s (ScopeStore.isOwning_lt howning)
    rw [root?_start] at hr
    cases hr
    exact (binds _ name).mpr (.inl ⟨rfl, howned⟩)
  · intro s r howning hr name hne hbinds
    obtain rfl := only s (ScopeStore.isOwning_lt howning)
    rw [root?_start] at hr
    cases hr
    rcases (binds _ name).mp hbinds with ⟨-, howned⟩ | hbound
    · exact howned
    · exact fresh.bound name hne hbound
  · intro proc c hc
    have hnone : m.closures.get? proc = some c := hc
    rw [fresh.closures] at hnone
    cases hnone
  · intro name callee hcallee
    have hnone : m.methods.get? name = some callee := hcallee
    rw [fresh.methods] at hnone
    cases hnone

/-- The top-level scope faces the root of the program. -/
theorem faces_start (hstart : g.Start id m) :
    (g.note (.program root id) m).Faces ({ m with calls }.declareOwned root).env.store
      ({ m with calls }.declareOwned root).env.current [root] := by
  obtain ⟨hcurrent, howners⟩ := owners_start hstart
  have same : m.env.SameShape ({ m with calls }.declareOwned root).env :=
    Environment.sameShape_declareAll m.env (m.resolution.ownedNames root)
  have htop := ScopeStore.isOwning_lt hstart.accurate.top
  have hsame := same.owners hstart.accurate.founded (hcurrent ▸ htop)
  rw [hcurrent, howners] at hsame
  rw [Ledger.Faces, hsame]
  exact congrArg (· :: []) root?_start

end Programs

theorem programLaws
    (start : ∃ levels w, Stands program.nodes res entries levels root w ∧ w.scopes ≠ [] ∧
      seenRoots w.scopes = [root]) :
    (regime program res entries root).ProgramLaws program where
  refuse _ _ := trivial
  enter hstart hpush := by
    obtain ⟨hledger, rfl, fresh⟩ := hstart
    obtain ⟨levels, w, stands, hscopes, hroots⟩ := start
    refine ⟨(Ledger.programLaws program).enter hledger hpush, scoped_start hledger fresh,
      levels, w, stands, hscopes, ?_⟩
    rw [hroots]
    exact faces_start hledger
  leave _ _ _ _ := trivial

/-- The operations of the machine respect the conditions. -/
theorem lawful (start : ∃ levels w, Stands program.nodes res entries levels root w ∧
      w.scopes ≠ [] ∧ seenRoots w.scopes = [root]) :
    (regime program res entries root).Lawful program where
  steps := steps
  nodes := nodeLaws
  starts := exitLaws
  activations := activationLaws
  programs := programLaws start

end Slots

end ScriptSemantics
