import ScriptSemantics.Proofs.Bookkeeping
import ScriptSemantics.Proofs.Growth

/-!
# The regime of the ledger

The operations of the machine keep the ledger accurate, keep frames and active scopes in step, and
let an addressed exit be under way only while its addressee is on the stack.

## Main Definitions

* `Exit.Addressee` — the addressee of an exit is on the stack
* `Ledger.regime` — the conditions of the ledger

## Main Results

* `Ledger.nodeLaws`, `Ledger.exitLaws` — what nodes do respects them
-/

namespace ScriptSemantics

/-- A frame that absorbs a `return` addressed to it. -/
def Frame.absorbsReturn (frame : Frame) : Bool :=
  frame.kind == .top || frame.kind == .method || frame.kind == .lambda

/-- The addressee of an exit is on the stack. -/
def Exit.Addressee (stack : CallStack) : Exit → Prop
  | returnTo target _ => ∃ frame ∈ stack.frames, frame.id = target ∧ frame.absorbsReturn = true
  | breakTo .loop _ => ∃ frame, stack.current? = some frame ∧ 0 < frame.loopDepth
  | breakTo (.frame target) _ =>
    ∃ frame ∈ stack.frames, frame.id = target ∧ frame.kind ≠ .top
  | _ => True

namespace Ledger

variable {program : Program} {g g' : Ledger} {m m' : Machine} {n : Nat}

/-- What holds between the operations of an activation. -/
structure Ready (g : Ledger) (m : Machine) : Prop where
  accurate : g.Accurate m
  layers : g.Layers m.env.store m.env.top m.env.entered m.calls.frames
  ids : (m.calls.frames.map Frame.id).Nodup

/-- An identity that was given out and is not in the ledger. -/
def Reserved (g : Ledger) (id : FrameId) (m : Machine) : Prop :=
  id.index < m.calls.nextId ∧
    ∀ s a, m.env.store.isOwning s = true → g s = some a → a.id ≠ id

/-- What holds where a program may be run. -/
structure Start (g : Ledger) (id : FrameId) (m : Machine) : Prop where
  accurate : g.Accurate m
  entered : m.env.entered = []
  frames : m.calls.frames = []
  reserved : g.Reserved id m
  tags : ∀ proc c, m.closures.get? proc = some c → c.breakTag ≠ some id

/-- What holds before and after a program. -/
structure Idle (g : Ledger) (m : Machine) : Prop where
  accurate : g.Accurate m
  entered : m.env.entered = []
  frames : m.calls.frames = []

/-- The machine grows, notes on its scopes stay, and new scopes get late identities. -/
structure Step (n : Nat) (g : Ledger) (m : Machine) (g' : Ledger) (m' : Machine) : Prop where
  grows : m.Grows m'
  agree : AgreeOn m.env.store g g'
  late : ∀ s a, m.env.store.size ≤ s.index → m'.env.store.isOwning s = true → g' s = some a →
    n ≤ a.id.index
  accurate : g'.Accurate m'

/-- The conditions of the ledger. -/
def regime : Regime Ledger where
  note := Ledger.note
  ready := Ready
  here g _ m := Ready g m
  stores g _ _ m := Ready g m
  inside g _ m := Ready g m
  reserved := Reserved
  start g _ id m := Start g id m
  finish _ _ g' ending m' := Idle g' m' ∧ ∀ e, ending = .error e → ∃ error, e = .error error
  step := Step
  exits e m := e.Addressee m.calls
  crosses e := ∀ value, e ≠ .breakTo .loop value

/-! ### Steps -/

/-- Nothing but bindings, methods and the supply of identities is changed. -/
theorem Step.keep (h : g.Accurate m) (env : m.env.SameShape m'.env)
    (closures : m'.closures = m.closures) (frames : m'.calls.frames = m.calls.frames)
    (limit : m'.calls.limit = m.calls.limit) (nextId : m.calls.nextId ≤ m'.calls.nextId)
    (resolution : m'.resolution = m.resolution) : Step n g m g m' where
  grows := .keep env frames limit nextId resolution
  agree := .refl _ _
  late s a hs howning := by
    have hlt := ScopeStore.isOwning_lt howning
    rw [← ScopeStore.length_shape, env.shape, ScopeStore.length_shape] at hlt
    omega
  accurate := h.keep env.shape env.top closures nextId (.refl _ _)

theorem Step.refl (h : g.Accurate m) : Step n g m g m :=
  .keep h (.refl _) rfl rfl rfl (Nat.le_refl _) rfl

/-- A step may be followed by another one. -/
theorem Step.trans {g'' : Ledger} {m'' : Machine} (h : Step n g m g' m')
    (h' : Step n g' m' g'' m'') : Step n g m g'' m'' where
  grows := h.grows.trans h'.grows
  agree s hs := by
    rw [h'.agree s (Nat.lt_of_lt_of_le hs h.grows.scopes.size_le), h.agree s hs]
  late s a hs howning hnoted := by
    by_cases hlt : s.index < m'.env.store.size
    · rw [h'.grows.scopes.isOwning hlt] at howning
      rw [h'.agree s hlt] at hnoted
      exact h.late s a hs howning hnoted
    · exact h'.late s a (Nat.le_of_not_lt hlt) howning hnoted
  accurate := h'.accurate

/-- A step keeps the machine ready. -/
theorem Ready.step (h : Ready g m) (hstep : Step n g m g' m') : Ready g' m' where
  accurate := hstep.accurate
  layers := by
    rw [hstep.grows.top, hstep.grows.entered, hstep.grows.frames]
    exact h.layers.extend hstep.grows.scopes h.accurate.founded hstep.agree
      (ScopeStore.isOwning_lt h.accurate.top)
  ids := by
    rw [hstep.grows.frames]
    exact h.ids

/-- An identity that was set aside stays so in steps that only use later ones. -/
theorem Reserved.step {id : FrameId} (h : Reserved g id m) (hstep : Step n g m g' m')
    (hid : id.index < n) : Reserved g' id m' := by
  refine ⟨Nat.lt_of_lt_of_le h.1 hstep.grows.nextId, fun s a howning hnoted => ?_⟩
  by_cases hs : s.index < m.env.store.size
  · rw [hstep.grows.scopes.isOwning hs] at howning
    rw [hstep.agree s hs] at hnoted
    exact h.2 s a howning hnoted
  · have hlate := hstep.late s a (Nat.le_of_not_lt hs) howning hnoted
    rintro rfl
    omega

/-- The steps of the ledger compose, and keep what the regime asks for. -/
theorem steps : (regime : Regime Ledger).Steps where
  refl h := .refl h.accurate
  trans := .trans
  mono hle h := ⟨h.grows, h.agree, fun s a hs ho hn => Nat.le_trans hle (h.late s a hs ho hn),
    h.accurate⟩
  nextId_le h := h.grows.nextId
  ready hstep h := h.step hstep
  here hstep h := h.step hstep
  inside hstep h := h.step hstep
  reserved hstep hid h := h.step hstep hid
  exits {n g m g' m' e} hstep h := by
    have hframes : m'.calls.frames = m.calls.frames := hstep.grows.frames
    revert h
    simp only [regime, Exit.Addressee.eq_def, CallStack.current?, hframes]
    exact id

/-! ### Nodes -/

theorem Ready.current_lt (h : Ready g m) : m.env.current.index < m.env.store.size :=
  h.layers.current_lt (ScopeStore.isOwning_lt h.accurate.top)

/-- A literal records what lies around the place where it is closed over. -/
theorem Ready.makeClosure (h : Ready g m) {literal body : NodeId} {params : ParamList}
    {isLambda : Bool} {tag : Option FrameId} (reserved : ∀ id, tag = some id → Reserved g id m) :
    Step n g m g (m.makeClosure literal params body isLambda tag).2 where
  grows := ⟨rfl, rfl, rfl, rfl, rfl, Nat.le_refl _, .refl _⟩
  agree := .refl _ _
  late s a hs howning _ := absurd (ScopeStore.isOwning_lt howning) (Nat.not_lt.mpr hs)
  accurate := by
    obtain ⟨frame, rest, hframes, hhome, hblock⟩ := h.layers.current h.accurate.founded
    have hframe : m.frame? = some frame := by rw [Machine.frame?, CallStack.current?, hframes]; rfl
    refine h.accurate.addClosure h.current_lt ?_ ?_ ?_ ?_
    · rw [hframe]
      exact hhome
    · rw [Machine.block?, hframe]
      exact hblock
    · exact fun id hid => (reserved id hid).1
    · exact fun id a hid ha => (reserved id hid).2 _ a h.accurate.top ha

/-- A copy of a closure that is a lambda is a step. -/
theorem Ready.addLambda (h : Ready g m) {proc : ProcId} : Step n g m g (m.addLambda proc).2 := by
  rw [Machine.addLambda, ClosureTable.addLambda]
  cases hc : m.closures.get? proc with
  | none => exact .refl h.accurate
  | some c =>
    refine ⟨⟨rfl, rfl, rfl, rfl, rfl, Nat.le_refl _, .refl _⟩, .refl _ _, ?_, ?_⟩
    · exact fun s a hs howning _ =>
        absurd (ScopeStore.isOwning_lt howning) (Nat.not_lt.mpr hs)
    · exact h.accurate.addClosure (h.accurate.captured proc c hc) (h.accurate.home proc c hc)
        (h.accurate.block proc c hc) (fun tag => h.accurate.tagBounded proc c tag hc)
        (fun tag a => h.accurate.tagNotTop proc c tag a hc)

/-- An identity is set aside. -/
theorem Ready.allocate (h : Ready g m) :
    Step n g m g m.allocateFrame.2 ∧ Reserved g m.allocateFrame.1 m.allocateFrame.2 := by
  refine ⟨.keep h.accurate (.refl _) rfl rfl rfl (Nat.le_succ _) rfl, Nat.lt_succ_self _, ?_⟩
  intro s a howning hnoted hid
  have hlt := h.accurate.bounded s a howning hnoted
  rw [hid] at hlt
  exact Nat.lt_irrefl _ hlt

theorem Ready.enterTransparent (h : Ready g m) : Ready g (m.mapEnv .enterTransparent) := by
  have htop := ScopeStore.isOwning_lt h.accurate.top
  have scopes := ScopeStore.extends_add m.env.store .transparent (some m.env.current)
  have founded : (m.env.store.add .transparent (some m.env.current)).2.Founded := by
    refine h.accurate.founded.add fun p hp => ?_
    cases hp
    exact h.current_lt
  refine ⟨?_, ?_, h.ids⟩
  · refine h.accurate.extend scopes founded rfl rfl (Nat.le_refl _) (.refl _ _) ?_
    intro s a hs howning _
    cases (ScopeStore.eq_of_size_le hs howning).2
  · refine .transparent ?_ (h.layers.extend scopes h.accurate.founded (.refl _ _) htop)
    exact ScopeStore.shape_added _ _ _

/-- What was done inside a new scope is a step outside of it. -/
theorem Step.leave {n' : Nat} {g₁ : Ledger} {m₁ m₂ : Machine} {kind : ScopeKind}
    {parent : Option ScopeId} (h : Step n g₁ m₁ g' m') (hle : n' ≤ n)
    (agree : AgreeOn m.env.store g g₁) (entered : m₁.env = m.env.enter kind parent)
    (late : ∀ a, kind = .owning → g₁ ⟨m.env.store.size⟩ = some a → n' ≤ a.id.index)
    (limit : m₁.calls.limit = m.calls.limit) (nextId : m.calls.nextId ≤ m₁.calls.nextId)
    (resolution : m₁.resolution = m.resolution) (left : m₂.env = m'.env.leave)
    (frames : m₂.calls.frames = m.calls.frames) (limit' : m₂.calls.limit = m'.calls.limit)
    (nextId' : m₂.calls.nextId = m'.calls.nextId) (resolution' : m₂.resolution = m'.resolution)
    (closures : m₂.closures = m'.closures) : Step n' g m g' m₂ := by
  have scopes : m.env.store.Extends m₁.env.store := by
    rw [entered]
    exact ScopeStore.extends_add _ _ _
  have hsize : m₁.env.store.size = m.env.store.size + 1 := by
    rw [entered, ← ScopeStore.length_shape]
    change (m.env.store.add kind parent).2.shape.length = _
    simp
  have hshape : m₂.env.store.shape = m'.env.store.shape := by rw [left]; rfl
  have htop : m₂.env.top = m'.env.top := by rw [left]; rfl
  refine ⟨h.grows.leave entered limit nextId resolution left frames limit' nextId' resolution', ?_,
    ?_, ?_⟩
  · intro s hs
    rw [h.agree s (by omega), agree s hs]
  · intro s a hs howning hnoted
    rw [ScopeStore.isOwning_eq, hshape, ← ScopeStore.isOwning_eq] at howning
    by_cases hlt : s.index < m₁.env.store.size
    · rw [h.grows.scopes.isOwning hlt, entered] at howning
      rw [h.agree _ hlt] at hnoted
      obtain ⟨rfl, hkind⟩ := ScopeStore.eq_of_size_le hs howning
      exact late a hkind hnoted
    · exact Nat.le_trans hle (h.late s a (Nat.le_of_not_lt hlt) howning hnoted)
  · exact h.accurate.keep hshape htop closures (Nat.le_of_eq nextId'.symm) (.refl _ _)

theorem Ready.beginLoop (h : Ready g m) : Ready g (m.mapCalls .beginLoop) := by
  obtain ⟨frame, rest, hframes, -, -⟩ := h.layers.current h.accurate.founded
  have hbegin := CallStack.beginLoop_frames hframes
  have hlayers := h.layers
  have hids := h.ids
  rw [hframes] at hlayers hids
  refine ⟨?_, ?_, ?_⟩
  · exact h.accurate.keep rfl rfl rfl (Nat.le_of_eq CallStack.beginLoop_nextId.symm) (.refl _ _)
  · change g.Layers _ _ _ m.calls.beginLoop.frames
    rw [hbegin]
    exact hlayers.setLoopDepth _
  · change (m.calls.beginLoop.frames.map Frame.id).Nodup
    rw [hbegin]
    exact hids

/-- The end of a loop takes no addressee away, except that of a break of the loop. -/
theorem addressee_endLoop {e : Exit} {stack : CallStack}
    (hne : ∀ value, e ≠ .breakTo .loop value) (h : e.Addressee stack) :
    e.Addressee stack.endLoop := by
  cases e with
  | returnTo target value =>
    obtain ⟨frame, hmem, hid, habsorbs⟩ := h
    obtain ⟨depth, hmem⟩ := CallStack.mem_endLoop hmem
    exact ⟨_, hmem, hid, habsorbs⟩
  | breakTo target value =>
    cases target with
    | loop => exact absurd rfl (hne value)
    | frame target =>
      obtain ⟨frame, hmem, hid, hkind⟩ := h
      obtain ⟨depth, hmem⟩ := CallStack.mem_endLoop hmem
      exact ⟨_, hmem, hid, hkind⟩
  | _ => trivial

/-- The operations at nodes keep the ledger accurate. -/
theorem nodeLaws (program : Program) : regime.NodeLaws program where
  note := rfl
  noteStore := rfl
  ready := id
  operand here _ _ := here
  target here _ _ := here
  store here := .keep here.accurate (Environment.sameShape_assignLocal _ _) rfl rfl
    rfl (Nat.le_refl _) rfl
  define here _ := .keep here.accurate (.refl _) rfl rfl rfl (Nat.le_refl _) rfl
  close here _ _ _ htag := here.makeClosure htag
  addLambda ready := ready.addLambda
  allocate ready := ready.allocate
  enterScope here := here.enterTransparent
  leaveScope {n g id m g' m'} here hstep := by
    refine ⟨hstep.leave (Nat.le_refl n) (.refl _ _) rfl nofun rfl (Nat.le_refl _) rfl rfl ?_
      rfl rfl rfl rfl, ?_⟩
    · exact hstep.grows.frames
    · exact fun e h => h
  beginLoop here := here.beginLoop
  endLoop {n g id m g' m'} here hstep := by
    refine ⟨⟨hstep.grows.endLoop, hstep.agree, hstep.late, ?_⟩,
      fun e hne h => addressee_endLoop hne h⟩
    exact hstep.accurate.keep rfl rfl rfl (Nat.le_of_eq CallStack.endLoop_nextId.symm) (.refl _ _)

/-! ### Exits -/

/-- Where a block literal was written inside a method or lambda, that activation absorbs returns. -/
theorem Ready.home_absorbs (h : Ready g m) {scope : ScopeId} {target : FrameId}
    (home : g.home m.env.store scope = some target) {frame : Frame}
    (hmem : frame ∈ m.calls.frames) (hid : frame.id = target) : frame.absorbsReturn = true := by
  obtain ⟨a, henclosing, ha⟩ := Option.map_eq_some_iff.mp home
  obtain ⟨hhome, s, howning, hnoted⟩ := of_enclosing? henclosing
  obtain ⟨s', fits, -⟩ := h.layers.fits_of_mem hmem
  obtain ⟨a', hnoted', hkind, hid'⟩ := fits.activation
  obtain rfl : s = s' := h.accurate.distinct s s' a a' howning fits.owning hnoted hnoted'
    (ha.trans (hid.symm.trans hid'.symm))
  obtain rfl : a = a' := Option.some.inj (hnoted.symm.trans hnoted')
  simp only [Activation.isHome, Bool.or_eq_true, beq_iff_eq] at hhome
  rcases hhome with hhome | hhome <;> simp [Frame.absorbsReturn, ← hkind, hhome]

/-- Exits that are made have an addressee. -/
theorem exitLaws : regime.ExitLaws where
  error := trivial
  returnTo {g id m target value} here htarget hlive := by
    have ready : Ready g m := here
    obtain ⟨frame, rest, hframes, hhome, -⟩ := ready.layers.current ready.accurate.founded
    have hframe : m.frame? = some frame := by rw [Machine.frame?, CallStack.current?, hframes]; rfl
    have hmem : frame ∈ m.calls.frames := hframes ▸ List.mem_cons_self
    rw [hframe, Option.bind_some, Frame.returnTarget] at htarget
    obtain ⟨live, hliveMem, hliveId⟩ := CallStack.isLive_iff.mp hlive
    cases hkind : frame.kind with
    | top | method | lambda =>
      rw [hkind] at htarget
      exact ⟨frame, hmem, Option.some.inj htarget, by simp [Frame.absorbsReturn, hkind]⟩
    | builtin =>
      rw [hkind] at htarget
      cases htarget
    | block =>
      rw [hkind] at htarget
      -- a block addresses the home of its literal, which is live and takes a return
      rw [Frame.homeForLiterals, hkind] at hhome
      exact ⟨live, hliveMem, hliveId,
        ready.home_absorbs (hhome.symm.trans htarget) hliveMem hliveId⟩
  breakLoop _ hframe hdepth := ⟨_, hframe, hdepth⟩
  breakLambda {g id m frame value} _ hframe hkind := by
    refine ⟨frame, List.mem_of_mem_head? hframe, rfl, ?_⟩
    rw [hkind]
    exact nofun
  breakBlock {g id m frame tag value} here hframe hkind htag hlive := by
    have ready : Ready g m := here
    obtain ⟨live, hliveMem, hliveId⟩ := CallStack.isLive_iff.mp hlive
    refine ⟨live, hliveMem, hliveId, fun htop => ?_⟩
    -- a tag never names a program, whose frame takes no break
    obtain ⟨s, fits, hs⟩ := ready.layers.fits_of_mem hliveMem
    obtain rfl := hs htop
    obtain ⟨a, hnoted, -, ha⟩ := fits.activation
    obtain ⟨s', fits', -⟩ := ready.layers.fits_of_mem (List.mem_of_mem_head? hframe)
    exact fits'.tagNotTop tag a htag hnoted (ha.trans hliveId)
  next _ _ := trivial
  redo _ _ := trivial

end Ledger

end ScriptSemantics
