import ScriptSemantics.Proofs.LedgerRegime

/-!
# Activations in the ledger

Going into an activation adds its scope, its frame and its note together, and going out of it takes
the frame and the scope away again.

## Main Results

* `Ledger.ready_activate` — a new frame agrees with its note and with what lies around its scope
* `Ledger.lawful` — the operations of the machine respect the conditions of the ledger
* `Ledger.idle_initial`, `Ledger.Idle.start` — a fresh machine is idle, and an idle machine is ready
  for a program
-/

namespace ScriptSemantics.Ledger

variable {program : Program} {g g' : Ledger} {m m' : Machine} {n : Nat} {task : Task}
  {frame : Frame} {parent : Option ScopeId} {code : Option Code}

/-- How the note of a task fits the frame that it opens. -/
structure Announces (g : Ledger) (m : Machine) (frame : Frame) (parent : Option ScopeId)
    (a : Activation) : Prop where
  kind : a.kind = frame.kind
  id : a.id = frame.id
  notTop : frame.kind ≠ .top
  loopDepth : frame.loopDepth = 0
  older : ∀ p, parent = some p → p.index < m.env.store.size
  home : frame.homeForLiterals =
    if a.isHome then some a.id else parent.bind (g.home m.env.store)
  block : frame.block = if a.isMethod then a.block else parent.bind (g.block m.env.store)
  tagNotTop : ∀ tag a, frame.breakTag = some tag → g m.env.top = some a → a.id ≠ tag

theorem announces_of_opens (h : g.Accurate m) (opens : task.Opens m frame parent code) :
    ∃ a, g.note task m = g.set ⟨m.env.store.size⟩ a ∧ Announces g m frame parent a := by
  cases opens with
  | method callee id given block =>
    exact ⟨_, rfl, rfl, rfl, by simp, rfl, by simp, rfl, rfl, by simp⟩
  | loop block id => exact ⟨_, rfl, rfl, rfl, by simp, rfl, by simp, rfl, rfl, by simp⟩
  | closure proc id given block found =>
    rename_i c
    refine ⟨{ kind := if c.isLambda then .lambda else .block, id, root := some c.literal, block },
      by rw [note, found], ?_⟩
    have hcaptured : ∀ p, some c.captured = some p → p.index < m.env.store.size := by
      intro p hp
      cases hp
      exact h.captured proc c found
    have hhome := h.home proc c found
    have hblock := h.block proc c found
    cases hlambda : c.isLambda with
    | true =>
      have hframe : Comp.closureFrame c id =
          { id, kind := .lambda, name := .empty, block := c.outerBlock } := if_pos hlambda
      rw [hframe]
      exact ⟨rfl, rfl, by simp, rfl, hcaptured, rfl, hblock, by simp⟩
    | false =>
      have hframe : Comp.closureFrame c id =
          { id, kind := .block, name := .empty, home := c.home, breakTag := c.breakTag
            block := c.outerBlock } := if_neg (by simp [hlambda])
      rw [hframe]
      exact ⟨rfl, rfl, by simp, rfl, hcaptured, hhome, hblock,
        fun tag a htag ha => h.tagNotTop proc c tag a found htag ha⟩

/-- A new scope has around it what its parent has, and its own activation. -/
theorem enclosing?_activate (h : g.Accurate m) {a : Activation}
    (announces : Announces g m frame parent a) (p : Activation → Bool) :
    (g.set ⟨m.env.store.size⟩ a).enclosing? (m.env.store.add .owning parent).2 p
        ⟨m.env.store.size⟩ =
      if p a then some a else parent.bind (g.enclosing? m.env.store p) := by
  have founded : (m.env.store.add .owning parent).2.Founded := h.founded.add announces.older
  rw [enclosing?_owning founded (by rw [ScopeStore.isOwning_added]; rfl) (set_self g _ a),
    ScopeStore.parent?_added]
  cases hparent : parent with
  | none => rfl
  | some around =>
    have hlt := announces.older around hparent
    rw [Option.bind_some, Option.bind_some, enclosing?_congr (ScopeStore.extends_add _ _ _)
      h.founded hlt fun s hs => .inl ((agreeOn_set _ g a).owning hs)]

theorem fits_activate (h : g.Accurate m) {a : Activation}
    (announces : Announces g m frame parent a) :
    (g.set ⟨m.env.store.size⟩ a).Fits (m.env.store.add .owning parent).2 m.env.top
      ⟨m.env.store.size⟩ frame where
  activation := ⟨a, set_self g _ a, announces.kind, announces.id⟩
  owning := by
    rw [ScopeStore.isOwning_added]
    rfl
  home := by
    rw [announces.home, home, enclosing?_activate h announces]
    split
    · rfl
    · cases parent <;> rfl
  block := by
    rw [announces.block, block, enclosing?_activate h announces]
    split
    · rfl
    · cases parent <;> rfl
  tagNotTop := by
    rw [agreeOn_set m.env.store g a _ (ScopeStore.isOwning_lt h.top)]
    exact announces.tagNotTop

/-- A new frame agrees with its note and with what lies around its scope. -/
theorem ready_activate (hpre : regime.contract.pre g task m)
    (opens : task.Opens m frame parent code) {calls : CallStack}
    (hpush : m.calls.push frame = .ok calls) : Ready (g.note task m) (m.activate calls parent) := by
  obtain ⟨ready, reserved⟩ := Regime.ready_of_opens hpre opens
  obtain ⟨a, hnote, announces⟩ := announces_of_opens ready.accurate opens
  have htop := ScopeStore.isOwning_lt ready.accurate.top
  have scopes := ScopeStore.extends_add m.env.store .owning parent
  have hcalls := CallStack.push_eq hpush
  have hnextId : calls.nextId = m.calls.nextId := by rw [hcalls]
  have hframes : calls.frames = frame :: m.calls.frames := by rw [hcalls]
  rw [hnote]
  refine ⟨?_, ?_, ?_⟩
  · refine ready.accurate.extend scopes (ready.accurate.founded.add announces.older) rfl rfl
      (Nat.le_of_eq hnextId.symm) (agreeOn_set _ g a) ?_
    intro s b hs howning hnoted
    obtain ⟨rfl, -⟩ := ScopeStore.eq_of_size_le hs howning
    rw [set_self] at hnoted
    cases hnoted
    refine ⟨rfl, ?_, ?_⟩
    · change a.id.index < calls.nextId
      rw [announces.id, hnextId]
      exact reserved.1
    · intro s' a' howning' hnoted'
      rw [announces.id]
      exact reserved.2 s' a' howning' hnoted'
  · change Layers _ _ _ _ calls.frames
    rw [hframes]
    exact .owning (fits_activate ready.accurate announces) announces.notTop
      (ready.layers.extend scopes ready.accurate.founded (agreeOn_set _ g a) htop)
  -- every frame on the stack has its note, and the identity was reserved
  · change (calls.frames.map Frame.id).Nodup
    rw [hframes, List.map_cons, List.nodup_cons]
    refine ⟨fun hmem => ?_, ready.ids⟩
    obtain ⟨other, hother, hid⟩ := List.mem_map.mp hmem
    obtain ⟨s, fits, -⟩ := ready.layers.fits_of_mem hother
    obtain ⟨b, hnoted, -, hb⟩ := fits.activation
    exact reserved.2 s b fits.owning hnoted (hb.trans hid)

theorem agreeOn_note (hne : ∀ root id, task ≠ .program root id) :
    AgreeOn m.env.store g (g.note task m) := by
  cases task with
  | node | store => exact .refl _ _
  | program root id => exact absurd rfl (hne root id)
  | method callee id given block => exact agreeOn_set _ _ _
  | loop block id => exact agreeOn_set _ _ _
  | closure proc id given block =>
    rw [note]
    split
    · exact agreeOn_set _ _ _
    · exact .refl _ _

/-- An exit that a frame does not absorb goes on to the frames below it. -/
theorem addressee_pop {e : Exit} {calls : CallStack} {rest : List Frame}
    (hframes : calls.frames = frame :: rest) (hdepth : frame.loopDepth = 0)
    (passes : frame.Passes e) (h : e.Addressee calls) :
    e.Addressee calls.pop ∧ ∀ value, e ≠ .breakTo .loop value := by
  have below : calls.pop.frames = rest := by rw [CallStack.pop, hframes]; rfl
  cases e with
  | returnTo target value =>
    obtain ⟨live, hmem, hid, habsorbs⟩ := h
    rw [hframes] at hmem
    refine ⟨?_, by simp⟩
    rcases List.mem_cons.mp hmem with rfl | hmem
    · rcases passes hid.symm with hkind | hkind <;> simp [Frame.absorbsReturn, hkind] at habsorbs
    · exact ⟨live, below ▸ hmem, hid, habsorbs⟩
  | breakTo target value =>
    cases target with
    | loop =>
      obtain ⟨current, hcurrent, hlt⟩ := h
      rw [CallStack.current?, hframes] at hcurrent
      cases hcurrent
      omega
    | frame target =>
      obtain ⟨live, hmem, hid, hkind⟩ := h
      rw [hframes] at hmem
      refine ⟨?_, by simp⟩
      rcases List.mem_cons.mp hmem with rfl | hmem
      · exact absurd hid.symm passes
      · exact ⟨live, below ▸ hmem, hid, hkind⟩
  | _ => exact ⟨trivial, by simp⟩

theorem activationLaws : regime.ActivationLaws where
  reserved h := h.1
  note {n g task m} hpre hne := by
    have ready : Ready g m := by
      cases task with
      | node | store => exact hpre
      | program root id => exact absurd rfl (hne root id)
      | method | closure | loop => exact hpre.1
    refine ⟨.refl m, agreeOn_note hne, ?_, ?_⟩
    · exact fun s a hs howning _ =>
        absurd (ScopeStore.isOwning_lt howning) (Nat.not_lt.mpr hs)
    · exact ready.accurate.keep rfl rfl rfl (Nat.le_refl _) (agreeOn_note hne)
  enterLoop hpre opens hpush := ready_activate hpre opens hpush
  enterCode {n g task m frame parent code calls} hpre opens hpush := by
    have ready := ready_activate hpre opens hpush
    have hstep : Step n (g.note task m) (m.activate calls parent) (g.note task m)
        ((m.activate calls parent).declareOwned code.root) :=
      .keep ready.accurate (Environment.sameShape_declareAll _ _) rfl rfl rfl (Nat.le_refl _) rfl
    exact ⟨hstep, ready.step hstep⟩
  operand here _ := here
  define here _ _ :=
    .keep here.accurate (Environment.sameShape_define _ _) rfl rfl rfl (Nat.le_refl _) rfl
  leave {n g task m frame parent code calls g' m'} hpre opens hpush hlt hstep := by
    obtain ⟨ready, -⟩ := Regime.ready_of_opens hpre opens
    obtain ⟨a, hnote, announces⟩ := announces_of_opens ready.accurate opens
    have hcalls := CallStack.push_eq hpush
    -- the activation is left with its own frame on top of those from before
    have hframes : m'.calls.frames = frame :: m.calls.frames := by
      rw [hstep.grows.frames]
      change calls.frames = _
      rw [hcalls]
    refine ⟨hstep.leave (Nat.le_of_lt hlt) (agreeOn_note opens.ne_program) rfl ?_
      (by rw [hcalls]; rfl) (Nat.le_of_eq (by rw [hcalls]; rfl)) rfl rfl ?_ rfl rfl rfl rfl,
      fun e passes h => ?_⟩
    · intro b _ hnoted
      change g.note task m _ = _ at hnoted
      rw [hnote, set_self] at hnoted
      cases hnoted
      exact Nat.le_of_eq (congrArg FrameId.index announces.id).symm
    · change m'.calls.frames.tail = _
      rw [hframes]
      rfl
    · exact addressee_pop hframes announces.loopDepth passes h
  crosses := nofun

/-! ### Programs -/

theorem Start.accurate_note {id : FrameId} (h : Start g id m) (root : NodeId) :
    (g.note (.program root id) m).Accurate m :=
  h.accurate.startProgram h.reserved.1 h.reserved.2 h.tags

/-- The frame of a program agrees with the top-level scope, around which there is nothing. -/
theorem Start.layers {id : FrameId} (h : Start g id m) (root : NodeId) {frame : Frame}
    (hframe : frame = { id, kind := .top, name := .empty }) :
    (g.note (.program root id) m).Layers m.env.store m.env.top [] [frame] := by
  subst hframe
  have around : ∀ p : Activation → Bool, (∀ a : Activation, a.kind = .top → p a = false) →
      (g.note (.program root id) m).enclosing? m.env.store p m.env.top = none := by
    intro p hp
    rw [note, enclosing?_owning h.accurate.founded h.accurate.top (set_self g _ _), hp _ rfl,
      h.accurate.topParent]
    rfl
  refine .program ⟨⟨_, set_self g _ _, rfl, rfl⟩, h.accurate.top, ?_, ?_, by simp⟩ rfl
  · rw [home, around Activation.isHome (by simp_all [Activation.isHome])]
    rfl
  · rw [block, around Activation.isMethod (by simp_all [Activation.isMethod])]
    rfl

/-- What is left of an exit after a program is an error. -/
theorem error_of_topEnding {names : NameTable} {id : FrameId} {ending : Ending Value} {e : Exit}
    (h : Comp.recordFrames names m (Comp.topEnding id ending) = .error e) :
    ∃ error, e = .error error := by
  rw [Comp.topEnding] at h
  cases hcatch : Comp.catchReturn id ending with
  | ok value =>
    rw [hcatch] at h
    cases h
  | error exit =>
    rw [hcatch] at h
    cases h
    exact ⟨_, rfl⟩

theorem programLaws (program : Program) : regime.ProgramLaws program where
  refuse {g root id m cause} hstart _ :=
    ⟨⟨hstart.accurate_note root, hstart.entered, hstart.frames⟩, fun e he => by
      cases he
      exact ⟨_, rfl⟩⟩
  enter {g root id m calls} hstart hpush := by
    have hcalls := CallStack.push_eq hpush
    have hframes : calls.frames = [{ id, kind := .top, name := .empty }] := by
      rw [hcalls, hstart.frames]
    have ready : Ready (g.note (.program root id) m) { m with calls } := by
      refine ⟨?_, ?_, ?_⟩
      · exact (hstart.accurate_note root).keep rfl rfl rfl (Nat.le_of_eq (by rw [hcalls]))
          (.refl _ _)
      · change Layers _ _ _ m.env.entered calls.frames
        rw [hstart.entered, hframes]
        exact hstart.layers root rfl
      · rw [hframes]
        exact List.nodup_cons.mpr ⟨List.not_mem_nil, List.nodup_nil⟩
    exact ready.step (n := 0)
      (.keep ready.accurate (Environment.sameShape_declareAll _ _) rfl rfl rfl (Nat.le_refl _) rfl)
  leave {n g root id m calls g' ending m'} hstart hpush hstep _ := by
    have hcalls := CallStack.push_eq hpush
    have hdeclare := Environment.sameShape_declareAll m.env (m.resolution.ownedNames root)
    refine ⟨⟨hstep.accurate.keep rfl rfl rfl (Nat.le_refl _) (.refl _ _), ?_, ?_⟩,
      fun e => error_of_topEnding⟩
    · change m'.env.entered = []
      rw [hstep.grows.entered]
      exact hdeclare.entered.trans hstart.entered
    · change m'.calls.frames.tail = []
      rw [hstep.grows.frames]
      change calls.frames.tail = []
      rw [hcalls, hstart.frames]
      rfl

/-- The operations of the machine respect the conditions of the ledger. -/
theorem lawful (program : Program) : regime.Lawful program where
  steps := steps
  nodes := nodeLaws program
  starts := exitLaws
  activations := activationLaws
  programs := programLaws program

/-! ### Before and between programs -/

theorem sameShape_initial (policy : DepthPolicy) (locals : List (Name × Value)) :
    Environment.initial.SameShape (Machine.initial policy locals).env := by
  unfold Machine.initial
  exact List.foldlRecOn locals _ (.refl _) fun env h pair _ =>
    h.trans (Environment.sameShape_define pair.1 pair.2)

theorem idle_initial (policy : DepthPolicy) (locals : List (Name × Value)) :
    Idle blank (Machine.initial policy locals) := by
  have same := sameShape_initial policy locals
  have noClosure : ∀ proc c, (Machine.initial policy locals).closures.get? proc ≠ some c := by
    intro proc c hc
    change (none : Option Closure) = some c at hc
    cases hc
  have hparent : ∀ s, (Machine.initial policy locals).env.store.parent? s = none := by
    intro s
    rw [ScopeStore.parent?_eq, same.shape]
    cases hs : s.index <;> rfl
  refine ⟨⟨?_, ?_, hparent _, ?_, ?_, ?_, ?_, ?_, ?_, ?_, ?_⟩, same.entered, rfl⟩
  · intro s p hp
    rw [hparent] at hp
    cases hp
  · rw [ScopeStore.isOwning_eq, same.shape, same.top]
    rfl
  · exact fun _ hnoted => nomatch hnoted
  · exact fun _ _ _ hnoted => nomatch hnoted
  · exact fun _ _ _ _ _ _ hnoted => nomatch hnoted
  · exact fun proc c hc => absurd hc (noClosure proc c)
  · exact fun proc c hc => absurd hc (noClosure proc c)
  · exact fun proc c hc => absurd hc (noClosure proc c)
  · exact fun proc c _ hc => absurd hc (noClosure proc c)
  · exact fun proc c _ _ hc => absurd hc (noClosure proc c)

/-- Before a program, the machine takes what is known about its locals and an identity. -/
theorem Idle.start (h : Idle g m) (resolution : Resolution) :
    Start g { m with resolution }.allocateFrame.1 { m with resolution }.allocateFrame.2 where
  accurate := h.accurate.keep rfl rfl rfl (Nat.le_succ _) (.refl _ _)
  entered := h.entered
  frames := h.frames
  reserved := by
    refine ⟨Nat.lt_succ_self _, fun s a howning hnoted hid => ?_⟩
    have hlt := h.accurate.bounded s a howning hnoted
    rw [hid] at hlt
    exact Nat.lt_irrefl _ hlt
  tags proc c hc htag :=
    Nat.lt_irrefl _ (h.accurate.tagBounded proc c _ hc htag)

end ScriptSemantics.Ledger
