import ScriptSemantics.Proofs.PartCouplings
import ScriptSemantics.Proofs.ProgramRoots
import ScriptSemantics.Proofs.Succession

/-!
# Evaluation in parts

Two programs that are evaluated one after the other on one machine give what the sequence of both
gives on another, as long as the callables of the first program get by without the declarations of
their locals while the second one runs: the resolver is asked about each program anew, and forgets
the program before.

## Main Definitions

* `Machine.Resembles`, `EndAlike` — two machines differ in frame identities at most, and in locals
  of callables that one of them has not declared

## Main Results

* `Coupling.perform_first`, `Coupling.perform_second` — the parts and the sequence in lock step
* `Program.parts_give_whole` — the second of two programs ends as the sequence of both does
-/

namespace ScriptSemantics

/-! ### The same locals -/

/-- Two machines have the same locals at the top level, the same scopes, closures and methods, up to
frame identities.  In other scopes the second machine may have more names bound to nil. -/
structure Machine.Resembles (ρ : FrameRenaming) (m m' : Machine) : Prop where
  top : m'.env.top = m.env.top
  store : m.env.store.Pads (fun s _ => s = m.env.top) m'.env.store
  closures : m'.closures.closures = m.closures.closures.map (·.rename ρ)
  proper : ∀ c ∈ m.closures.closures, c.Proper ρ
  methods : m'.methods = m.methods

/-- Two programs have ended in the same way, and leave the same locals and, up to frame identities
and names bound to nil, the same scopes, closures and methods. -/
structure EndAlike (result result' : Ending Value × Machine) : Prop where
  ending : result'.1 = result.1
  locals : ∀ name, result'.2.env.topBindings.get? name = result.2.env.topBindings.get? name
  resembles : ∃ ρ, result.2.Resembles ρ result'.2

/-- The host sees the same locals. -/
theorem Machine.Resembles.locals {ρ : FrameRenaming} {m m' : Machine} (h : m.Resembles ρ m')
    (name : Name) : m'.env.topBindings.get? name = m.env.topBindings.get? name := by
  have read : ∀ env : Environment,
      env.topBindings.get? name = env.store.binding? env.top name := fun env => by
    rw [Environment.topBindings, ScopeStore.binding?]
    cases env.store.scope? env.top <;> rfl
  rw [read, read, h.top, h.store.binding?_eq rfl]

namespace Coupling

variable {C : Coupling} {g g' : Ledger} {m m' : Machine} {id : FrameId} {ending : Ending Value}

/-- Coupled machines resemble each other, if the first one binds all at the top level that the
second one binds. -/
theorem Related.resembles (related : C.Related g m g' m') (full : ∀ root name, C.full root C.top name) :
    m.Resembles C.ids m' where
  top := related.top'.trans related.top.symm
  store := related.store.weaken fun s name _ hs => by
    rw [hs, related.top]
    exact full _ name
  closures := related.closures
  proper := related.properClosures
  methods := related.methods

/-- Programs on coupled machines make the same of the ending of their roots. -/
theorem Related.close_eq (related : C.Related g m g' m') (program : Program) (hid : C.ids.Occurs id)
    (proper : ending.Proper C.ids) :
    (program.close (C.ids.new id) (ending.rename C.ids, m')).1 = (program.close id (ending, m)).1 := by
  have respects := (FrameRenaming.respects_recordFrames program.names related.frames).comp
    (FrameRenaming.respects_topEnding hid)
  refine (respects ending proper).1.trans ?_
  change ((program.close id (ending, m)).1).rename C.ids = _
  cases hclose : (program.close id (ending, m)).1 with
  | ok value => rfl
  | error e =>
    obtain ⟨error, rfl⟩ := Ledger.error_of_topEnding hclose
    rfl

/-- Programs whose roots end alike end alike. -/
theorem SameResult.close {result result' : Option (Ending Value × Machine)}
    (same : C.SameResult g g' result result') (full : ∀ root name, C.full root C.top name)
    (program : Program) (hid : C.ids.Occurs id) :
    Option.Rel EndAlike (result.map (program.close id))
      (result'.map (program.close (C.ids.new id))) := by
  cases same with
  | none => exact .none
  | @some left right ends =>
    obtain ⟨ending, m⟩ := left
    obtain ⟨ending', m'⟩ := right
    obtain ⟨related, proper, rfl : ending' = ending.rename C.ids⟩ := ends
    have resembles := related.resembles full
    exact .some ⟨related.close_eq program hid proper, resembles.locals, C.ids, { resembles with }⟩

end Coupling

/-! ### Both parts in lock step -/

section Parts

variable {program : Program} {fuel : Nat} {first second whole : NodeId} {policy : DepthPolicy}
  {locals : List (Name × Value)} {res₁ res₂ res : Resolution}

/-- The first part and the sequence start on coupled machines. -/
theorem Coupling.related_first
    (composes : Resolution.Composes program.nodes first second whole res₁ res₂ res)
    {m : Machine} (hm : m = .initial policy locals) :
    (ofFirst m.env.top first whole res₁ res).Related (Ledger.blank.opened m first res₁)
      (m.opened first res₁) (Ledger.blank.opened m whole res) (m.opened whole res) := by
  subst hm
  have idle := Ledger.idle_initial policy locals
  have same₁ := (Machine.initial policy locals).sameShape_opened first res₁
  have same := (Machine.initial policy locals).sameShape_opened whole res
  have hcurrent : (Machine.initial policy locals).env.current =
      (Machine.initial policy locals).env.top := by
    rw [Environment.current, idle.entered]
    rfl
  -- at the start, the top-level scope is the only owning one
  have only : ∀ s, ((Machine.initial policy locals).opened first res₁).env.store.isOwning s = true →
      s = (Machine.initial policy locals).env.top := by
    intro s hs
    have hlt := ScopeStore.isOwning_lt hs
    rw [← ScopeStore.length_shape, same₁.shape, ScopeStore.length_shape] at hlt
    exact Slots.eq_top_of_initial hlt
  exact {
    top := same₁.top
    top' := same.top
    entered := same.entered.trans same₁.entered.symm
    store := Environment.pads_declareAll (.refl _ _) rfl (hcurrent ▸ idle.accurate.top)
      composes.firstTop fun name hname hfull => .inl (hfull hcurrent hname)
    closures := Array.map_empty.symm
    properClosures := fun c hc => absurd hc (Array.not_mem_empty c)
    methods := rfl
    frames := rfl
    properFrames := fun frame hframe => ⟨trivial, fun _ _ => trivial, fun _ _ => trivial⟩
    limit := rfl
    fresh := fun k => ⟨trivial, rfl⟩
    left := rfl
    right := rfl
    roots := fun s hs hne => absurd ((only s hs).trans same₁.top.symm) hne }

/-- The conditions on the first part hold along its run. -/
theorem Coupling.along_first
    (resolved₁ : resolve program.nodes first (Machine.initial policy locals).env.topBindings.keys =
      .ok res₁)
    (tree : program.nodes.IsTree first) (room : (Machine.initial policy locals).calls.HasRoom)
    (fuel : Nat) :
    Ledger.Along
      (FirstPre program first (Machine.initial policy locals).env.topBindings.keys res₁)
      (Ledger.blank.opened (.initial policy locals) first res₁)
      (program.record fuel (.node first) ((Machine.initial policy locals).opened first res₁)) := by
  cases hcallable : program.nodes.callable? first with
  | none =>
    have kept := (Slots.lawful_regimeOf resolved₁ tree hcallable).kept
    refine (Ledger.along_of_admits rfl (kept.admits_record (.node first)
      (Slots.here_opened resolved₁ tree hcallable room))).mono
        fun g task m _ hpre => ⟨fun _ => hpre, ?_⟩
    rw [hcallable]
    exact fun h => absurd h Bool.false_ne_true
  | some callable =>
    refine Ledger.along_of_forall fun i task m hi => ⟨?_, fun h => ?_⟩
    · rw [hcallable]
      exact fun h => absurd h (Option.some_ne_none _)
    · exact Slots.enter_of_record_callable h (List.mem_of_getElem? hi)

/-- The sequence evaluates its first statement as the first program does. -/
theorem Coupling.perform_first
    (composes : Resolution.Composes program.nodes first second whole res₁ res₂ res)
    (resolved₁ : resolve program.nodes first (Machine.initial policy locals).env.topBindings.keys =
      .ok res₁)
    (tree : program.nodes.IsTree first) (room : (Machine.initial policy locals).calls.HasRoom)
    {value : Value} {m₁ : Machine}
    (hperform : program.perform fuel (.node first)
      ((Machine.initial policy locals).opened first res₁) = some (.ok value, m₁)) :
    ∃ m₁', program.perform fuel (.node first) ((Machine.initial policy locals).opened whole res) =
        some (.ok value, m₁') ∧
      (ofFirst (Machine.initial policy locals).env.top first whole res₁ res).Related
        ((Ledger.blank.opened (.initial policy locals) first res₁).after
          (program.record fuel (.node first) ((Machine.initial policy locals).opened first res₁))) m₁
        ((Ledger.blank.opened (.initial policy locals) whole res).after
          (program.record fuel (.node first) ((Machine.initial policy locals).opened whole res))) m₁' := by
  have proper : (Task.node first).Proper
      (ofFirst (Machine.initial policy locals).env.top first whole res₁ res).ids := trivial
  have same := (lawful_ofFirst composes resolved₁).perform (related_first composes rfl) proper
    (along_first resolved₁ tree room fuel) (Ledger.along_of_forall fun _ _ _ _ => trivial)
  change SameResult _ _ _ _ (program.perform fuel (.node first) _) at same
  rw [hperform] at same
  cases hright : program.perform fuel (.node first)
      ((Machine.initial policy locals).opened whole res) with
  | none =>
    rw [hright] at same
    cases same
  | some result =>
    obtain ⟨ending, m₁'⟩ := result
    rw [hright] at same
    obtain ⟨related, -, hending⟩ | _ := same
    obtain rfl : ending = .ok value := hending
    exact ⟨m₁', rfl, related⟩

/-- After its root, the first program on a machine is still inside of its frame. -/
structure Ledger.Rooted (g : Ledger) (m : Machine) : Prop where
  accurate : g.Accurate m
  noted : (g m.env.top).map Activation.id = some ⟨0⟩
  entered : m.env.entered = []
  frames : m.calls.frames = [{ id := ⟨0⟩, kind := .top, name := .empty }]
  positive : 0 < m.calls.nextId

theorem Ledger.rooted_of_perform {root : NodeId} {ending : Ending Value} {m : Machine}
    (room : (Machine.initial policy locals).calls.HasRoom)
    (hperform : program.perform fuel (.node root) ((Machine.initial policy locals).opened root res) =
      some (ending, m)) :
    ((Ledger.blank.opened (.initial policy locals) root res).after
      (program.record fuel (.node root) ((Machine.initial policy locals).opened root res))).Rooted m := by
  have idle := Ledger.idle_initial policy locals
  have same := (Machine.initial policy locals).sameShape_opened root res
  have ready := idle.ready_opened room root res
  obtain ⟨hstep, -⟩ := (Ledger.lawful program).kept.post_of_perform (.node root) ready hperform
  refine ⟨hstep.accurate, ?_, hstep.grows.entered.trans (same.entered.trans idle.entered),
    hstep.grows.frames, hstep.grows.nextId⟩
  rw [hstep.grows.top]
  refine (congrArg (Option.map Activation.id)
    (hstep.agree _ (ScopeStore.isOwning_lt ready.accurate.top))).trans ?_
  rw [same.top]
  exact congrArg (Option.map Activation.id) (Ledger.set_self _ _ _)

/-- After the first program, closures carry identities that were given out, none of them that of the
program. -/
theorem Ledger.Rooted.identities {g : Ledger} {m : Machine} (h : g.Rooted m) {c : Closure}
    (hc : c ∈ m.closures.closures) :
    ∀ id, c.home = some id ∨ c.breakTag = some id → id.index ≠ 0 ∧ id.index < m.calls.nextId := by
  obtain ⟨a, ha, hid⟩ := Option.map_eq_some_iff.mp h.noted
  obtain ⟨i, hi⟩ := Array.mem_iff_getElem?.mp hc
  have hproc : m.closures.get? ⟨i⟩ = some c := hi
  have nonzero : ∀ id, id ≠ a.id → id.index ≠ 0 := by
    rintro id hne hzero
    rw [hid] at hne
    exact hne (congrArg FrameId.mk hzero)
  rintro id (hhome | htag)
  · rw [h.accurate.home _ c hproc] at hhome
    obtain ⟨b, henclosing, rfl⟩ := Option.map_eq_some_iff.mp hhome
    obtain ⟨hkind, s, howning, hb⟩ := of_enclosing? henclosing
    refine ⟨nonzero _ fun heq => ?_, h.accurate.bounded s b howning hb⟩
    -- the top-level activation is neither a method nor a lambda
    obtain rfl := h.accurate.distinct s _ b a howning h.accurate.top hb ha heq
    simp [Activation.isHome, h.accurate.topKind b hb] at hkind
  · exact ⟨nonzero _ (h.accurate.tagNotTop _ c id a hproc htag ha).symm,
      h.accurate.tagBounded _ c id hproc htag⟩

section Second

variable {entries : Assoc NodeId Walk} {top : ScopeId} {g g' : Ledger} {m m' : Machine}
  (composes : Resolution.Composes program.nodes first second whole res₁ res₂ res)
  (related : (Coupling.ofFirst top first whole res₁ res).Related g m g' m')
  (rooted : g.Rooted m) (agreement : Scoped program res entries g' m')
  (hroot : g'.root? m'.env.top = some whole)

include composes related rooted agreement hroot

/-- With the names declared that the second program owns, the locals are those of the sequence. -/
theorem Coupling.pads_second :
    ((m.mapCalls .pop).opened second res₂).env.store.Pads (fun _ _ => True) m'.env.store := by
  have hcurrent : m.env.current = m.env.top := by
    rw [Environment.current, rooted.entered]
    rfl
  have htop : m'.env.top = m.env.current :=
    related.top'.trans (related.top.symm.trans hcurrent.symm)
  have howning : m'.env.store.isOwning m'.env.top = true := by
    rw [related.isOwning_eq, htop, hcurrent]
    exact rooted.accurate.top
  refine Environment.pads_declared related.store (hcurrent ▸ rooted.accurate.top)
    (fun name hname => ?_) fun s name hbinds => ?_
  · rw [← htop]
    exact agreement.bound _ whole howning hroot name ((composes.secondTop name).mpr hname)
  · by_cases hs : s = m'.env.top
    · cases hempty : name.isEmpty with
      | true => exact .inr fun _ hname => composes.anonymous name hname hempty
      | false =>
        rw [hs] at hbinds
        have howned := agreement.owned _ whole howning hroot name hempty hbinds
        exact .inl ⟨hs.trans htop, (composes.secondTop name).mp howned⟩
    · exact .inr fun heq => absurd (heq.trans related.top'.symm) hs

/-- The second part starts on coupled machines, when the sequence has come to it. -/
theorem Coupling.related_second :
    (ofSecond top m.calls.nextId (program.nodes.tree first) res₂ res).Related
      (g.opened (m.mapCalls .pop) second res₂) ((m.mapCalls .pop).opened second res₂) g' m' := by
  have same : m.env.SameShape ((m.mapCalls .pop).opened second res₂).env :=
    (m.mapCalls .pop).sameShape_opened second res₂
  have renumbered := fun c (hc : c ∈ m.closures.closures) =>
    c.rename_renumber (rooted.identities hc)
  exact {
    top := same.top.trans related.top
    top' := related.top'
    entered := related.entered.trans same.entered.symm
    store := (pads_second composes related rooted agreement hroot).weaken fun _ _ _ _ => trivial
    closures := related.closures.trans
      (Array.map_congr_left fun c hc => (renumbered c hc).1.symm)
    properClosures := fun c hc => (renumbered c hc).2
    methods := related.methods
    -- only the frame of the program is left, and the numbering starts anew with it
    frames := by
      rw [related.frames, rooted.frames]
      change _ = Frame.rename _ _ :: m.calls.frames.tail.map _
      rw [rooted.frames, Frame.rename]
      exact congrArg (fun id => [({ id, kind := .top, name := .empty } : Frame)])
        (FrameRenaming.renumber_self m.calls.nextId).symm
    properFrames := by
      intro frame hframe
      change frame ∈ _ :: m.calls.frames.tail at hframe
      rw [rooted.frames] at hframe
      obtain rfl := List.mem_singleton.mp hframe
      exact ⟨Nat.ne_of_gt rooted.positive, fun id hid => absurd hid (Option.not_mem_none id),
        fun id hid => absurd hid (Option.not_mem_none id)⟩
    limit := related.limit
    -- the second program has taken one identity more than the sequence
    fresh := fun k => by
      have hshift : m'.calls.nextId = m.calls.nextId := (FrameId.mk.inj (related.fresh 0).2).symm
      refine ⟨Nat.ne_of_gt (Nat.lt_of_lt_of_le (Nat.succ_pos _) (Nat.le_add_right _ k)), ?_⟩
      rw [hshift]
      exact FrameRenaming.renumber_later m.calls.nextId k
    left := rfl
    right := related.right
    roots := fun s hs hne => by
      rw [same.top] at hne
      rw [ScopeStore.isOwning_of_shape_eq same.shape] at hs
      rw [related.roots s hs hne]
      exact (congrArg (Option.bind · Activation.root) (if_neg hne)).symm }

end Second

theorem Slots.observe_after {entries : Assoc NodeId Walk} {root : NodeId} (g : Ledger)
    (events : List Event) :
    (regime program res entries root).contract.observe g events = g.after events := by
  have hnote : (regime program res entries root).contract.note =
      (Ledger.regime : Regime Ledger).contract.note := rfl
  exact Contract.observe_congr hnote g events

/-- After its first statement, the walk over the sequence stands at its root as before. -/
theorem Slots.here_between (hwhole : program.nodes.node? whole = some (.seq [first, second]))
    (resolved : resolve program.nodes whole (Machine.initial policy locals).env.topBindings.keys =
      .ok res)
    (tree : program.nodes.IsTree whole) (room : (Machine.initial policy locals).calls.HasRoom)
    {ending : Ending Value} {m : Machine}
    (hperform : program.perform fuel (.node first) ((Machine.initial policy locals).opened whole res) =
      some (ending, m)) :
    let g := (Ledger.blank.opened (.initial policy locals) whole res).after
      (program.record fuel (.node first) ((Machine.initial policy locals).opened whole res))
    (regimeOf program whole (Machine.initial policy locals).env.topBindings.keys res).here g whole m ∧
      g.root? m.env.top = some whole := by
  have hcallable : program.nodes.callable? whole = none := by
    rw [NodeTable.callable?, hwhole]
    rfl
  have laws := lawful_regimeOf resolved tree hcallable
  have here := here_opened resolved tree hcallable room
  obtain ⟨hstep, -⟩ := laws.kept.post_of_perform (.node first)
    (laws.nodes.operand here hwhole List.mem_cons_self) hperform
  rw [observe_after] at hstep
  have hroot := Ledger.root?_opened Ledger.blank (.initial policy locals) whole res
  refine ⟨laws.steps.here hstep here, ?_⟩
  rw [hstep.1.grows.top, ← hroot, Ledger.root?, Ledger.root?]
  exact congrArg (Option.bind · Activation.root)
    (hstep.1.agree _ (ScopeStore.isOwning_lt here.1.accurate.top))

/-- The conditions on the sequence hold along its second statement. -/
theorem Coupling.along_sequence (hwhole : program.nodes.node? whole = some (.seq [first, second]))
    (resolved : resolve program.nodes whole (Machine.initial policy locals).env.topBindings.keys =
      .ok res)
    (tree : program.nodes.IsTree whole) {g : Ledger} {m : Machine}
    (here : (Slots.regimeOf program whole (Machine.initial policy locals).env.topBindings.keys
      res).here g whole m) :
    Ledger.Along
      (SequencePre program whole (Machine.initial policy locals).env.topBindings.keys res) g
      (program.record fuel (.node second) m) := by
  have hcallable : program.nodes.callable? whole = none := by
    rw [NodeTable.callable?, hwhole]
    rfl
  have laws := Slots.lawful_regimeOf resolved tree hcallable
  exact Ledger.along_of_admits rfl (laws.kept.admits_record (.node second)
    (laws.nodes.operand here hwhole (List.mem_cons_of_mem _ List.mem_cons_self)))

/-- The ledger after the first program on a machine. -/
theorem Ledger.of_evaluation_opened {root : NodeId} {m : Machine}
    (resolved : resolve program.nodes root m.env.topBindings.keys = .ok res)
    (room : m.calls.HasRoom) :
    Ledger.of (program.evaluation (fuel + 1) root m) =
      (Ledger.blank.opened m root res).after (program.record fuel (.node root) (m.opened root res)) := by
  change Ledger.blank.after _ = _
  rw [Program.evaluation_opened resolved room]
  change (Ledger.blank.opened m root res).after (_ ++ _) = _
  rw [Ledger.after_append, Ledger.after_departure]

/-- The conditions on the second part hold along its run when none of its tasks needs to know about
the first part. -/
theorem Coupling.along_second {m : Machine}
    (resolved₂ : resolve program.nodes second m.env.topBindings.keys = .ok res₂)
    (room : m.calls.HasRoom) {g : Ledger}
    (indifferent : Ledger.Along (Task.IsIndifferent program.nodes res (program.nodes.tree first)) g
      (program.evaluation (fuel + 1) second m)) :
    Ledger.Along (SecondPre program first second res) (g.opened m second res₂)
      (program.record fuel (.node second) (m.opened second res₂)) := by
  rw [Program.evaluation_opened resolved₂ room] at indifferent
  exact (Ledger.along_append.mp indifferent.2).1.mono fun g task m' hmem h =>
    ⟨h, fun hcallable => Slots.enter_of_record_callable hcallable hmem⟩

/-- The second program is told the names that the first one owns. -/
theorem mem_keys_second {value : Value} {m : Machine}
    (resolved₁ : resolve program.nodes first (Machine.initial policy locals).env.topBindings.keys =
      .ok res₁)
    (tree : program.nodes.IsTree first) (room : (Machine.initial policy locals).calls.HasRoom)
    (hperform : program.perform fuel (.node first)
      ((Machine.initial policy locals).opened first res₁) = some (.ok value, m))
    (named : m.env.store.binds m.env.top .empty = false) (name : Name) :
    name ∈ m.env.topBindings.keys ↔ name ∈ res₁.ownedNames first := by
  obtain ⟨bound, owned⟩ := Slots.binds_top_of_perform resolved₁ tree room hperform name
  rw [Environment.mem_keys_topBindings]
  refine ⟨fun hbinds => owned ?_ hbinds, bound⟩
  rw [Bool.eq_false_iff, ne_eq, Name.isEmpty_iff]
  rintro rfl
  exact Bool.false_ne_true (named.symm.trans hbinds)

/-- When the first program has ended in a value, its second part ends as the second statement of the
sequence does. -/
theorem Coupling.perform_second
    (composes : Resolution.Composes program.nodes first second whole res₁ res₂ res)
    (hwhole : program.nodes.node? whole = some (.seq [first, second]))
    (tree : program.nodes.IsTree whole) (tree₁ : program.nodes.IsTree first)
    (room : (Machine.initial policy locals).calls.HasRoom)
    (resolved : resolve program.nodes whole (Machine.initial policy locals).env.topBindings.keys =
      .ok res)
    (resolved₁ : resolve program.nodes first (Machine.initial policy locals).env.topBindings.keys =
      .ok res₁)
    {value : Value} {m : Machine}
    (hperform : program.perform fuel (.node first)
      ((Machine.initial policy locals).opened first res₁) = some (.ok value, m))
    (resolved₂ : resolve program.nodes second m.env.topBindings.keys = .ok res₂)
    (indifferent : Ledger.Along (Task.IsIndifferent program.nodes res (program.nodes.tree first))
      (.of (program.evaluation (fuel + 1) first (.initial policy locals)))
      (program.evaluation (fuel + 1) second (m.mapCalls .pop))) :
    ∃ m' g g', program.perform fuel (.node first) ((Machine.initial policy locals).opened whole res) =
        some (.ok value, m') ∧
      (ofSecond (Machine.initial policy locals).env.top m.calls.nextId (program.nodes.tree first) res₂
        res).SameResult g g'
        (program.perform fuel (.node second) ((m.mapCalls .pop).opened second res₂))
        (program.perform fuel (.node second) m') := by
  obtain ⟨m', hperform', related⟩ := perform_first composes resolved₁ tree₁ room hperform
  have rooted := Ledger.rooted_of_perform room hperform
  have room' := (Program.grows_of_eval hperform).hasRoom_pop room
  -- the sequence has come to its second statement, which is coupled to the second program
  obtain ⟨here, hroot⟩ := Slots.here_between hwhole resolved tree room hperform'
  have start := related_second composes related rooted here.2.1 hroot
  have proper : (Task.node second).Proper
      (ofSecond (Machine.initial policy locals).env.top m.calls.nextId (program.nodes.tree first) res₂
        res).ids := trivial
  rw [Ledger.of_evaluation_opened resolved₁ room] at indifferent
  have same := (lawful_ofSecond composes hwhole tree resolved resolved₁ resolved₂).perform start
    proper (along_second (m := m.mapCalls .pop) resolved₂ room' indifferent)
    (along_sequence hwhole resolved tree here)
  exact ⟨m', _, _, hperform', same⟩

end Parts

/-- The exit by which a task is left. -/
def Event.exit? : Event → Option Exit
  | enter _ _ => none
  | leave _ (.ok _) _ => none
  | leave _ (.error e) _ => some e

theorem exists_ok {ε α : Type} {x : Except ε α} (h : x.toOption.isSome = true) :
    ∃ a, x = .ok a := by
  cases x with
  | error e => cases h
  | ok a => exact ⟨a, rfl⟩

theorem exists_error {ε α : Type} {x : Except ε α} (h : x.toOption.isSome = false) :
    ∃ e, x = .error e := by
  cases x with
  | error e => exact ⟨e, rfl⟩
  | ok a => cases h

namespace Program

/-- Of two programs that are evaluated one after the other on a new machine, where the first one
ends in a value and not by a `return`, the second one ends as the sequence of both does, and leaves
the same locals.  For this, the second program may not have a local of a callable of the first one
read before it is assigned, or taken for an outer local, and no local may be left under the empty
name. -/
theorem parts_give_whole (program : Program) (fuel : Nat) {first second whole : NodeId}
    (policy : DepthPolicy) (locals : List (Name × Value))
    (hwhole : program.nodes.node? whole = some (.seq [first, second]))
    (below₁ : first.index < whole.index) (below₂ : second.index < whole.index)
    (tree : program.nodes.IsTree whole) {value : Value} {m : Machine}
    (hfirst : program.evaluateWith fuel first (.initial policy locals) = some (.ok value, m))
    (falls : ∀ target value m', .leave (.node first) (.error (.returnTo target value)) m' ∉
      program.evaluation fuel first (.initial policy locals))
    {res₂ : Resolution} (resolved₂ : resolve program.nodes second m.env.topBindings.keys = .ok res₂)
    (named : m.env.store.binds m.env.top .empty = false)
    (indifferent : ∀ res,
      resolve program.nodes whole (Machine.initial policy locals).env.topBindings.keys = .ok res →
      Ledger.Along (Task.IsIndifferent program.nodes res (program.nodes.tree first))
        (.of (program.evaluation fuel first (.initial policy locals)))
        (program.evaluation fuel second m)) :
    Option.Rel EndAlike (program.evaluateWith fuel second m)
      (program.evaluateWith (fuel + 1) whole (.initial policy locals)) := by
  obtain ⟨below, res₁, ending, m₁, rfl, resolved₁, room, hperform, hclose⟩ := exists_opened hfirst
  obtain ⟨hending, rfl⟩ := of_close_eq_ok hclose
  have hleave := mem_evaluation_opened resolved₁ room
    (List.mem_of_getLast? (getLast?_record hperform))
  -- a return would end the sequence as well as the first program
  obtain rfl : ending = .ok value := hending.resolve_right fun heq => by
    rw [heq] at hleave
    exact falls _ _ _ hleave
  -- the second program is told what the first one owns, so the sequence is resolved like its parts
  have tree₁ := isTree_first hwhole below₁ tree resolved₁
  have hkeys := mem_keys_second resolved₁ tree₁ room hperform named
  obtain ⟨res, resolved⟩ := exists_resolved hwhole below₁ below₂ resolved₁ resolved₂ hkeys
  have composes := Resolution.composes hwhole tree resolved resolved₁ resolved₂ hkeys
  obtain ⟨m', g, g', hfirst', same⟩ := Coupling.perform_second composes hwhole tree tree₁ room
    resolved resolved₁ hperform resolved₂ (indifferent res resolved)
  rw [evaluateWith_opened resolved₂ ((grows_of_eval hperform).hasRoom_pop room),
    evaluateWith_opened resolved room, perform_sequence hwhole hfirst']
  have occurs : (FrameRenaming.renumber m₁.calls.nextId).Occurs ⟨m₁.calls.nextId⟩ :=
    Nat.ne_of_gt (grows_of_eval hperform).nextId
  have results := same.close (fun _ _ => .inl rfl) program occurs
  rwa [show (Coupling.ofSecond _ m₁.calls.nextId _ res₂ res).ids.new ⟨m₁.calls.nextId⟩ = ⟨0⟩ from
    FrameRenaming.renumber_self _] at results

/-- The programs `def k; 5; end; def m(a = k); x = a; x; end; w = 2; f = lambda { |b| w = b; w }`
and `m(7); f.call(m)`, and the sequence of both. -/
def remembering : Program where
  names := .initial
  nodes := ⟨#[.int 5, .define ⟨34⟩ [] ⟨0⟩, .ident ⟨34⟩, .ident ⟨36⟩, .assign ⟨37⟩ [.plain ⟨3⟩],
    .ident ⟨37⟩, .seq [⟨4⟩, ⟨5⟩], .define ⟨35⟩ [⟨⟨36⟩, .optional ⟨2⟩⟩] ⟨6⟩,
    .int 2, .assign ⟨38⟩ [.plain ⟨8⟩], .ident ⟨40⟩, .assign ⟨38⟩ [.plain ⟨10⟩], .ident ⟨38⟩,
    .seq [⟨11⟩, ⟨12⟩], .lambda [⟨⟨40⟩, .required⟩] ⟨13⟩, .assign ⟨39⟩ [.plain ⟨14⟩],
    .seq [⟨1⟩, ⟨7⟩, ⟨9⟩, ⟨15⟩],
    .int 7, .call ⟨35⟩ [.positional ⟨17⟩] none, .ident ⟨39⟩, .call ⟨35⟩ [] none,
    .callValue ⟨19⟩ [.positional ⟨20⟩] none, .seq [⟨18⟩, ⟨21⟩], .seq [⟨16⟩, ⟨22⟩]]⟩

/-- Methods of the first program serve the second one, one with a fallback and a local that is
assigned before it is read, and so do a closure and a local that it assigns. -/
theorem remembering_parts_give_whole :
    ∃ value m result result', remembering.evaluateWith 12 ⟨16⟩ (.initial .unlimited []) =
        some (.ok value, m) ∧
      remembering.evaluateWith 12 ⟨22⟩ m = some result ∧ result.1.toOption.isSome = true ∧
      remembering.evaluateWith 13 ⟨23⟩ (.initial .unlimited []) = some result' ∧
      EndAlike result result' := by
  have falls : ∀ event ∈ remembering.evaluation 12 ⟨16⟩ (.initial .unlimited []),
      event.exit?.bind Exit.signal? ≠ some .return := by decide +kernel
  have run : ∃ first ∈ remembering.evaluateWith 12 ⟨16⟩ (.initial .unlimited []),
      first.1.toOption.isSome = true ∧
        first.2.env.store.binds first.2.env.top .empty = false ∧
        (resolve remembering.nodes ⟨22⟩ first.2.env.topBindings.keys).toOption.isSome = true ∧
        (∀ res ∈ (resolve remembering.nodes ⟨23⟩
            (Machine.initial .unlimited []).env.topBindings.keys).toOption,
          Ledger.Along (Task.IsIndifferent remembering.nodes res (remembering.nodes.tree ⟨16⟩))
            (.of (remembering.evaluation 12 ⟨16⟩ (.initial .unlimited [])))
            (remembering.evaluation 12 ⟨22⟩ first.2)) ∧
        ∃ second ∈ remembering.evaluateWith 12 ⟨22⟩ first.2, second.1.toOption.isSome = true := by
    decide +kernel
  obtain ⟨⟨ending, m⟩, hfirst, hok, named, hres, indifferent, result, hresult, hvalue⟩ := run
  obtain ⟨value, rfl⟩ := exists_ok hok
  obtain ⟨res₂, resolved₂⟩ := exists_ok hres
  have hnode : remembering.nodes.node? ⟨23⟩ = some (.seq [⟨16⟩, ⟨22⟩]) := rfl
  have parts := remembering.parts_give_whole 12 .unlimited [] hnode (by decide) (by decide)
    (by decide +kernel) hfirst (fun target value' m' hmem => falls _ hmem rfl) resolved₂ named
    fun res resolved => indifferent res (by rw [resolved]; rfl)
  rw [hresult] at parts
  cases hwhole : remembering.evaluateWith 13 ⟨23⟩ (.initial .unlimited []) with
  | none =>
    rw [hwhole] at parts
    cases parts
  | some result' =>
    rw [hwhole] at parts
    obtain alike | _ := parts
    exact ⟨value, m, result, result', hfirst, hresult, hvalue, rfl, alike⟩

/-- The programs `def m; if false then x = 1 end; x end` and `m`, and the sequence of both. -/
def forgetful : Program where
  names := .initial
  nodes := ⟨#[.bool false, .int 1, .assign ⟨35⟩ [.plain ⟨1⟩], .cond ⟨0⟩ ⟨2⟩ none, .ident ⟨35⟩,
    .seq [⟨3⟩, ⟨4⟩], .define ⟨34⟩ [] ⟨5⟩, .call ⟨34⟩ [] none, .seq [⟨6⟩, ⟨7⟩]]⟩

/-- The local of a method from an earlier program is not bound to nil: the second program ends in an
error and the sequence in a value. -/
theorem forgetful_parts_differ :
    forgetful.nodes.node? ⟨8⟩ = some (.seq [⟨6⟩, ⟨7⟩]) ∧ forgetful.nodes.IsTree ⟨8⟩ ∧
    (∀ target value m, .leave (.node ⟨6⟩) (.error (.returnTo target value)) m ∉
      forgetful.evaluation 9 ⟨6⟩ (.initial .unlimited [])) ∧
    ∃ value m res e m₂ value' m', forgetful.evaluateWith 9 ⟨6⟩ (.initial .unlimited []) =
        some (.ok value, m) ∧
      resolve forgetful.nodes ⟨7⟩ m.env.topBindings.keys = .ok res ∧
      forgetful.evaluateWith 9 ⟨7⟩ m = some (.error e, m₂) ∧
      forgetful.evaluateWith 10 ⟨8⟩ (.initial .unlimited []) = some (.ok value', m') := by
  have falls : ∀ event ∈ forgetful.evaluation 9 ⟨6⟩ (.initial .unlimited []),
      event.exit?.bind Exit.signal? ≠ some .return := by decide +kernel
  have run : ∃ first ∈ forgetful.evaluateWith 9 ⟨6⟩ (.initial .unlimited []),
      first.1.toOption.isSome = true ∧
        (resolve forgetful.nodes ⟨7⟩ first.2.env.topBindings.keys).toOption.isSome = true ∧
        (∃ second ∈ forgetful.evaluateWith 9 ⟨7⟩ first.2, second.1.toOption.isSome = false) ∧
        ∃ whole ∈ forgetful.evaluateWith 10 ⟨8⟩ (.initial .unlimited []),
          whole.1.toOption.isSome = true := by decide +kernel
  obtain ⟨⟨ending, m⟩, hfirst, hok, hres, ⟨⟨ending₂, m₂⟩, hsecond, herror⟩, ⟨ending', m'⟩, hwhole,
    hok'⟩ := run
  obtain ⟨value, rfl⟩ := exists_ok hok
  obtain ⟨res, resolved⟩ := exists_ok hres
  obtain ⟨e, rfl⟩ := exists_error herror
  obtain ⟨value', rfl⟩ := exists_ok hok'
  exact ⟨rfl, by decide +kernel, fun target value m hmem => falls _ hmem rfl, value, m, res, e, m₂,
    value', m', hfirst, resolved, hsecond, hwhole⟩

end Program

end ScriptSemantics
