import ScriptSemantics.Proofs.PairedConstructs

/-!
# Runs in lock step

Coupled machines stay coupled while they perform the same task, as long as they agree on the locals
that are read and stored on the way and on the names that are bound when an activation begins.

## Main Definitions

* `Ledger.after`, `Ledger.Along` — the ledger after some events, and conditions at each of them
* `Coupling.Lawful` — the conditions make the machines agree

## Main Results

* `Coupling.Lawful.perform` — a task ends in the same way on both machines, and they are coupled in
  the end
-/

namespace ScriptSemantics

/-! ### Conditions along a run -/

namespace Ledger

/-- The ledger after some events. -/
def after (g : Ledger) (events : List Event) : Ledger :=
  regime.contract.observe g events

/-- A condition holds whenever a task is entered. -/
def Along (Q : Ledger → Task → Machine → Prop) : Ledger → List Event → Prop
  | _, [] => True
  | g, .enter task m :: rest => Q g task m ∧ Along Q (g.note task m) rest
  | g, .leave .. :: rest => Along Q g rest

variable {Q : Ledger → Task → Machine → Prop}

instance decidableAlong [∀ g task m, Decidable (Q g task m)] :
    ∀ (g : Ledger) (events : List Event), Decidable (Along Q g events)
  | _, [] => .isTrue trivial
  | g, .enter task m :: rest =>
    have := decidableAlong (g.note task m) rest
    inferInstanceAs (Decidable (Q g task m ∧ Along Q (g.note task m) rest))
  | g, .leave .. :: rest => decidableAlong g rest

theorem after_append (g : Ledger) (xs ys : List Event) :
    g.after (xs ++ ys) = (g.after xs).after ys :=
  regime.contract.observe_append g xs ys

theorem along_append {g : Ledger} {xs ys : List Event} :
    Along Q g (xs ++ ys) ↔ Along Q g xs ∧ Along Q (g.after xs) ys := by
  induction xs generalizing g with
  | nil => exact (iff_of_eq (true_and _)).symm
  | cons event rest ih =>
    cases event with
    | enter task m =>
      rw [List.cons_append, Along, Along, ih, and_assoc]
      rfl
    | leave task ending m => exact ih

theorem after_departure (g : Ledger) (task : Task) (result : Option (Ending Value × Machine)) :
    g.after (Program.departure task result) = g := by
  cases result <;> rfl

/-- A contract that takes the notes of the ledger holds along a list that it admits. -/
theorem along_of_admits {C : Contract Ledger} (hnote : C.note = Ledger.note) {g : Ledger}
    {events : List Event} (h : C.Admits g events) : Along C.pre g events := by
  induction events generalizing g with
  | nil => trivial
  | cons event rest ih =>
    cases event with
    | enter task m =>
      refine ⟨h.1, ih ?_⟩
      rw [← hnote]
      exact h.2
    | leave task ending m => exact ih h.2

theorem along_of_forall {g : Ledger} {events : List Event}
    (h : ∀ (i : Nat) task m, events[i]? = some (.enter task m) → Q (g.after (events.take i)) task m) :
    Along Q g events := by
  induction events generalizing g with
  | nil => trivial
  | cons event rest ih =>
    cases event with
    | enter task m =>
      exact ⟨h 0 task m rfl, ih fun i task m hi => h (i + 1) task m hi⟩
    | leave task ending m => exact ih fun i task m hi => h (i + 1) task m hi

theorem Along.mono {R : Ledger → Task → Machine → Prop} {g : Ledger} {events : List Event}
    (h : Along Q g events) (weaker : ∀ g task m, .enter task m ∈ events → Q g task m → R g task m) :
    Along R g events := by
  induction events generalizing g with
  | nil => trivial
  | cons event rest ih =>
    cases event with
    | enter task m =>
      exact ⟨weaker g task m List.mem_cons_self h.1,
        ih h.2 fun g task m hmem => weaker g task m (List.mem_cons_of_mem _ hmem)⟩
    | leave task ending m => exact ih h fun g task m hmem => weaker g task m (List.mem_cons_of_mem _ hmem)

end Ledger

/-! ### Going into activations -/

namespace Coupling

variable {C : Coupling} {program : Program} {g g' : Ledger} {m m' : Machine} {task : Task}
  {frame : Frame} {parent : Option ScopeId} {code : Option Code}

/-- Both machines go into an activation, or the frame is refused by both. -/
theorem Related.activate (related : C.Related g m g' m') (opens : task.Opens m frame parent code)
    (proper : task.Proper C.ids) :
    match m.calls.push frame with
    | .ok calls => ∃ calls', m'.calls.push (frame.rename C.ids) = .ok calls' ∧
        C.Related (g.note task m) (m.activate calls parent)
          (g'.note (task.rename C.ids) m') (m'.activate calls' parent)
    | .error cause => m'.calls.push (frame.rename C.ids) = .error cause := by
  have depth : m'.calls.depth = m.calls.depth := by
    rw [CallStack.depth, CallStack.depth, related.frames, List.length_map]
  rw [CallStack.push_congr related.limit depth frame (frame.rename C.ids)]
  cases hpush : m.calls.push frame with
  | error cause => rfl
  | ok calls =>
    refine ⟨_, rfl, ?_⟩
    have noted := related.note task opens.ne_program
    have opens' := related.opens opens
    rw [CallStack.push_eq hpush]
    refine { noted with
      entered := ?_, store := noted.store.add .owning parent, frames := ?_, properFrames := ?_
      roots := fun s howning hne => ?_ }
    · change ⟨m'.env.store.size⟩ :: m'.env.entered = ⟨m.env.store.size⟩ :: m.env.entered
      rw [related.size_eq, related.entered]
    · exact congrArg (_ :: ·) related.frames
    · intro other hother
      rcases List.mem_cons.mp hother with rfl | hother
      · exact related.proper_opens opens proper
      · exact related.properFrames other hother
    · by_cases hlt : s.index < m.env.store.size
      · refine noted.roots s ?_ hne
        rwa [← (ScopeStore.extends_add m.env.store .owning parent).isOwning hlt]
      · obtain ⟨rfl, -⟩ := ScopeStore.eq_of_size_le (Nat.le_of_not_lt hlt) howning
        rw [Slots.root?_note opens, ← related.size_eq, Slots.root?_note opens']

/-- Both machines bind the names that a scope root owns. -/
theorem Related.declareOwned (related : C.Related g m g' m') {root : NodeId}
    (howning : m.env.store.isOwning m.env.current = true)
    (hroot : g.root? m.env.current = some root)
    (sub : C.left.ownedNames root ⊆ C.right.ownedNames root)
    (hfull : ∀ name ∈ C.right.ownedNames root, C.full (some root) m.env.current name →
      name ∈ C.left.ownedNames root) :
    C.Related g (m.declareOwned root) g' (m'.declareOwned root) := by
  rw [Machine.declareOwned, Machine.declareOwned, related.left, related.right]
  have same := Environment.sameShape_declareAll m.env (C.left.ownedNames root)
  have same' := Environment.sameShape_declareAll m'.env (C.right.ownedNames root)
  refine { related with
    top := same.top.trans related.top, top' := same'.top.trans related.top'
    entered := ?_, store := ?_, roots := fun s hs hne => ?_ }
  · exact same'.entered.trans (related.entered.trans same.entered.symm)
  · refine Environment.pads_declareAll related.store related.current howning sub ?_
    intro name hname hfulls
    rw [hroot] at hfulls
    exact .inl (hfull name hname hfulls)
  · refine related.roots s ?_ (same.top ▸ hne)
    rwa [← ScopeStore.isOwning_of_shape_eq same.shape]

theorem Related.deactivate (related : C.Related g m g' m') :
    C.Related g m.deactivate g' m'.deactivate where
  __ := related
  entered := congrArg List.tail related.entered
  frames := by
    change m'.calls.frames.tail = m.calls.frames.tail.map _
    rw [related.frames, List.map_tail]
  properFrames frame hframe := related.properFrames frame (List.mem_of_mem_tail hframe)

/-- An activation goes in lock step when its body does. -/
theorem matches_inFrame (related : C.Related g m g' m') (opens : task.Opens m frame parent code)
    (proper : task.Proper C.ids) {names : NameTable}
    {catching catching' : Ending Value → Ending Value} (catches : C.ids.Respects catching catching')
    {x x' : Comp Value}
    (body : ∀ calls calls', C.Related (g.note task m) (m.activate calls parent)
        (g'.note (task.rename C.ids) m') (m'.activate calls' parent) →
      (x (m.activate calls parent)).Matches C C.Ends (x' (m'.activate calls' parent))
        (g.note task m) (g'.note (task.rename C.ids) m')) :
    (Comp.mapEnding (fun _ => catching) (Comp.inFrame names frame parent x) m).Matches C C.Ends
      (Comp.mapEnding (fun _ => catching') (Comp.inFrame names (frame.rename C.ids) parent x') m')
      (g.note task m) (g'.note (task.rename C.ids) m') := by
  refine Work.Matches.andThen ?_
  have hpush := related.activate opens proper
  rw [Comp.inFrame, Comp.inFrame, Comp.withFrame, Comp.withFrame]
  cases hcase : m.calls.push frame with
  | error cause =>
    rw [hcase] at hpush
    rw [hpush]
    obtain ⟨heq, hproper⟩ := catches (.error (.error { cause })) trivial
    exact ⟨related.note task opens.ne_program, hproper, heq⟩
  | ok calls =>
    rw [hcase] at hpush
    obtain ⟨calls', hcase', hactivated⟩ := hpush
    rw [hcase']
    refine Work.Matches.andThen (Work.Matches.andThen ((body calls calls' hactivated).mono ?_))
    rintro g₁ ending m₁ g₁' ending' m₁' ⟨hrelated, hproper, rfl⟩
    obtain ⟨heq, hproper⟩ := C.ids.respects_recordFrames names hrelated.frames ending hproper
    rw [heq]
    obtain ⟨heq, hproper⟩ := catches _ hproper
    exact ⟨hrelated.deactivate, hproper, heq⟩

/-! ### Bodies -/

theorem pairs_bindParams (block : Option ProcId) (plan : BindPlan) :
    C.Pairs (Comp.bindParams block plan) (Comp.bindParams block plan) := by
  induction plan with
  | nil => exact .pure _
  | cons param rest ih =>
    have received : C.Pairs (Comp.binding block param.binding)
        (Comp.binding block param.binding) := by
      cases param.binding with
      | value value => exact .pure _
      | fallback expr => exact .eval expr
      | block => exact .pure _
    refine .bind received fun value => .bind ?_ fun _ => ih
    rw [Comp.defineParam]
    split
    · exact .pure _
    · exact .modify fun _ _ _ _ related => related.defineLocal param.name value

theorem pairs_runBody (body : NodeId) (fuel : Nat) :
    C.Pairs (Comp.runBody body fuel) (Comp.runBody body fuel) := by
  induction fuel with
  | zero => exact .outOfFuel
  | succ fuel ih =>
    refine .attempt_bind (.eval body) fun ending hending => ?_
    rcases ending with e | value
    · cases e with
      | redo => exact ih
      | next value => exact .pure value
      | breakTo target value => cases target <;> exact .settle _ hending
      | _ => exact .settle _ hending
    · exact .settle (.ok value) trivial

theorem pairs_repeatBlock (block : ProcId) (rounds : Nat) :
    C.Pairs (Comp.repeatBlock block rounds) (Comp.repeatBlock block rounds) := by
  induction rounds with
  | zero => exact .outOfFuel
  | succ rounds ih =>
    exact .allocate_bind fun id hid =>
      .bind (.perform (.closure block id {} none) hid) fun _ => ih

/-! ### Tasks -/

/-- Under conditions on the entering of tasks, coupled machines agree on the locals that are read
and stored, and bind the same names at the beginning of an activation where the first one is
full. -/
structure Lawful (C : Coupling) (program : Program) (Q Q' : Ledger → Task → Machine → Prop) :
    Prop where
  agrees : ∀ {g m g' m' id}, C.Related g m g' m' → Q g (.node id) m → Q' g' (.node id) m' →
    AgreesAt program id m m'
  target : ∀ {g m g' m' site name value}, C.Related g m g' m' → Q g (.store site name value) m →
    Q' g' (.store site name value) m' → m'.env.target name = m.env.target name
  owned : ∀ {g m g' m' task frame parent code}, C.Related g m g' m' → Q g task m →
    Q' g' (task.rename C.ids) m' → task.Opens m frame parent (some code) →
    C.left.ownedNames code.root ⊆ C.right.ownedNames code.root ∧
      ∀ name ∈ C.right.ownedNames code.root, C.full (some code.root) ⟨m.env.store.size⟩ name →
        name ∈ C.left.ownedNames code.root

section Tasks

variable {Q Q' : Ledger → Task → Machine → Prop} (laws : C.Lawful program Q Q')

include laws

/-- The body of an activation goes in lock step after the names that it owns are declared and its
parameters are bound. -/
theorem matches_body {code : Code} (related : C.Related g m g' m') (hpre : Q g task m)
    (hpre' : Q' g' (task.rename C.ids) m') (opens : task.Opens m frame parent (some code))
    {calls calls' : CallStack} (activated : C.Related (g.note task m) (m.activate calls parent)
      (g'.note (task.rename C.ids) m') (m'.activate calls' parent))
    {plan : BindPlan} {block : Option ProcId} {x : Comp Value} (hx : C.Pairs x x) :
    ((do
      Comp.modify (·.declareOwned code.root)
      Comp.bindParams block plan
      x : Comp Value) (m.activate calls parent)).Matches C C.Ends
    ((do
      Comp.modify (·.declareOwned code.root)
      Comp.bindParams block plan
      x : Comp Value) (m'.activate calls' parent))
      (g.note task m) (g'.note (task.rename C.ids) m') := by
  obtain ⟨sub, hfull⟩ := laws.owned related hpre hpre' opens
  have howning : (m.activate calls parent).env.store.isOwning
      (m.activate calls parent).env.current = true :=
    ScopeStore.isOwning_added m.env.store .owning parent
  have declared := activated.declareOwned howning (Slots.root?_note opens) sub hfull
  exact Pairs.bind (pairs_bindParams block plan) (fun _ => hx) _ _ _ _ declared

theorem matches_runMethod {callee : Method} {id : FrameId} {given : CallArgs}
    {block : Option ProcId} (related : C.Related g m g' m') (hid : C.ids.Occurs id)
    (hpre : Q g (.method callee id given block) m)
    (hpre' : Q' g' (.method callee (C.ids.new id) given block) m') :
    (Comp.runMethod program.names callee id given block m).Matches C C.Ends
      (Comp.runMethod program.names callee (C.ids.new id) given block m')
      (g.note (.method callee id given block) m)
      (g'.note (.method callee (C.ids.new id) given block) m') := by
  have opens := Task.Opens.method (m := m) callee id given block
  rw [Comp.runMethod, Comp.runMethod]
  cases hplan : BindPlan.make program.names callee.params .strict given with
  | error cause => exact ⟨related.note _ opens.ne_program, trivial, rfl⟩
  | ok plan =>
    refine matches_inFrame related opens hid
      ((FrameRenaming.respects_catchBreak hid).comp (FrameRenaming.respects_catchReturn hid))
      fun calls calls' activated => ?_
    exact matches_body laws related hpre hpre' opens activated (.eval _)

theorem matches_runProc {fuel : Nat} {proc : ProcId} {id : FrameId} {given : CallArgs}
    {block : Option ProcId} (related : C.Related g m g' m') (hid : C.ids.Occurs id)
    (hpre : Q g (.closure proc id given block) m)
    (hpre' : Q' g' (.closure proc (C.ids.new id) given block) m') :
    (Comp.runProc program.names fuel proc id given block m).Matches C C.Ends
      (Comp.runProc program.names fuel proc (C.ids.new id) given block m')
      (g.note (.closure proc id given block) m)
      (g'.note (.closure proc (C.ids.new id) given block) m') := by
  rw [Comp.runProc, Comp.runProc, Comp.gets_bind, Comp.gets_bind, related.get?_closures]
  have noted := related.note (.closure proc id given block) (by simp)
  cases found : m.closures.get? proc with
  | none => exact ⟨noted, trivial, rfl⟩
  | some closure =>
    have opens := Task.Opens.closure proc id given block found
    have hparams : (closure.rename C.ids).params = closure.params := rfl
    have hlambda : (closure.rename C.ids).isLambda = closure.isLambda := rfl
    rw [Option.map_some]
    dsimp only
    rw [Comp.runClosure, Comp.runClosure, hparams, hlambda, Comp.closureFrame_rename]
    cases hplan : BindPlan.make program.names closure.params (.ofLambda closure.isLambda) given with
    | error cause => exact ⟨noted, trivial, rfl⟩
    | ok plan =>
      refine matches_inFrame related opens hid (FrameRenaming.respects_catchClosure hid)
        fun calls calls' activated => ?_
      exact matches_body laws related hpre hpre' opens activated (pairs_runBody _ _)

omit laws in
theorem matches_runLoop {fuel : Nat} {block : ProcId} {id : FrameId}
    (related : C.Related g m g' m') (hid : C.ids.Occurs id) :
    (Comp.runLoop program.names fuel block id m).Matches C C.Ends
      (Comp.runLoop program.names fuel block (C.ids.new id) m')
      (g.note (.loop block id) m) (g'.note (.loop block (C.ids.new id)) m') :=
  matches_inFrame related (Task.Opens.loop (m := m) block id) hid
    (FrameRenaming.respects_catchBreak hid)
    fun _ _ activated => pairs_repeatBlock block fuel _ _ _ _ activated

/-- The work of every task goes in lock step. -/
theorem matches_work (fuel : Nat) (related : C.Related g m g' m') (proper : task.Proper C.ids)
    (hpre : Q g task m) (hpre' : Q' g' (task.rename C.ids) m') :
    (task.work program fuel m).Matches C C.Ends ((task.rename C.ids).work program fuel m')
      (g.note task m) (g'.note (task.rename C.ids) m') := by
  cases task with
  | node id =>
    change (Task.work program fuel (.node id) m).Matches C C.Ends
      (Task.work program fuel (.node id) m') g g'
    rw [Task.work]
    cases hnode : program.nodes.node? id with
    | none => exact Pairs.fail _ g m g' m' related
    | some node => exact matches_node related fuel hnode (laws.agrees related hpre hpre')
  | store site name value =>
    exact ⟨related.assignLocal (laws.target related hpre hpre') value, trivial, rfl⟩
  | program root id => exact proper.elim
  | method callee id given block => exact matches_runMethod laws related proper hpre hpre'
  | closure proc id given block => exact matches_runProc laws related proper hpre hpre'
  | loop block id => exact matches_runLoop related proper

end Tasks

/-! ### Runs -/

variable {Q Q' : Ledger → Task → Machine → Prop}

/-- Two results are the same up to a coupling, after some events of each run. -/
def SameResult (C : Coupling) (g g' : Ledger) :
    Option (Ending Value × Machine) → Option (Ending Value × Machine) → Prop :=
  Option.Rel fun result result' => C.Ends g result.1 result.2 g' result'.1 result'.2

/-- Work in lock step ends in the same way when the tasks do that it asks for. -/
theorem sameResult_of_matches {fuel : Nat} {w w' : Work Value}
    (tasks : ∀ task g m g' m', C.Related g m g' m' → task.Proper C.ids →
      Ledger.Along Q g (program.record fuel task m) →
      Ledger.Along Q' g' (program.record fuel (task.rename C.ids) m') →
      C.SameResult (g.after (program.record fuel task m))
        (g'.after (program.record fuel (task.rename C.ids) m'))
        (program.perform fuel task m) (program.perform fuel (task.rename C.ids) m'))
    (h : w.Matches C C.Ends w' g g')
    (along : Ledger.Along Q g (w.events (program.perform fuel) (program.record fuel)))
    (along' : Ledger.Along Q' g' (w'.events (program.perform fuel) (program.record fuel))) :
    C.SameResult (g.after (w.events (program.perform fuel) (program.record fuel)))
      (g'.after (w'.events (program.perform fuel) (program.record fuel)))
      (w.run (program.perform fuel)) (w'.run (program.perform fuel)) := by
  induction w generalizing w' g g' with
  | done ending m =>
    cases w' with
    | done ending' m' => exact .some h
    | stuck | ask => exact h.elim
  | stuck =>
    cases w' with
    | stuck => exact .none
    | done | ask => exact h.elim
  | ask task m resume ih =>
    cases w' with
    | done | stuck => exact h.elim
    | ask task' m' resume' =>
      -- both machines ask for the same task up to renaming, so they go on alike after it
      obtain ⟨related, proper, rfl, hresume⟩ := h
      rw [Work.events, Ledger.along_append] at along along'
      have asked := tasks task g m g' m' related proper along.1 along'.1
      rw [Work.events, Work.events, Work.run, Work.run]
      generalize program.perform fuel task m = r, program.perform fuel (task.rename C.ids) m' = r'
        at asked along along' ⊢
      cases asked with
      | none => exact .none
      | @some result result' ends =>
        obtain ⟨ending, m₁⟩ := result
        obtain ⟨ending', m₁'⟩ := result'
        obtain ⟨hrelated, hproper, heq⟩ := ends
        obtain rfl : ending' = ending.rename C.ids := heq
        rw [Ledger.after_append, Ledger.after_append]
        exact ih ending m₁ (hresume _ _ _ _ _ hrelated hproper) along.2 along'.2

/-- Coupled machines perform a task in lock step when the conditions hold along both runs. -/
theorem Lawful.perform (laws : C.Lawful program Q Q') {fuel : Nat}
    (related : C.Related g m g' m') (proper : task.Proper C.ids)
    (along : Ledger.Along Q g (program.record fuel task m))
    (along' : Ledger.Along Q' g' (program.record fuel (task.rename C.ids) m')) :
    C.SameResult (g.after (program.record fuel task m))
      (g'.after (program.record fuel (task.rename C.ids) m'))
      (program.perform fuel task m) (program.perform fuel (task.rename C.ids) m') := by
  induction fuel generalizing task g m g' m' with
  | zero => exact .none
  | succ fuel ih =>
    rw [Program.record] at along along' ⊢
    rw [Program.record]
    obtain ⟨hpre, along⟩ := along
    obtain ⟨hpre', along'⟩ := along'
    rw [Ledger.along_append] at along along'
    change C.SameResult ((g.note task m).after (_ ++ _))
      ((g'.note (task.rename C.ids) m').after (_ ++ _)) _ _
    rw [Ledger.after_append, Ledger.after_append, Ledger.after_departure, Ledger.after_departure]
    exact sameResult_of_matches (fun _ _ _ _ _ => ih)
      (matches_work laws fuel related proper hpre hpre') along.1 along'.1

end Coupling

end ScriptSemantics
