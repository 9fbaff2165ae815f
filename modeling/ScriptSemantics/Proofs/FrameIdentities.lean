import ScriptSemantics.Proofs.AllottedEvents
import ScriptSemantics.Proofs.ProgramRoots
import Mathlib.Data.List.Triplewise

/-!
# Frame identities are never confused

At every event of a session, in which a host evaluates any number of programs on one machine, the
identities on the stack are in order and everything that is recorded of identities was given out.
Once an activation is over, its identity stays dead, and what is recorded of an identity speaks of
one activation only.

## Main Definitions

* `Event.Reaches` — the closures in reach at an event
* `Event.Records` — the identities that frames and closures name as targets of exits
* `Unconfused` — identities are not confused throughout some events

## Main Results

* `KeptApart.trace` — a frame on the stack was on it before or was entered meanwhile
* `Program.identities_are_never_confused` — identities are not confused in any session

## Design Notes

A call names its own identity in the block that is written at it, before its activation is on the
stack.  When the activation is entered the closure is handed over to it, and from then on it is in
reach.  So the event that enters an activation is the one event at which its identity may be on
record and not be on the stack yet.
-/

namespace ScriptSemantics

/-! ### What is recorded -/

namespace Event

/-- The closures in reach at an event: those that occur in bindings, the blocks of frames, the
blocks around closures in reach, and those that the task is given or hands on. -/
inductive Reaches (event : Event) : ProcId → Prop
  | binding {scope : ScopeId} {name : Name} {value : Value} {proc : ProcId}
      (bound : event.machine.env.store.binding? scope name = some value)
      (occurs : proc ∈ value.procs) : Reaches event proc
  | frame {frame : Frame} {proc : ProcId} (live : frame ∈ event.machine.calls.frames)
      (block : frame.block = some proc) : Reaches event proc
  | around {proc block : ProcId} {closure : Closure} (reached : Reaches event proc)
      (found : event.machine.closures.get? proc = some closure)
      (outer : closure.outerBlock = some block) : Reaches event block
  | handed {proc : ProcId} (given : proc ∈ event.procs) : Reaches event proc

/-- A frame names an identity as the target of a `return` or of a `break`, or a closure does that
was in reach at one of the events so far: it may be the value of an operand by now. -/
inductive Records (event : Event) (soFar : List Event) (id : FrameId) : Prop
  | frame {frame : Frame} (live : frame ∈ event.machine.calls.frames)
      (names : frame.home = some id ∨ frame.breakTag = some id) : Records event soFar id
  | closure {earlier : Event} {proc : ProcId} {closure : Closure} (was : earlier ∈ soFar)
      (reached : earlier.Reaches proc) (found : event.machine.closures.get? proc = some closure)
      (names : closure.home = some id ∨ closure.breakTag = some id) : Records event soFar id

variable {Q : FrameId → Prop} {event : Event} {id : FrameId}

theorem Keeps.knows {proc : ProcId} (h : event.Keeps Q) (reached : event.Reaches proc) :
    event.machine.Knows Q proc := by
  cases reached with
  | binding bound occurs => exact h.exposes.bindings _ _ _ bound _ occurs
  | frame live block => exact (h.exposes.frames _ live).block _ block
  | around _ found outer => exact h.exposes.closures _ _ found _ outer
  | handed given => exact h.procs _ given

/-- The activation with this identity is on the stack. -/
def IsLive (event : Event) (id : FrameId) : Prop :=
  event.machine.calls.isLive id = true

theorem isLive_iff : event.IsLive id ↔ ∃ core ∈ event.machine.cores, core.id = id := by
  rw [IsLive, CallStack.isLive_iff, Machine.cores]
  simp [Frame.core]

/-- What is on the stack is in reach. -/
theorem not_isLive_of_exposes (h : event.machine.Exposes (· ≠ id)) : ¬ event.IsLive id := by
  rw [IsLive, CallStack.isLive_iff]
  rintro ⟨frame, live, rfl⟩
  exact (h.frames frame live).names.id.2 rfl

end Event

/-- Identities are not confused throughout some events. -/
structure Unconfused (events : List Event) : Prop where
  /-- They increase from the bottom of the stack to its top.  Frames are listed innermost first. -/
  increasing : ∀ event ∈ events, (event.machine.calls.frames.map Frame.id).Pairwise
    fun inner outer => outer.index < inner.index
  /-- Those on the stack were given out. -/
  bounded : ∀ event ∈ events, ∀ frame ∈ event.machine.calls.frames,
    frame.id.index < event.machine.calls.nextId
  /-- Those that were given out stay so, and closures go on naming the same ones. -/
  growing : events.Pairwise fun event later => event.machine.Before later.machine
  /-- Those that are recorded were given out. -/
  recorded : ∀ (i : Nat) event, events[i]? = some event →
    ∀ id, event.Records (events.take (i + 1)) id → id.index < event.machine.calls.nextId
  /-- One that has left the stack is never on it again. -/
  popped : events.Triplewise fun first later last =>
    ∀ id, first.IsLive id → ¬ later.IsLive id → ¬ last.IsLive id
  /-- One that is recorded and not on the stack, nor entered at this event, is never on it again. -/
  dead : ∀ (i j : Nat) event later, events[i]? = some event → events[j]? = some later → i < j →
    ∀ id, event.Records (events.take (i + 1)) id → event.opened? ≠ some id →
      ¬ event.IsLive id → ¬ later.IsLive id
  /-- One that is on the stack twice denotes the same frame, whatever loops are running in it. -/
  same : events.Pairwise fun event later =>
    ∀ frame ∈ event.machine.calls.frames, ∀ frame' ∈ later.machine.calls.frames,
      frame'.id = frame.id → frame'.core = frame.core
  /-- No two activations are entered under the same one. -/
  once : events.Pairwise fun event later => ∀ id, event.opened? = some id → later.opened? ≠ some id
  /-- Whatever is on the stack was entered before. -/
  entered : ∀ (i : Nat) event, events[i]? = some event → ∀ frame ∈ event.machine.calls.frames,
    ∃ earlier ∈ events.take i, earlier.opened? = some frame.id

/-! ### Frames over time -/

namespace KeptApart

variable {events : List Event} {i j : Nat} {frame : Frame} {id : FrameId}

/-- A frame on the stack was on it before or was entered meanwhile. -/
theorem trace (h : KeptApart events) (hij : i ≤ j) (hj : j < events.length)
    (hframe : frame ∈ events[j].machine.cores) :
    frame ∈ events[i].machine.cores ∨
      ∃ (k : Nat) (hk : k < j), i ≤ k ∧ events[k].opened? = some frame.id := by
  induction j, hij using Nat.le_induction with
  | base => exact .inl hframe
  | succ j hij ih =>
    have steady := List.isChain_iff_getElem.mp h.steady j hj
    rcases steady frame hframe with before | opened
    · rcases ih (Nat.lt_of_succ_lt hj) before with now | ⟨k, hk, hik, opened⟩
      · exact .inl now
      · exact .inr ⟨k, Nat.lt_succ_of_lt hk, hik, opened⟩
    · exact .inr ⟨j, Nat.lt_succ_self j, hij, opened⟩

/-- An identity is out of reach when its activation is entered, and before. -/
theorem exposes_of_opened (h : KeptApart events) (hij : i ≤ j) (hj : j < events.length)
    (opened : events[j].opened? = some id) : events[i].machine.Exposes (· ≠ id) := by
  rcases Nat.lt_or_eq_of_le hij with hlt | rfl
  · exact (List.pairwise_iff_getElem.mp h.apart i j _ hj hlt id opened).exposes
  · exact (h.sound _ (List.getElem_mem hj)).fresh id opened

/-- A frame with the identity of a live one was on the stack already. -/
theorem mem_cores_of_isLive (h : KeptApart events) (hij : i ≤ j) (hj : j < events.length)
    (hframe : frame ∈ events[j].machine.cores) (live : events[i].IsLive frame.id) :
    frame ∈ events[i].machine.cores := by
  rcases h.trace hij hj hframe with now | ⟨k, hk, hik, opened⟩
  · exact now
  · have exposes := h.exposes_of_opened hik (hk.trans hj) opened
    exact absurd live (Event.not_isLive_of_exposes exposes)

/-- An activation that is not on the stack at first was entered before it is. -/
theorem opened_of_isLive (h : KeptApart events) (hij : i ≤ j) (hj : j < events.length)
    (dead : ¬ events[i].IsLive id) (live : events[j].IsLive id) :
    ∃ (k : Nat) (hk : k < j), i ≤ k ∧ events[k].opened? = some id := by
  obtain ⟨core, hcore, rfl⟩ := Event.isLive_iff.mp live
  rcases h.trace hij hj hcore with there | opened
  · exact absurd (Event.isLive_iff.mpr ⟨core, there, rfl⟩) dead
  · exact opened

/-- Frames under one identity are the same, whether they are on one stack or on two. -/
theorem core_eq (h : KeptApart events) (hij : i ≤ j) (hj : j < events.length) {frame' : Frame}
    (hframe : frame ∈ events[i].machine.cores) (hframe' : frame' ∈ events[j].machine.cores)
    (hid : frame'.id = frame.id) : frame' = frame := by
  have hi : i < events.length := Nat.lt_of_le_of_lt hij hj
  have live : events[i].IsLive frame'.id := Event.isLive_iff.mpr ⟨frame, hframe, hid.symm⟩
  have before := h.mem_cores_of_isLive hij hj hframe' live
  -- identities on one stack are distinct
  have distinct : (events[i].machine.cores.map Frame.id).Nodup := by
    refine List.pairwise_map.mpr ((h.sound _ (List.getElem_mem hi)).ordered.imp ?_)
    intro inner outer hlt heq
    rw [heq] at hlt
    exact Nat.lt_irrefl _ hlt
  exact List.inj_on_of_nodup_map distinct before hframe hid

/-- What is recorded was in reach. -/
theorem given_of_records (h : KeptApart events) (hi : i < events.length) {Q : FrameId → Prop}
    (keeps : ∀ event ∈ events.take (i + 1), event.Keeps Q)
    (recorded : events[i].Records (events.take (i + 1)) id) : events[i].machine.Given Q id := by
  cases recorded with
  | frame live names =>
    have now : events[i] ∈ events.take (i + 1) := List.mem_take_iff_getElem.mpr ⟨i, by omega, rfl⟩
    have shown := ((keeps _ now).exposes.frames _ live).names
    exact names.elim (shown.home id) (shown.breakTag id)
  | closure was reached found names =>
    have knows := (keeps _ was).knows reached
    obtain ⟨k, hk, rfl⟩ := List.mem_take_iff_getElem.mp was
    have before : events[k].machine.Before events[i].machine := by
      rcases Nat.lt_or_eq_of_le (show k ≤ i by omega) with hlt | rfl
      · exact List.pairwise_iff_getElem.mp h.growing k i _ hi hlt
      · exact .refl _
    obtain ⟨_, hclosure, known⟩ := knows.mono before
    cases found.symm.trans hclosure
    exact names.elim (known.home id) (known.breakTag id)

/-- What is recorded and not on the stack is not entered later. -/
theorem not_isLive_of_records (h : KeptApart events) (hij : i < j) (hj : j < events.length)
    (recorded : events[i].Records (events.take (i + 1)) id)
    (notEntered : events[i].opened? ≠ some id) (dead : ¬ events[i].IsLive id) :
    ¬ events[j].IsLive id := by
  intro live
  obtain ⟨k, hk, hik, opened⟩ := h.opened_of_isLive (Nat.le_of_lt hij) hj dead live
  rcases Nat.lt_or_eq_of_le hik with hlt | rfl
  · have keeps : ∀ event ∈ events.take (i + 1), event.Keeps (· ≠ id) := by
      intro event hevent
      obtain ⟨l, hl, rfl⟩ := List.mem_take_iff_getElem.mp hevent
      exact List.pairwise_iff_getElem.mp h.apart l k _ (hk.trans hj) (by omega) id opened
    exact (h.given_of_records (hij.trans hj) keeps recorded).2 rfl
  · exact notEntered opened

/-- Identities that are kept apart from an empty stack on are not confused. -/
theorem unconfused (h : KeptApart events)
    (empty : ∀ event ∈ events.head?, event.machine.cores = []) : Unconfused events where
  increasing event hevent := by
    have ordered := (h.sound event hevent).ordered
    rw [Machine.cores, List.pairwise_map] at ordered
    exact List.pairwise_map.mpr ordered
  bounded event hevent frame hframe :=
    ((h.sound event hevent).keeps.exposes.frames frame hframe).names.id.1
  growing := h.growing
  recorded i event hevent id hrecorded := by
    obtain ⟨hi, rfl⟩ := List.getElem?_eq_some_iff.mp hevent
    have keeps : ∀ event ∈ events.take (i + 1), event.Keeps fun _ => True :=
      fun event hevent => (h.sound event (List.mem_of_mem_take hevent)).keeps
    exact (h.given_of_records hi keeps hrecorded).1
  popped := by
    refine List.triplewise_iff_getElem.mpr fun i j k hij hjk hk id live gone back => ?_
    obtain ⟨l, hl, hjl, opened⟩ := h.opened_of_isLive (Nat.le_of_lt hjk) hk gone back
    have exposes := h.exposes_of_opened ((Nat.le_of_lt hij).trans hjl) (hl.trans hk) opened
    exact Event.not_isLive_of_exposes exposes live
  dead i j event later hevent hlater hij id hrecorded hopened dead := by
    obtain ⟨hi, rfl⟩ := List.getElem?_eq_some_iff.mp hevent
    obtain ⟨hj, rfl⟩ := List.getElem?_eq_some_iff.mp hlater
    exact h.not_isLive_of_records hij hj hrecorded hopened dead
  same := by
    refine List.pairwise_iff_getElem.mpr fun i j hi hj hij frame hframe frame' hframe' hid => ?_
    exact h.core_eq (Nat.le_of_lt hij) hj (List.mem_map_of_mem hframe)
      (List.mem_map_of_mem hframe') hid
  once := h.apart.imp fun apart id opened later => ((apart id later).opened id opened).2 rfl
  entered i event hevent frame hframe := by
    obtain ⟨hi, rfl⟩ := List.getElem?_eq_some_iff.mp hevent
    rcases h.trace (Nat.zero_le i) hi (List.mem_map_of_mem hframe) with there | ⟨k, hk, -, opened⟩
    · rw [empty events[0] (by simp [List.head?_eq_getElem?])] at there
      cases there
    · exact ⟨events[k], List.mem_take_iff_getElem.mpr ⟨k, by omega, rfl⟩, opened⟩

end KeptApart

/-! ### Sessions -/

/-- No activation is running, and everything in reach was given out. -/
structure Machine.Vacant (m : Machine) : Prop where
  guards : m.Guards fun _ => True
  frames : m.calls.frames = []

theorem Machine.Vacant.cores {m : Machine} (h : m.Vacant) : m.cores = [] :=
  List.map_eq_nil_iff.mpr h.frames

theorem Machine.Vacant.keeps {m m' : Machine} (h : m.Vacant) (keeps : m.Keeps (fun _ => True) m') :
    m'.Vacant where
  guards := keeps.guards
  frames := List.map_eq_nil_iff.mp (keeps.cores.trans h.cores)

/-- Nothing is in reach at first but what the host has bound. -/
theorem Machine.vacant_initial (policy : DepthPolicy) {locals : List (Name × Value)}
    (noProcs : ∀ pair ∈ locals, pair.2.procs = []) : (Machine.initial policy locals).Vacant := by
  have bare : (Machine.initial policy []).Guards fun _ => True := by
    refine ⟨⟨fun scope name value hvalue => ?_, List.forall_mem_nil _, fun proc closure h => ?_⟩,
      fun _ _ => trivial⟩
    · rw [initial, List.foldl_nil, Environment.initial, ScopeStore.binding?_add] at hvalue
      cases hvalue
    · cases h
  refine ⟨?_, rfl⟩
  refine List.foldlRecOn (motive := fun env => Machine.Guards (fun _ => True)
    { initial policy [] with env }) locals _ bare fun env h pair hpair => h.define pair.1 ?_
  rw [Value.Within, noProcs pair hpair]
  exact List.forall_mem_nil _

/-- On a vacant machine that is made ready for it, a program may be performed. -/
theorem Machine.Vacant.prepared {m : Machine} (h : m.Vacant) (resolution : Resolution) :
    (m.prepared resolution).Vacant :=
  have same : ({ m with resolution } : Machine).Guards fun _ => True := h.guards.congr rfl rfl rfl
  ⟨same.allocateFrame.2.1.mono fun _ _ => trivial, h.frames⟩

namespace Program

variable {program : Program} {m m' : Machine} {ending : Ending Value}

/-- A program on a vacant machine runs under an identity that is new. -/
theorem asked_program (h : m.Vacant) (root : NodeId) (resolution : Resolution) :
    (Task.program root ⟨m.calls.nextId⟩).Asked (fun _ => True) [] m.allotment
      (m.prepared resolution) where
  guards := (h.prepared resolution).guards
  carries := ⟨fun id hid => by cases hid; exact ⟨Nat.lt_succ_self _, trivial⟩,
    List.forall_mem_nil _⟩
  cores := (h.prepared resolution).cores
  fits := ⟨⟨fun _ _ h => h, Nat.le_succ _⟩, fun id hid => ⟨Nat.lt_succ_of_lt hid, trivial⟩⟩
  kept id hid := by
    cases hid
    have same : ({ m with resolution } : Machine).Guards fun _ => True :=
      h.guards.congr rfl rfl rfl
    exact ⟨Nat.lt_irrefl _, same.allocateFrame.2.1.toExposes.weaken fun _ given => given.2.2⟩

/-- One `evaluate` on a vacant machine keeps identities apart and leaves a vacant machine. -/
theorem separates_evaluation (program : Program) (fuel : Nat) (root : NodeId) (h : m.Vacant) :
    m.allotment.Separates [] (program.evaluation fuel root m) (program.evaluateWith fuel root m) ∧
      ∀ ending m', program.evaluateWith fuel root m = some (ending, m') → m'.Vacant := by
  rw [evaluation, evaluateWith]
  cases resolve program.nodes root m.env.topBindings.keys with
  | error fault =>
    refine ⟨.nil fun ending m' heq => ?_, fun ending m' heq => ?_⟩
    · cases heq
      exact .refl m
    · cases heq
      exact h
  | ok resolution =>
    have asked := asked_program h root resolution
    have admissible := asked.admissible .nil (List.forall_mem_nil _) fun _ h => h
    refine ⟨asked.separates (separates_record admissible), fun ending m' hrun => ?_⟩
    exact (h.prepared resolution).keeps (settles_of_perform hrun _ asked.guards asked.carries).1

/-- Identities are kept apart at the events of a session that starts on a vacant machine. -/
theorem separates_session (program : Program) (fuel : Nat) (roots : List NodeId) (h : m.Vacant) :
    m.allotment.Separates [] (program.session fuel roots m)
      (none : Option (Ending Value × Machine)) := by
  induction roots generalizing m with
  | nil => exact .nil fun _ _ h => by cases h
  | cons root rest ih =>
    obtain ⟨first, vacant⟩ := separates_evaluation program fuel root h
    rw [session]
    cases heval : program.evaluateWith fuel root m with
    | none =>
      rw [List.append_nil]
      exact first.stop
    | some result =>
      obtain ⟨ending, m'⟩ := result
      obtain ⟨since, before⟩ := first.before ending m' heval
      rw [heval] at first
      refine first.append (ih (vacant ending m' heval)) (.refl m')
        (fun id hid => Nat.lt_of_lt_of_le hid since.nextId) fun event hevent id free => ?_
      exact (first.keptApart.sound event hevent).keeps.avoids_of_le
        ((before event hevent).nextId.trans (Nat.not_lt.mp free))

/-- Identities are not confused in any session on one machine, if the host binds no closures. -/
theorem identities_are_never_confused (program : Program) (fuel : Nat) (roots : List NodeId)
    (policy : DepthPolicy) (locals : List (Name × Value))
    (noProcs : ∀ pair ∈ locals, pair.2.procs = []) :
    Unconfused (program.session fuel roots (.initial policy locals)) := by
  have separates := separates_session program fuel roots (Machine.vacant_initial policy noProcs)
  exact separates.keptApart.unconfused separates.first

/-- The program `loop { break 7 }`. -/
def breaking : Program where
  names := .initial
  nodes := ⟨#[.int 7, .breakWith (some ⟨0⟩), .block [] ⟨1⟩, .call .loop [] (some (.literal ⟨2⟩))]⟩

/-- Evaluated twice, the program enters six activations, three of them at a time. -/
theorem breaking_twice_is_unconfused :
    Unconfused (breaking.session 12 [⟨3⟩, ⟨3⟩] (.initial .unlimited [(⟨34⟩, .int 1)])) ∧
    (breaking.session 12 [⟨3⟩, ⟨3⟩] (.initial .unlimited [(⟨34⟩, .int 1)])).filterMap
      Event.opened? = [⟨0⟩, ⟨1⟩, ⟨2⟩, ⟨3⟩, ⟨4⟩, ⟨5⟩] ∧
    [⟨5⟩, ⟨4⟩, ⟨3⟩] ∈ (breaking.session 12 [⟨3⟩, ⟨3⟩] (.initial .unlimited [(⟨34⟩, .int 1)])).map
      fun event => event.machine.calls.frames.map Frame.id := by
  refine ⟨?_, by decide +kernel, by decide +kernel⟩
  exact identities_are_never_confused breaking 12 [⟨3⟩, ⟨3⟩] .unlimited [(⟨34⟩, .int 1)] (by decide)

end Program

end ScriptSemantics
