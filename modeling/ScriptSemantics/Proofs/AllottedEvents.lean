import ScriptSemantics.Proofs.AllottedRuns
import ScriptSemantics.Proofs.Confinement
import Mathlib.Data.List.Chain

/-!
# Identities throughout a run

What is in reach at the events of a task, and which identities activations are entered under.  When
an activation is entered, its identity is out of reach and was so at all earlier events.

## Main Definitions

* `Event.Keeps` — only identities of some kind are in reach at an event
* `Event.Sound` — what holds at one event
* `Event.Apart` — no identity that a later event enters is in reach at an earlier event
* `Event.Steady` — only the activation that is entered may be new on the stack
* `KeptApart` — all of this holds throughout some events

## Main Results

* `Program.settles_of_perform` — a task brings nothing into reach that was out of reach of it
* `Program.keeps_record` — what is out of reach of a task is so at all its events
* `Program.separates_record` — identities are kept apart at the events of a task
-/

namespace ScriptSemantics

/-! ### Events -/

/-- The closures that occur in the value that an exit carries. -/
def Exit.procs : Exit → List ProcId
  | returnTo _ value | breakTo _ value | next value => value.procs
  | error _ | redo => []

namespace Event

/-- The closures that a task is given, or that it hands on when it is left. -/
def procs : Event → List ProcId
  | enter task _ => task.procs
  | leave _ (.ok value) _ => value.procs
  | leave _ (.error e) _ => e.procs

/-- Only identities of some kind are in reach at an event. -/
structure Keeps (Q : FrameId → Prop) (event : Event) : Prop where
  exposes : event.machine.Exposes Q
  opened : ∀ id, event.opened? = some id → event.machine.Given Q id
  procs : ∀ proc ∈ event.procs, event.machine.Knows Q proc

variable {Q : FrameId → Prop} {event : Event} {task : Task} {m : Machine}

theorem Keeps.enter (exposes : m.Exposes Q) (carries : task.Carries Q m) :
    (Event.enter task m).Keeps Q :=
  ⟨exposes, carries.id, carries.procs⟩

theorem Keeps.leave {ending : Ending Value} (exposes : m.Exposes Q)
    (within : ending.Within (Covered Q m) (m.Knows Q)) : (Event.leave task ending m).Keeps Q := by
  refine ⟨exposes, fun _ h => (by cases h), ?_⟩
  cases ending with
  | ok value => exact within
  | error e =>
    cases e with
    | returnTo | breakTo | next => exact within
    | error | redo => exact List.forall_mem_nil _

theorem Keeps.weaken {Q' : FrameId → Prop} (h : event.Keeps Q)
    (weaker : ∀ id, event.machine.Given Q id → Q' id) : event.Keeps Q' where
  exposes := h.exposes.weaken weaker
  opened id hid := (h.opened id hid).weaken weaker
  procs proc hproc := (h.procs proc hproc).weaken weaker

/-- What was not given out yet is out of reach. -/
theorem Keeps.avoids_of_le {id : FrameId} (h : event.Keeps Q)
    (hid : event.machine.calls.nextId ≤ id.index) : event.Keeps (· ≠ id) := by
  refine h.weaken fun other given => ?_
  rintro rfl
  exact absurd given.1 (Nat.not_lt.mpr hid)

/-- What holds at one event: identities increase from the bottom of the stack to its top, everything
in reach was given out, and the activation that is entered is out of reach. -/
structure Sound (event : Event) : Prop where
  ordered : event.machine.cores.Pairwise fun inner outer => outer.id.index < inner.id.index
  keeps : event.Keeps fun _ => True
  fresh : ∀ id, event.opened? = some id → event.machine.Exposes (· ≠ id)

/-- No identity that the later event enters is in reach at the earlier one. -/
def Apart (event later : Event) : Prop :=
  ∀ id, later.opened? = some id → event.Keeps (· ≠ id)

/-- Only the activation that is entered may be new on the stack at the next event. -/
def Steady (event next : Event) : Prop :=
  ∀ frame ∈ next.machine.cores, frame ∈ event.machine.cores ∨ event.opened? = some frame.id

theorem Steady.of_cores {next : Event} (h : next.machine.cores = event.machine.cores) :
    event.Steady next := by
  intro frame hframe
  rw [h] at hframe
  exact .inl hframe

end Event

/-- Identities are kept apart throughout some events. -/
structure KeptApart (events : List Event) : Prop where
  sound : ∀ event ∈ events, event.Sound
  growing : events.Pairwise fun event later => event.machine.Before later.machine
  apart : events.Pairwise Event.Apart
  steady : events.IsChain Event.Steady

namespace KeptApart

theorem nil : KeptApart [] :=
  ⟨List.forall_mem_nil _, .nil, .nil, .nil⟩

theorem singleton {event : Event} (h : event.Sound) : KeptApart [event] :=
  ⟨List.forall_mem_singleton.mpr h, List.pairwise_singleton _ _, List.pairwise_singleton _ _,
    .singleton _⟩

theorem append {xs ys : List Event} (hx : KeptApart xs) (hy : KeptApart ys)
    (growing : ∀ x ∈ xs, ∀ y ∈ ys, x.machine.Before y.machine)
    (apart : ∀ x ∈ xs, ∀ y ∈ ys, x.Apart y)
    (steady : ∀ x ∈ xs.getLast?, ∀ y ∈ ys.head?, x.Steady y) : KeptApart (xs ++ ys) where
  sound := List.forall_mem_append.mpr ⟨hx.sound, hy.sound⟩
  growing := List.pairwise_append.mpr ⟨hx.growing, hy.growing, growing⟩
  apart := List.pairwise_append.mpr ⟨hx.apart, hy.apart, apart⟩
  steady := List.isChain_append.mpr ⟨hx.steady, hy.steady, steady⟩

end KeptApart

/-! ### Reach -/

namespace Work

variable {α : Type} {program : Program} {fuel : Nat} {Q : FrameId → Prop} {cores : List Frame}
  {post : Allotment → Ending α → Machine → Prop} {w : Work α} {a : Allotment}

/-- Work ends as it should when its tasks bring nothing into reach. -/
theorem Allots.post_of_run (h : w.Allots Q cores post a) {perform : Task → Eval Value}
    (tasks : ∀ task m ending m', perform task m = some (ending, m') → task.Settles m ending m')
    {ending : Ending α} {m' : Machine} (hrun : w.run perform = some (ending, m')) :
    ∃ a', post a' ending m' := by
  induction w generalizing a with
  | done ending m =>
    cases hrun
    exact ⟨a, h⟩
  | stuck => cases hrun
  | ask task m resume ih =>
    rw [Work.run] at hrun
    split at hrun
    next result m₁ hperform => exact ih result m₁ (h.2 result m₁ (tasks task m _ _ hperform)) hrun
    next => cases hrun

/-- What is out of reach of the tasks that some work asks for is so at all its events. -/
theorem Allots.keeps_events (h : w.Allots Q cores post a)
    (settles : ∀ task m ending m', program.perform fuel task m = some (ending, m') →
      task.Settles m ending m')
    (tasks : ∀ task m, m.Guards Q → task.Carries Q m →
      ∀ event ∈ program.record fuel task m, event.Keeps Q) :
    ∀ event ∈ w.events (program.perform fuel) (program.record fuel), event.Keeps Q := by
  induction w generalizing a with
  | done | stuck => exact List.forall_mem_nil _
  | ask task m resume ih =>
    obtain ⟨asked, hresume⟩ := h
    rw [events, List.forall_mem_append]
    refine ⟨tasks task m asked.guards asked.carries, ?_⟩
    cases hperform : program.perform fuel task m with
    | none => exact List.forall_mem_nil _
    | some result => exact ih _ _ (hresume _ _ (settles task m _ _ hperform))

end Work

namespace Program

variable {program : Program} {fuel : Nat} {task : Task} {m m' : Machine} {ending : Ending Value}
  {Q : FrameId → Prop}

/-- A task brings nothing into reach that was out of reach of it. -/
theorem settles_of_perform (h : program.perform fuel task m = some (ending, m')) :
    task.Settles m ending m' := by
  induction fuel generalizing task m ending m' with
  | zero => cases h
  | succ fuel ih =>
    intro Q guards carries
    have fits : Allotment.Fits ⟨m, fun _ => False⟩ Q m := ⟨.refl m, fun _ h => h.elim⟩
    obtain ⟨cores, -, allots⟩ := task.allots_work program fuel guards carries fits
    obtain ⟨_, hend⟩ := allots.post_of_run (fun _ _ _ _ => ih) h
    exact ⟨hend.toKeeps, hend.within⟩

/-- What is out of reach of a task is so at all its events. -/
theorem keeps_record (guards : m.Guards Q) (carries : task.Carries Q m) :
    ∀ event ∈ program.record fuel task m, event.Keeps Q := by
  induction fuel generalizing task m with
  | zero => exact List.forall_mem_singleton.mpr (.enter guards.toExposes carries)
  | succ fuel ih =>
    have fits : Allotment.Fits ⟨m, fun _ => False⟩ Q m := ⟨.refl m, fun _ h => h.elim⟩
    obtain ⟨cores, -, allots⟩ := task.allots_work program fuel guards carries fits
    rw [record, List.forall_mem_cons, List.forall_mem_append]
    refine ⟨.enter guards.toExposes carries,
      allots.keeps_events (fun _ _ _ _ => settles_of_perform) fun _ _ => ih, ?_⟩
    cases hperform : program.perform (fuel + 1) task m with
    | none => exact List.forall_mem_nil _
    | some result =>
      obtain ⟨keeps, within⟩ := settles_of_perform hperform Q guards carries
      exact List.forall_mem_singleton.mpr (.leave keeps.guards.toExposes within)

end Program

/-- The first event of a task is that it is entered. -/
theorem Program.mem_record {program : Program} {fuel : Nat} {task : Task} {m : Machine}
    {event : Event} (h : event ∈ program.record fuel task m) :
    event = .enter task m ∨ event ∈ (program.record fuel task m).tail := by
  cases fuel <;> exact List.mem_cons.mp h

/-! ### Order -/

/-- Where a task may be performed: everything in reach was given out, identities increase on the
stack, and that of the activation that is entered is out of reach and above all others. -/
structure Task.Admissible (task : Task) (m : Machine) : Prop where
  guards : m.Guards fun _ => True
  carries : task.Carries (fun _ => True) m
  ordered : m.cores.Pairwise fun inner outer => outer.id.index < inner.id.index
  fresh : ∀ id, task.activation? = some id → m.Exposes (· ≠ id)
  above : ∀ id, task.activation? = some id → ∀ frame ∈ m.cores, frame.id.index < id.index

/-- The identities that a task may still run activations under: those that are given out from now
on. -/
def Machine.allotment (m : Machine) : Allotment where
  since := m
  barred id := id.index < m.calls.nextId

/-- Identities are kept apart at the events of a task.  Activations inside of it get late
identities, and all its events come before its end. -/
structure Task.Separates (program : Program) (fuel : Nat) (task : Task) (m : Machine) : Prop where
  keptApart : KeptApart (program.record fuel task m)
  late : ∀ event ∈ (program.record fuel task m).tail, ∀ id, event.opened? = some id →
    m.calls.nextId ≤ id.index
  before : ∀ ending m', program.perform fuel task m = some (ending, m') →
    ∀ event ∈ program.record fuel task m, event.machine.Before m'

/-- Identities are kept apart at the events of some work that was given an allotment, and the work
is done on some frames. -/
structure Allotment.Separates {α : Type} (a : Allotment) (cores : List Frame) (events : List Event)
    (result : Option (Ending α × Machine)) : Prop where
  keptApart : KeptApart events
  allotted : ∀ event ∈ events, ∀ id, event.opened? = some id → ¬ a.barred id
  first : ∀ event ∈ events.head?, event.machine.cores = cores
  last : ∀ ending m', result = some (ending, m') →
    ∀ event ∈ events.getLast?, event.machine.cores = cores
  since : ∀ event ∈ events, a.since.Before event.machine
  before : ∀ ending m', result = some (ending, m') →
    a.since.Before m' ∧ ∀ event ∈ events, event.machine.Before m'

namespace Allotment.Separates

variable {α β : Type} {a a' : Allotment} {cores : List Frame} {xs ys : List Event}
  {result : Option (Ending α × Machine)}

theorem nil (since : ∀ ending m', result = some (ending, m') → a.since.Before m') :
    a.Separates cores [] result where
  keptApart := .nil
  allotted := List.forall_mem_nil _
  first _ h := by cases h
  last _ _ _ _ h := by cases h
  since := List.forall_mem_nil _
  before ending m' h := ⟨since ending m' h, List.forall_mem_nil _⟩

/-- The work does not go on. -/
theorem stop (h : a.Separates cores xs result) :
    a.Separates cores xs (none : Option (Ending β × Machine)) :=
  ⟨h.keptApart, h.allotted, h.first, fun _ _ h => (by cases h), h.since, fun _ _ h => by cases h⟩

/-- The work goes on with an allotment of identities that were out of reach so far. -/
theorem append {ending : Ending β} {m : Machine} (hx : a.Separates cores xs (some (ending, m)))
    (hy : a'.Separates cores ys result) (since : m.Before a'.since)
    (barred : ∀ id, a.barred id → a'.barred id)
    (apart : ∀ event ∈ xs, ∀ id, ¬ a'.barred id → event.Keeps (· ≠ id)) :
    a.Separates cores (xs ++ ys) result where
  keptApart := by
    refine hx.keptApart.append hy.keptApart (fun event hevent later hlater => ?_)
      (fun event hevent later hlater id hid => ?_) fun event hevent next hnext => ?_
    · exact (((hx.before ending m rfl).2 event hevent).trans since).trans (hy.since later hlater)
    · exact apart event hevent id (hy.allotted later hlater id hid)
    · exact .of_cores ((hy.first next hnext).trans (hx.last ending m rfl event hevent).symm)
  allotted := List.forall_mem_append.mpr ⟨hx.allotted, fun event hevent id hid hbarred =>
    hy.allotted event hevent id hid (barred id hbarred)⟩
  first event hevent := by
    rw [List.head?_append] at hevent
    rcases Option.or_eq_some_iff.mp hevent with hevent | ⟨-, hevent⟩
    · exact hx.first event hevent
    · exact hy.first event hevent
  last ending' m' hresult event hevent := by
    rw [List.getLast?_append] at hevent
    rcases Option.or_eq_some_iff.mp hevent with hevent | ⟨-, hevent⟩
    · exact hy.last ending' m' hresult event hevent
    · exact hx.last ending m rfl event hevent
  since := List.forall_mem_append.mpr ⟨hx.since, fun event hevent =>
    ((hx.before ending m rfl).1.trans since).trans (hy.since event hevent)⟩
  before ending' m' hresult := by
    obtain ⟨onward, hrest⟩ := hy.before ending' m' hresult
    obtain ⟨begun, hfirst⟩ := hx.before ending m rfl
    have later := since.trans onward
    exact ⟨begun.trans later, List.forall_mem_append.mpr
      ⟨fun event hevent => (hfirst event hevent).trans later, hrest⟩⟩

end Allotment.Separates

/-- All events of a task come after the machine on which it is performed. -/
theorem Task.Separates.since {program : Program} {fuel : Nat} {task : Task} {m : Machine}
    (h : task.Separates program fuel m) :
    ∀ event ∈ program.record fuel task m, m.Before event.machine := by
  have growing := h.keptApart.growing
  cases fuel with
  | zero => exact List.forall_mem_singleton.mpr (.refl m)
  | succ => exact List.forall_mem_cons.mpr ⟨.refl m, (List.pairwise_cons.mp growing).1⟩

namespace Task.Asked

variable {program : Program} {fuel : Nat} {task : Task} {m : Machine} {cores : List Frame}
  {a : Allotment}

/-- A task that some work asks for may be performed. -/
theorem admissible (asked : task.Asked (fun _ => True) cores a m) {n : Nat}
    (ordered : cores.Pairwise fun inner outer => outer.id.index < inner.id.index)
    (low : ∀ frame ∈ cores, frame.id.index < n) (barred : ∀ id, id.index < n → a.barred id) :
    task.Admissible m where
  guards := asked.guards
  carries := asked.carries
  ordered := by
    rw [asked.cores]
    exact ordered
  fresh id hid := (asked.kept id hid).2
  above id hid frame hframe := by
    rw [asked.cores] at hframe
    have late : n ≤ id.index := Nat.not_lt.mp fun hlt => (asked.kept id hid).1 (barred id hlt)
    exact Nat.lt_of_lt_of_le (low frame hframe) late

/-- A task that some work asks for is part of it. -/
theorem separates (asked : task.Asked (fun _ => True) cores a m)
    (own : task.Separates program fuel m) :
    a.Separates cores (program.record fuel task m) (program.perform fuel task m) where
  keptApart := own.keptApart
  allotted event hevent id hid hbarred := by
    rcases Program.mem_record hevent with rfl | hevent
    · exact (asked.kept id hid).1 hbarred
    · exact absurd (asked.fits.barred id hbarred).1 (Nat.not_lt.mpr (own.late event hevent id hid))
  first event hevent := by
    rw [Program.head?_record] at hevent
    cases hevent
    exact asked.cores
  last ending m' hperform event hevent := by
    obtain ⟨keeps, -⟩ := Program.settles_of_perform hperform _ asked.guards asked.carries
    rw [Program.getLast?_record hperform] at hevent
    cases hevent
    exact keeps.cores.trans asked.cores
  since event hevent := asked.fits.since.trans (own.since event hevent)
  before ending m' hperform := by
    obtain ⟨keeps, -⟩ := Program.settles_of_perform hperform _ asked.guards asked.carries
    exact ⟨asked.fits.since.trans keeps.before, own.before ending m' hperform⟩

end Task.Asked

namespace Work.Allots

variable {α : Type} {program : Program} {fuel : Nat} {cores : List Frame} {n : Nat}
  {post : Allotment → Ending α → Machine → Prop} {w : Work α} {a : Allotment}

/-- An identity that is not barred after a task was out of reach at all its events. -/
theorem keeps_of_not_barred {task : Task} {m m' : Machine} {ending : Ending Value} {id : FrameId}
    (separates : task.Separates program fuel m)
    (hperform : program.perform fuel task m = some (ending, m'))
    (free : ¬ (a.after task m m').barred id) :
    ∀ event ∈ program.record fuel task m, event.Keeps (· ≠ id) := by
  intro event hevent
  by_cases hlt : id.index < m'.calls.nextId
  · obtain ⟨guards, carries⟩ : m.Guards (· ≠ id) ∧ task.Carries (· ≠ id) m :=
      Classical.byContradiction fun reached => free (.inr ⟨hlt, reached⟩)
    exact Program.keeps_record guards carries event hevent
  · have before := separates.before ending m' hperform event hevent
    exact (separates.keptApart.sound event hevent).keeps.avoids_of_le
      (before.nextId.trans (Nat.not_lt.mp hlt))

/-- The events of some work are kept apart when those of the tasks that it asks for are. -/
theorem separates (h : w.Allots (fun _ => True) cores post a)
    (ordered : cores.Pairwise fun inner outer => outer.id.index < inner.id.index)
    (low : ∀ frame ∈ cores, frame.id.index < n) (barred : ∀ id, id.index < n → a.barred id)
    (ends : ∀ a ending m, post a ending m → a.since.Before m)
    (tasks : ∀ (task : Task) m, task.Admissible m → task.Separates program fuel m) :
    a.Separates cores (w.events (program.perform fuel) (program.record fuel))
      (w.run (program.perform fuel)) := by
  induction w generalizing a with
  | done ending m =>
    refine .nil fun ending' m' hrun => ?_
    cases hrun
    exact ends a ending m h
  | stuck => exact .nil fun _ _ h => by cases h
  | ask task m resume ih =>
    obtain ⟨asked, hresume⟩ := h
    have own := tasks task m (asked.admissible ordered low barred)
    have here := asked.separates own
    rw [Work.events, Work.run]
    cases hperform : program.perform fuel task m with
    | none =>
      rw [List.append_nil]
      exact here.stop
    | some result =>
      obtain ⟨ending, m'⟩ := result
      have settles := Program.settles_of_perform hperform
      have rest := ih ending m' (hresume ending m' settles) fun id hid => .inl (barred id hid)
      rw [hperform] at here
      exact here.append rest (.refl m') (fun _ => .inl) fun event hevent id free =>
        keeps_of_not_barred own hperform free event hevent

end Work.Allots

namespace Program

variable {program : Program} {fuel : Nat} {task : Task} {m m' : Machine} {ending : Ending Value}

/-- Identities increase on the frames on which a task has others performed, and were given out. -/
theorem ordered_of_runsOn (h : task.Admissible m) {cores : List Frame} (on : task.RunsOn m cores) :
    (cores.Pairwise fun inner outer => outer.id.index < inner.id.index) ∧
      ∀ frame ∈ cores, frame.id.index < m.calls.nextId := by
  have given : ∀ frame ∈ m.cores, frame.id.index < m.calls.nextId := by
    intro core hcore
    obtain ⟨frame, hframe, rfl⟩ := List.mem_map.mp hcore
    exact (h.guards.frames frame hframe).names.id.1
  cases on with
  | here => exact ⟨h.ordered, given⟩
  | inside frame own =>
    exact ⟨List.pairwise_cons.mpr ⟨h.above frame.id own, h.ordered⟩,
      List.forall_mem_cons.mpr ⟨(h.carries.id frame.id own).1, given⟩⟩

/-- The frames that a task has others performed on are those around it, or its own is new. -/
theorem steady_of_runsOn {cores : List Frame} (on : task.RunsOn m cores) {next : Event}
    (hnext : next.machine.cores = cores) : (Event.enter task m).Steady next := by
  cases on with
  | here => exact .of_cores hnext
  | inside frame own =>
    intro core hcore
    rw [hnext] at hcore
    rcases List.mem_cons.mp hcore with rfl | hcore
    · exact .inr own
    · exact .inl hcore

/-- The frames of a task that is left are among those on which it had others performed. -/
theorem steady_leave {cores : List Frame} (on : task.RunsOn m cores) {event next : Event}
    (hevent : event.machine.cores = cores) (hnext : next.machine.cores = m.cores) :
    event.Steady next := by
  intro core hcore
  rw [hnext] at hcore
  rw [hevent]
  cases on with
  | here => exact .inl hcore
  | inside => exact .inl (List.mem_cons_of_mem _ hcore)

/-- A task that may be performed is entered soundly. -/
theorem sound_enter (h : task.Admissible m) : (Event.enter task m).Sound :=
  ⟨h.ordered, .enter h.guards.toExposes h.carries, h.fresh⟩

/-- A task that may be performed is left soundly. -/
theorem sound_leave (h : task.Admissible m) (settles : task.Settles m ending m') :
    (Event.leave task ending m').Sound := by
  obtain ⟨keeps, within⟩ := settles _ h.guards h.carries
  refine ⟨?_, .leave keeps.guards.toExposes within, fun _ h => by cases h⟩
  show m'.cores.Pairwise _
  rw [keeps.cores]
  exact h.ordered

/-- A task is left at the end of its work. -/
theorem mem_departure {result : Option (Ending Value × Machine)} {event : Event}
    (h : event ∈ departure task result) :
    ∃ ending m', result = some (ending, m') ∧ event = .leave task ending m' := by
  cases result with
  | none => cases h
  | some result => exact ⟨result.1, result.2, rfl, List.mem_singleton.mp h⟩

section Enclose

variable {cores : List Frame} {events : List Event} {result : Option (Ending Value × Machine)}
  (h : task.Admissible m) (on : task.RunsOn m cores)
  (settles : ∀ ending m', result = some (ending, m') → task.Settles m ending m')
  (inside : m.allotment.Separates cores events result)

include inside

/-- Activations inside of a task get late identities. -/
theorem late_enclosed : ∀ event ∈ events ++ departure task result,
    ∀ id, event.opened? = some id → m.calls.nextId ≤ id.index := by
  refine List.forall_mem_append.mpr ⟨fun event hevent id hid => ?_, fun event hevent id hid => ?_⟩
  · exact Nat.not_lt.mp (inside.allotted event hevent id hid)
  · obtain ⟨_, _, -, rfl⟩ := mem_departure hevent
    cases hid

include h

/-- All events of a task come before its end. -/
theorem before_enclosed (hresult : result = some (ending, m'))
    (settled : task.Settles m ending m') :
    ∀ event ∈ .enter task m :: (events ++ departure task result), event.machine.Before m' := by
  obtain ⟨keeps, -⟩ := settled _ h.guards h.carries
  obtain ⟨-, before⟩ := inside.before ending m' hresult
  refine List.forall_mem_cons.mpr ⟨keeps.before, List.forall_mem_append.mpr
    ⟨before, fun event hevent => ?_⟩⟩
  obtain ⟨_, _, hsame, rfl⟩ := mem_departure hevent
  cases hresult.symm.trans hsame
  exact .refl m'

include on

/-- With the entering of a task before them, the events of its work are kept apart. -/
theorem keptApart_enter : KeptApart (.enter task m :: events) := by
  refine (KeptApart.singleton (sound_enter h)).append inside.keptApart ?_ ?_ ?_
  · intro event hevent later hlater
    cases List.mem_singleton.mp hevent
    exact inside.since later hlater
  · intro event hevent later hlater id hid
    cases List.mem_singleton.mp hevent
    have late := inside.allotted later hlater id hid
    exact (sound_enter h).keeps.avoids_of_le (Nat.not_lt.mp late)
  · intro event hevent next hnext
    cases hevent
    exact steady_of_runsOn on (inside.first next hnext)

include settles

/-- With the leaving of the task after them as well. -/
theorem keptApart_enclosed :
    KeptApart (.enter task m :: (events ++ departure task result)) := by
  cases result with
  | none =>
    rw [departure, List.append_nil]
    exact keptApart_enter h on inside
  | some result =>
    obtain ⟨ending, m'⟩ := result
    have settled := settles ending m' rfl
    obtain ⟨keeps, -⟩ := settled _ h.guards h.carries
    refine (keptApart_enter h on inside).append (.singleton (sound_leave h settled)) ?_ ?_ ?_
    · intro event hevent later hlater
      cases List.mem_singleton.mp hlater
      rcases List.mem_cons.mp hevent with rfl | hevent
      · exact keeps.before
      · exact (inside.before ending m' rfl).2 event hevent
    · intro event _ later hlater id hid
      cases List.mem_singleton.mp hlater
      cases hid
    · intro event hevent next hnext
      cases hnext
      rw [List.getLast?_cons] at hevent
      cases hlast : events.getLast? with
      | none =>
        rw [hlast] at hevent
        cases hevent
        exact .of_cores keeps.cores
      | some last =>
        rw [hlast] at hevent
        cases hevent
        exact steady_leave on (inside.last ending m' rfl last hlast) keeps.cores

end Enclose

/-- Identities are kept apart at the events of a task that may be performed. -/
theorem separates_record (h : task.Admissible m) : task.Separates program fuel m := by
  induction fuel generalizing task m with
  | zero =>
    exact ⟨.singleton (sound_enter h), List.forall_mem_nil _, fun _ _ h => by cases h⟩
  | succ fuel ih =>
    have fits : m.allotment.Fits (fun _ => True) m := ⟨.refl m, fun id hid => ⟨hid, trivial⟩⟩
    obtain ⟨cores, on, allots⟩ := task.allots_work program fuel h.guards h.carries fits
    obtain ⟨ordered, low⟩ := ordered_of_runsOn h on
    have inside := allots.separates ordered low (fun _ h => h) (fun _ _ _ h => h.fits.since)
      fun task m => ih
    have settles : ∀ ending m', program.perform (fuel + 1) task m = some (ending, m') →
        task.Settles m ending m' := fun _ _ => settles_of_perform
    exact ⟨keptApart_enclosed h on settles inside, late_enclosed inside,
      fun ending m' hperform => before_enclosed h inside hperform (settles ending m' hperform)⟩

end Program

end ScriptSemantics
