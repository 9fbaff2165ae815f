import ScriptSemantics.Proofs.Exposure

/-!
# The allotment of identities

A call takes an identity before its block and its arguments are evaluated, and it may run an
activation under it afterwards.  In between other activations come and go.  The identity is kept out
of their reach, and no other task of the same work has it.

## Main Definitions

* `Frame.core`, `Machine.cores` — frames without their counts of loops
* `Allotment` — the identities that some work may still run activations under
* `Task.Settles` — a task brings nothing into reach that was not
* `Work.Allots` — some work runs activations under identities that were kept for them
* `Comp.Allots` — a computation does, wherever it is started
* `Comp.Calls` — a computation does that may run an activation under one identity

## Main Results

* `Comp.Allots.bind`, `Comp.Allots.attempt_bind`, `Comp.Allots.bracket` — the rules
* `Comp.Allots.allocate_bind`, `Comp.Calls.bind`, `Comp.Calls.perform` — the rules for calls
-/

namespace ScriptSemantics

/-! ### Frames without counts -/

/-- A frame without its count of loops, which is all that changes while it is on the stack. -/
def Frame.core (frame : Frame) : Frame :=
  { frame with loopDepth := 0 }

namespace Machine

/-- The frames without their counts of loops. -/
def cores (m : Machine) : List Frame :=
  m.calls.frames.map Frame.core

/-- A change of the count of loops is no change of the core of a frame. -/
theorem cores_modifyCurrent (m : Machine) {f : Frame → Frame}
    (same : ∀ frame, (f frame).core = frame.core) :
    (m.mapCalls (·.modifyCurrent f)).cores = m.cores := by
  cases hframes : m.calls.frames with
  | nil => simp only [cores, mapCalls, CallStack.modifyCurrent, hframes]
  | cons first rest =>
    simp only [cores, mapCalls, CallStack.modifyCurrent, hframes, List.map_cons, same]

/-- A machine that comes after another one, with the same frames and with nothing brought into reach
that is not of some kind. -/
structure Keeps (Q : FrameId → Prop) (m m' : Machine) : Prop where
  before : m.Before m'
  cores : m'.cores = m.cores
  guards : m'.Guards Q

variable {Q : FrameId → Prop} {m m₁ m₂ : Machine}

theorem Keeps.refl (guards : m.Guards Q) : m.Keeps Q m :=
  ⟨.refl m, rfl, guards⟩

/-- What is kept step by step is kept. -/
theorem Keeps.trans (h : m.Keeps Q m₁) (h' : m₁.Keeps Q m₂) : m.Keeps Q m₂ :=
  ⟨h.before.trans h'.before, h'.cores.trans h.cores, h'.guards⟩

/-- Nothing but bindings and methods is changed. -/
theorem Keeps.of_guards (guards : m₁.Guards Q) (closures : m₁.closures = m.closures)
    (calls : m₁.calls = m.calls) : m.Keeps Q m₁ := by
  refine ⟨⟨fun proc closure hclosure => ?_, Nat.le_of_eq (by rw [calls])⟩, ?_, guards⟩
  · rw [closures]
    exact hclosure
  · rw [Machine.cores, Machine.cores, calls]

end Machine

/-! ### Tasks -/

/-- Only closures that name identities of some kind occur in a value. -/
def Covered (Q : FrameId → Prop) (m : Machine) (value : Value) : Prop :=
  value.Within (m.Knows Q)

/-- What is known in a value stays known. -/
theorem Covered.mono {Q : FrameId → Prop} {m m' : Machine} {value : Value} (before : m.Before m')
    (h : Covered Q m value) : Covered Q m' value :=
  Value.Within.mono (fun _ => Machine.Knows.mono before) h

theorem Ending.Within.mono {Q : FrameId → Prop} {m m' : Machine} {ending : Ending Value}
    (h : ending.Within (Covered Q m) (m.Knows Q)) (before : m.Before m') :
    ending.Within (Covered Q m') (m'.Knows Q) := by
  cases ending with
  | ok value => exact Covered.mono before h
  | error e => exact Exit.Within.mono (fun _ => Machine.Knows.mono before) h

/-- A task brings nothing into reach that was out of reach of it. -/
def Task.Settles (task : Task) (m : Machine) (ending : Ending Value) (m' : Machine) : Prop :=
  ∀ Q, m.Guards Q → task.Carries Q m →
    m.Keeps Q m' ∧ ending.Within (Covered Q m') (m'.Knows Q)

/-- What is left to some work, which may run activations under all identities but some. -/
structure Allotment where
  /-- The machine on which the work went on. -/
  since : Machine
  /-- The identities that no activation may be run under any more. -/
  barred : FrameId → Prop

namespace Allotment

variable {a : Allotment} {Q Q' : FrameId → Prop} {m m' : Machine} {task : Task}

/-- The work has gone on since, and the identities that are barred were given out and are of some
kind. -/
structure Fits (a : Allotment) (Q : FrameId → Prop) (m : Machine) : Prop where
  since : a.since.Before m
  barred : ∀ id, a.barred id → m.Given Q id

/-- After a task, what was given out is barred unless it was out of reach of the task. -/
def after (a : Allotment) (task : Task) (m m' : Machine) : Allotment where
  since := m'
  barred id := a.barred id ∨
    id.index < m'.calls.nextId ∧ ¬ (m.Guards (· ≠ id) ∧ task.Carries (· ≠ id) m)

/-- What is barred may be of a wider kind. -/
theorem Fits.mono (h : a.Fits Q m) (weaker : ∀ id, Q id → Q' id) : a.Fits Q' m :=
  ⟨h.since, fun id hid => (h.barred id hid).weaken fun id given => weaker id given.2⟩

/-- What is barred stays barred while the work goes on. -/
theorem Fits.later (h : a.Fits Q m) (before : m.Before m') : a.Fits Q m' :=
  ⟨h.since.trans before, fun id hid => (h.barred id hid).mono before⟩

/-- What a task brings out may be barred after it, since it was in reach of the task. -/
theorem Fits.after (h : a.Fits Q m) (guards : m.Guards Q) (carries : task.Carries Q m)
    (before : m.Before m') : (a.after task m m').Fits Q m' where
  since := .refl m'
  barred id hid := by
    rcases hid with hid | ⟨hlt, reached⟩
    · exact (h.barred id hid).mono before
    -- an identity of another kind is out of reach of the task
    · refine ⟨hlt, Classical.byContradiction fun other => reached ⟨guards.avoids other, ?_⟩⟩
      refine carries.weaken fun i given => ?_
      rintro rfl
      exact other given.2

end Allotment

/-- What holds where some work asks for a task.  An activation runs under an identity that was kept
out of reach for it. -/
structure Task.Asked (Q : FrameId → Prop) (cores : List Frame) (a : Allotment) (task : Task)
    (m : Machine) : Prop where
  guards : m.Guards Q
  carries : task.Carries Q m
  cores : m.cores = cores
  fits : a.Fits Q m
  kept : ∀ id, task.activation? = some id → ¬ a.barred id ∧ m.Exposes (· ≠ id)

/-! ### Work -/

namespace Work

variable {α β : Type} {Q Q' : FrameId → Prop} {cores : List Frame}

/-- Some work runs activations under identities that were kept for them, and ends as it should when
the tasks that it asks for bring nothing into reach. -/
def Allots (Q : FrameId → Prop) (cores : List Frame)
    (post : Allotment → Ending α → Machine → Prop) : Work α → Allotment → Prop
  | done ending m, a => post a ending m
  | stuck, _ => True
  | ask task m resume, a =>
    task.Asked Q cores a m ∧ ∀ ending m', task.Settles m ending m' →
      (resume ending m').Allots Q cores post (a.after task m m')

/-- More identities may be in reach, and less may be said of the end. -/
theorem Allots.mono {post post' : Allotment → Ending α → Machine → Prop} {w : Work α}
    {a : Allotment} (h : w.Allots Q cores post a) (stronger : ∀ id, Q id → Q' id)
    (weaker : ∀ a ending m, post a ending m → post' a ending m) : w.Allots Q' cores post' a := by
  induction w generalizing a with
  | done ending m => exact weaker a ending m h
  | stuck => trivial
  | ask task m resume ih =>
    obtain ⟨asked, hresume⟩ := h
    refine ⟨?_, fun ending m' settles => ih ending m' (hresume ending m' settles)⟩
    exact { asked with
      guards := asked.guards.mono stronger
      carries := asked.carries.weaken fun id given => stronger id given.2
      fits := asked.fits.mono stronger }

/-- The rule for sequences of work. -/
theorem Allots.andThen {post : Allotment → Ending β → Machine → Prop} {w : Work α}
    {next : Ending α → Machine → Work β} {a : Allotment}
    (h : w.Allots Q cores (fun a ending m => (next ending m).Allots Q cores post a) a) :
    (w.andThen next).Allots Q cores post a := by
  induction w generalizing a with
  | done ending m => exact h
  | stuck => trivial
  | ask task m resume ih =>
    exact ⟨h.1, fun ending m' settles => ih ending m' (h.2 ending m' settles)⟩

/-- Go on with the value of a computation, at the level of work. -/
theorem Allots.bind {x : Comp α} {f : α → Comp β} {a : Allotment} {m : Machine}
    {mid : Allotment → Ending α → Machine → Prop} {post : Allotment → Ending β → Machine → Prop}
    (hx : (x m).Allots Q cores mid a)
    (hok : ∀ a' b m', mid a' (.ok b) m' → (f b m').Allots Q cores post a')
    (herror : ∀ a' e m', mid a' (.error e) m' → post a' (.error e) m') :
    ((x >>= f) m).Allots Q cores post a := by
  refine Allots.andThen (hx.mono (fun _ h => h) fun a' ending m' hmid => ?_)
  cases ending with
  | ok b => exact hok a' b m' hmid
  | error e => exact herror a' e m' hmid

end Work

/-! ### Computations -/

namespace Comp

variable {α β γ : Type} {Q : FrameId → Prop} {m₀ m : Machine} {good : Machine → α → Prop}
  {good' : Machine → β → Prop} {id : FrameId}

/-- How a computation ends that was started on a machine. -/
structure AllottedEnd (Q : FrameId → Prop) (good : Machine → α → Prop) (m : Machine)
    (a : Allotment) (ending : Ending α) (m' : Machine) : Prop extends m.Keeps Q m' where
  fits : a.Fits Q m'
  within : ending.Within (good m') (m'.Knows Q)

/-- What is kept before a computation and by it is kept. -/
theorem AllottedEnd.trans {a : Allotment} {m' m'' : Machine} {ending : Ending β}
    (keeps : m.Keeps Q m') (h : AllottedEnd Q good' m' a ending m'') :
    AllottedEnd Q good' m a ending m'' :=
  ⟨keeps.trans h.toKeeps, h.fits, h.within⟩

/-- From every machine that comes after a given one and that only identities of some kind are in
reach of, a computation runs activations under identities that it keeps for them. -/
def Allots (Q : FrameId → Prop) (m₀ : Machine) (good : Machine → α → Prop) (x : Comp α) : Prop :=
  ∀ m a, m₀.Before m → m.Guards Q → a.Fits Q m →
    (x m).Allots Q m.cores (AllottedEnd Q good m) a

/-- The same for a computation that may also run an activation under an identity that was kept for
it. -/
def Calls (Q : FrameId → Prop) (id : FrameId) (m₀ : Machine) (x : Comp Value) : Prop :=
  ∀ m a, m₀.Before m → m.Guards (AllBut Q id) → a.Fits (AllBut Q id) m → m.Given Q id →
    (x m).Allots Q m.cores (AllottedEnd Q (Covered Q) m) a

namespace Allots

variable {x : Comp α}

/-! ### Single operations -/

theorem settle (ending : Ending α)
    (h : ∀ m, m₀.Before m → ending.Within (good m) (m.Knows Q)) :
    Allots Q m₀ good (Comp.settle ending) :=
  fun m _ later guards fits => ⟨.refl guards, fits, h m later⟩

theorem pure {b : α} (h : ∀ m, m₀.Before m → good m b) : Allots Q m₀ good (pure b) :=
  settle (.ok b) h

/-- A value in which only known closures occur is yielded. -/
theorem value {value : Value} (h : Covered Q m₀ value) :
    Allots Q m₀ (Covered Q) (Pure.pure value : Comp Value) :=
  pure fun _ later => h.mono later

/-- An exit is started with a value in which only known closures occur. -/
theorem exit {e : Exit} (h : e.Within (m₀.Knows Q)) : Allots Q m₀ good (Comp.exit e) :=
  settle (.error e) fun _ later => Exit.Within.mono (fun _ => Machine.Knows.mono later) h

theorem fail (cause : ErrorCause) : Allots Q m₀ good (Comp.fail cause) :=
  exit (e := .error { cause }) trivial

theorem outOfFuel : Allots Q m₀ good Comp.outOfFuel :=
  fun _ _ _ _ _ => trivial

/-- The machine is changed, with nothing brought into reach, and something is read off it. -/
theorem modifyGet {f : Machine → α × Machine}
    (h : ∀ m, m₀.Before m → m.Guards Q → m.Keeps Q (f m).2 ∧ good (f m).2 (f m).1) :
    Allots Q m₀ good (Comp.modifyGet f) :=
  fun m _ later guards fits =>
    have ⟨keeps, hb⟩ := h m later guards
    ⟨keeps, fits.later keeps.before, hb⟩

/-- The machine is changed, with nothing brought into reach. -/
theorem modify {f : Machine → Machine}
    (h : ∀ m, m₀.Before m → m.Guards Q → m.Keeps Q (f m)) :
    Allots Q m₀ (fun _ _ => True) (Comp.modify f) :=
  fun m _ later guards fits =>
    have keeps := h m later guards
    ⟨keeps, fits.later keeps.before, trivial⟩

/-- A task is performed that runs in the same activation. -/
theorem perform {task : Task} (here : task.activation? = none)
    (carries : ∀ m, m₀.Before m → task.Carries Q m) :
    Allots Q m₀ (Covered Q) (Comp.perform task) := by
  intro m a later guards fits
  refine ⟨⟨guards, carries m later, rfl, fits, ?_⟩, fun ending m' settles => ?_⟩
  · rw [here]
    exact fun _ hid => by cases hid
  · obtain ⟨keeps, within⟩ := settles Q guards (carries m later)
    exact ⟨keeps, fits.after guards (carries m later) keeps.before, within⟩

/-- The evaluation of an operand is given nothing. -/
theorem eval (id : NodeId) : Allots Q m₀ (Covered Q) (Comp.eval id) :=
  perform rfl fun _ _ => .node id

/-- An assignment is given a value in which only known closures occur. -/
theorem store (site : NodeId) (name : Name) {value : Value} (h : Covered Q m₀ value) :
    Allots Q m₀ (Covered Q) (Comp.store site name value) :=
  perform rfl fun _ later => .store site name (h.mono later)

/-! ### Sequences of operations -/

/-- Go on with the value of a computation. -/
theorem bind {f : α → Comp β} (hx : Allots Q m₀ good x)
    (hf : ∀ m b, m₀.Before m → good m b → Allots Q m good' (f b)) :
    Allots Q m₀ good' (x >>= f) := by
  intro m a later guards fits
  refine (hx m a later guards fits).bind (fun a' b m' hend => ?_) fun a' e m' hend =>
    ⟨hend.toKeeps, hend.fits, hend.within⟩
  have next := hf m' b (later.trans hend.before) hend.within m' a' (.refl m') hend.guards hend.fits
  rw [hend.cores] at next
  exact next.mono (fun _ h => h) fun _ _ _ => .trans hend.toKeeps

/-- A pure operation changes nothing. -/
theorem ofExcept_bind {result : Except ErrorCause α} {f : α → Comp β}
    (hf : ∀ b, result = .ok b → Allots Q m₀ good' (f b)) :
    Allots Q m₀ good' (Comp.ofExcept result >>= f) := by
  cases result with
  | ok b => exact hf b rfl
  | error cause => exact fail cause

/-- What was read is known to the rest of the computation, as long as nothing changes. -/
theorem gets_bind {f : Machine → γ} {k : γ → Comp β}
    (h : ∀ m, m₀.Before m → m.Guards Q → Allots Q m good' (k (f m))) :
    Allots Q m₀ good' (Comp.gets f >>= k) :=
  fun m a later guards fits => h m later guards m a (.refl m) guards fits

/-- Go on with the ending of a computation, whatever it is. -/
theorem attempt_bind {f : Ending α → Comp β} (hx : Allots Q m₀ good x)
    (hf : ∀ m ending, m₀.Before m → Ending.Within (good m) (m.Knows Q) ending →
      Allots Q m good' (f ending)) :
    Allots Q m₀ good' (Comp.attempt x >>= f) := by
  intro m a later guards fits
  refine Work.Allots.andThen (Work.Allots.andThen ?_)
  refine (hx m a later guards fits).mono (fun _ h => h) fun a' ending m' hend => ?_
  have next := hf m' ending (later.trans hend.before) hend.within m' a' (.refl m') hend.guards
    hend.fits
  rw [hend.cores] at next
  exact next.mono (fun _ h => h) fun _ _ _ => .trans hend.toKeeps

/-- Something is done before and after that brings nothing else into reach. -/
theorem bracket {before after : Machine → Machine} {x : Comp Value}
    (hx : Allots Q m₀ (Covered Q) x) (enter : ∀ m : Machine, m.Guards Q → m.Keeps Q (before m))
    (leave : ∀ m : Machine, m.Guards Q → m.Keeps Q (after m)) :
    Allots Q m₀ (Covered Q) (Comp.bracket before after x) := by
  intro m a later guards fits
  have entered := enter m guards
  have inner := hx _ a (later.trans entered.before) entered.guards (fits.later entered.before)
  rw [entered.cores] at inner
  refine Work.Allots.andThen (inner.mono (fun _ h => h) fun a' ending m' hend => ?_)
  have left := leave m' hend.guards
  exact ⟨(entered.trans hend.toKeeps).trans left, hend.fits.later left.before,
    hend.within.mono left.before⟩

/-- A computation runs in a scope of its own, which binds nothing at first. -/
theorem inTransparentScope {x : Comp Value} (hx : Allots Q m₀ (Covered Q) x) :
    Allots Q m₀ (Covered Q) (Comp.inTransparentScope x) :=
  bracket hx (fun _ guards => .of_guards (guards.enter .transparent _) rfl rfl)
    fun _ guards => .of_guards guards.leaveScope rfl rfl

/-- A computation runs inside of a counted loop. -/
theorem inLoop {x : Comp Value} (hx : Allots Q m₀ (Covered Q) x) :
    Allots Q m₀ (Covered Q)
      (Comp.bracket (·.mapCalls CallStack.beginLoop) (·.mapCalls CallStack.endLoop) x) := by
  refine bracket hx (fun m guards => ?_) fun m guards => ?_
  · exact ⟨⟨fun _ _ h => h, Nat.le_of_eq CallStack.beginLoop_nextId.symm⟩,
      m.cores_modifyCurrent fun _ => rfl, guards.beginLoop⟩
  · exact ⟨⟨fun _ _ h => h, Nat.le_of_eq CallStack.endLoop_nextId.symm⟩,
      m.cores_modifyCurrent fun _ => rfl, guards.endLoop⟩

/-! ### Calls -/

/-- A call takes an identity that was never in reach. -/
theorem allocate_bind {k : FrameId → Comp Value}
    (hk : ∀ m id, m₀.Before m → m.Given Q id → (k id).Calls Q id m) :
    Allots Q m₀ (Covered Q) (Comp.allocateFrame >>= k) := by
  intro m a later guards fits
  obtain ⟨before, guards', given⟩ := guards.allocateFrame
  have fits' : a.Fits (AllBut Q m.allocateFrame.1) m.allocateFrame.2 :=
    ⟨fits.since.trans before, fun id hid =>
      have barred := fits.barred id hid
      ⟨Nat.lt_succ_of_lt barred.1, barred.2, barred.ne_nextId⟩⟩
  have called := hk _ _ (later.trans before) given _ a (.refl _) guards' fits' given
  exact called.mono (fun _ h => h) fun _ _ _ => .trans ⟨before, rfl, guards'.mono fun _ h => h.1⟩

end Allots

namespace Calls

variable {x : Comp α} {y : Comp Value}

/-- A computation that runs no activation under the identity of the call may be its end. -/
theorem of_allots (h : Allots Q m₀ (Covered Q) y) : y.Calls Q id m₀ :=
  fun m a later guards fits _ =>
    h m a later (guards.mono fun _ h => h.1) (fits.mono fun _ h => h.1)

theorem fail (cause : ErrorCause) : Calls Q id m₀ (Comp.fail cause) :=
  of_allots (.fail cause)

/-- While operands are evaluated, the identity of the call is kept out of reach. -/
theorem bind {f : α → Comp Value} (hx : Allots (AllBut Q id) m₀ good x)
    (hf : ∀ m b, m₀.Before m → good m b → (f b).Calls Q id m) : (x >>= f).Calls Q id m₀ := by
  intro m a later guards fits given
  have operands : (x m).Allots Q m.cores (AllottedEnd (AllBut Q id) good m) a :=
    (hx m a later guards fits).mono (fun _ h => h.1) fun _ _ _ h => h
  refine operands.bind (fun a' b m' hend => ?_) fun a' e m' hend => ?_
  · have next := hf m' b (later.trans hend.before) hend.within m' a' (.refl m') hend.guards
      hend.fits (given.mono hend.before)
    rw [hend.cores] at next
    have keeps : m.Keeps Q m' := ⟨hend.before, hend.cores, hend.guards.mono fun _ h => h.1⟩
    exact next.mono (fun _ h => h) fun _ _ _ => .trans keeps
  · refine ⟨⟨hend.before, hend.cores, hend.guards.mono fun _ h => h.1⟩,
      hend.fits.mono fun _ h => h.1, ?_⟩
    exact Exit.Within.mono (fun _ known => known.weaken fun _ given => given.2.1) hend.within

theorem gets_bind {f : Machine → γ} {k : γ → Comp Value}
    (h : ∀ m, m₀.Before m → m.Guards Q → (k (f m)).Calls Q id m) :
    (Comp.gets f >>= k).Calls Q id m₀ :=
  fun m a later guards fits given =>
    h m later (guards.mono fun _ h => h.1) m a (.refl m) guards fits given

/-- After the call the identity is as good as any other one. -/
theorem bind_allots {f : Value → Comp Value} (hy : y.Calls Q id m₀)
    (hf : ∀ m value, m₀.Before m → Covered Q m value → Allots Q m (Covered Q) (f value)) :
    (y >>= f).Calls Q id m₀ := by
  intro m a later guards fits given
  refine (hy m a later guards fits given).bind (fun a' value m' hend => ?_) fun a' e m' hend => hend
  have next := hf m' value (later.trans hend.before) hend.within m' a' (.refl m') hend.guards
    hend.fits
  rw [hend.cores] at next
  exact next.mono (fun _ h => h) fun _ _ _ => .trans hend.toKeeps

/-- An activation is run under the identity that was kept for it. -/
theorem perform {task : Task} (own : task.activation? = some id)
    (carries : ∀ m, m₀.Before m → m.Given Q id → task.Carries Q m) :
    (Comp.perform task).Calls Q id m₀ := by
  intro m a later guards fits given
  have hcarries := carries m later given
  have hguards : m.Guards Q := guards.mono fun _ h => h.1
  have hfits : a.Fits Q m := fits.mono fun _ h => h.1
  refine ⟨⟨hguards, hcarries, rfl, hfits, fun other hother => ?_⟩, fun ending m' settles => ?_⟩
  · cases own.symm.trans hother
    exact ⟨fun barred => (fits.barred id barred).2.2 rfl,
      guards.toExposes.weaken fun _ given => given.2.2⟩
  · obtain ⟨keeps, within⟩ := settles Q hguards hcarries
    exact ⟨keeps, hfits.after hguards hcarries keeps.before, within⟩

end Calls

end Comp

end ScriptSemantics
