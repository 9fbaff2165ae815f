import ScriptSemantics.Proofs.Passage

/-!
# Resembling runs

The same code runs on two machines that code cannot tell apart: they differ in their depth limits at
most.  What the tasks end in may differ too, in what errors say apart from their cause.  There is
one rule for each way of putting computations together.

## Main Definitions

* `Machine.withLimit` — the same machine under another limit
* `Resemblance` — which machines and which errors correspond to each other in two runs
* `Work.Resembles` — two pieces of work ask for the same tasks and end as they should
* `Resemblance.Pairs` — two computations do so from machines that correspond to each other
* `Resemblance.Steady`, `Resemblance.Lawful` — what is asked of a resemblance

## Main Results

* `Resemblance.Pairs.bind`, `Resemblance.Pairs.attempt_bind`, `Resemblance.Pairs.bracket` — the
  rules

## Design Notes

Some work may be inside of an activation and end outside of it, so the ends of work are compared by
another relation than the ends of the tasks that it asks for.
-/

namespace ScriptSemantics

/-! ### Other limits -/

/-- The same stack under another limit. -/
def CallStack.withLimit (stack : CallStack) (limit : Option Nat) : CallStack :=
  { stack with limit }

/-- The same machine under another limit. -/
def Machine.withLimit (m : Machine) (limit : Option Nat) : Machine :=
  m.mapCalls (·.withLimit limit)

/-- A change of the innermost frame does not look at the limit. -/
theorem CallStack.modifyCurrent_withLimit {limit : Option Nat} (stack : CallStack)
    (f : Frame → Frame) :
    (stack.withLimit limit).modifyCurrent f = (stack.modifyCurrent f).withLimit limit := by
  obtain ⟨frames, _, _⟩ := stack
  cases frames <;> rfl

/-- An operation that does not look at the limit, and leaves the frames as backtraces show them. -/
structure Machine.Plain (f : Machine → Machine) : Prop where
  blind : ∀ m limit, f (m.withLimit limit) = (f m).withLimit limit
  labels : ∀ names m, (f m).calls.capture names = m.calls.capture names

namespace Machine.Plain

/-- What does not touch the call stack is plain. -/
theorem of_calls {f : Machine → Machine}
    (blind : ∀ m limit, f (m.withLimit limit) = (f m).withLimit limit)
    (calls : ∀ m, (f m).calls = m.calls) : Plain f :=
  ⟨blind, fun names m => by rw [calls]⟩

/-- An operation on the environment does not look at the calls. -/
theorem mapEnv (f : Environment → Environment) : Plain (·.mapEnv f) :=
  .of_calls (fun _ _ => rfl) fun _ => rfl

/-- Frames that are counted otherwise are shown in the same way. -/
theorem modifyCurrent {f : Frame → Frame}
    (same : ∀ names frame, (f frame).label names = frame.label names) :
    Plain (·.mapCalls (·.modifyCurrent f)) where
  blind m _ := congrArg (fun calls => { m with calls }) (m.calls.modifyCurrent_withLimit f)
  labels names m := by
    obtain ⟨_, _, _, ⟨frames, _, _⟩, _⟩ := m
    cases frames with
    | nil => rfl
    | cons frame rest =>
      exact congrArg (fun label => (⟨label :: rest.map (·.label names)⟩ : Backtrace))
        (same names frame)

end Machine.Plain

/-! ### Resemblances -/

/-- Which machines and which errors correspond to each other in two runs of the same code. -/
structure Resemblance where
  machines : Machine → Machine → Prop
  errors : EvalError → EvalError → Prop

namespace Resemblance

/-- The ends of two runs correspond to each other: errors do, and other ends are the same. -/
inductive Endings {α : Type} (R : Resemblance) : Ending α → Ending α → Prop
  | ok (a : α) : Endings R (.ok a) (.ok a)
  | error {error error' : EvalError} (h : R.errors error error') :
      Endings R (.error (.error error)) (.error (.error error'))
  | exit {e : Exit} (h : e.isError = false) : Endings R (.error e) (.error e)

theorem Endings.refl {α : Type} {R : Resemblance} (same : ∀ error, R.errors error error)
    (ending : Ending α) : R.Endings ending ending := by
  cases ending with
  | ok a => exact .ok a
  | error e =>
    cases e with
    | error error => exact .error (same error)
    | returnTo | breakTo | next | redo => exact .exit rfl

/-- Two runs end in corresponding ways on corresponding machines. -/
structure Ends {α : Type} (R : Resemblance) (ending : Ending α) (m : Machine) (ending' : Ending α)
    (m' : Machine) : Prop where
  endings : R.Endings ending ending'
  machines : R.machines m m'

/-- Machines differ in their limits at most, and plain operations let them correspond. -/
structure Steady (R : Resemblance) : Prop where
  limits : ∀ {m m'}, R.machines m m' → ∃ limit, m' = m.withLimit limit
  operate : ∀ {m m' f}, R.machines m m' → Machine.Plain f → R.machines (f m) (f m')

/-- Errors that correspond have the same cause, and an error that is made in both runs corresponds
to itself. -/
structure Lawful (R : Resemblance) : Prop extends R.Steady where
  cause : ∀ {error error'}, R.errors error error' → error'.cause = error.cause
  made : ∀ cause, R.errors { cause } { cause }

end Resemblance

/-- Two pieces of work ask for the same tasks, and end as they should when the tasks end in
corresponding ways. -/
inductive Work.Resembles {α : Type} (R : Resemblance)
    (post : Ending α → Machine → Ending α → Machine → Prop) : Work α → Work α → Prop
  | done {ending ending' : Ending α} {m m' : Machine} (h : post ending m ending' m') :
      Resembles R post (.done ending m) (.done ending' m')
  | stuck : Resembles R post .stuck .stuck
  | ask (task : Task) {m m' : Machine} {resume resume' : Ending Value → Machine → Work α}
      (machines : R.machines m m')
      (next : ∀ ending m₁ ending' m₁', R.Ends ending m₁ ending' m₁' →
        Resembles R post (resume ending m₁) (resume' ending' m₁')) :
      Resembles R post (.ask task m resume) (.ask task m' resume')

/-- Work that goes on with the ends of other work resembles what both parts resemble. -/
theorem Work.Resembles.andThen {α β : Type} {R : Resemblance}
    {post₁ : Ending α → Machine → Ending α → Machine → Prop}
    {post : Ending β → Machine → Ending β → Machine → Prop} {w w' : Work α}
    {next next' : Ending α → Machine → Work β} (h : w.Resembles R post₁ w')
    (hnext : ∀ ending m ending' m', post₁ ending m ending' m' →
      (next ending m).Resembles R post (next' ending' m')) :
    (w.andThen next).Resembles R post (w'.andThen next') := by
  induction h with
  | done h => exact hnext _ _ _ _ h
  | stuck => exact .stuck
  | ask task machines _ ih => exact .ask task machines ih

namespace Resemblance

variable {α β γ : Type} {R : Resemblance}

/-- Two computations ask for the same tasks and end in corresponding ways. -/
def Pairs (R : Resemblance) (x x' : Comp α) : Prop :=
  ∀ m m', R.machines m m' → (x m).Resembles R R.Ends (x' m')

namespace Pairs

variable {x x' : Comp α}

/-! ### Single operations -/

theorem settle {ending ending' : Ending α} (h : R.Endings ending ending') :
    R.Pairs (Comp.settle ending) (Comp.settle ending') :=
  fun _ _ machines => .done ⟨h, machines⟩

theorem pure (a : α) : R.Pairs (pure a) (pure a) :=
  settle (.ok a)

theorem exit {e : Exit} (h : e.isError = false) : R.Pairs (Comp.exit e : Comp α) (Comp.exit e) :=
  settle (.exit h)

/-- A failure resembles itself where errors made by operations do. -/
theorem fail (lawful : R.Lawful) (cause : ErrorCause) :
    R.Pairs (Comp.fail cause : Comp α) (Comp.fail cause) :=
  settle (.error (lawful.made cause))

/-- So does a conversion that may fail. -/
theorem ofExcept (lawful : R.Lawful) (result : Except ErrorCause α) :
    R.Pairs (Comp.ofExcept result) (Comp.ofExcept result) := by
  cases result with
  | ok a => exact pure a
  | error cause => exact fail lawful cause

theorem outOfFuel : R.Pairs (Comp.outOfFuel : Comp α) Comp.outOfFuel :=
  fun _ _ _ => .stuck

/-- An operation that does not look at the calls resembles itself. -/
theorem modify (steady : R.Steady) {f : Machine → Machine} (plain : Machine.Plain f) :
    R.Pairs (Comp.modify f) (Comp.modify f) :=
  fun _ _ machines => .done ⟨.ok (), steady.operate machines plain⟩

theorem modifyGet (steady : R.Steady) {f : Machine → α × Machine}
    (same : ∀ m limit, (f (m.withLimit limit)).1 = (f m).1)
    (plain : Machine.Plain fun m => (f m).2) : R.Pairs (Comp.modifyGet f) (Comp.modifyGet f) := by
  intro m m' machines
  have value : (f m').1 = (f m).1 := by
    obtain ⟨limit, rfl⟩ := steady.limits machines
    exact same m limit
  refine .done ⟨?_, steady.operate machines plain⟩
  rw [value]
  exact .ok _

theorem perform (task : Task) : R.Pairs (Comp.perform task) (Comp.perform task) :=
  fun _ _ machines => .ask task machines fun _ _ _ _ => .done

theorem eval (id : NodeId) : R.Pairs (Comp.eval id) (Comp.eval id) :=
  perform (.node id)

theorem store (site : NodeId) (name : Name) (value : Value) :
    R.Pairs (Comp.store site name value) (Comp.store site name value) :=
  perform (.store site name value)

/-! ### Sequences of operations -/

/-- Computations that resemble each other may be put one after the other. -/
theorem bind {f f' : α → Comp β} (hx : R.Pairs x x') (hf : ∀ a, R.Pairs (f a) (f' a)) :
    R.Pairs (x >>= f) (x' >>= f') := by
  refine fun m m' machines => (hx m m' machines).andThen fun ending m₁ ending' m₁' ends => ?_
  obtain ⟨endings, machines⟩ := ends
  cases endings with
  | ok a => exact hf a m₁ m₁' machines
  | error h => exact .done ⟨.error h, machines⟩
  | exit h => exact .done ⟨.exit h, machines⟩

/-- What is read may depend on the limit as long as what follows does not. -/
theorem gets_bind (steady : R.Steady) {f : Machine → γ} {k : γ → Comp β}
    (same : ∀ m limit, k (f (m.withLimit limit)) = k (f m)) (hk : ∀ c, R.Pairs (k c) (k c)) :
    R.Pairs (Comp.gets f >>= k) (Comp.gets f >>= k) := by
  intro m m' machines
  obtain ⟨limit, rfl⟩ := steady.limits machines
  rw [Comp.gets_bind, Comp.gets_bind, same]
  exact hk _ _ _ machines

/-- An identity may be set aside before computations that resemble each other. -/
theorem allocate_bind (steady : R.Steady) {f : FrameId → Comp β}
    (hf : ∀ id, R.Pairs (f id) (f id)) :
    R.Pairs (Comp.allocateFrame >>= f) (Comp.allocateFrame >>= f) :=
  bind (modifyGet steady (fun _ _ => rfl) ⟨fun _ _ => rfl, fun _ _ => rfl⟩) hf

/-- What follows an attempt has to cope with both endings. -/
theorem attempt_bind {f f' : Ending α → Comp β} (hx : R.Pairs x x')
    (hf : ∀ ending ending', R.Endings ending ending' → R.Pairs (f ending) (f' ending')) :
    R.Pairs (Comp.attempt x >>= f) (Comp.attempt x' >>= f') := by
  intro m m' machines
  rw [Comp.attempt_bind, Comp.attempt_bind]
  exact (hx m m' machines).andThen fun ending m₁ ending' m₁' ends =>
    hf ending ending' ends.endings m₁ m₁' ends.machines

/-- Computations may be run between operations that do not look at the calls. -/
theorem bracket (steady : R.Steady) {before after : Machine → Machine}
    (plainBefore : Machine.Plain before) (plainAfter : Machine.Plain after) (hx : R.Pairs x x') :
    R.Pairs (Comp.bracket before after x) (Comp.bracket before after x') :=
  fun _ _ machines => (hx _ _ (steady.operate machines plainBefore)).andThen fun _ _ _ _ ends =>
    .done ⟨ends.endings, steady.operate ends.machines plainAfter⟩

theorem inTransparentScope (steady : R.Steady) (hx : R.Pairs x x') :
    R.Pairs (Comp.inTransparentScope x) (Comp.inTransparentScope x') :=
  bracket steady (.mapEnv _) (.mapEnv _) hx

end Pairs

end Resemblance

end ScriptSemantics
