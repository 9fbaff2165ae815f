import ScriptSemantics.Proofs.Activations

/-!
# The passage of exits

Exits travel from task to task.  Whatever the tasks are, an exit that leaves some work was started
by this work or has left one of its tasks before; and what can happen to an exit that has left a
task is that the work hands it on, turns it into a value, takes it and goes on with another node, or
has a cleanup part evaluated first.

## Main Definitions

* `Passage` — exits of some kind, what tasks make of them, and the nodes that those that take one
  may go on with
* `Work.CleansUp` — what follows a cleanup part while an exit is under way
* `Setting` — where some work stands: the frames below its tasks, the exits that it starts, and the
  nodes whose exits it hands on
* `Work.LetsOut` — some work hands the exits of its tasks on, and ends in no others
* `Comp.Lets` — the same for a computation that catches nothing

## Main Results

* `Comp.Lets.bind`, `Comp.letsOut_attempt` — one computation after another

## Design Notes

What an attempt ended in may be under way again later.  A computation that follows an attempt
therefore stands in a setting in which it may start this exit itself.
-/

namespace ScriptSemantics

/-- Only a host runs programs. -/
def Task.IsProgram : Task → Prop
  | program _ _ => True
  | _ => False

/-- The second node is the cleanup part of the first one. -/
def Program.IsCleanup (program : Program) (guarding id : NodeId) : Prop :=
  ∃ body rescues elseBranch,
    program.nodes.node? guarding = some (.begin body rescues elseBranch (some id))

/-- The node is the cleanup part of the node that a task evaluates. -/
def Task.HasCleanup (program : Program) (task : Task) (id : NodeId) : Prop :=
  ∃ guarding, task = .node guarding ∧ program.IsCleanup guarding id

/-- Exits of some kind on their passage through tasks. -/
structure Passage (program : Program) where
  /-- The exits; errors are not among them. -/
  exits : Exit → Prop
  /-- What a task makes of an exit that has left one of its own tasks, with the frames before and
  after. -/
  turns : Task → Exit → List Frame → Ending Value → List Frame → Prop
  /-- The nodes that may be evaluated next where the exit is taken and goes no further. -/
  resumes : Exit → NodeId → Machine → Prop
  exits_error : ∀ error, ¬ exits (.error error)

/-- Where some work stands. -/
structure Setting where
  /-- The frames on which its tasks are performed. -/
  frames : List Frame
  /-- The nodes whose exits it may end in. -/
  operands : List NodeId
  /-- The exits that it may start itself. -/
  starts : Exit → Prop

namespace Setting

/-- Exits of activations are handed on, and exits of some nodes. -/
def Relays (S : Setting) (task : Task) : Prop :=
  ∀ id, task = .node id → id ∈ S.operands

/-- The setting of what follows an attempt: the exit that the attempt ended in may be started
again. -/
def after {α : Type} (S : Setting) (ending : Ending α) : Setting :=
  { S with starts := fun e => S.starts e ∨ ending = .error e }

end Setting

namespace Work

variable {α β : Type} {program : Program} {P : Passage program} {S : Setting}
  {outer outer' : List Frame} {cleanup : NodeId → Prop} {e : Exit} {seen : Exit → Prop}

/-- Some work is over, on some frames and in a certain way. -/
def IsOver (outer : List Frame) (Q : Ending α → Prop) : Work α → Prop
  | done ending m => m.calls.frames = outer ∧ Q ending
  | stuck | ask .. => False

/-- With an exit under way, some work goes on like this after a cleanup part that it has had
evaluated. -/
structure CleansUp (outer : List Frame) (e : Exit) (Q : Ending α → Prop) (m : Machine)
    (resume : Ending Value → Machine → Work α) : Prop where
  /-- The value of the cleanup part is dropped, and the work ends in the exit. -/
  kept : ∀ value m', m'.calls.frames = m.calls.frames →
    (resume (.ok value) m').IsOver outer fun ending => ending = .error e ∧ Q ending
  /-- An exit of the cleanup part takes the place of the first one. -/
  replaced : ∀ other m', m'.calls.frames = m.calls.frames →
    (resume (.error other) m').IsOver outer fun ending => ending = .error other

/-- With an exit under way, some work ends in a certain way, goes on with a node where the exit is
taken, or has its cleanup part evaluated. -/
def Carries (P : Passage program) (cleanup : NodeId → Prop) (outer : List Frame) (e : Exit)
    (Q : Ending α → Prop) : Work α → Prop
  | done ending m => m.calls.frames = outer ∧ Q ending
  | stuck => True
  | ask task m resume =>
    ∃ id, task = .node id ∧ (P.resumes e id m ∨ cleanup id ∧ CleansUp outer e Q m resume)

/-- After a task that ended in an exit of some kind, some work carries this exit; and the exits that
it ends in were seen, or it starts them, or they have left one of its tasks. -/
def LetsOut (P : Passage program) (cleanup : NodeId → Prop) (S : Setting) (outer : List Frame)
    (Q : Exit → Ending α → Prop) : (Exit → Prop) → Work α → Prop
  | seen, done ending m =>
    m.calls.frames = outer ∧ ∀ e, ending = .error e → P.exits e → seen e ∨ S.starts e
  | _, stuck => True
  | seen, ask task m resume =>
    ¬ task.IsProgram ∧ m.calls.frames = S.frames ∧ ∀ m', m'.calls.frames = S.frames →
      (∀ e, P.exits e → (resume (.error e) m').Carries P cleanup outer e (Q e)) ∧
      ∀ ending, (resume ending m').LetsOut P cleanup S outer Q
        fun e => seen e ∨ S.Relays task ∧ ending = .error e

/-- No cleanup part: only the work of a whole node may have one evaluated. -/
def NoCleanup (_ : NodeId) : Prop :=
  False

/-- What carries an exit may be followed by what carries it on. -/
theorem Carries.andThen {Q : Ending α → Prop} {Q' : Ending β → Prop} {w : Work α}
    {next : Ending α → Machine → Work β} (h : w.Carries P NoCleanup outer e Q)
    (hnext : ∀ ending m, m.calls.frames = outer → Q ending →
      (next ending m).Carries P cleanup outer' e Q') :
    (w.andThen next).Carries P cleanup outer' e Q' := by
  cases w with
  | done ending m => exact hnext ending m h.1 h.2
  | stuck => trivial
  | ask task m resume =>
    obtain ⟨id, heq, hresumes | ⟨hnone, -⟩⟩ := h
    · exact ⟨id, heq, .inl hresumes⟩
    · exact hnone.elim

/-- Work may be followed by work that carries the same exits on, and that starts from those seen
before. -/
theorem LetsOut.andThen {Q : Exit → Ending α → Prop} {Q' : Exit → Ending β → Prop} {w : Work α}
    {next : Ending α → Machine → Work β} (h : w.LetsOut P NoCleanup S outer Q seen)
    (hnext : ∀ e ending m, P.exits e → m.calls.frames = outer → Q e ending →
      (next ending m).Carries P cleanup outer' e (Q' e))
    (hrest : ∀ seen ending m, m.calls.frames = outer →
      (∀ e, ending = .error e → P.exits e → seen e ∨ S.starts e) →
      (next ending m).LetsOut P cleanup S outer' Q' seen) :
    (w.andThen next).LetsOut P cleanup S outer' Q' seen := by
  induction w generalizing seen with
  | done ending m => exact hrest seen ending m h.1 h.2
  | stuck => trivial
  | ask task m resume ih =>
    obtain ⟨hprogram, hframes, hresume⟩ := h
    refine ⟨hprogram, hframes, fun m' hframes' => ?_⟩
    obtain ⟨hcarries, hlets⟩ := hresume m' hframes'
    refine ⟨fun e he => ?_, fun ending => ih ending m' (hlets ending)⟩
    exact (hcarries e he).andThen fun ending m => hnext e ending m he

theorem IsOver.mono {Q Q' : Ending α → Prop} {w : Work α} (h : w.IsOver outer Q)
    (weaker : ∀ ending, Q ending → Q' ending) : w.IsOver outer Q' := by
  cases w with
  | done ending m => exact ⟨h.1, weaker ending h.2⟩
  | stuck | ask => exact h

/-- More cleanup parts may be allowed, and less may be said of the end. -/
theorem Carries.mono {cleanup' : NodeId → Prop} {Q Q' : Ending α → Prop} {w : Work α}
    (h : w.Carries P cleanup outer e Q) (wider : ∀ id, cleanup id → cleanup' id)
    (weaker : ∀ ending, Q ending → Q' ending) : w.Carries P cleanup' outer e Q' := by
  cases w with
  | done ending m => exact ⟨h.1, weaker ending h.2⟩
  | stuck => trivial
  | ask task m resume =>
    obtain ⟨id, heq, hasked⟩ := h
    refine ⟨id, heq, hasked.imp_right fun ⟨hcleanup, cleansUp⟩ => ⟨wider id hcleanup, ?_⟩⟩
    exact ⟨fun value m' same => (cleansUp.kept value m' same).mono fun ending hending =>
      hending.imp_right (weaker ending), cleansUp.replaced⟩

/-- More cleanup parts may be allowed, and less may be said of the ends. -/
theorem LetsOut.mono {cleanup' : NodeId → Prop} {Q Q' : Exit → Ending α → Prop} {w : Work α}
    (h : w.LetsOut P cleanup S outer Q seen) (wider : ∀ id, cleanup id → cleanup' id)
    (weaker : ∀ e ending, P.exits e → Q e ending → Q' e ending) :
    w.LetsOut P cleanup' S outer Q' seen := by
  induction w generalizing seen with
  | done ending m => exact h
  | stuck => trivial
  | ask task m resume ih =>
    obtain ⟨hprogram, hframes, hresume⟩ := h
    refine ⟨hprogram, hframes, fun m' hframes' => ?_⟩
    obtain ⟨hcarries, hlets⟩ := hresume m' hframes'
    exact ⟨fun e he => (hcarries e he).mono wider fun ending => weaker e ending he,
      fun ending => ih ending m' (hlets ending)⟩

/-- Work without a cleanup part may stand for the work of any node. -/
theorem LetsOut.ofNoCleanup {Q Q' : Exit → Ending α → Prop} {w : Work α}
    (h : w.LetsOut P NoCleanup S outer Q seen)
    (weaker : ∀ e ending, P.exits e → Q e ending → Q' e ending) :
    w.LetsOut P cleanup S outer Q' seen :=
  h.mono (fun _ => False.elim) weaker

/-- Exits that were seen need not be started. -/
theorem LetsOut.of_after {Q : Exit → Ending α → Prop} {w : Work α} {ending : Ending β}
    (h : w.LetsOut P cleanup (S.after ending) outer Q seen)
    (known : ∀ e, ending = .error e → P.exits e → seen e ∨ S.starts e) :
    w.LetsOut P cleanup S outer Q seen := by
  induction w generalizing seen with
  | done result m =>
    refine ⟨h.1, fun e he hexits => ?_⟩
    obtain hseen | hstarts | hpending := h.2 e he hexits
    · exact .inl hseen
    · exact .inr hstarts
    · exact known e hpending hexits
  | stuck => trivial
  | ask task m resume ih =>
    obtain ⟨hprogram, hframes, hresume⟩ := h
    refine ⟨hprogram, hframes, fun m' hframes' => ?_⟩
    obtain ⟨hcarries, hlets⟩ := hresume m' hframes'
    refine ⟨hcarries, fun result => ih result m' (hlets result) fun e he hexits => ?_⟩
    exact (known e he hexits).imp_left .inl

end Work

/-- The ending is the exit itself. -/
def Exit.Passed {α : Type} (e : Exit) (ending : Ending α) : Prop :=
  ending = .error e

namespace Comp

variable {program : Program} {P : Passage program} {S : Setting} {cleanup : NodeId → Prop}
  {α β : Type}

/-- The exits of its tasks leave the computation as they are, and the frames stay. -/
def Lets (P : Passage program) (S : Setting) (x : Comp α) : Prop :=
  ∀ m seen, m.calls.frames = S.frames →
    (x m).LetsOut P Work.NoCleanup S S.frames Exit.Passed seen

/-! ### Operations -/

/-- A value is no exit. -/
theorem letsOut_ok (a : α) {Q : Exit → Ending α → Prop} {outer : List Frame} {m : Machine}
    (h : m.calls.frames = outer) (seen : Exit → Prop) :
    (Work.done (.ok a) m).LetsOut P cleanup S outer Q seen :=
  ⟨h, nofun⟩

theorem Lets.pure (a : α) : Lets P S (pure a : Comp α) :=
  fun _ seen h => letsOut_ok a h seen

/-- A computation may end in the exits that it may start. -/
theorem Lets.settle {ending : Ending α} (h : ∀ e, ending = .error e → P.exits e → S.starts e) :
    Lets P S (settle ending) :=
  fun _ _ hframes => ⟨hframes, fun e he hexits => .inr (h e he hexits)⟩

/-- Errors are none of the exits. -/
theorem letsOut_fail (cause : ErrorCause) {Q : Exit → Ending α → Prop} (m : Machine)
    (seen : Exit → Prop) : (fail cause m).LetsOut P cleanup S m.calls.frames Q seen := by
  refine ⟨rfl, fun e he hexits => ?_⟩
  cases he
  exact absurd hexits (P.exits_error _)

theorem Lets.exit {e : Exit} (h : P.exits e → S.starts e) : Lets P S (exit e : Comp α) := by
  refine .settle fun e' he => ?_
  cases he
  exact h

theorem Lets.fail (cause : ErrorCause) : Lets P S (fail cause : Comp α) :=
  .exit fun h => absurd h (P.exits_error _)

theorem Lets.ofExcept (result : Except ErrorCause α) : Lets P S (ofExcept result) := by
  cases result with
  | ok a => exact .pure a
  | error cause => exact .fail cause

/-- A change of the machine that keeps the frames starts no exit. -/
theorem Lets.modifyGet {f : Machine → α × Machine}
    (h : ∀ m, (f m).2.calls.frames = m.calls.frames) : Lets P S (modifyGet f) :=
  fun m seen hframes => letsOut_ok _ ((h m).trans hframes) seen

theorem Lets.gets (f : Machine → α) : Lets P S (gets f) :=
  fun _ seen hframes => letsOut_ok _ hframes seen

theorem Lets.modify {f : Machine → Machine} (h : ∀ m, (f m).calls.frames = m.calls.frames) :
    Lets P S (modify f) :=
  fun m seen hframes => letsOut_ok _ ((h m).trans hframes) seen

/-- A task may be performed whose exits are handed on. -/
theorem Lets.perform {task : Task} (h : ¬ task.IsProgram) (relays : S.Relays task) :
    Lets P S (perform task) :=
  fun _ _ hframes => ⟨h, hframes, fun _ hframes' =>
    ⟨fun _ _ => ⟨hframes', rfl⟩, fun _ => ⟨hframes', fun _ he _ => .inl (.inr ⟨relays, he⟩)⟩⟩⟩

/-- The exits of operands are handed on. -/
theorem Lets.eval {id : NodeId} (h : id ∈ S.operands) : Lets P S (eval id) := by
  refine .perform nofun fun id' heq => ?_
  cases heq
  exact h

theorem Lets.store (site : NodeId) (name : Name) (value : Value) :
    Lets P S (store site name value) :=
  .perform nofun nofun

/-- The second of two computations may turn exits, as long as it may hand them on. -/
theorem letsOut_bind {x : Comp α} {f : α → Comp β} {Q : Exit → Ending β → Prop} {m : Machine}
    {seen : Exit → Prop} (hx : Lets P S x) (hm : m.calls.frames = S.frames)
    (passes : ∀ e, Q e (.error e))
    (hf : ∀ a m seen, m.calls.frames = S.frames → (f a m).LetsOut P cleanup S S.frames Q seen) :
    ((x >>= f) m).LetsOut P cleanup S S.frames Q seen := by
  refine (hx m seen hm).andThen ?_ ?_
  · intro e ending m he hframes hpassed
    cases hpassed
    exact ⟨hframes, passes e⟩
  · intro seen ending m hframes known
    cases ending with
    | ok a => exact hf a m seen hframes
    | error e =>
      refine ⟨hframes, fun e' he => ?_⟩
      cases he
      exact known e rfl

theorem Lets.bind {x : Comp α} {f : α → Comp β} (hx : Lets P S x)
    (hf : ∀ a, Lets P S (f a)) : Lets P S (x >>= f) :=
  fun _ _ hm => letsOut_bind hx hm (fun _ => rfl) hf

/-- What was read is known to the rest of the computation, as long as nothing changes. -/
theorem Lets.gets_bind {f : Machine → α} {k : α → Comp β}
    (h : ∀ m seen, m.calls.frames = S.frames →
      (k (f m) m).LetsOut P Work.NoCleanup S S.frames Exit.Passed seen) :
    Lets P S (Comp.gets f >>= k) :=
  h

/-- An attempt hands its ending on as data. -/
theorem attempt_bind (x : Comp α) (f : Ending α → Comp β) (m : Machine) :
    (attempt x >>= f) m = (x m).andThen f := by
  show ((x m).andThen _).andThen _ = _
  induction x m with
  | done ending m => rfl
  | stuck => rfl
  | ask task m resume ih => exact congrArg (Work.ask task m) (funext fun ending => funext (ih ending))

/-- What follows an attempt has to hand on the exit that the attempt ended in. -/
theorem letsOut_attempt {x : Comp α} {f : Ending α → Comp β} {outer : List Frame}
    {Q : Exit → Ending β → Prop} {m : Machine} {seen : Exit → Prop} (hx : Lets P S x)
    (hm : m.calls.frames = S.frames)
    (hcarries : ∀ e m, P.exits e → m.calls.frames = S.frames →
      (f (.error e) m).Carries P cleanup outer e (Q e))
    (hf : ∀ ending m seen, m.calls.frames = S.frames →
      (f ending m).LetsOut P cleanup (S.after ending) outer Q seen) :
    ((attempt x >>= f) m).LetsOut P cleanup S outer Q seen := by
  rw [attempt_bind]
  refine (hx m seen hm).andThen ?_ fun seen ending m hframes known => ?_
  · intro e ending m he hframes hpassed
    cases hpassed
    exact hcarries e m he hframes
  · exact (hf ending m seen hframes).of_after known

theorem letsOut_inTransparentScope {x : Comp α} {outer : List Frame} {Q : Exit → Ending α → Prop}
    {m : Machine} {seen : Exit → Prop}
    (hx : (x (m.mapEnv .enterTransparent)).LetsOut P Work.NoCleanup S outer Q seen) :
    (inTransparentScope x m).LetsOut P Work.NoCleanup S outer Q seen :=
  hx.andThen (fun _ _ _ _ hframes hQ => ⟨hframes, hQ⟩) fun _ _ _ hframes known => ⟨hframes, known⟩

theorem Lets.inTransparentScope {x : Comp α} (hx : Lets P S x) :
    Lets P S (inTransparentScope x) :=
  fun m seen hframes => letsOut_inTransparentScope (hx (m.mapEnv .enterTransparent) seen hframes)

end Comp

end ScriptSemantics
