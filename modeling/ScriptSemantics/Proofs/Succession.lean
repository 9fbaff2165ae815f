import ScriptSemantics.Proofs.PassageConstructs

/-!
# The way of an exit

The events of a run, with regard to exits of some kind.  After such an exit has left a task, the
task around is left by it as well, and so on, until a task takes it.  On the way cleanup parts run:
one that has a value leaves the exit as it is, and one that ends in an exit puts this in its place.

## Main Definitions

* `Work.rest` — the events of the rest of a task
* `Program.Spans` — a task has these events and ends so
* `Passage.Kept` — every task makes of exits what the passage says
* `Passage.Journey` — the way that an exit goes over the events that come next
* `Passage.Travels` — the exits in some events go their way

## Main Results

* `Passage.Kept.travels_record` — the exits in the events of a task go their way, when those that
  leave the task do
* `Passage.Journey.map` — a way under one passage is a way under another one

## Design Notes

The way of an exit may lead out of the task that it was started in.  So the events that come after
those of a task are arbitrary, and what is known of them is only that they carry on an exit that the
task ends in.
-/

namespace ScriptSemantics

namespace Work

variable {program : Program} {fuel : Nat} {task : Task}

/-- The events of the rest of a task, its last event included. -/
def rest (program : Program) (fuel : Nat) (task : Task) (w : Work Value) : List Event :=
  w.events (program.perform fuel) (program.record fuel) ++
    Program.departure task (w.run (program.perform fuel))

@[simp]
theorem rest_done (ending : Ending Value) (m : Machine) :
    (done ending m).rest program fuel task = [.leave task ending m] := rfl

@[simp]
theorem rest_stuck : (stuck : Work Value).rest program fuel task = [] := rfl

theorem rest_ask (asked : Task) (m : Machine) (resume : Ending Value → Machine → Work Value) :
    (ask asked m resume).rest program fuel task = program.record fuel asked m ++
      match program.perform fuel asked m with
      | some (ending, m') => (resume ending m').rest program fuel task
      | none => [] := by
  rw [rest, events, run, List.append_assoc]
  cases program.perform fuel asked m <;> rfl

end Work

/-- Evaluated on some machine, a task has these events, ends so and leaves this machine. -/
def Program.Spans (program : Program) (task : Task) (m : Machine) (events : List Event)
    (ending : Ending Value) (m' : Machine) : Prop :=
  ∃ fuel, program.perform fuel task m = some (ending, m') ∧ program.record fuel task m = events

namespace Program

variable {program : Program} {fuel : Nat} {task : Task} {m : Machine}

theorem record_succ (program : Program) (fuel : Nat) (task : Task) (m : Machine) :
    program.record (fuel + 1) task m =
      .enter task m :: (task.work program fuel m).rest program fuel task := rfl

theorem exists_record_eq_cons (program : Program) (fuel : Nat) (task : Task) (m : Machine) :
    ∃ events, program.record fuel task m = .enter task m :: events := by
  cases fuel <;> exact ⟨_, rfl⟩

theorem head?_record (program : Program) (fuel : Nat) (task : Task) (m : Machine) :
    (program.record fuel task m).head? = some (.enter task m) := by
  cases fuel <;> rfl

theorem getLast?_record {ending : Ending Value} {m' : Machine}
    (h : program.perform fuel task m = some (ending, m')) :
    (program.record fuel task m).getLast? = some (.leave task ending m') := by
  cases fuel with
  | zero => cases h
  | succ fuel =>
    rw [record_succ, Work.rest, show (task.work program fuel m).run (program.perform fuel) =
      some (ending, m') from h, departure, ← List.cons_append, List.getLast?_concat]

end Program

namespace Passage

variable {program : Program} (P : Passage program)

/-- Every task but a program makes of exits what the passage says. -/
def Kept : Prop :=
  ∀ (task : Task) fuel m, ¬ task.IsProgram → ∃ S : Setting, ∀ seen,
    (task.work program fuel m).LetsOut P (task.HasCleanup program) S m.calls.frames
      (fun e ending => P.turns task e S.frames ending m.calls.frames) seen

/-- The way of an exit that has left a task on some frames, over the events that come next. -/
inductive Journey (e : Exit) : List Frame → List Event → Prop
  /-- The run has no more fuel. -/
  | cut (frames : List Frame) : Journey e frames []
  /-- The task around is left.  When it is left by the exit, this goes on from there. -/
  | left {frames : List Frame} {task : Task} {ending : Ending Value} {m : Machine}
      {rest : List Event} (turns : P.turns task e frames ending m.calls.frames)
      (goesOn : ending = .error e → Journey e m.calls.frames rest) :
      Journey e frames (.leave task ending m :: rest)
  /-- The exit is taken, and a node is entered. -/
  | taken {frames : List Frame} {id : NodeId} {m : Machine} {rest : List Event}
      (resumes : P.resumes e id m) (same : m.calls.frames = frames) :
      Journey e frames (.enter (.node id) m :: rest)
  /-- A cleanup part has a value.  The node that it belongs to is left by the exit, and this goes on
  from there. -/
  | kept {frames : List Frame} {guarding id : NodeId} {m m' left : Machine} {own rest : List Event}
      {value : Value} (cleanup : program.IsCleanup guarding id) (same : m.calls.frames = frames)
      (ran : program.Spans (.node id) m own (.ok value) m')
      (turns : P.turns (.node guarding) e frames (.error e) left.calls.frames)
      (goesOn : Journey e left.calls.frames rest) :
      Journey e frames (own ++ .leave (.node guarding) (.error e) left :: rest)
  /-- A cleanup part ends in an exit, and the node that it belongs to is left by this one. -/
  | replaced {frames : List Frame} {guarding id : NodeId} {m m' left : Machine}
      {own rest : List Event} {other : Exit} (cleanup : program.IsCleanup guarding id)
      (same : m.calls.frames = frames) (ran : program.Spans (.node id) m own (.error other) m') :
      Journey e frames (own ++ .leave (.node guarding) (.error other) left :: rest)
  /-- A cleanup part does not end within its fuel. -/
  | unfinished {frames : List Frame} {guarding id : NodeId} {m : Machine} {fuel : Nat}
      (cleanup : program.IsCleanup guarding id) (same : m.calls.frames = frames)
      (endless : program.perform fuel (.node id) m = none) :
      Journey e frames (program.record fuel (.node id) m)

/-- The exits in some events go their way, over the events that come after them and then over some
others. -/
def Travels : List Event → List Event → Prop
  | [], _ => True
  | event :: rest, others =>
    (∀ task e m, event = .leave task (.error e) m → P.exits e →
      P.Journey e m.calls.frames (rest ++ others)) ∧ Travels rest others

/-- The events that come after a run carry on an exit that it ended in, and there are none when it
did not end. -/
def Continues (others : List Event) : Option (Ending Value × Machine) → Prop
  | some (ending, m) => ∀ e, ending = .error e → P.exits e → P.Journey e m.calls.frames others
  | none => others = []

variable {P} {S : Setting} {outer : List Frame} {Q : Exit → Ending Value → Prop}
  {cleanup : NodeId → Prop} {seen : Exit → Prop} {fuel : Nat} {task : Task} {m m' : Machine}
  {ending : Ending Value} {xs ys others : List Event}

theorem Travels.append (hxs : P.Travels xs (ys ++ others)) (hys : P.Travels ys others) :
    P.Travels (xs ++ ys) others := by
  induction xs with
  | nil => exact hys
  | cons event rest ih =>
    refine ⟨fun task e m heq he => ?_, ih hxs.2⟩
    have hjourney := hxs.1 task e m heq he
    rw [← List.append_assoc] at hjourney
    exact hjourney

theorem travels_leave (after : P.Continues others (some (ending, m))) :
    P.Travels [.leave task ending m] others := by
  refine ⟨fun task' e m' heq he => ?_, trivial⟩
  cases heq
  exact after e rfl he

/-- An exit that leaves a task at some moment goes its way over all that comes later. -/
theorem Travels.journey (h : P.Travels xs others) {i : Nat} {e : Exit}
    (left : xs[i]? = some (.leave task (.error e) m)) (he : P.exits e) :
    P.Journey e m.calls.frames (xs.drop (i + 1) ++ others) := by
  induction xs generalizing i with
  | nil => cases left
  | cons event rest ih =>
    cases i with
    | zero => exact h.1 task e m (Option.some.inj left) he
    | succ i => exact ih h.2 left

/-- A way under one passage is a way under another one, as far as it leads through frames of some
kind. -/
theorem Journey.map {P' : Passage program} {e : Exit} {frames : List Frame} {events : List Event}
    {kind : List Frame → Prop} (h : P.Journey e frames events) (hframes : kind frames)
    (turns : ∀ task frames ending m, .leave task ending m ∈ events → kind frames →
      P.turns task e frames ending m.calls.frames →
      P'.turns task e frames ending m.calls.frames ∧ (ending = .error e → kind m.calls.frames))
    (resumes : ∀ id m, kind m.calls.frames → P.resumes e id m → P'.resumes e id m) :
    P'.Journey e frames events := by
  induction h with
  | cut frames => exact .cut frames
  | left hturns _ ih =>
    obtain ⟨hturns', hkind⟩ := turns _ _ _ _ List.mem_cons_self hframes hturns
    exact .left hturns' fun hending => ih hending (hkind hending) fun task frames ending m hmem =>
      turns task frames ending m (List.mem_cons_of_mem _ hmem)
  | taken hresumes same => exact .taken (resumes _ _ (same ▸ hframes) hresumes) same
  | kept cleanup same ran hturns _ ih =>
    obtain ⟨hturns', hkind⟩ := turns _ _ _ _
      (List.mem_append_right _ List.mem_cons_self) hframes hturns
    exact .kept cleanup same ran hturns' <| ih (hkind rfl) fun task frames ending m hmem =>
      turns task frames ending m (List.mem_append_right _ (List.mem_cons_of_mem _ hmem))
  | replaced cleanup same ran => exact .replaced cleanup same ran
  | unfinished cleanup same endless => exact .unfinished cleanup same endless

/-! ### Frames -/

/-- Work that lets exits out ends on the frames around it when its tasks do. -/
theorem frames_of_run {w : Work Value} (hlets : w.LetsOut P cleanup S outer Q seen)
    (tasks : ∀ task m ending m', ¬ task.IsProgram → program.perform fuel task m = some (ending, m') →
      m'.calls.frames = m.calls.frames)
    (h : w.run (program.perform fuel) = some (ending, m')) : m'.calls.frames = outer := by
  induction w generalizing seen with
  | done result m =>
    cases h
    exact hlets.1
  | stuck => cases h
  | ask asked m resume ih =>
    obtain ⟨hprogram, hframes, hresume⟩ := hlets
    rw [Work.run] at h
    split at h
    next result m'' hperform =>
      have same := (tasks asked m result m'' hprogram hperform).trans hframes
      exact ih result m'' ((hresume m'' same).2 result) h
    next => cases h

/-- Every task but a program ends on the frames on which it was performed. -/
theorem Kept.frames_of_perform (kept : P.Kept) (hprogram : ¬ task.IsProgram)
    (h : program.perform fuel task m = some (ending, m')) : m'.calls.frames = m.calls.frames := by
  induction fuel generalizing task m ending m' with
  | zero => cases h
  | succ fuel ih =>
    obtain ⟨S, hlets⟩ := kept task fuel m hprogram
    exact frames_of_run (hlets fun _ => False) (fun _ _ _ _ hprogram h => ih hprogram h) h

/-! ### Ways -/

/-- A cleanup part that runs while an exit is under way keeps the exit or replaces it. -/
theorem journey_of_cleansUp (kept : P.Kept) {guarding id : NodeId} {e : Exit}
    {resume : Ending Value → Machine → Work Value} (he : P.exits e)
    (hcleanup : program.IsCleanup guarding id)
    (cleansUp : Work.CleansUp outer e
      (fun ending => P.turns (.node guarding) e m.calls.frames ending outer) m resume)
    (after : P.Continues others ((Work.ask (.node id) m resume).run (program.perform fuel))) :
    P.Journey e m.calls.frames
      ((Work.ask (.node id) m resume).rest program fuel (.node guarding) ++ others) := by
  rw [Work.run] at after
  rw [Work.rest_ask]
  -- the part does not end, has a value or ends in an exit of its own
  cases hperform : program.perform fuel (.node id) m with
  | none =>
    rw [hperform] at after
    obtain rfl : others = [] := after
    rw [List.append_nil, List.append_nil]
    exact .unfinished hcleanup rfl hperform
  | some result =>
    obtain ⟨ending, m'⟩ := result
    have hnode : ¬ (Task.node id).IsProgram := fun h => h
    have same := kept.frames_of_perform hnode hperform
    have spans : program.Spans (.node id) m (program.record fuel (.node id) m) ending m' :=
      ⟨fuel, hperform, rfl⟩
    rw [hperform] at after
    rw [List.append_assoc]
    cases ending with
    | ok value =>
      -- after a value the node is left by the exit that was under way
      have hover := cleansUp.kept value m' same
      cases hresume : resume (.ok value) m' with
      | done ending left =>
        rw [hresume] at hover
        simp only [hresume] at after ⊢
        obtain ⟨rfl, rfl, hturns⟩ := hover
        exact .kept hcleanup rfl spans hturns (after e rfl he)
      | stuck | ask => exact (hresume ▸ hover).elim
    | error other =>
      -- an exit of the part replaces the one that was under way
      have hover := cleansUp.replaced other m' same
      cases hresume : resume (.error other) m' with
      | done ending left =>
        rw [hresume] at hover
        simp only [hresume]
        obtain ⟨-, rfl⟩ := hover
        exact .replaced hcleanup rfl spans
      | stuck | ask => exact (hresume ▸ hover).elim

/-- An exit that some work carries goes its way over the rest of its task. -/
theorem journey_of_carries (kept : P.Kept) {w : Work Value} {e : Exit} (he : P.exits e)
    (hcarries : w.Carries P (task.HasCleanup program) outer e
      fun ending => P.turns task e S.frames ending outer)
    (hlets : w.LetsOut P cleanup S outer Q seen)
    (after : P.Continues others (w.run (program.perform fuel))) :
    P.Journey e S.frames (w.rest program fuel task ++ others) := by
  cases w with
  | done ending m' =>
    obtain ⟨rfl, hturns⟩ := hcarries
    exact .left hturns fun hending => after e hending he
  | stuck =>
    obtain rfl : others = [] := after
    exact .cut _
  | ask asked m resume =>
    obtain ⟨id, rfl, hresumes | ⟨⟨guarding, rfl, hcleanup⟩, cleansUp⟩⟩ := hcarries
    · obtain ⟨events, hrecord⟩ := program.exists_record_eq_cons fuel (.node id) m
      rw [Work.rest_ask, hrecord]
      exact .taken hresumes hlets.2.1
    · rw [← hlets.2.1] at cleansUp ⊢
      exact journey_of_cleansUp kept he hcleanup cleansUp after

/-- The exits in the rest of a task go their way when those of the tasks that it asks for do. -/
theorem travels_rest (kept : P.Kept) {w : Work Value}
    (hlets : w.LetsOut P (task.HasCleanup program) S outer
      (fun e ending => P.turns task e S.frames ending outer) seen)
    (tasks : ∀ asked m others, ¬ asked.IsProgram →
      P.Continues others (program.perform fuel asked m) →
      P.Travels (program.record fuel asked m) others)
    (after : P.Continues others (w.run (program.perform fuel))) :
    P.Travels (w.rest program fuel task) others := by
  induction w generalizing seen with
  | done ending m => exact travels_leave after
  | stuck => trivial
  | ask asked m₁ resume ih =>
    obtain ⟨hprogram, hframes, hresume⟩ := hlets
    rw [Work.run] at after
    rw [Work.rest_ask]
    cases hperform : program.perform fuel asked m₁ with
    | none =>
      rw [hperform] at after
      refine Travels.append (tasks asked m₁ _ hprogram ?_) trivial
      rw [hperform]
      exact after
    | some result =>
      obtain ⟨ending, m₂⟩ := result
      rw [hperform] at after
      have same := (kept.frames_of_perform hprogram hperform).trans hframes
      obtain ⟨hcarries, hrest⟩ := hresume m₂ same
      refine Travels.append (tasks asked m₁ _ hprogram ?_) (ih ending m₂ (hrest ending) after)
      rw [hperform]
      rintro e rfl he
      rw [same]
      exact journey_of_carries kept he (hcarries e he) (hrest (.error e)) after

/-- The exits in the events of a task that is no program go their way. -/
theorem Kept.travels_record (kept : P.Kept) (fuel : Nat) (task : Task) (m : Machine)
    (others : List Event) (hprogram : ¬ task.IsProgram)
    (after : P.Continues others (program.perform fuel task m)) :
    P.Travels (program.record fuel task m) others := by
  induction fuel generalizing task m others with
  | zero => exact ⟨nofun, trivial⟩
  | succ fuel ih =>
    obtain ⟨S, hlets⟩ := kept task fuel m hprogram
    rw [Program.record_succ]
    exact ⟨nofun,
      travels_rest kept (hlets fun _ => False) (fun _ _ _ => ih _ _ _) after⟩

end Passage

end ScriptSemantics
