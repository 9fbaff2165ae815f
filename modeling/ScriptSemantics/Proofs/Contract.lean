import ScriptSemantics.Proofs.Trace

/-!
# Contracts

What holds whenever a task is entered and whenever it is left.  A contract that the work of every
task keeps, as long as the tasks it asks for keep it, is kept at every event of every run.

## Main Definitions

* `Contract` — a precondition and a postcondition for tasks, and what an observer learns
* `Work.Meets` — some work keeps a contract, relying on it for the tasks it asks for
* `Contract.Kept` — the work of every task keeps the contract
* `Contract.Admits` — the contract holds at every event of a list

## Main Results

* `Contract.Kept.admits_record` — a kept contract holds at every event of a task
* `Contract.Kept.post_of_perform` — and a task that ends establishes its postcondition

## Design Notes

Some facts about a state are facts about its past: which activation a scope was made for, for
instance.  The observer writes down what it sees when a task is entered, and the conditions may
refer to these notes.
-/

namespace ScriptSemantics

/-- Conditions on the entering and the leaving of tasks, in terms of the machine and of the notes
that an observer takes. -/
structure Contract (γ : Type) where
  /-- The notes after a task is entered. -/
  note : γ → Task → Machine → γ
  /-- What holds when a task is entered. -/
  pre : γ → Task → Machine → Prop
  /-- What holds when a task that was entered with the first notes and machine is left with the
  second ones. -/
  post : γ → Task → Machine → γ → Ending Value → Machine → Prop

namespace Work

variable {γ α β : Type} {C : Contract γ}

/-- Some work asks for tasks only when their preconditions hold, and ends as it should when these
tasks establish their postconditions. -/
def Meets (C : Contract γ) (post : γ → Ending α → Machine → Prop) : Work α → γ → Prop
  | done ending m, g => post g ending m
  | stuck, _ => True
  | ask task m resume, g =>
    C.pre g task m ∧
      ∀ g' ending m', C.post g task m g' ending m' → (resume ending m').Meets C post g'

theorem Meets.mono {post post' : γ → Ending α → Machine → Prop} {w : Work α} {g : γ}
    (weaker : ∀ g ending m, post g ending m → post' g ending m) (h : w.Meets C post g) :
    w.Meets C post' g := by
  induction w generalizing g with
  | done ending m => exact weaker g ending m h
  | stuck => trivial
  | ask task m resume ih =>
    exact ⟨h.1, fun g' ending m' hpost => ih ending m' (h.2 g' ending m' hpost)⟩

theorem Meets.andThen {post : γ → Ending β → Machine → Prop} {w : Work α}
    {next : Ending α → Machine → Work β} {g : γ}
    (h : w.Meets C (fun g ending m => (next ending m).Meets C post g) g) :
    (w.andThen next).Meets C post g := by
  induction w generalizing g with
  | done ending m => exact h
  | stuck => trivial
  | ask task m resume ih =>
    exact ⟨h.1, fun g' ending m' hpost => ih ending m' (h.2 g' ending m' hpost)⟩

end Work

namespace Contract

variable {γ : Type} (C : Contract γ)

/-- The notes after a list of events. -/
def observe : γ → List Event → γ
  | g, [] => g
  | g, .enter task m :: rest => observe (C.note g task m) rest
  | g, .leave .. :: rest => observe g rest

/-- What the contract says about one event. -/
def Allows (g : γ) : Event → Prop
  | .enter task m => C.pre g task m
  | .leave task ending m => ∃ g₀ m₀, C.pre g₀ task m₀ ∧ C.post g₀ task m₀ g ending m

/-- The contract holds at every event of a list. -/
def Admits : γ → List Event → Prop
  | _, [] => True
  | g, event :: rest => C.Allows g event ∧ Admits (C.observe g [event]) rest

theorem observe_append (g : γ) (xs ys : List Event) :
    C.observe g (xs ++ ys) = C.observe (C.observe g xs) ys := by
  induction xs generalizing g with
  | nil => rfl
  | cons event rest ih => cases event <;> exact ih _

theorem admits_append {g : γ} {xs ys : List Event} :
    C.Admits g (xs ++ ys) ↔ C.Admits g xs ∧ C.Admits (C.observe g xs) ys := by
  induction xs generalizing g with
  | nil => simp [Admits, observe]
  | cons event rest ih =>
    rw [List.cons_append, Admits, Admits, ih, and_assoc]
    cases event <;> rfl

/-- The work of every task keeps the contract. -/
def Kept (program : Program) : Prop :=
  ∀ fuel g task m, C.pre g task m →
    (task.work program fuel m).Meets C (C.post g task m) (C.note g task m)

/-- A contract holds throughout a task and its postcondition in the end. -/
def Holds (program : Program) (fuel : Nat) (g : γ) (task : Task) (m : Machine) : Prop :=
  C.Admits g (program.record fuel task m) ∧
    ∀ ending m', program.perform fuel task m = some (ending, m') →
      C.post g task m (C.observe g (program.record fuel task m)) ending m'

variable {C}

/-- What a contract says about an event is said with the notes on all events before it. -/
theorem Admits.allows {g : γ} {events : List Event} (h : C.Admits g events) {i : Nat}
    {event : Event} (hevent : events[i]? = some event) :
    C.Allows (C.observe g (events.take i)) event := by
  obtain ⟨hlt, rfl⟩ := List.getElem?_eq_some_iff.mp hevent
  rw [← List.take_append_drop i events, List.drop_eq_getElem_cons hlt] at h
  exact (C.admits_append.mp h).2.1

/-- Work that meets a contract has admitted events when the tasks it asks for have. -/
theorem holds_of_meets {program : Program} {fuel : Nat} {α : Type}
    {post : γ → Ending α → Machine → Prop} {w : Work α} {g : γ}
    (tasks : ∀ g task m, C.pre g task m → C.Holds program fuel g task m)
    (h : w.Meets C post g) :
    C.Admits g (w.events (program.perform fuel) (program.record fuel)) ∧
      ∀ ending m', w.run (program.perform fuel) = some (ending, m') →
        post (C.observe g (w.events (program.perform fuel) (program.record fuel))) ending m' := by
  induction w generalizing g with
  | done ending m =>
    refine ⟨trivial, fun ending' m' hrun => ?_⟩
    cases hrun
    exact h
  | stuck => exact ⟨trivial, fun _ _ hrun => nomatch hrun⟩
  | ask task m resume ih =>
    obtain ⟨hpre, hresume⟩ := h
    obtain ⟨hadmits, hpost⟩ := tasks g task m hpre
    cases hperform : program.perform fuel task m with
    | none =>
      simp only [Work.events, hperform, List.append_nil, Work.run]
      exact ⟨hadmits, fun _ _ hrun => nomatch hrun⟩
    -- work goes on with the notes on everything that the task did
    | some result =>
      obtain ⟨ending, m'⟩ := result
      obtain ⟨hrest, hend⟩ := ih ending m' (hresume _ ending m' (hpost ending m' hperform))
      simp only [Work.events, hperform, Work.run, C.observe_append]
      exact ⟨C.admits_append.mpr ⟨hadmits, hrest⟩, hend⟩

theorem Kept.holds {program : Program} (kept : C.Kept program) {fuel : Nat} {g : γ} {task : Task}
    {m : Machine} (hpre : C.pre g task m) : C.Holds program fuel g task m := by
  induction fuel generalizing g task m with
  | zero => exact ⟨⟨hpre, trivial⟩, fun _ _ hperform => nomatch hperform⟩
  | succ fuel ih =>
    -- the tasks that the work asks for have less fuel
    obtain ⟨hadmits, hpost⟩ := holds_of_meets (fun g task m => ih) (kept fuel g task m hpre)
    cases hperform : program.perform (fuel + 1) task m with
    | none =>
      rw [Holds, Program.record, hperform]
      refine ⟨⟨hpre, ?_⟩, fun _ _ h => nomatch h⟩
      simpa only [Program.departure, List.append_nil, observe] using hadmits
    | some result =>
      obtain ⟨ending, m'⟩ := result
      have hend := hpost ending m' hperform
      rw [Holds, Program.record, hperform]
      refine ⟨⟨hpre, C.admits_append.mpr ⟨hadmits, ⟨g, m, hpre, hend⟩, trivial⟩⟩, ?_⟩
      intro ending' m'' h
      cases h
      simpa only [Program.departure, observe, C.observe_append] using hend

/-- A kept contract holds at every event of a task. -/
theorem Kept.admits_record {program : Program} (kept : C.Kept program) {fuel : Nat} {g : γ}
    (task : Task) {m : Machine} (hpre : C.pre g task m) :
    C.Admits g (program.record fuel task m) :=
  (kept.holds hpre).1

/-- A task that ends establishes its postcondition. -/
theorem Kept.post_of_perform {program : Program} (kept : C.Kept program) {fuel : Nat} {g : γ}
    (task : Task) {m m' : Machine} {ending : Ending Value} (hpre : C.pre g task m)
    (hperform : program.perform fuel task m = some (ending, m')) :
    C.post g task m (C.observe g (program.record fuel task m)) ending m' :=
  (kept.holds hpre).2 ending m' hperform

end Contract

end ScriptSemantics
