import ScriptSemantics.Proofs.Succession

/-!
# Spans

The evaluation of a task that ends is a span of events, from its entry to its end.  The events of
some work that ends are the spans of the tasks that it asks for, one after the other.

## Main Definitions

* `Work.Ran` — some work has these events and ends so

## Main Results

* `Comp.ran_bind`, `Comp.ran_attempt`, `Comp.ran_inTransparentScope` — how the events of a
  computation are made up of those of its parts
-/

namespace ScriptSemantics

/-- Done with some fuel, work has these events, ends so and leaves this machine. -/
structure Work.Ran {α : Type} (program : Program) (fuel : Nat) (w : Work α) (events : List Event)
    (ending : Ending α) (m : Machine) : Prop where
  run : w.run (program.perform fuel) = some (ending, m)
  events : w.events (program.perform fuel) (program.record fuel) = events

namespace Work

variable {α β : Type} {program : Program} {fuel : Nat} {events : List Event} {m' : Machine}

theorem Ran.of_done {ending ending' : Ending α} {m : Machine}
    (h : (done ending m).Ran program fuel events ending' m') :
    events = [] ∧ ending' = ending ∧ m' = m := by
  obtain ⟨hrun, hevents⟩ := h
  cases hrun
  exact ⟨hevents.symm, rfl, rfl⟩

/-- Work that asks for a task goes on after the span of the task. -/
theorem Ran.of_ask {task : Task} {m : Machine} {resume : Ending Value → Machine → Work α}
    {ending : Ending α} (h : (ask task m resume).Ran program fuel events ending m') :
    ∃ own between m₁ others, events = own ++ others ∧
      program.perform fuel task m = some (between, m₁) ∧ program.record fuel task m = own ∧
      (resume between m₁).Ran program fuel others ending m' := by
  obtain ⟨hrun, hevents⟩ := h
  rw [Work.run] at hrun
  rw [Work.events] at hevents
  cases hperform : program.perform fuel task m with
  | none =>
    rw [hperform] at hrun
    cases hrun
  | some result =>
    rw [hperform] at hrun hevents
    exact ⟨_, result.1, result.2, _, hevents.symm, rfl, rfl, hrun, rfl⟩

/-- What follows some work goes on after its events. -/
theorem Ran.of_andThen {w : Work α} {next : Ending α → Machine → Work β} {ending : Ending β}
    (h : (w.andThen next).Ran program fuel events ending m') :
    ∃ own between m₁ others, events = own ++ others ∧ w.Ran program fuel own between m₁ ∧
      (next between m₁).Ran program fuel others ending m' := by
  induction w generalizing events with
  | done result m => exact ⟨[], result, m, events, rfl, ⟨rfl, rfl⟩, h⟩
  | stuck => cases h.run
  | ask task m resume ih =>
    rw [ask_andThen] at h
    obtain ⟨own, between, m₁, others, rfl, hperform, hrecord, hresume⟩ := h.of_ask
    obtain ⟨own', between', m₂, others', rfl, hfirst, hnext⟩ := ih between m₁ hresume
    refine ⟨own ++ own', between', m₂, others', (List.append_assoc ..).symm, ⟨?_, ?_⟩, hnext⟩
    · rw [Work.run, hperform]
      exact hfirst.run
    · rw [Work.events, hperform, hrecord]
      exact congrArg _ hfirst.events

end Work

namespace Comp

variable {α β : Type} {program : Program} {fuel : Nat} {m m' : Machine} {events : List Event}

theorem ran_perform {task : Task} {ending : Ending Value}
    (h : (perform task m).Ran program fuel events ending m') :
    program.Spans task m events ending m' := by
  obtain ⟨own, between, m₁, others, rfl, hperform, hrecord, hdone⟩ := h.of_ask
  obtain ⟨rfl, rfl, rfl⟩ := hdone.of_done
  exact ⟨fuel, hperform, hrecord.trans (List.append_nil _).symm⟩

/-- A computation goes on with the value of another one, or ends in its exit. -/
theorem ran_bind {x : Comp α} {f : α → Comp β} {ending : Ending β}
    (h : ((x >>= f) m).Ran program fuel events ending m') :
    (∃ own a m₁ others, events = own ++ others ∧ (x m).Ran program fuel own (.ok a) m₁ ∧
      (f a m₁).Ran program fuel others ending m') ∨
    ∃ e, ending = .error e ∧ (x m).Ran program fuel events (.error e) m' := by
  obtain ⟨own, between, m₁, others, rfl, hx, hf⟩ := h.of_andThen
  cases between with
  | ok a => exact .inl ⟨own, a, m₁, others, rfl, hx, hf⟩
  | error e =>
    obtain ⟨rfl, rfl, rfl⟩ := hf.of_done
    exact .inr ⟨e, rfl, (List.append_nil own).symm ▸ hx⟩

/-- A computation goes on with the ending of another one. -/
theorem ran_attempt {x : Comp α} {f : Ending α → Comp β} {ending : Ending β}
    (h : ((attempt x >>= f) m).Ran program fuel events ending m') :
    ∃ own between m₁ others, events = own ++ others ∧ (x m).Ran program fuel own between m₁ ∧
      (f between m₁).Ran program fuel others ending m' := by
  rw [attempt_bind] at h
  exact h.of_andThen

/-- A transparent scope is left however the computation inside ends. -/
theorem ran_inTransparentScope {x : Comp α} {ending : Ending α}
    (h : (inTransparentScope x m).Ran program fuel events ending m') :
    ∃ m₁, (x (m.mapEnv .enterTransparent)).Ran program fuel events ending m₁ ∧
      m' = m₁.mapEnv .leave := by
  obtain ⟨own, between, m₁, others, rfl, hx, hdone⟩ := h.of_andThen
  obtain ⟨rfl, rfl, rfl⟩ := hdone.of_done
  exact ⟨m₁, (List.append_nil own).symm ▸ hx, rfl⟩

end Comp

end ScriptSemantics
