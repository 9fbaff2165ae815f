import ScriptSemantics.Proofs.Regime

/-!
# Computations under a regime

Rules by which computations keep the contract of a regime: one for each way of putting computations
together.

## Main Definitions

* `Regime.Runs` — a computation keeps the contract of a regime from every state of some kind
* `Regime.Stable` — states of some kind stay of that kind

## Main Results

* `Regime.Runs.bind`, `Regime.Runs.attempt_bind` — one computation after another
* `Regime.Runs.bind_of_le` — the same when the first one leaves a new frame identity alone
-/

namespace ScriptSemantics

/-- Go on with the value of a computation, at the level of work. -/
theorem Work.Meets.bind {γ α β : Type} {C : Contract γ} {x : Comp α} {f : α → Comp β} {g : γ}
    {m : Machine} {mid : γ → Ending α → Machine → Prop} {post : γ → Ending β → Machine → Prop}
    (hx : (x m).Meets C mid g)
    (hok : ∀ g' a m', mid g' (.ok a) m' → (f a m').Meets C post g')
    (herror : ∀ g' e m', mid g' (.error e) m' → post g' (.error e) m') :
    ((x >>= f) m).Meets C post g := by
  refine Work.Meets.andThen (hx.mono fun g' ending m' hmid => ?_)
  cases ending with
  | ok a => exact hok g' a m' hmid
  | error e => exact herror g' e m' hmid

namespace Regime

variable {γ α β : Type} {R : Regime γ} {n : Nat} {P : γ → Machine → Prop}

/-- How a computation that was started with the first notes and machine may end. -/
def Ends (R : Regime γ) (n : Nat) (g : γ) (m : Machine) (g' : γ) (ending : Ending α)
    (m' : Machine) : Prop :=
  R.step n g m g' m' ∧ R.AllowsEnding ending m'

/-- A computation keeps the contract of a regime from every state of some kind, and uses up no frame
identities below a number. -/
def Runs (R : Regime γ) (n : Nat) (P : γ → Machine → Prop) (x : Comp α) : Prop :=
  ∀ g m, P g m → n ≤ m.calls.nextId → (x m).Meets R.contract (R.Ends n g m) g

/-- States of some kind are between operations, and steps lead to states of the same kind. -/
structure Stable (R : Regime γ) (n : Nat) (P : γ → Machine → Prop) : Prop where
  ready : ∀ g m, P g m → R.ready g m
  step : ∀ {g m g' m'}, R.step n g m g' m' → P g m → P g' m'

/-- In states of some kind the given nodes may be evaluated. -/
def Sees (R : Regime γ) (P : γ → Machine → Prop) (children : List NodeId) : Prop :=
  ∀ child ∈ children, ∀ g m, P g m → R.here g child m

theorem allowsEnding_ok {a : α} {m : Machine} : R.AllowsEnding (.ok a : Ending α) m :=
  fun _ h => nomatch h

theorem allowsEnding_error {e : Exit} {m : Machine} (h : R.exits e m) :
    R.AllowsEnding (.error e : Ending α) m := by
  intro e' h'
  cases h'
  exact h

theorem Ends.error {g g' : γ} {m m' : Machine} {e : Exit}
    (h : R.Ends n g m g' (.error e : Ending α) m') : R.exits e m' :=
  h.2 e rfl

/-! ### Rules for single operations -/

section Single

variable {program : Program} (laws : R.Lawful program) (ready : ∀ g m, P g m → R.ready g m)

include laws ready

theorem Runs.pure (a : α) : R.Runs n P (pure a) :=
  fun _ _ hP _ => ⟨laws.steps.refl (ready _ _ hP), allowsEnding_ok⟩

theorem Runs.settle {ending : Ending α} (allowed : ∀ g m, P g m → R.AllowsEnding ending m) :
    R.Runs n P (Comp.settle ending) :=
  fun g m hP _ => ⟨laws.steps.refl (ready _ _ hP), allowed g m hP⟩

theorem Runs.exit {e : Exit} (allowed : ∀ g m, P g m → R.exits e m) :
    R.Runs n P (Comp.exit e : Comp α) :=
  Runs.settle laws ready fun g m hP => allowsEnding_error (allowed g m hP)

theorem Runs.fail (cause : ErrorCause) : R.Runs n P (Comp.fail cause : Comp α) :=
  Runs.exit laws ready fun _ _ _ => laws.starts.error

theorem Runs.ofExcept (result : Except ErrorCause α) : R.Runs n P (Comp.ofExcept result) := by
  cases result with
  | ok a => exact Runs.pure laws ready a
  | error cause => exact Runs.fail laws ready cause

end Single

/-- A computation that runs from some conditions runs from stronger ones. -/
theorem Runs.weaken {Q : γ → Machine → Prop} {x : Comp α} (h : R.Runs n P x)
    (stronger : ∀ g m, Q g m → P g m) : R.Runs n Q x :=
  fun g m hQ => h g m (stronger g m hQ)

/-- An operation runs if it is a step. -/
theorem Runs.modify {f : Machine → Machine} (h : ∀ g m, P g m → R.step n g m g (f m)) :
    R.Runs n P (Comp.modify f) :=
  fun g m hP _ => ⟨h g m hP, allowsEnding_ok⟩

/-- An operation that yields something runs if it is a step. -/
theorem Runs.modifyGet {f : Machine → α × Machine}
    (h : ∀ g m, P g m → R.step n g m g (f m).2) : R.Runs n P (Comp.modifyGet f) :=
  fun g m hP _ => ⟨h g m hP, allowsEnding_ok⟩

/-- An operand runs where it may be evaluated. -/
theorem Runs.eval (steps : R.Steps) {child : NodeId} (here : ∀ g m, P g m → R.here g child m) :
    R.Runs n P (Comp.eval child) :=
  fun g m hP hn => ⟨here g m hP, fun _ _ _ hpost => ⟨steps.mono hn hpost.1, hpost.2⟩⟩

/-! ### Rules for sequences of operations -/

/-- The first of two computations may be held to a larger bound than the whole. -/
theorem Runs.bind_of_le (steps : R.Steps) {n' : Nat} (stable : R.Stable n' P) (le : n ≤ n')
    (bound : ∀ g m, P g m → n' ≤ m.calls.nextId) {x : Comp α} {f : α → Comp β}
    (hx : R.Runs n' P x) (hf : ∀ a, R.Runs n P (f a)) : R.Runs n P (x >>= f) := by
  intro g m hP hn
  refine Work.Meets.bind (hx g m hP (bound g m hP)) (fun g' a m' hmid => ?_) fun g' e m' hmid => ?_
  · have hn' := Nat.le_trans hn (steps.nextId_le hmid.1)
    refine (hf a g' m' (stable.step hmid.1 hP) hn').mono fun g'' ending m'' hend => ?_
    exact ⟨steps.trans (steps.mono le hmid.1) hend.1, hend.2⟩
  · exact ⟨steps.mono le hmid.1, allowsEnding_error hmid.error⟩

/-- The second of two computations may rely on less than the first. -/
theorem Runs.bind_next (steps : R.Steps) {Q : γ → Machine → Prop}
    (next : ∀ {g m g' m'}, R.step n g m g' m' → P g m → Q g' m') {x : Comp α} {f : α → Comp β}
    (hx : R.Runs n P x) (hf : ∀ a, R.Runs n Q (f a)) : R.Runs n P (x >>= f) := by
  intro g m hP hn
  refine Work.Meets.bind (hx g m hP hn) (fun g' a m' hmid => ?_) fun g' e m' hmid => ?_
  · have hn' := Nat.le_trans hn (steps.nextId_le hmid.1)
    refine (hf a g' m' (next hmid.1 hP) hn').mono fun g'' ending m'' hend => ?_
    exact ⟨steps.trans hmid.1 hend.1, hend.2⟩
  · exact ⟨hmid.1, allowsEnding_error hmid.error⟩

/-- Computations run one after the other from conditions that steps keep. -/
theorem Runs.bind (steps : R.Steps) (stable : R.Stable n P) {x : Comp α} {f : α → Comp β}
    (hx : R.Runs n P x) (hf : ∀ a, R.Runs n P (f a)) : R.Runs n P (x >>= f) :=
  Runs.bind_next steps stable.step hx hf

/-- What was read is known to the rest of the computation, as long as nothing changes. -/
theorem Runs.gets_bind {f : Machine → α} {k : α → Comp β}
    (hk : ∀ a, R.Runs n (fun g m => P g m ∧ f m = a) (k a)) :
    R.Runs n P (Comp.gets f >>= k) :=
  fun g m hP hn => hk (f m) g m ⟨hP, rfl⟩ hn

/-- After an attempt, the exit that it ended in may be under way again. -/
theorem Runs.attempt_bind (steps : R.Steps) (stable : R.Stable n P) {x : Comp α}
    {f : Ending α → Comp β} (hx : R.Runs n P x)
    (hf : ∀ ending, R.Runs n (fun g m => P g m ∧ R.AllowsEnding ending m) (f ending)) :
    R.Runs n P (Comp.attempt x >>= f) := by
  intro g m hP hn
  refine Work.Meets.andThen (Work.Meets.andThen ((hx g m hP hn).mono fun g' ending m' hmid => ?_))
  have hn' := Nat.le_trans hn (steps.nextId_le hmid.1)
  show (f ending m').Meets R.contract (R.Ends n g m) g'
  refine (hf ending g' m' ⟨stable.step hmid.1 hP, hmid.2⟩ hn').mono fun g'' ending m'' hend => ?_
  exact ⟨steps.trans hmid.1 hend.1, hend.2⟩

/-! ### Kinds of states -/

/-- An ending that is allowed stays allowed. -/
theorem Stable.andAllows (steps : R.Steps) (stable : R.Stable n P) (ending : Ending α) :
    R.Stable n (fun g m => P g m ∧ R.AllowsEnding ending m) where
  ready g m h := stable.ready g m h.1
  step hstep h := ⟨stable.step hstep h.1, fun e he => steps.exits hstep (h.2 e he)⟩

/-- Between operations, steps keep the machine ready. -/
theorem Stable.of_ready (steps : R.Steps) : R.Stable n R.ready where
  ready _ _ h := h
  step := steps.ready

/-- Steps keep what is needed at a node. -/
theorem Stable.of_here {program : Program} (laws : R.Lawful program) (id : NodeId) :
    R.Stable n (fun g m => R.here g id m) where
  ready _ _ h := laws.nodes.ready h
  step := laws.steps.here

/-- An identity that is set aside stays so while only later ones are used up. -/
theorem Stable.andReserved (steps : R.Steps) (stable : R.Stable n P) {id : FrameId}
    (lt : id.index < n) : R.Stable n (fun g m => P g m ∧ R.reserved g id m) where
  ready g m h := stable.ready g m h.1
  step hstep h := ⟨stable.step hstep h.1, steps.reserved hstep lt h.2⟩

end Regime

end ScriptSemantics
