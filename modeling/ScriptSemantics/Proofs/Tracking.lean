import ScriptSemantics.Proofs.Correspondence

/-!
# Computations that track each other

Two computations track each other when they ask for the same tasks up to names, whatever these tasks
make of corresponding machines, and end in the same way.  There is one rule for each way of putting
computations together.

## Main Definitions

* `Outlook.Ends` — two ends are the same up to names, on machines that correspond
* `Work.Tracks` — some work asks for the same tasks up to names
* `Outlook.Tracks` — so do computations, on all machines that correspond in the outlook

## Main Results

* `Outlook.Tracks.bind`, `Outlook.Tracks.perform`, ... — the rules
-/

namespace ScriptSemantics

variable {α β : Type} [Named α] [Named β]

/-- Two ends are the same up to names, on machines that correspond; what was alike before still
is. -/
def Outlook.Ends (W : Outlook) (ending : Ending α) (m : Machine) (ending' : Ending α)
    (m' : Machine) : Prop :=
  ∃ σ : Naming, (σ.outlook m).Narrows W ∧ m.Corresponds σ m' ∧ (σ.outlook m).Alike ending ending'

/-- Two pieces of work ask for the same tasks up to names, none of which is a program.  They go on
to track each other when the tasks end in the same way on machines that correspond again, and end in
the same way themselves. -/
def Work.Tracks (W : Outlook) : Work α → Work α → Prop
  | done ending m, done ending' m' => W.Ends ending m ending' m'
  | stuck, stuck => True
  | ask task m resume, ask task' m' resume' =>
    (∀ root id, task ≠ .program root id) ∧
    ∃ σ : Naming, (σ.outlook m).Narrows W ∧ m.Corresponds σ m' ∧ (σ.outlook m).Alike task task' ∧
      ∀ (σ₁ : Naming) ending m₁ ending' m₁', (σ₁.outlook m₁).Narrows (σ.outlook m) →
        m₁.Corresponds σ₁ m₁' → (σ₁.outlook m₁).Alike ending ending' →
        (resume ending m₁).Tracks (σ₁.outlook m₁) (resume' ending' m₁')
  | _, _ => False

/-- Endings that are the same at a later moment are the same seen from an earlier one. -/
theorem Outlook.Ends.mono {W W' : Outlook} {ending ending' : Ending α} {m m' : Machine}
    (h : W'.Ends ending m ending' m') (narrows : W'.Narrows W) : W.Ends ending m ending' m' := by
  obtain ⟨σ, later, corresponds, alike⟩ := h
  exact ⟨σ, later.trans narrows, corresponds, alike⟩

namespace Work.Tracks

variable {W W' : Outlook} {w w' : Work α}

/-- Work that is tracked from a later moment on is tracked from an earlier one on. -/
theorem mono (h : w.Tracks W' w') (narrows : W'.Narrows W) : w.Tracks W w' := by
  cases w with
  | done ending m =>
    cases w' with
    | done ending' m' => exact Outlook.Ends.mono h narrows
    | stuck | ask => exact h.elim
  | stuck =>
    cases w' with
    | stuck => trivial
    | done | ask => exact h.elim
  | ask task m resume =>
    cases w' with
    | ask task' m' resume' =>
      obtain ⟨inner, σ, later, rest⟩ := h
      exact ⟨inner, σ, later.trans narrows, rest⟩
    | done | stuck => exact h.elim

/-- Work goes on with what tracks each other. -/
theorem andThen {next next' : Ending α → Machine → Work β} (h : w.Tracks W w')
    (hnext : ∀ (σ : Naming) ending m ending' m', (σ.outlook m).Narrows W → m.Corresponds σ m' →
      (σ.outlook m).Alike ending ending' →
      (next ending m).Tracks (σ.outlook m) (next' ending' m')) :
    (w.andThen next).Tracks W (w'.andThen next') := by
  induction w generalizing W w' with
  | done ending m =>
    cases w' with
    | done ending' m' =>
      obtain ⟨σ, later, corresponds, alike⟩ := h
      exact (hnext σ ending m ending' m' later corresponds alike).mono later
    | stuck | ask => exact h.elim
  | stuck =>
    cases w' with
    | stuck => trivial
    | done | ask => exact h.elim
  | ask task m resume ih =>
    cases w' with
    | ask task' m' resume' =>
      obtain ⟨inner, σ, later, corresponds, alike, hresume⟩ := h
      refine ⟨inner, σ, later, corresponds, alike, fun σ₁ ending m₁ ending' m₁' later₁ corresponds₁ alike₁ =>
        ih ending m₁ (hresume σ₁ ending m₁ ending' m₁' later₁ corresponds₁ alike₁) ?_⟩
      exact fun σ₂ ending₂ m₂ ending₂' m₂' later₂ =>
        hnext σ₂ ending₂ m₂ ending₂' m₂' (later₂.trans (later₁.trans later))
    | done | stuck => exact h.elim

end Work.Tracks

namespace Outlook

variable {W : Outlook}

/-- Two computations track each other on all machines that correspond in an outlook. -/
def Tracks (W : Outlook) (x x' : Comp α) : Prop :=
  ∀ (σ : Naming) (m m' : Machine), (σ.outlook m).Narrows W → m.Corresponds σ m' →
    (x m).Tracks (σ.outlook m) (x' m')

namespace Tracks

variable {x x' : Comp α}

/-! ### Single operations -/

theorem settle {ending ending' : Ending α} (alike : W.Alike ending ending') :
    W.Tracks (Comp.settle ending) (Comp.settle ending') :=
  fun σ _ _ later corresponds => ⟨σ, .refl _, corresponds, alike.mono later⟩

theorem pure {a a' : α} (alike : W.Alike a a') : W.Tracks (pure a) (pure a') :=
  settle fun τ hτ => congrArg Except.ok (alike τ hτ)

theorem exit {e e' : Exit} (alike : W.Alike e e') :
    W.Tracks (Comp.exit e : Comp α) (Comp.exit e') :=
  settle fun τ hτ => congrArg Except.error (alike τ hτ)

theorem fail (cause : ErrorCause) : W.Tracks (Comp.fail cause : Comp α) (Comp.fail cause) :=
  exit fun _ _ => rfl

theorem ofExcept {result result' : Except ErrorCause α} (alike : W.Alike result result') :
    W.Tracks (Comp.ofExcept result) (Comp.ofExcept result') := by
  obtain rfl := alike.eq
  cases result with
  | ok a => exact pure fun τ hτ => Except.ok.inj (alike τ hτ)
  | error cause => exact fail cause

theorem outOfFuel : W.Tracks (Comp.outOfFuel : Comp α) Comp.outOfFuel :=
  fun _ _ _ _ _ => trivial

/-- An operation is tracked if it keeps machines the same up to names and yields the same. -/
theorem modifyGet {f f' : Machine → α × Machine}
    (keeps : ∀ (σ : Naming) (m m' : Machine), (σ.outlook m).Narrows W → m.Corresponds σ m' →
      (f m).2.Corresponds σ (f' m').2 ∧ (σ.outlook (f m).2).Narrows (σ.outlook m) ∧
        (σ.outlook (f m).2).Alike (f m).1 (f' m').1) :
    W.Tracks (Comp.modifyGet f) (Comp.modifyGet f') := by
  intro σ m m' later corresponds
  obtain ⟨kept, narrows, alike⟩ := keeps σ m m' later corresponds
  exact ⟨σ, narrows, kept, fun τ hτ => congrArg Except.ok (alike τ hτ)⟩

/-- An operation is tracked if it keeps machines the same up to names. -/
theorem modify {f f' : Machine → Machine}
    (keeps : ∀ (σ : Naming) (m m' : Machine), (σ.outlook m).Narrows W → m.Corresponds σ m' →
      (f m).Corresponds σ (f' m') ∧ (σ.outlook (f m)).Narrows (σ.outlook m)) :
    W.Tracks (Comp.modify f) (Comp.modify f') := by
  intro σ m m' later corresponds
  obtain ⟨kept, narrows⟩ := keeps σ m m' later corresponds
  exact ⟨σ, narrows, kept, fun _ _ => rfl⟩

/-- A task other than a program is tracked by the task under other names. -/
theorem perform {task task' : Task} (inner : ∀ root id, task ≠ .program root id)
    (alike : W.Alike task task') : W.Tracks (Comp.perform task) (Comp.perform task') :=
  fun σ _ _ later corresponds =>
    ⟨inner, σ, .refl _, corresponds, alike.mono later,
      fun σ₁ _ _ _ _ _ corresponds₁ alike₁ => ⟨σ₁, .refl _, corresponds₁, alike₁⟩⟩

theorem eval (id : NodeId) : W.Tracks (Comp.eval id) (Comp.eval id) :=
  perform nofun fun _ _ => rfl

theorem store (site : NodeId) (name : Name) {value value' : Value} (alike : W.Alike value value') :
    W.Tracks (Comp.store site name value) (Comp.store site name value') :=
  perform nofun fun τ hτ => congrArg (Task.store site name) (alike τ hτ)

/-! ### Putting computations together -/

/-- Computations are tracked one after the other, with the names given by then. -/
theorem bind {f f' : α → Comp β} (hx : W.Tracks x x')
    (hf : ∀ W' : Outlook, W'.Narrows W → ∀ a a', W'.Alike a a' → W'.Tracks (f a) (f' a')) :
    W.Tracks (x >>= f) (x' >>= f') := by
  intro σ m m' later corresponds
  refine Work.Tracks.andThen (hx σ m m' later corresponds) ?_
  intro σ₁ ending m₁ ending' m₁' later₁ corresponds₁ alike
  obtain rfl := alike.eq
  cases ending with
  | error e =>
    exact ⟨σ₁, .refl _, corresponds₁,
      fun τ hτ => congrArg Except.error (Except.error.inj (alike τ hτ))⟩
  | ok a =>
    exact hf (σ₁.outlook m₁) (later₁.trans later) a _ (fun τ hτ => Except.ok.inj (alike τ hτ)) σ₁ m₁
      m₁' (.refl _) corresponds₁

/-- What is read off both machines may depend on their names at the moment. -/
theorem gets_bind {γ : Type} {f f' : Machine → γ} {k k' : γ → Comp β}
    (hk : ∀ (σ : Naming) (m m' : Machine), (σ.outlook m).Narrows W → m.Corresponds σ m' →
      (σ.outlook m).Tracks (k (f m)) (k' (f' m'))) :
    W.Tracks (Comp.gets f >>= k) (Comp.gets f' >>= k') :=
  fun σ m m' later corresponds => hk σ m m' later corresponds σ m m' (.refl _) corresponds

/-- What is read is the same up to names. -/
theorem gets {f f' : Machine → α}
    (alike : ∀ (σ : Naming) (m m' : Machine), (σ.outlook m).Narrows W → m.Corresponds σ m' →
      (σ.outlook m).Alike (f m) (f' m')) : W.Tracks (Comp.gets f) (Comp.gets f') :=
  fun σ m m' later corresponds => ⟨σ, .refl _, corresponds,
    fun τ hτ => congrArg Except.ok (alike σ m m' later corresponds τ hτ)⟩

/-- Both runs set an identity aside. -/
theorem allocate : W.Tracks Comp.allocateFrame Comp.allocateFrame := by
  refine modifyGet fun σ m m' later corresponds => ?_
  obtain ⟨allocated, alike⟩ := corresponds.allocateFrame
  exact ⟨allocated, Outlook.narrows_of_le σ (Nat.le_refl _) (Nat.le_succ _), alike⟩

theorem attempt (hx : W.Tracks x x') : W.Tracks (Comp.attempt x) (Comp.attempt x') := by
  intro σ m m' later corresponds
  refine Work.Tracks.andThen (hx σ m m' later corresponds) ?_
  intro σ₁ ending m₁ ending' m₁' later₁ corresponds₁ alike
  exact ⟨σ₁, .refl _, corresponds₁, fun τ hτ => congrArg Except.ok (alike τ hτ)⟩

/-- Endings may be changed in ways that go with the names. -/
theorem mapEnding {f f' : Machine → Ending α → Ending β} (hx : W.Tracks x x')
    (hf : ∀ (σ : Naming) (m m' : Machine), (σ.outlook m).Narrows W → m.Corresponds σ m' →
      ∀ τ, (σ.outlook m).Allows τ → ∀ ending, f' m' (under τ ending) = under τ (f m ending)) :
    W.Tracks (Comp.mapEnding f x) (Comp.mapEnding f' x') := by
  intro σ m m' later corresponds
  refine Work.Tracks.andThen (hx σ m m' later corresponds) ?_
  intro σ₁ ending m₁ ending' m₁' later₁ corresponds₁ alike
  exact ⟨σ₁, .refl _, corresponds₁, fun τ hτ => by
    rw [← hf σ₁ m₁ m₁' (later₁.trans later) corresponds₁ τ hτ, alike τ hτ]⟩

/-- Closures and frame identities are not given out before and after. -/
theorem bracket {before after : Machine → Machine} (hx : W.Tracks x x')
    (enters : ∀ (σ : Naming) (m m' : Machine), m.Corresponds σ m' → (before m).Corresponds σ (before m'))
    (leaves : ∀ (σ : Naming) (m m' : Machine), m.Corresponds σ m' → (after m).Corresponds σ (after m'))
    (unchanged : ∀ (σ : Naming) (m : Machine),
      σ.outlook (before m) = σ.outlook m ∧ σ.outlook (after m) = σ.outlook m) :
    W.Tracks (Comp.bracket before after x) (Comp.bracket before after x') := by
  intro σ m m' later corresponds
  have entered := hx σ (before m) (before m') ((unchanged σ m).1 ▸ later) (enters σ m m' corresponds)
  rw [(unchanged σ m).1] at entered
  refine Work.Tracks.andThen entered ?_
  intro σ₁ ending m₁ ending' m₁' _ corresponds₁ alike
  rw [← (unchanged σ₁ m₁).2] at alike ⊢
  exact ⟨σ₁, .refl _, leaves σ₁ m₁ m₁' corresponds₁, alike⟩

theorem inTransparentScope (hx : W.Tracks x x') :
    W.Tracks (Comp.inTransparentScope x) (Comp.inTransparentScope x') :=
  hx.bracket (fun _ _ _ => Machine.Corresponds.enterTransparent)
    (fun _ _ _ => Machine.Corresponds.leaveScope) fun _ _ => ⟨rfl, rfl⟩

end Tracks

end Outlook

end ScriptSemantics
