import ScriptSemantics.Proofs.Contract
import ScriptSemantics.Proofs.Coupling

/-!
# Computations in lock step

Two computations on coupled machines go in lock step when they ask for the same tasks, up to the
renaming of frame identities, and end in the same way, as long as the tasks do.  There is one rule
for each way of putting computations together.

## Main Definitions

* `Work.Matches` — two pieces of work go in lock step
* `Coupling.Pairs` — two computations go in lock step from coupled machines

## Main Results

* `Coupling.Pairs.bind`, `Coupling.Pairs.attempt_bind`, `Coupling.Pairs.bracket` — the rules
-/

namespace ScriptSemantics

/-- Two pieces of work ask for the same tasks of coupled machines, and end as they should when the
tasks end in the same way on machines that are coupled again. -/
def Work.Matches {α : Type} (C : Coupling)
    (post : Ledger → Ending α → Machine → Ledger → Ending α → Machine → Prop) :
    Work α → Work α → Ledger → Ledger → Prop
  | done ending m, done ending' m', g, g' => post g ending m g' ending' m'
  | stuck, stuck, _, _ => True
  | ask task m resume, ask task' m' resume', g, g' =>
    C.Related g m g' m' ∧ task.Proper C.ids ∧ task' = task.rename C.ids ∧
      ∀ g₁ ending m₁ g₁' m₁', C.Related g₁ m₁ g₁' m₁' → ending.Proper C.ids →
        (resume ending m₁).Matches C post (resume' (ending.rename C.ids) m₁') g₁ g₁'
  | _, _, _, _ => False

namespace Work.Matches

variable {α β : Type} {C : Coupling} {g g' : Ledger}

/-- Work that matches ends in what is asked, and so in anything weaker. -/
theorem mono {post post' : Ledger → Ending α → Machine → Ledger → Ending α → Machine → Prop}
    {w w' : Work α} (h : w.Matches C post w' g g')
    (weaker : ∀ g ending m g' ending' m', post g ending m g' ending' m' →
      post' g ending m g' ending' m') : w.Matches C post' w' g g' := by
  induction w generalizing w' g g' with
  | done ending m =>
    cases w' with
    | done ending' m' => exact weaker _ _ _ _ _ _ h
    | stuck | ask => exact h.elim
  | stuck =>
    cases w' with
    | stuck => trivial
    | done | ask => exact h.elim
  | ask task m resume ih =>
    cases w' with
    | ask task' m' resume' =>
      obtain ⟨related, proper, htask, hresume⟩ := h
      exact ⟨related, proper, htask, fun g₁ ending m₁ g₁' m₁' hrelated hending =>
        ih ending m₁ (hresume g₁ ending m₁ g₁' m₁' hrelated hending)⟩
    | done | stuck => exact h.elim

/-- Work that matches may be continued by work that matches. -/
theorem andThen {post : Ledger → Ending β → Machine → Ledger → Ending β → Machine → Prop}
    {w w' : Work α} {next next' : Ending α → Machine → Work β}
    (h : w.Matches C (fun g ending m g' ending' m' =>
      (next ending m).Matches C post (next' ending' m') g g') w' g g') :
    (w.andThen next).Matches C post (w'.andThen next') g g' := by
  induction w generalizing w' g g' with
  | done ending m =>
    cases w' with
    | done ending' m' => exact h
    | stuck | ask => exact h.elim
  | stuck =>
    cases w' with
    | stuck => trivial
    | done | ask => exact h.elim
  | ask task m resume ih =>
    cases w' with
    | ask task' m' resume' =>
      obtain ⟨related, proper, htask, hresume⟩ := h
      exact ⟨related, proper, htask, fun g₁ ending m₁ g₁' m₁' hrelated hending =>
        ih ending m₁ (hresume g₁ ending m₁ g₁' m₁' hrelated hending)⟩
    | done | stuck => exact h.elim

end Work.Matches

namespace Coupling

variable {α β : Type} {C : Coupling}

/-- Two computations end in the same way, and the machines are coupled again. -/
def Ends (C : Coupling) (g : Ledger) (ending : Ending α) (m : Machine) (g' : Ledger)
    (ending' : Ending α) (m' : Machine) : Prop :=
  C.Related g m g' m' ∧ ending.Proper C.ids ∧ ending' = ending.rename C.ids

/-- Two computations go in lock step from coupled machines. -/
def Pairs (C : Coupling) (x x' : Comp α) : Prop :=
  ∀ g m g' m', C.Related g m g' m' → (x m).Matches C C.Ends (x' m') g g'

namespace Pairs

variable {x x' : Comp α}

/-! ### Single operations -/

theorem pure (a : α) : C.Pairs (pure a) (pure a) :=
  fun _ _ _ _ related => ⟨related, trivial, rfl⟩

/-- An ending goes alike with the one that is renumbered. -/
theorem settle (ending : Ending α) (proper : ending.Proper C.ids) :
    C.Pairs (Comp.settle ending) (Comp.settle (ending.rename C.ids)) :=
  fun _ _ _ _ related => ⟨related, proper, rfl⟩

/-- An exit addresses the renumbered activation on the other machine. -/
theorem exit {e : Exit} (proper : e.Proper C.ids) :
    C.Pairs (Comp.exit e : Comp α) (Comp.exit (e.rename C.ids)) :=
  settle (.error e) proper

theorem fail (cause : ErrorCause) : C.Pairs (Comp.fail cause : Comp α) (Comp.fail cause) :=
  exit (e := .error { cause }) trivial

theorem ofExcept (result : Except ErrorCause α) :
    C.Pairs (Comp.ofExcept result) (Comp.ofExcept result) := by
  cases result with
  | ok a => exact pure a
  | error cause => exact fail cause

theorem outOfFuel : C.Pairs (Comp.outOfFuel : Comp α) Comp.outOfFuel :=
  fun _ _ _ _ _ => trivial

/-- An operation goes alike if it keeps machines coupled. -/
theorem modify {f f' : Machine → Machine}
    (h : ∀ g m g' m', C.Related g m g' m' → C.Related g (f m) g' (f' m')) :
    C.Pairs (Comp.modify f) (Comp.modify f') :=
  fun g m g' m' related => ⟨h g m g' m' related, trivial, rfl⟩

/-- An operation goes alike if it keeps machines coupled and yields the same. -/
theorem modifyGet {f f' : Machine → α × Machine}
    (h : ∀ g m g' m', C.Related g m g' m' →
      (f' m').1 = (f m).1 ∧ C.Related g (f m).2 g' (f' m').2) :
    C.Pairs (Comp.modifyGet f) (Comp.modifyGet f') := by
  intro g m g' m' related
  obtain ⟨hvalue, hrelated⟩ := h g m g' m' related
  exact ⟨hrelated, trivial, congrArg Except.ok hvalue⟩

/-- A task goes alike with the one that is renumbered. -/
theorem perform (task : Task) (proper : task.Proper C.ids) :
    C.Pairs (Comp.perform task) (Comp.perform (task.rename C.ids)) :=
  fun _ _ _ _ related => ⟨related, proper, rfl, fun _ _ _ _ _ hrelated hending =>
    ⟨hrelated, hending, rfl⟩⟩

theorem eval (id : NodeId) : C.Pairs (Comp.eval id) (Comp.eval id) :=
  perform (.node id) trivial

theorem store (site : NodeId) (name : Name) (value : Value) :
    C.Pairs (Comp.store site name value) (Comp.store site name value) :=
  perform (.store site name value) trivial

/-! ### Sequences of operations -/

/-- Computations go alike one after the other. -/
theorem bind {f f' : α → Comp β} (hx : C.Pairs x x') (hf : ∀ a, C.Pairs (f a) (f' a)) :
    C.Pairs (x >>= f) (x' >>= f') := by
  intro g m g' m' related
  refine Work.Matches.andThen ((hx g m g' m' related).mono ?_)
  rintro g₁ ending m₁ g₁' ending' m₁' ⟨hrelated, hproper, rfl⟩
  cases ending with
  | ok a => exact hf a g₁ m₁ g₁' m₁' hrelated
  | error e => exact ⟨hrelated, hproper, rfl⟩

/-- What was read may be told apart, as long as the computations go on in lock step. -/
theorem gets_bind {γ : Type} {f f' : Machine → γ} {k k' : γ → Comp β}
    (h : ∀ g m g' m', C.Related g m g' m' →
      (k (f m) m).Matches C C.Ends (k' (f' m') m') g g') :
    C.Pairs (Comp.gets f >>= k) (Comp.gets f' >>= k') :=
  h

/-- What both machines agree on may be read. -/
theorem gets_bind_same {γ : Type} {f : Machine → γ} {k k' : γ → Comp β}
    (same : ∀ g m g' m', C.Related g m g' m' → f m' = f m) (hk : ∀ a, C.Pairs (k a) (k' a)) :
    C.Pairs (Comp.gets f >>= k) (Comp.gets f >>= k') := by
  refine gets_bind fun g m g' m' related => ?_
  rw [same g m g' m' related]
  exact hk (f m) g m g' m' related

/-- Both computations take a frame identity. -/
theorem allocate_bind {f f' : FrameId → Comp β}
    (hf : ∀ id, C.ids.Occurs id → C.Pairs (f id) (f' (C.ids.new id))) :
    C.Pairs (Comp.allocateFrame >>= f) (Comp.allocateFrame >>= f') := by
  intro g m g' m' related
  obtain ⟨hoccurs, hnew, hrelated⟩ := related.allocateFrame
  show (f m.allocateFrame.1 m.allocateFrame.2).Matches C C.Ends
    (f' m'.allocateFrame.1 m'.allocateFrame.2) g g'
  rw [hnew]
  exact hf _ hoccurs _ _ _ _ hrelated

/-- What follows an attempt goes alike after endings that are renumbered. -/
theorem attempt_bind {f f' : Ending α → Comp β} (hx : C.Pairs x x')
    (hf : ∀ ending : Ending α, ending.Proper C.ids →
      C.Pairs (f ending) (f' (ending.rename C.ids))) :
    C.Pairs (Comp.attempt x >>= f) (Comp.attempt x' >>= f') := by
  intro g m g' m' related
  refine Work.Matches.andThen (Work.Matches.andThen ((hx g m g' m' related).mono ?_))
  rintro g₁ ending m₁ g₁' ending' m₁' ⟨hrelated, hproper, rfl⟩
  exact hf ending hproper g₁ m₁ g₁' m₁' hrelated

/-- Operations before and after may differ, as long as they keep machines coupled. -/
theorem bracket {before after before' after' : Machine → Machine} (hx : C.Pairs x x')
    (hbefore : ∀ g m g' m', C.Related g m g' m' → C.Related g (before m) g' (before' m'))
    (hafter : ∀ g m g' m', C.Related g m g' m' → C.Related g (after m) g' (after' m')) :
    C.Pairs (Comp.bracket before after x) (Comp.bracket before' after' x') := by
  intro g m g' m' related
  refine Work.Matches.andThen ((hx _ _ _ _ (hbefore g m g' m' related)).mono ?_)
  rintro g₁ ending m₁ g₁' ending' m₁' ⟨hrelated, hproper, rfl⟩
  exact ⟨hafter _ _ _ _ hrelated, hproper, rfl⟩

theorem inTransparentScope (hx : C.Pairs x x') :
    C.Pairs (Comp.inTransparentScope x) (Comp.inTransparentScope x') :=
  bracket hx (fun _ _ _ _ related => related.enterTransparent)
    fun _ _ _ _ related => related.leaveScope

end Pairs

end Coupling

end ScriptSemantics
