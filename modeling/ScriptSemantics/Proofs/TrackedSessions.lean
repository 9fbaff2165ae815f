import ScriptSemantics.Proofs.TrackedRuns

/-!
# Sessions that track each other

Programs whose nodes track each other, and that are resolved in the same way, have the same events
up to names in every session.  This holds of a program and itself, where nothing is renamed: it
follows that whatever code can get at was made and given out before.

## Main Results

* `Program.Parallels.session` — two programs have the same events up to names
* `Machine.corresponds_initial` — nothing has to be renamed at first
* `Program.settled_of_mem_session` — whatever is in reach of code was given out before
-/

namespace ScriptSemantics

variable {σ : Naming} {m m' : Machine}

/-- Both machines are given what was found about their programs. -/
theorem Machine.Corresponds.setResolution (h : m.Corresponds σ m')
    (injective : Function.Injective σ.node) (resolution : Resolution) :
    ({ m with resolution } : Machine).Corresponds σ
      { m' with resolution := resolution.relabel σ.node } :=
  { h with
    owned := resolution.ownedNames_relabel injective
    unbound := resolution.isUnbound_relabel injective }

theorem Resolution.relabel_id (resolution : Resolution) : resolution.relabel id = resolution := by
  simp [relabel]

namespace Program.Parallels

variable {base : Naming} {Q : NodeId → Machine → Prop} {program program' : Program}
  (parallels : program.Parallels base Q program') (injective : Function.Injective base.node)
  (like : σ.Like base) (fuel : Nat)

include parallels injective like

/-- One `evaluate` of both programs has the same events and the same result up to names. -/
theorem evaluation {root : NodeId} (corresponds : m.Corresponds σ m') (fixed : base.node root = root)
    (resolved : ∀ predeclared, resolve program'.nodes root predeclared =
      (resolve program.nodes root predeclared).map (Resolution.relabel base.node)) :
    (σ.outlook m).SameRun Q (program.evaluation fuel root m) (program'.evaluation fuel root m')
      (program.evaluateWith fuel root m) (program'.evaluateWith fuel root m') := by
  have keys : m'.env.topBindings.keys = m.env.topBindings.keys := by
    rw [← corresponds.env.eq, Environment.topBindings_under, Assoc.keys_under]
  rw [Program.evaluation, evaluateWith, Program.evaluation, evaluateWith, keys, resolved]
  cases hresolve : resolve program.nodes root m.env.topBindings.keys with
  | error fault => exact .ended (.refl _) corresponds (fun _ _ => rfl) .nil
  | ok resolution =>
    rw [← like.node] at injective ⊢
    obtain ⟨allocated, alike⟩ := (corresponds.setResolution injective resolution).allocateFrame
    have tasks : (σ.outlook ({ m with resolution } : Machine).allocateFrame.2).Alike
        (Task.program root ({ m with resolution } : Machine).allocateFrame.1) (.program root _) :=
      fun τ hτ => congrArg (Task.program root) (alike τ hτ)
    have run := parallels.perform fuel like allocated tasks
      fun _ _ htask => (Task.program.inj htask).1 ▸ fixed
    exact run.prepend (Outlook.narrows_of_le σ (Nat.le_refl _) (Nat.le_succ _)) .nil

/-- The events of a session of both programs are the same up to names, until the condition fails. -/
theorem session (roots : List NodeId) (corresponds : m.Corresponds σ m')
    (fixed : ∀ root ∈ roots, base.node root = root)
    (resolved : ∀ root ∈ roots, ∀ predeclared, resolve program'.nodes root predeclared =
      (resolve program.nodes root predeclared).map (Resolution.relabel base.node)) :
    (∃ W : Outlook, W.Narrows (σ.outlook m) ∧
      W.SameEvents (program.session fuel roots m) (program'.session fuel roots m')) ∨
    (σ.outlook m).Parts Q (program.session fuel roots m) (program'.session fuel roots m') := by
  induction roots generalizing σ m m' with
  | nil => exact .inl ⟨_, .refl _, .nil⟩
  | cons root rest ih =>
    obtain ⟨fixedHere, fixedRest⟩ := List.forall_mem_cons.mp fixed
    obtain ⟨here, others⟩ := List.forall_mem_cons.mp resolved
    have first := evaluation parallels injective like fuel corresponds fixedHere here
    rw [Program.session, Program.session]
    generalize program.evaluation fuel root m = events at first ⊢
    generalize program'.evaluation fuel root m' = events' at first ⊢
    generalize program.evaluateWith fuel root m = result at first ⊢
    generalize program'.evaluateWith fuel root m' = result' at first ⊢
    cases first with
    | @stopped W narrows same =>
      rw [List.append_nil, List.append_nil]
      exact .inl ⟨W, narrows, same⟩
    | ended narrows corresponds₁ alike same =>
      rcases ih (like.narrow narrows) corresponds₁ fixedRest others with ⟨W, later, sameRest⟩ | parts
      · exact .inl ⟨W, later.trans narrows, List.rel_append (same.mono later) sameRest⟩
      · exact .inr (parts.prepend narrows same)
    | parted parts => exact .inr (parts.append _ _)

end Program.Parallels

/-! ### What was given out -/

/-- Nothing has to be renamed at first, if the host binds no closures. -/
theorem Machine.corresponds_initial (hproc : σ.proc = id) (hframe : σ.frame = id)
    (policy : DepthPolicy) {locals : List (Name × Value)}
    (noProcs : ∀ pair ∈ locals, pair.2.procs = []) :
    (Machine.initial policy locals).Corresponds σ (.initial policy locals) := by
  have bare : (Machine.initial policy []).Corresponds σ (.initial policy []) := {
    env := fun _ _ => Environment.initial_under
    closures := fun _ _ h => by cases h
    methods := rfl
    frames := fun _ _ => rfl
    limit := rfl
    procs := fun _ => by rw [hproc]; rfl
    ids := fun _ => by rw [hframe]; rfl
    owned := fun _ => rfl
    unbound := fun _ => rfl }
  refine List.foldlRecOn (motive := fun env => Corresponds σ
    { initial policy [] with env } { initial policy [] with env }) locals _ bare fun env h pair hpair =>
      h.defineLocal pair.1 fun τ _ => ?_
  have same : under τ pair.2 = under .same pair.2 := Value.under_congr (by
    rw [noProcs pair hpair]
    exact List.forall_mem_nil _)
  exact same.trans (Value.under_same _)

/-- At every event of a session, everything in reach of code was given out before: it stays the same
when other things are renamed. -/
theorem Program.settled_of_mem_session {program : Program} {fuel : Nat} {roots : List NodeId}
    {policy : DepthPolicy} {locals : List (Name × Value)}
    (noProcs : ∀ pair ∈ locals, pair.2.procs = []) {event : Event}
    (hevent : event ∈ program.session fuel roots (.initial policy locals)) :
    event.machine.Corresponds .same event.machine := by
  have initial := Machine.corresponds_initial (σ := .same) rfl rfl policy noProcs
  have resolved : ∀ root predeclared, resolve program.nodes root predeclared =
      (resolve program.nodes root predeclared).map (Resolution.relabel id) := by
    intro root predeclared
    cases resolve program.nodes root predeclared with
    | error => rfl
    | ok resolution => exact congrArg Except.ok resolution.relabel_id.symm
  obtain ⟨W, narrows, same⟩ := (program.parallels_self.session Function.injective_id ⟨rfl, rfl, rfl⟩
    fuel roots initial (fun _ _ => rfl) fun root _ => resolved root).resolve_right
      fun parts => parts.elim fun _ _ _ => trivial
  obtain ⟨σ, later, corresponds⟩ := List.forall₂_same.mp same event hevent
  have nothing : W.naming = .same := narrows.naming_eq trivial trivial
  have aligned : σ.aligned := of_eq_true (later.allows.aligned.symm.trans (congrArg _ nothing))
  have inStep : σ.inStep := of_eq_true (later.allows.inStep.symm.trans (congrArg _ nothing))
  obtain rfl : σ = .same := (later.naming_eq aligned inStep).symm.trans nothing
  cases event with
  | enter | leave => exact corresponds.1

end ScriptSemantics
