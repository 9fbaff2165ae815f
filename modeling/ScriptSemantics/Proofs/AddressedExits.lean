import ScriptSemantics.Proofs.Sessions

/-!
# Addressed exits arrive

An addressed exit arrives.  While it is under way its addressee is on the stack, and one task after
the other is left by it until the addressee turns it into a value.  A cleanup part that runs on the
way and has a value does not change that, and only an exit of a cleanup part takes its place.  So no
`return` and no `break` ever reaches a host.

## Main Definitions

* `Exit.IsLive` — the addressee of an exit is on the stack
* `Exit.MayLeave` — an exit is not addressed to the activation that it leaves, nor to a loop inside

## Main Results

* `Program.addressed_exits_arrive` — for every exit of every task of every session
-/

namespace ScriptSemantics

/-- The addressee of an exit is on the stack. -/
def Exit.IsLive (m : Machine) : Exit → Prop
  | returnTo target _ | breakTo (.frame target) _ => m.calls.isLive target = true
  | breakTo .loop _ => ∃ frame, m.frame? = some frame ∧ 0 < frame.loopDepth
  | _ => True

/-- An exit that leaves an activation is neither addressed to it nor to a loop inside of it. -/
def Exit.MayLeave (e : Exit) (task : Task) : Prop :=
  ∀ id, task.activation? = some id → ∀ value,
    e ≠ .returnTo id value ∧ e ≠ .breakTo (.frame id) value ∧ e ≠ .breakTo .loop value

theorem Exit.Addressee.isLive {e : Exit} {m : Machine} (h : e.Addressee m.calls) : e.IsLive m := by
  cases e with
  | returnTo target value =>
    obtain ⟨frame, hmem, hid, -⟩ := h
    exact CallStack.isLive_iff.mpr ⟨frame, hmem, hid⟩
  | breakTo target value =>
    cases target with
    | loop => exact h
    | frame target =>
      obtain ⟨frame, hmem, hid, -⟩ := h
      exact CallStack.isLive_iff.mpr ⟨frame, hmem, hid⟩
  | _ => trivial

namespace Ledger

variable {g g' : Ledger} {task : Task} {e : Exit} {m m' : Machine}

/-- No frame on the stack has an identity that is only set aside. -/
theorem Ready.not_isLive (h : Ready g m) {id : FrameId} (reserved : Reserved g id m) :
    m.calls.isLive id = false := by
  rw [Bool.eq_false_iff]
  intro hlive
  obtain ⟨frame, hmem, hid⟩ := CallStack.isLive_iff.mp hlive
  obtain ⟨s, fits, -⟩ := h.layers.fits_of_mem hmem
  obtain ⟨a, hnoted, -, ha⟩ := fits.activation
  exact reserved.2 s a fits.owning hnoted (ha.trans hid)

theorem mayLeave_of_closes {id : FrameId} (hid : task.activation? = some id) (ready : Ready g m)
    (reserved : Reserved g id m)
    (hpost : (regime : Regime Ledger).Closes id g m g' (.error e) m') : e.MayLeave task := by
  obtain ⟨hstep, hexits, hcrosses⟩ := hpost
  have hlive := (hexits e rfl).isLive
  have hgone : m'.calls.isLive id = false := by
    rw [CallStack.isLive, hstep.grows.frames]
    exact ready.not_isLive reserved
  intro id' hid' value
  obtain rfl : id = id' := Option.some.inj (hid.symm.trans hid')
  refine ⟨?_, ?_, hcrosses e rfl value⟩
  · rintro rfl
    exact Bool.false_ne_true (hgone.symm.trans hlive)
  · rintro rfl
    exact Bool.false_ne_true (hgone.symm.trans hlive)

/-- What the conditions of the ledger say when a task is left by an exit. -/
theorem of_leave (hpre : regime.contract.pre g task m)
    (hpost : regime.contract.post g task m g' (.error e) m') :
    e.IsLive m' ∧ e.MayLeave task ∧ (m'.calls.frames.map Frame.id).Nodup ∧
      (task.IsProgram → ¬ e.IsAddressed) := by
  have nodup : ∀ {n}, Ready g m → Step n g m g' m' → (m'.calls.frames.map Frame.id).Nodup :=
    fun ready hstep => (ready.step hstep).ids
  cases task with
  | node | store =>
    exact ⟨(hpost.2 e rfl).isLive, nofun, nodup hpre hpost.1, nofun⟩
  | program root id =>
    obtain ⟨idle, herror⟩ := hpost
    obtain ⟨error, rfl⟩ := herror e rfl
    refine ⟨trivial, fun _ _ _ => ⟨nofun, nofun, nofun⟩, ?_, fun _ h => h⟩
    rw [idle.frames]
    exact List.nodup_nil
  | method callee id given block =>
    exact ⟨(hpost.2.1 e rfl).isLive, mayLeave_of_closes rfl hpre.1 hpre.2.1 hpost,
      nodup hpre.1 hpost.1, nofun⟩
  | closure proc id given block =>
    exact ⟨(hpost.2.1 e rfl).isLive, mayLeave_of_closes rfl hpre.1 hpre.2 hpost,
      nodup hpre.1 hpost.1, nofun⟩
  | loop block id =>
    exact ⟨(hpost.2.1 e rfl).isLive, mayLeave_of_closes rfl hpre.1 hpre.2 hpost,
      nodup hpre.1 hpost.1, nofun⟩

end Ledger

/-- At every moment of every session at which a task is left by an exit: the addressee of the exit
is on the stack, where no two frames have the same identity; the task is not the addressee, and a
`break` of a loop stays in the activation of the loop; a program is never left by an addressed exit;
and an addressed exit goes its way over the rest of the session.  One task around after the other is
left by it, also after a cleanup part that has a value, until the addressee is left with the value
that the exit carries, unless a cleanup part ends in an exit of its own. -/
theorem Program.addressed_exits_arrive (program : Program) (fuel : Nat) (roots : List NodeId)
    (policy : DepthPolicy) (locals : List (Name × Value)) {i : Nat} {task : Task} {e : Exit}
    {m : Machine}
    (left : (program.session fuel roots (.initial policy locals))[i]? =
      some (.leave task (.error e) m)) :
    e.IsLive m ∧ (m.calls.frames.map Frame.id).Nodup ∧ e.MayLeave task ∧
      (task.IsProgram → ¬ e.IsAddressed) ∧
      (e.IsAddressed → (Passage.addressed program).Journey e m.calls.frames
        ((program.session fuel roots (.initial policy locals)).drop (i + 1))) := by
  have idle := Ledger.idle_initial policy locals
  have admits := Ledger.admits_session program fuel idle roots
  obtain ⟨g₀, m₀, hpre, hpost⟩ := admits.allows left
  obtain ⟨hlive, hleave, hnodup, hprogram⟩ := Ledger.of_leave hpre hpost
  refine ⟨hlive, hnodup, hleave, hprogram, fun he => ?_⟩
  have journey := (Program.travels_session program idle fuel roots).journey left he
  rw [List.append_nil] at journey
  exact journey

/-- The program `def m; begin; return 5; ensure; 1; end; end; m`, where `m` is the first name that
is not reserved. -/
def Program.returning : Program where
  names := .initial
  nodes := ⟨#[.int 5, .returnWith (some ⟨0⟩), .int 1, .begin ⟨1⟩ [] none (some ⟨2⟩),
    .define ⟨34⟩ [] ⟨3⟩, .call ⟨34⟩ [] none, .seq [⟨4⟩, ⟨5⟩]]⟩

/-- The `return` of the method is under way to the second activation.  The cleanup part has a value,
its node is left by the `return`, and the method has the value of the `return`. -/
theorem Program.returning_arrives :
    ∃ m, (returning.session 8 [⟨6⟩] (.initial .unlimited []))[10]? =
        some (.leave (.node ⟨1⟩) (.error (.returnTo ⟨1⟩ (.int 5))) m) ∧
      (Exit.returnTo ⟨1⟩ (.int 5)).IsAddressed ∧ m.calls.isLive ⟨1⟩ = true ∧
      (Passage.addressed returning).Journey (.returnTo ⟨1⟩ (.int 5)) m.calls.frames
        ((returning.session 8 [⟨6⟩] (.initial .unlimited [])).drop 11) ∧
      (∃ m, (returning.session 8 [⟨6⟩] (.initial .unlimited []))[12]? =
        some (.leave (.node ⟨2⟩) (.ok (.int 1)) m)) ∧
      (∃ m, (returning.session 8 [⟨6⟩] (.initial .unlimited []))[13]? =
        some (.leave (.node ⟨3⟩) (.error (.returnTo ⟨1⟩ (.int 5))) m)) ∧
      ∃ callee given block m, (returning.session 8 [⟨6⟩] (.initial .unlimited []))[14]? =
        some (.leave (.method callee ⟨1⟩ given block) (.ok (.int 5)) m) := by
  obtain ⟨hlive, -, -, -, journey⟩ :=
    returning.addressed_exits_arrive 8 [⟨6⟩] .unlimited [] (i := 10) rfl
  exact ⟨_, rfl, trivial, hlive, journey trivial, ⟨_, rfl⟩, ⟨_, rfl⟩, _, _, _, _, rfl⟩

end ScriptSemantics
