import ScriptSemantics.Proofs.AddressedPassage
import ScriptSemantics.Proofs.LedgerLaws

/-!
# Sessions

What holds at every event of a session, in which a host evaluates several programs on one machine:
the conditions of the ledger, and the way that an addressed exit goes from there.

## Main Results

* `Ledger.admits_session` — the conditions of the ledger hold at every event of a session
* `Program.travels_session` — the addressed exits of a session go their way, and none leaves a
  program
-/

namespace ScriptSemantics

/-! ### The ledger -/

namespace Ledger

variable {g : Ledger} {m : Machine}

/-- One `evaluate` keeps the conditions of the ledger and leaves an idle machine. -/
theorem admits_evaluation (program : Program) (fuel : Nat) (h : g.Idle m) (root : NodeId) :
    regime.contract.Admits g (program.evaluation fuel root m) ∧
      ∀ ending m', program.evaluateWith fuel root m = some (ending, m') →
        Idle (regime.contract.observe g (program.evaluation fuel root m)) m' := by
  rw [Program.evaluation, Program.evaluateWith]
  cases resolve program.nodes root m.env.topBindings.keys with
  | error fault =>
    refine ⟨trivial, fun ending m' heq => ?_⟩
    cases heq
    exact h
  | ok resolution =>
    have hstart := h.start resolution
    refine ⟨(lawful program).kept.admits_record (.program root _) hstart, ?_⟩
    intro ending m' heq
    exact ((lawful program).kept.post_of_perform (.program root _) hstart heq).1

/-- The conditions of the ledger hold at every event of a session. -/
theorem admits_session (program : Program) (fuel : Nat) (h : g.Idle m) (roots : List NodeId) :
    regime.contract.Admits g (program.session fuel roots m) := by
  induction roots generalizing g m with
  | nil => trivial
  | cons root rest ih =>
    obtain ⟨hadmits, hidle⟩ := admits_evaluation program fuel h root
    refine (regime.contract.admits_append).mpr ⟨hadmits, ?_⟩
    cases heval : program.evaluateWith fuel root m with
    | none => trivial
    | some result =>
      obtain ⟨ending, m'⟩ := result
      exact ih (hidle ending m' heval)

end Ledger

/-! ### Addressed exits -/

namespace Program

variable {program : Program} {fuel : Nat} {m : Machine} {others : List Event}

/-- With only its own frame on the stack, a program is the addressee of every addressed exit. -/
theorem absorbs_topEnding {e : Exit} {id : FrameId} {root : NodeId} {names : NameTable} {m' : Machine}
    (hframes : m.calls.frames = [{ id, kind := .top, name := .empty }])
    (haddressee : e.Addressee m.calls) (he : e.IsAddressed) :
    ∃ value, Comp.recordFrames names m' (Comp.topEnding id (.error e)) = .ok value ∧
      (Task.program root id).Absorbs program e value := by
  cases e with
  | returnTo target value =>
    obtain ⟨frame, hmem, hid, -⟩ := haddressee
    rw [hframes] at hmem
    cases List.mem_singleton.mp hmem
    obtain rfl : id = target := hid
    refine ⟨value, ?_, .returnTo value rfl⟩
    rw [Comp.topEnding, Comp.catchReturn, if_pos rfl]
    rfl
  | breakTo target value =>
    cases target with
    | loop =>
      obtain ⟨frame, hcurrent, hdepth⟩ := haddressee
      rw [CallStack.current?, hframes] at hcurrent
      cases hcurrent
      cases hdepth
    | frame target =>
      obtain ⟨frame, hmem, -, hkind⟩ := haddressee
      rw [hframes] at hmem
      cases List.mem_singleton.mp hmem
      exact absurd rfl hkind
  | _ => cases he

/-- No addressed exit leaves a program. -/
theorem not_addressed_of_program {g : Ledger} {id : FrameId} {root : NodeId} {e : Exit} {m' : Machine}
    (hstart : g.Start id m)
    (h : program.perform fuel (.program root id) m = some (.error e, m')) : ¬ e.IsAddressed := by
  obtain ⟨-, herror⟩ := (Ledger.lawful program).kept.post_of_perform (.program root id) hstart h
  obtain ⟨error, rfl⟩ := herror e rfl
  exact fun he => he

/-- An addressed exit that leaves the root of a program is turned into a value by the program. -/
theorem absorbs_root {g : Ledger} {id : FrameId} {root : NodeId} {calls : CallStack} {e : Exit}
    {m' : Machine} (hstart : g.Start id m)
    (hpush : m.calls.push { id, kind := .top, name := .empty } = .ok calls)
    (h : program.perform fuel (.node root) ({ m with calls }.declareOwned root) =
      some (.error e, m')) (he : e.IsAddressed) :
    ∃ value, Comp.recordFrames program.names m' (Comp.topEnding id (.error e)) = .ok value ∧
      (Task.program root id).Absorbs program e value := by
  have here : Ledger.Ready (g.note (.program root id) m) ({ m with calls }.declareOwned root) :=
    (Ledger.lawful program).programs.enter hstart hpush
  obtain ⟨hstep, hexits⟩ := (Ledger.lawful program).kept.post_of_perform (.node root) here h
  -- the root leaves the frame of the program as the only one, and the addressee is on the stack
  have hframes : m'.calls.frames = [{ id, kind := .top, name := .empty }] := by
    rw [hstep.grows.frames]
    change calls.frames = _
    rw [CallStack.push_eq hpush, hstart.frames]
  exact absorbs_topEnding hframes (hexits e rfl) he

/-- The addressed exits in the events of a program go their way. -/
theorem travels_program {g : Ledger} {id : FrameId} (hstart : g.Start id m) (fuel : Nat)
    (root : NodeId) (ends : program.perform fuel (.program root id) m = none → others = []) :
    (Passage.addressed program).Travels (program.record fuel (.program root id) m) others := by
  cases fuel with
  | zero => exact ⟨nofun, trivial⟩
  | succ fuel =>
    have leaves : (Passage.addressed program).Continues others
        (program.perform (fuel + 1) (.program root id) m) := by
      cases hperform : program.perform (fuel + 1) (.program root id) m with
      | none => exact ends hperform
      | some result =>
        obtain ⟨ending, m'⟩ := result
        rintro e rfl he
        exact absurd he (not_addressed_of_program hstart hperform)
    rw [record_succ]
    refine ⟨nofun, ?_⟩
    rw [perform] at leaves
    rw [Task.work, Comp.runProgram] at leaves ⊢
    cases hpush : m.calls.push { id, kind := .top, name := .empty } with
    | error cause =>
      rw [hpush] at leaves
      exact Passage.travels_leave leaves
    | ok calls =>
      rw [hpush] at leaves
      let finish : Ending Value → Machine → Work Value := fun ending m' =>
        .done (Comp.recordFrames program.names m' (Comp.topEnding id ending)) (m'.mapCalls .pop)
      let start := { m with calls }.declareOwned root
      change (Passage.addressed program).Continues others
        ((Work.ask (.node root) start finish).run (program.perform fuel)) at leaves
      change (Passage.addressed program).Travels
        ((Work.ask (.node root) start finish).rest program fuel (.program root id)) others
      have hnode : ¬ (Task.node root).IsProgram := fun h => h
      rw [Work.run] at leaves
      rw [Work.rest_ask]
      cases hperform : program.perform fuel (.node root) start with
      | none =>
        rw [hperform] at leaves
        obtain rfl : others = [] := leaves
        refine Passage.Travels.append
          ((Passage.kept_addressed program).travels_record _ _ _ _ hnode ?_) trivial
        rw [hperform]
        rfl
      | some result =>
        obtain ⟨ending, m'⟩ := result
        rw [hperform] at leaves
        refine Passage.Travels.append
          ((Passage.kept_addressed program).travels_record _ _ _ _ hnode ?_)
          (Passage.travels_leave leaves)
        rw [hperform]
        rintro e rfl he
        obtain ⟨value, heq, absorbs⟩ := absorbs_root hstart hpush hperform he
        refine .left (.inr ⟨value, absorbs, heq⟩) fun hending => ?_
        rw [heq] at hending
        cases hending

/-- The addressed exits in the events of one `evaluate` go their way. -/
theorem travels_evaluation (program : Program) {g : Ledger} (h : g.Idle m) (fuel : Nat)
    (root : NodeId) (ends : program.evaluateWith fuel root m = none → others = []) :
    (Passage.addressed program).Travels (program.evaluation fuel root m) others := by
  rw [evaluateWith] at ends
  rw [evaluation]
  cases hresolve : resolve program.nodes root m.env.topBindings.keys with
  | error fault => trivial
  | ok resolution =>
    rw [hresolve] at ends
    exact travels_program (h.start resolution) fuel root ends

/-- The addressed exits of a session go their way. -/
theorem travels_session (program : Program) {g : Ledger} (h : g.Idle m) (fuel : Nat)
    (roots : List NodeId) :
    (Passage.addressed program).Travels (program.session fuel roots m) [] := by
  induction roots generalizing g m with
  | nil => trivial
  | cons root rest ih =>
    rw [session]
    cases heval : program.evaluateWith fuel root m with
    | none => exact .append (travels_evaluation program h fuel root fun _ => rfl) trivial
    | some result =>
      obtain ⟨ending, m'⟩ := result
      have hidle := (Ledger.admits_evaluation program fuel h root).2 ending m' heval
      refine .append (travels_evaluation program h fuel root fun hnone => ?_) (ih hidle)
      rw [heval] at hnone
      cases hnone

end Program

end ScriptSemantics
