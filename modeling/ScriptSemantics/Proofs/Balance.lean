import ScriptSemantics.Proofs.Growth
import ScriptSemantics.Proofs.Trace

/-!
# Balanced evaluation

Every evaluation gives back the stacks it was given, whether it ends in a value, in an error, in a
refused call or in a non-local exit: the same active scopes in the same order, and the same frames
with everything that they record.

## Main Definitions

* `Machine.SameStacks` — two machines have the same active scopes and the same frames
* `Machine.IsIdle` — no frame is on the stack and no scope is active above the top-level one

## Main Results

* `Program.evaluation_is_balanced` — for nodes and for whole programs, from any state
-/

namespace ScriptSemantics

namespace Machine

/-- Two machines have the same active scopes, in the same order, and the same frames: a frame is its
identity, kind, home, break tag, block and number of running loops. -/
structure SameStacks (m m' : Machine) : Prop where
  top : m'.env.top = m.env.top
  entered : m'.env.entered = m.env.entered
  frames : m'.calls.frames = m.calls.frames

/-- Nothing runs on the machine. -/
structure IsIdle (m : Machine) : Prop where
  entered : m.env.entered = []
  frames : m.calls.frames = []

variable {m m' : Machine}

theorem Grows.sameStacks (h : m.Grows m') : m.SameStacks m' :=
  ⟨h.top, h.entered, h.frames⟩

theorem IsIdle.current (h : m.IsIdle) : m.env.current = m.env.top := by
  rw [Environment.current, h.entered, List.headD_nil]

/-- Where nothing ran before, nothing runs after. -/
theorem SameStacks.isIdle (h : m.SameStacks m') (idle : m.IsIdle) : m'.IsIdle :=
  ⟨h.entered.trans idle.entered, h.frames.trans idle.frames⟩

end Machine

namespace Program

/-- A program gives back the stacks, and one that is rejected does not touch them. -/
theorem sameStacks_of_evaluateWith {program : Program} {fuel : Nat} {root : NodeId}
    {m m' : Machine} {ending : Ending Value}
    (h : program.evaluateWith fuel root m = some (ending, m')) : m.SameStacks m' := by
  rw [evaluateWith] at h
  split at h
  next => cases h; exact ⟨rfl, rfl, rfl⟩
  next resolution _ =>
    have grows := grows_of_perform (.program root _) trivial h
    exact ⟨grows.top, grows.entered, grows.frames⟩

/-- However an evaluation of a node ends, the active scopes and the frames are those from before;
and however a program ends, so are they, and nothing runs after it if nothing ran before it. -/
theorem evaluation_is_balanced (program : Program) (fuel : Nat) (m : Machine) :
    (∀ id ending m', program.perform fuel (.node id) m = some (ending, m') → m.SameStacks m') ∧
    ∀ root ending m', program.evaluateWith fuel root m = some (ending, m') →
      m.SameStacks m' ∧
        (m.IsIdle → m'.calls.frames = [] ∧ m'.env.current = m'.env.top) := by
  refine ⟨fun id ending m' h => (grows_of_eval h).sameStacks, fun root ending m' h => ?_⟩
  have same := sameStacks_of_evaluateWith h
  refine ⟨same, fun idle => ?_⟩
  have idle' := same.isIdle idle
  exact ⟨idle'.frames, idle'.current⟩

/-- The program `def m; end; while true; m; end`, where `m` is the first name that is not
reserved. -/
def refused : Program where
  names := .initial
  nodes := ⟨#[.nil, .define ⟨34⟩ [] ⟨0⟩, .bool true, .call ⟨34⟩ [] none,
    .loop .whileTrue ⟨2⟩ ⟨3⟩ false, .seq [⟨1⟩, ⟨4⟩]]⟩

/-- A call that is refused for its depth leaves a running loop and its scope, and the machine is
idle again. -/
theorem refused_call_is_balanced :
    ∃ error m', refused.evaluateWith 8 ⟨5⟩ (.initial (.budgeted 1) []) =
        some (.error (.error error), m') ∧ error.cause = .stackOverflow 1 ∧
      m'.calls.frames = [] ∧ m'.env.current = m'.env.top := by
  have run : ∃ error m', refused.evaluateWith 8 ⟨5⟩ (.initial (.budgeted 1) []) =
      some (.error (.error error), m') ∧ error.cause = .stackOverflow 1 := ⟨_, _, rfl, rfl⟩
  obtain ⟨error, m', heval, hcause⟩ := run
  have balanced := (refused.evaluation_is_balanced 8 (.initial (.budgeted 1) [])).2 _ _ _ heval
  obtain ⟨hframes, hcurrent⟩ := balanced.2 ⟨rfl, rfl⟩
  exact ⟨error, m', heval, hcause, hframes, hcurrent⟩

end Program

end ScriptSemantics
