import ScriptSemantics.Proofs.OperandOrder

/-!
# How often a loop runs its body

The turns of a loop, one after the other: tests of its condition and runs of its body.  What a turn
ends in decides which turn comes next, and thereby how often the body runs and how the loop ends.

## Main Definitions

* `LoopKind.continues` — the answers of a condition that keep a loop going
* `LoopTurn` — a test of the condition or a run of the body, with its ending
* `LoopTurn.Precedes`, `LoopTurn.Ends` — which turn comes next, and how a loop ends after its last
  turn
* `LoopTurn.Taken` — the steps that turns consist of
* `LoopCourse` — the turns of a loop from its beginning to its end

## Main Results

* `Program.loop_runs_as_prescribed` — a loop that ends consists of turns in their prescribed order,
  and runs its body once for each answer that keeps it going, once for each `redo`, and once more if
  the body comes first

## Design Notes

Turns are told apart by their part in the loop and not by the node that is evaluated, since the
condition and the body may be one node.  The steps are those that the work of the loop asks for
itself, so the turns of an inner loop are not among them.
-/

namespace ScriptSemantics

/-- The answers of a condition that keep a loop going. -/
def LoopKind.continues : LoopKind → Value → Bool
  | whileTrue, value => value.isTruthy
  | untilTrue, value => !value.isTruthy

/-! ### Turns -/

/-- A turn of a loop, with what it ends in. -/
inductive LoopTurn
  /-- The condition is tested. -/
  | tested (ending : Ending Value)
  /-- The body is run. -/
  | ran (ending : Ending Value)

namespace LoopTurn

/-- What a turn ends in. -/
def ending : LoopTurn → Ending Value
  | tested ending | ran ending => ending

/-- The node that is evaluated in a turn. -/
def operand (test body : NodeId) : LoopTurn → NodeId
  | tested _ => test
  | ran _ => body

/-- Whether the body is run. -/
def isRun : LoopTurn → Bool
  | tested _ => false
  | ran _ => true

/-- Whether this is a test whose answer keeps the loop going. -/
def saysContinue (kind : LoopKind) : LoopTurn → Bool
  | tested (.ok value) => kind.continues value
  | _ => false

/-- Whether this is a run of the body that ends in `redo`. -/
def endsInRedo : LoopTurn → Bool
  | ran (.error .redo) => true
  | _ => false

/-- One turn may come directly before another. -/
inductive Precedes (kind : LoopKind) : LoopTurn → LoopTurn → Prop
  | continued {value : Value} {ending : Ending Value} : kind.continues value = true →
      Precedes kind (tested (.ok value)) (ran ending)
  | completed {value : Value} {ending : Ending Value} :
      Precedes kind (ran (.ok value)) (tested ending)
  | skipped {value : Value} {ending : Ending Value} :
      Precedes kind (ran (.error (.next value))) (tested ending)
  | again {ending : Ending Value} : Precedes kind (ran (.error .redo)) (ran ending)

/-- How a loop ends after its last turn. -/
inductive Ends (kind : LoopKind) : LoopTurn → Ending Value → Prop
  | stopped {value : Value} : kind.continues value = false →
      Ends kind (tested (.ok value)) (.ok .nil)
  | broken {turn : LoopTurn} {value : Value} : turn.ending = .error (.breakTo .loop value) →
      Ends kind turn (.ok value)
  | test {e : Exit} : (∀ value, e ≠ .breakTo .loop value) →
      Ends kind (tested (.error e)) (.error e)
  | body {e : Exit} : (∀ value, e ≠ .breakTo .loop value) → (∀ value, e ≠ .next value) →
      e ≠ .redo → Ends kind (ran (.error e)) (.error e)

/-- The steps in which turns are taken, from one machine to another: each turn starts on the machine
that the one before leaves. -/
inductive Taken (test body : NodeId) : Machine → List LoopTurn → List Step → Machine → Prop
  | nil (m : Machine) : Taken test body m [] [] m
  | cons {m m₁ m' : Machine} {turns : List LoopTurn} {steps : List Step} (turn : LoopTurn)
      (rest : Taken test body m₁ turns steps m') :
      Taken test body m (turn :: turns)
        (⟨.node (turn.operand test body), m, some (turn.ending, m₁)⟩ :: steps) m'

end LoopTurn

/-- The turns of a loop from its beginning to its end. -/
structure LoopCourse (kind : LoopKind) (bodyFirst : Bool) (turns : List LoopTurn)
    (ending : Ending Value) : Prop where
  /-- A loop begins with a test, or with a run of its body if that comes first. -/
  first : turns.head?.map LoopTurn.isRun = some bodyFirst
  follow : turns.IsChain (LoopTurn.Precedes kind)
  last : ∃ turn, turns.getLast? = some turn ∧ turn.Ends kind ending
  count : turns.countP LoopTurn.isRun =
    turns.countP (LoopTurn.saysContinue kind) + turns.countP LoopTurn.endsInRedo +
      if bodyFirst then 1 else 0

/-! ### From one turn to the next -/

/-- Whether the body is run in a step. -/
def Comp.LoopStep.isBody : LoopStep → Bool
  | body => true
  | stop _ | test | leave _ => false

namespace LoopTurn

open ScriptSemantics.Comp (LoopStep)

/-- The step of a loop in which a turn is taken. -/
def step : LoopTurn → LoopStep
  | tested _ => .test
  | ran _ => .body

/-- What a loop does after a turn. -/
def after (kind : LoopKind) : LoopTurn → LoopStep
  | tested ending => .afterTest kind ending
  | ran ending => .afterBody ending

/-- How many runs of the body a turn brings about by itself. -/
def calls (kind : LoopKind) (turn : LoopTurn) : Nat :=
  (if turn.saysContinue kind then 1 else 0) + if turn.endsInRedo then 1 else 0

/-- What a loop does after a turn is as prescribed. -/
inductive Leads (kind : LoopKind) (turn : LoopTurn) : LoopStep → Prop
  | body (calls : turn.calls kind = 1) (precedes : ∀ ending, Precedes kind turn (ran ending)) :
      Leads kind turn .body
  | test (calls : turn.calls kind = 0) (precedes : ∀ ending, Precedes kind turn (tested ending)) :
      Leads kind turn .test
  | stop {value : Value} (calls : turn.calls kind = 0) (ends : Ends kind turn (.ok value)) :
      Leads kind turn (.stop value)
  | leave {e : Exit} (calls : turn.calls kind = 0) (ends : Ends kind turn (.error e)) :
      Leads kind turn (.leave e)

theorem Leads.calls_eq {kind : LoopKind} {turn : LoopTurn} {step : LoopStep}
    (h : turn.Leads kind step) : turn.calls kind = if step.isBody then 1 else 0 := by
  cases h <;> assumption

theorem after_tested_ok (kind : LoopKind) (value : Value) :
    after kind (tested (.ok value)) = if kind.continues value then .body else .stop .nil := by
  cases kind <;> cases h : value.isTruthy <;> simp [after, LoopStep.afterTest, LoopKind.continues, h]

theorem leads_after (kind : LoopKind) (turn : LoopTurn) : turn.Leads kind (turn.after kind) := by
  cases turn with
  | tested ending =>
    cases ending with
    | ok value =>
      have calls : calls kind (tested (.ok value)) = if kind.continues value then 1 else 0 := rfl
      rw [after_tested_ok]
      cases answer : kind.continues value with
      | true => exact .body (by rw [calls, answer]; rfl) fun _ => .continued answer
      | false => exact .stop (by rw [calls, answer]; rfl) (.stopped answer)
    | error e =>
      cases e with
      | breakTo target value =>
        cases target with
        | loop => exact .stop rfl (.broken rfl)
        | frame id => exact .leave rfl (.test nofun)
      | error | returnTo | next | redo => exact .leave rfl (.test nofun)
  | ran ending =>
    cases ending with
    | ok value => exact .test rfl fun _ => .completed
    | error e =>
      cases e with
      | breakTo target value =>
        cases target with
        | loop => exact .stop rfl (.broken rfl)
        | frame id => exact .leave rfl (.body nofun nofun nofun)
      | next value => exact .test rfl fun _ => .skipped
      | redo => exact .body rfl fun _ => .again
      | error | returnTo => exact .leave rfl (.body nofun nofun nofun)

end LoopTurn

/-! ### Whole loops -/

namespace Comp

variable {kind : LoopKind} {step : LoopStep} {turns : List LoopTurn} {ending : Ending Value}

/-- The turns of a loop from a step on. -/
inductive LoopStep.Course (kind : LoopKind) : LoopStep → List LoopTurn → Ending Value → Prop
  | stop (value : Value) : Course kind (.stop value) [] (.ok value)
  | leave (e : Exit) : Course kind (.leave e) [] (.error e)
  | turn {turns : List LoopTurn} {ending : Ending Value} (turn : LoopTurn)
      (rest : Course kind (turn.after kind) turns ending) :
      Course kind turn.step (turn :: turns) ending

namespace LoopStep.Course

/-- A loop that does not end at once takes a turn. -/
theorem exists_first (h : step.Course kind turns ending) (begins : step = .body ∨ step = .test) :
    ∃ first rest, turns = first :: rest ∧ first.step = step ∧
      (first.after kind).Course kind rest ending := by
  cases h with
  | stop | leave => rcases begins with h | h <;> cases h
  | turn first rest => exact ⟨first, _, rfl, rfl, rest⟩

/-- The first turn is taken in the step that the loop begins with. -/
theorem step_of_mem_head? (h : step.Course kind turns ending) {turn : LoopTurn}
    (hturn : turn ∈ turns.head?) : turn.step = step := by
  cases h with
  | stop | leave => cases hturn
  | turn first rest =>
    cases hturn
    rfl

theorem isChain (h : step.Course kind turns ending) : turns.IsChain (LoopTurn.Precedes kind) := by
  induction h with
  | stop | leave => exact .nil
  | turn first rest ih =>
    refine List.isChain_cons.mpr ⟨fun next hnext => ?_, ih⟩
    have hstep := rest.step_of_mem_head? hnext
    have leads := first.leads_after kind
    rw [← hstep] at leads
    cases next with
    | tested ending =>
      cases leads with
      | test _ precedes => exact precedes ending
    | ran ending =>
      cases leads with
      | body _ precedes => exact precedes ending

/-- The body is run in the step that the loop begins with, if at all, and as often as the turns
bring it about. -/
theorem count (h : step.Course kind turns ending) :
    turns.countP LoopTurn.isRun =
      turns.countP (LoopTurn.saysContinue kind) + turns.countP LoopTurn.endsInRedo +
        if step.isBody then 1 else 0 := by
  induction h with
  | stop | leave => rfl
  | turn first rest ih =>
    have called := (first.leads_after kind).calls_eq
    have begun : first.step.isBody = first.isRun := by cases first <;> rfl
    rw [LoopTurn.calls] at called
    rw [List.countP_cons, List.countP_cons, List.countP_cons, begun, ih]
    omega

/-- The last turn, or the one before the loop begins with the step, says how the loop ends. -/
theorem ends (h : step.Course kind turns ending) {turn : LoopTurn} (hturn : turn.after kind = step) :
    ∃ last, (turn :: turns).getLast? = some last ∧ last.Ends kind ending := by
  have leads := turn.leads_after kind
  rw [hturn] at leads
  induction h generalizing turn with
  | stop value =>
    cases leads with
    | stop _ ends => exact ⟨turn, rfl, ends⟩
  | leave e =>
    cases leads with
    | leave _ ends => exact ⟨turn, rfl, ends⟩
  | turn next rest ih =>
    rw [List.getLast?_cons_cons]
    exact ih rfl (next.leads_after kind)

end LoopStep.Course

/-! ### Runs -/

end Comp

namespace Work

variable {α β : Type} {perform : Task → Eval Value}

/-- Work that asks for a task ends if the task ends and the rest does. -/
theorem exists_of_run_ask {task : Task} {m : Machine} {resume : Ending Value → Machine → Work α}
    {result : Ending α × Machine} (h : (ask task m resume).run perform = some result) :
    ∃ ending m₁, perform task m = some (ending, m₁) ∧
      (resume ending m₁).run perform = some result := by
  rw [run] at h
  split at h
  next ending m₁ hperform => exact ⟨ending, m₁, hperform, h⟩
  next => cases h

/-- What only changes the machine in the end asks for no tasks. -/
theorem steps_andThen_done (w : Work α) (after : Machine → Machine) :
    (w.andThen fun ending m => done ending (after m)).steps perform = w.steps perform := by
  induction w with
  | done | stuck => rfl
  | ask task m resume ih =>
    rw [ask_andThen, steps, steps]
    cases perform task m with
    | none => rfl
    | some result => exact congrArg _ (ih result.1 result.2)

theorem run_andThen_done (w : Work α) (after : Machine → Machine) :
    (w.andThen fun ending m => done ending (after m)).run perform =
      (w.run perform).map fun result => (result.1, after result.2) := by
  induction w with
  | done | stuck => rfl
  | ask task m resume ih =>
    rw [ask_andThen, run, run]
    cases perform task m with
    | none => rfl
    | some result => exact ih result.1 result.2

end Work

namespace LoopTurn

variable {perform : Task → Eval Value} {test body : NodeId} {m m' m₁ : Machine}
  {turns : List LoopTurn} {resume : Ending Value → Machine → Work Value}

/-- A turn is taken when its node is evaluated. -/
theorem Taken.ask (turn : LoopTurn)
    (hperform : perform (.node (turn.operand test body)) m = some (turn.ending, m₁))
    (rest : Taken test body m₁ turns ((resume turn.ending m₁).steps perform) m') :
    Taken test body m (turn :: turns)
      ((Work.ask (.node (turn.operand test body)) m resume).steps perform) m' := by
  rw [Work.steps, hperform]
  exact .cons turn rest

end LoopTurn

namespace Comp

variable {perform : Task → Eval Value} {kind : LoopKind} {test body : NodeId}
  {ending : Ending Value} {m m' : Machine} {fuel : Nat}

/-- A loop that ends takes its turns from the step on that it begins with. -/
theorem course_of_run {step : LoopStep}
    (h : (loopFrom kind test body fuel step m).run perform = some (ending, m')) :
    ∃ turns, step.Course kind turns ending ∧
      LoopTurn.Taken test body m turns ((loopFrom kind test body fuel step m).steps perform) m' := by
  induction fuel generalizing step m with
  | zero => cases h
  | succ fuel ih =>
    cases step with
    | stop value =>
      cases h
      exact ⟨[], .stop value, .nil _⟩
    | leave e =>
      cases h
      exact ⟨[], .leave e, .nil _⟩
    | test =>
      rw [loopFrom, attempt_bind] at h ⊢
      obtain ⟨tested, m₁, hperform, hrest⟩ := Work.exists_of_run_ask h
      obtain ⟨turns, course, taken⟩ := ih hrest
      exact ⟨.tested tested :: turns, .turn (.tested tested) course,
        .ask (.tested tested) hperform taken⟩
    | body =>
      rw [loopFrom, attempt_bind] at h ⊢
      obtain ⟨ran, m₁, hperform, hrest⟩ := Work.exists_of_run_ask h
      obtain ⟨turns, course, taken⟩ := ih hrest
      exact ⟨.ran ran :: turns, .turn (.ran ran) course, .ask (.ran ran) hperform taken⟩

/-- The turns of a loop from its beginning to its end are its course. -/
theorem LoopStep.Course.loopCourse {turns : List LoopTurn} {bodyFirst : Bool}
    (h : LoopStep.Course kind (if bodyFirst then .body else .test) turns ending) :
    LoopCourse kind bodyFirst turns ending := by
  obtain ⟨first, rest, rfl, hstep, hrest⟩ := h.exists_first (by cases bodyFirst <;> simp)
  refine ⟨congrArg some ?_, h.isChain, hrest.ends rfl, ?_⟩
  · cases first <;> cases bodyFirst <;> first | rfl | cases hstep
  · rw [h.count]
    cases bodyFirst <;> rfl

end Comp

/-! ### Loops -/

namespace Machine

/-- Go into a loop: it is counted in the current frame, and its scope is entered. -/
def enterLoop (m : Machine) : Machine :=
  (m.mapCalls .beginLoop).mapEnv .enterTransparent

/-- Go out of a loop. -/
def leaveLoop (m : Machine) : Machine :=
  (m.mapEnv .leave).mapCalls .endLoop

end Machine

namespace Program

/-- A loop that ends consists of turns in their prescribed order, each one on the machine that the
one before leaves.  Its body runs once for each answer that keeps the loop going, once for each run
that ends in `redo`, and once more if the body comes first; and the last turn says how the loop
ends. -/
theorem loop_runs_as_prescribed (program : Program) (fuel : Nat) {id test body : NodeId}
    {kind : LoopKind} {bodyFirst : Bool} {m m' : Machine} {ending : Ending Value}
    (hnode : program.nodes.node? id = some (.loop kind test body bodyFirst))
    (h : program.perform (fuel + 1) (.node id) m = some (ending, m')) :
    ∃ turns last, LoopCourse kind bodyFirst turns ending ∧
      LoopTurn.Taken test body m.enterLoop turns (program.steps fuel (.node id) m) last ∧
      m' = last.leaveLoop := by
  have work : Task.work program fuel (.node id) =
      Comp.loop fuel kind test body bodyFirst := by rw [Task.work, hnode]; rfl
  rw [perform, work, Comp.loop, Comp.bracket, Comp.inTransparentScope, Comp.bracket,
    Work.run_andThen_done, Work.run_andThen_done, Option.map_map, Option.map_eq_some_iff] at h
  obtain ⟨⟨ending', last⟩, hrun, heq⟩ := h
  cases heq
  obtain ⟨turns, course, taken⟩ := Comp.course_of_run hrun
  refine ⟨turns, last, course.loopCourse, ?_, rfl⟩
  rw [steps, work, Comp.loop, Comp.bracket, Comp.inTransparentScope, Comp.bracket,
    Work.steps_andThen_done, Work.steps_andThen_done]
  exact taken

/-- The loop `begin; x += 1; if x < 2; redo; else if x < 3; next; else; break x; end; end; end while
true`, where `x` is the first name that is not reserved. -/
def countingLoop : Program where
  names := .initial
  nodes := ⟨#[.int 1, .opAssign ⟨34⟩ .add ⟨0⟩, .ident ⟨34⟩, .int 2, .binary .lt ⟨2⟩ ⟨3⟩, .redo,
    .int 3, .binary .lt ⟨2⟩ ⟨6⟩, .nextWith none, .breakWith (some ⟨2⟩), .cond ⟨7⟩ ⟨8⟩ (some ⟨9⟩),
    .cond ⟨4⟩ ⟨5⟩ (some ⟨10⟩), .seq [⟨1⟩, ⟨11⟩], .bool true, .loop .whileTrue ⟨13⟩ ⟨12⟩ true]⟩

/-- A machine with a frame on which `x` is zero. -/
def countingStart : Machine :=
  (Machine.initial .unlimited [(⟨34⟩, .int 0)]).mapCalls fun calls =>
    { calls with frames := [{ id := ⟨0⟩, kind := .top, name := .empty }] }

/-- A body that comes first, is run again on `redo`, goes on to a test with `next`, and then
breaks. -/
theorem countingLoop_runs :
    let steps := countingLoop.steps 8 (.node ⟨14⟩) countingStart
    steps.filterMap Step.operand? = [⟨12⟩, ⟨12⟩, ⟨13⟩, ⟨12⟩] ∧
      ∃ turns last m',
        countingLoop.perform 9 (.node ⟨14⟩) countingStart = some (.ok (.int 3), m') ∧
        LoopCourse .whileTrue true turns (.ok (.int 3)) ∧
        LoopTurn.Taken ⟨13⟩ ⟨12⟩ countingStart.enterLoop turns steps last ∧
        m' = last.leaveLoop := by
  intro steps
  obtain ⟨m', hperform⟩ : ∃ m', countingLoop.perform 9 (.node ⟨14⟩) countingStart =
      some (.ok (.int 3), m') := ⟨_, rfl⟩
  obtain ⟨turns, last, course⟩ := loop_runs_as_prescribed countingLoop 8 rfl hperform
  exact ⟨by decide +kernel, turns, last, m', hperform, course⟩

end Program

end ScriptSemantics
