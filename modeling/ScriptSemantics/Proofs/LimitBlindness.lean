import ScriptSemantics.Proofs.ProgramRoots
import ScriptSemantics.Proofs.ResemblingConstructs

/-!
# Blindness to the depth limit

The depth limit is looked at where a frame is pushed and nowhere else.  A computation therefore goes
the same way on two machines that differ in their limits only, and so does an activation whose frame
both machines take.

## Main Definitions

* `Resemblance.underLimit` — two runs that differ in the limits of their machines only
* `Work.Relimited` — two pieces of work that differ in the limits of their machines only
* `Comp.Ignores` — a computation that does not look at the limit
* `Task.pushed?` — the frame that a task pushes, if it gets that far

## Main Results

* `Comp.ignores_node` — no node looks at the limit
* `Task.relimited_work` — the work of a task is the same where its frame is taken under both limits
-/

namespace ScriptSemantics

/-- The same event under another limit. -/
def Event.withLimit (limit : Option Nat) : Event → Event
  | enter task m => .enter task (m.withLimit limit)
  | leave task ending m => .leave task ending (m.withLimit limit)

variable {limit : Option Nat}

/-- A frame that is taken under a limit is taken under every larger one. -/
theorem CallStack.push_withLimit {stack pushed : CallStack} {frame : Frame} {n : Nat}
    (hlimit : stack.limit = some n) (larger : ∀ k ∈ limit, n ≤ k)
    (h : stack.push frame = .ok pushed) :
    (stack.withLimit limit).push frame = .ok (pushed.withLimit limit) := by
  have room : (stack.withLimit limit).HasRoom := fun k hk =>
    Nat.lt_of_lt_of_le (hasRoom_of_push h n hlimit) (larger k hk)
  rw [push_eq h]
  exact push_of_hasRoom room frame

/-! ### Work and computations -/

/-- Two pieces of work ask for the same tasks and end in the same way, on machines that differ in
their limits only. -/
inductive Work.Relimited {α : Type} (limit : Option Nat) : Work α → Work α → Prop
  | done (ending : Ending α) (m : Machine) :
    Relimited limit (.done ending m) (.done ending (m.withLimit limit))
  | stuck : Relimited limit .stuck .stuck
  | ask (task : Task) (m : Machine) {resume resume' : Ending Value → Machine → Work α}
      (next : ∀ ending m', Relimited limit (resume ending m')
        (resume' ending (m'.withLimit limit))) :
    Relimited limit (.ask task m resume) (.ask task (m.withLimit limit) resume')

theorem Work.Relimited.andThen {α β : Type} {w w' : Work α}
    {next next' : Ending α → Machine → Work β} (h : w.Relimited limit w')
    (hnext : ∀ ending m, (next ending m).Relimited limit (next' ending (m.withLimit limit))) :
    (w.andThen next).Relimited limit (w'.andThen next') := by
  induction h with
  | done ending m => exact hnext ending m
  | stuck => exact .stuck
  | ask task m _ ih => exact .ask task m ih

/-- Two runs under different limits that are the same otherwise. -/
def Resemblance.underLimit (limit : Option Nat) : Resemblance where
  machines m m' := m' = m.withLimit limit
  errors error error' := error' = error

theorem Resemblance.lawful_underLimit : (underLimit limit).Lawful where
  limits h := ⟨limit, h⟩
  operate h plain := (congrArg _ h).trans (plain.blind _ limit)
  cause := congrArg EvalError.cause
  made _ := rfl

/-- Runs that resemble each other under different limits are the same otherwise. -/
theorem Work.Resembles.relimited {α : Type} {w w' : Work α}
    (h : w.Resembles (.underLimit limit) (Resemblance.underLimit limit).Ends w') :
    w.Relimited limit w' := by
  induction h with
  | done ends =>
    obtain ⟨endings, rfl⟩ := ends
    cases endings with
    | ok a => exact .done (.ok a) _
    | error h =>
      cases h
      exact .done _ _
    | exit => exact .done _ _
  | stuck => exact .stuck
  | ask task machines _ ih =>
    cases machines
    exact .ask task _ fun ending m' => ih ending m' ending _ ⟨.refl (fun _ => rfl) ending, rfl⟩

namespace Comp

/-- A computation goes the same way under another limit. -/
def Ignores {α : Type} (limit : Option Nat) (x : Comp α) : Prop :=
  ∀ m, (x m).Relimited limit (x (m.withLimit limit))

namespace Ignores

variable {α β : Type} {x : Comp α}

theorem of_pairs (h : (Resemblance.underLimit limit).Pairs x x) : Ignores limit x :=
  fun m => (h m _ rfl).relimited

theorem mapEnding {f : Machine → Ending α → Ending β}
    (same : ∀ m ending, f (m.withLimit limit) ending = f m ending) (hx : Ignores limit x) :
    Ignores limit (Comp.mapEnding f x) := by
  refine fun m => (hx m).andThen fun ending m' => ?_
  rw [same]
  exact .done _ _

theorem bracket {before after : Machine → Machine}
    (hbefore : ∀ m, before (m.withLimit limit) = (before m).withLimit limit)
    (hafter : ∀ m, after (m.withLimit limit) = (after m).withLimit limit)
    (hx : Ignores limit x) : Ignores limit (Comp.bracket before after x) := by
  intro m
  rw [Comp.bracket, Comp.bracket, hbefore]
  refine (hx _).andThen fun ending m' => ?_
  rw [hafter]
  exact .done _ _

end Ignores

variable {program : Program} {names : NameTable}

/-- No node looks at the limit. -/
theorem ignores_node (fuel : Nat) (id : NodeId) (n : Node) :
    Ignores limit (node program fuel id n) :=
  .of_pairs (Resemblance.lawful_underLimit.pairs_node fuel id n)

/-! ### Activations -/

/-- A frame is taken, and so it is under another limit. -/
def Takes (limit : Option Nat) (m : Machine) (frame : Frame) : Prop :=
  ∃ calls, m.calls.push frame = .ok calls ∧
    (m.withLimit limit).calls.push frame = .ok (calls.withLimit limit)

/-- Where an operation succeeds, what follows it is the same. -/
theorem relimited_ofExcept_bind {α β : Type} {m : Machine} {result : Except ErrorCause α}
    {f : α → Comp β}
    (hf : ∀ a, result = .ok a → (f a m).Relimited limit (f a (m.withLimit limit))) :
    ((ofExcept result >>= f) m).Relimited limit ((ofExcept result >>= f) (m.withLimit limit)) := by
  cases result with
  | ok a => exact hf a rfl
  | error cause => exact .done (.error (.error { cause })) m

/-- An activation is the same where its frame is taken under both limits. -/
theorem relimited_inFrame {m : Machine} {frame : Frame} {parent : Option ScopeId}
    {catching : Ending Value → Ending Value} {x : Comp Value} (takes : Takes limit m frame)
    (hx : Ignores limit x) :
    (mapEnding (fun _ => catching) (inFrame names frame parent x) m).Relimited limit
      (mapEnding (fun _ => catching) (inFrame names frame parent x) (m.withLimit limit)) := by
  obtain ⟨calls, hpush, hpush'⟩ := takes
  refine Work.Relimited.andThen ?_ fun ending m' => .done (catching ending) m'
  rw [inFrame, withFrame, withFrame, hpush, hpush']
  have inside : Ignores limit (mapEnding (recordFrames names) x) := .mapEnding (fun _ _ => rfl) hx
  exact (inside (m.activate calls parent)).andThen fun ending m' => .done ending m'.deactivate

end Comp

/-! ### Tasks -/

namespace Task

/-- The frame that a task pushes first of all, if it gets that far: the arguments of a call are
bound to the parameters before. -/
def pushed? (program : Program) (m : Machine) : Task → Option Frame
  | .node _ | .store .. => none
  | .program _ id => some { id, kind := .top, name := .empty }
  | .method callee id given block => do
    let _ ← (BindPlan.make program.names callee.params .strict given).toOption
    return { id, kind := .method, name := callee.name, block }
  | .closure proc id given _ => do
    let closure ← m.closures.get? proc
    let _ ← (BindPlan.make program.names closure.params (.ofLambda closure.isLambda) given).toOption
    return Comp.closureFrame closure id
  | .loop _ id => some { id, kind := .builtin, name := .loop }

variable {program : Program} {task : Task} {m : Machine}

/-- The work of a task is the same where its frame, if it pushes one, is taken under both limits. -/
theorem relimited_work (fuel : Nat)
    (takes : ∀ frame, task.pushed? program m = some frame → Comp.Takes limit m frame) :
    (task.work program fuel m).Relimited limit (task.work program fuel (m.withLimit limit)) := by
  have steady := (@Resemblance.lawful_underLimit limit).toSteady
  cases task with
  | node id =>
    rw [work]
    cases program.nodes.node? id with
    | none => exact .done _ m
    | some node => exact Comp.ignores_node fuel id node m
  | store site name value => exact .done (.ok value) (m.mapEnv (·.assignLocal name value))
  | program root id =>
    obtain ⟨calls, hpush, hpush'⟩ := takes _ rfl
    rw [work, Comp.runProgram, Comp.runProgram, hpush, hpush']
    have inside : Comp.Ignores limit (Comp.bracket (·.declareOwned root) (·.mapCalls CallStack.pop)
        (Comp.mapEnding (fun m ending => Comp.recordFrames program.names m (Comp.topEnding id ending))
          (Comp.eval root))) :=
      .bracket (fun _ => rfl) (fun _ => rfl) (.mapEnding (fun _ _ => rfl) (.of_pairs (.eval root)))
    exact inside { m with calls }
  | method callee id given block =>
    refine Comp.relimited_ofExcept_bind fun plan hplan => ?_
    refine Comp.relimited_inFrame (takes _ ?_) (.of_pairs (steady.pairs_body (.eval _)))
    simp [pushed?, hplan, Except.toOption]
  | closure proc id given block =>
    rw [work, Comp.runProc, Comp.gets_bind, Comp.gets_bind,
      show (m.withLimit limit).closures = m.closures from rfl]
    cases found : m.closures.get? proc with
    | none => exact .done _ m
    | some closure =>
      refine Comp.relimited_ofExcept_bind fun plan hplan => ?_
      refine Comp.relimited_inFrame (takes _ ?_)
        (.of_pairs (steady.pairs_body (Resemblance.pairs_runBody _ _)))
      simp [pushed?, found, hplan, Except.toOption]
  | loop block id =>
    exact Comp.relimited_inFrame (takes _ rfl) (.of_pairs (steady.pairs_repeatBlock block fuel))

end Task

end ScriptSemantics
