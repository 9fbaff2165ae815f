import ScriptSemantics.Proofs.Succession

/-!
# The passage of `next` and `redo`

A `next` and a `redo` have no address.  The next loop body or closure body around takes them, and
what lies between is the same as for addressed exits: nodes hand them on, and cleanup parts run.
Two places hand them on that one might expect to take them: the condition of a loop, and the
fallbacks of the parameters of a closure.

## Main Definitions

* `Exit.IsIteration` — the exits of `next` and `redo`
* `Task.Forwards`, `Program.Reiterates`, `Program.Resumes` — what becomes of such an exit
* `Passage.iteration` — the passage of these exits
* `NodeTable.Leaks` — a `next` or `redo` that stands so that it can leave a node
* `Task.Leaks` — a method or closure that may be left by a `next` or `redo`

## Main Results

* `Passage.accounted` — every task but a program hands these exits on as the passage says, and ends
  in one only where one leaks
-/

namespace ScriptSemantics

/-- The exits of `next` and `redo`. -/
def Exit.IsIteration : Exit → Prop
  | next _ | redo => True
  | _ => False

/-- A loop of the current activation is running. -/
def Machine.InLoop (m : Machine) : Prop :=
  ∀ frame, m.frame? = some frame → 0 < frame.loopDepth

/-- What a task makes of a `next` or `redo` that has left one of its own tasks, with the frames
before and after. -/
inductive Task.Forwards (program : Program) :
    Task → Exit → List Frame → Ending Value → List Frame → Prop
  /-- A node hands it on. -/
  | node (id : NodeId) (e : Exit) (frames : List Frame) :
    Forwards program (.node id) e frames (.error e) frames
  /-- A loop does not take what leaves its condition. -/
  | condition {id test body : NodeId} {kind : LoopKind} {bodyFirst : Bool} (e : Exit)
      (lookup : program.nodes.node? id = some (.loop kind test body bodyFirst))
      (stack : CallStack) :
    Forwards program (.node id) e stack.beginLoop.frames (.error e) stack.frames
  /-- The closure of the current activation ends with the value of a `next`. -/
  | answer (proc : ProcId) (id : FrameId) (given : CallArgs) (block : Option ProcId)
      (closure : Closure) (value : Value) (frames : List Frame) :
    Forwards program (.closure proc id given block) (.next value)
      (Comp.closureFrame closure id :: frames) (.ok value) frames
  /-- An activation does not take it. -/
  | activation {task : Task} {id : FrameId} (runs : task.activation? = some id) (e : Exit)
      (frame : Frame) (frames : List Frame) :
    Forwards program task e (frame :: frames) (.error e) frames

/-- What a running loop of the current activation goes on with after a `next` or `redo`. -/
inductive Program.Reiterates (program : Program) : Exit → NodeId → Machine → Prop
  /-- With its condition. -/
  | condition {id test body : NodeId} {kind : LoopKind} {bodyFirst : Bool} {m : Machine}
      (value : Value) (lookup : program.nodes.node? id = some (.loop kind test body bodyFirst))
      (inLoop : m.InLoop) :
    Reiterates program (.next value) test m
  /-- With its body. -/
  | body {id test body : NodeId} {kind : LoopKind} {bodyFirst : Bool} {m : Machine}
      (lookup : program.nodes.node? id = some (.loop kind test body bodyFirst))
      (inLoop : m.InLoop) :
    Reiterates program .redo body m

/-- What is evaluated next where a `next` or `redo` is taken. -/
inductive Program.Resumes (program : Program) : Exit → NodeId → Machine → Prop
  | loop {e : Exit} {id : NodeId} {m : Machine} (reiterates : program.Reiterates e id m) :
    Resumes program e id m
  /-- The closure of the current activation runs its body again. -/
  | closureBody {closure : Closure} {id : FrameId} {m : Machine}
      (current : m.frame? = some (Comp.closureFrame closure id)) :
    Resumes program .redo closure.body m

/-- The passage of `next` and `redo`. -/
def Passage.iteration (program : Program) : Passage program where
  exits := Exit.IsIteration
  turns := Task.Forwards program
  resumes := program.Resumes
  exits_error _ h := h

/-! ### Leaks -/

/-- A `next` or `redo` stands at or below a node so that it can leave the node, in a frame that has
something for it to act on or in one that has not. -/
inductive NodeTable.Leaks (table : NodeTable) : Bool → NodeId → Prop
  | next {id : NodeId} {value : Option NodeId} (lookup : table.node? id = some (.nextWith value)) :
    Leaks table true id
  | redo {id : NodeId} (lookup : table.node? id = some .redo) : Leaks table true id
  /-- The frame of a loop has something to act on, and the loop takes only what leaves its body. -/
  | condition {iterating : Bool} {id test body : NodeId} {kind : LoopKind} {bodyFirst : Bool}
      (lookup : table.node? id = some (.loop kind test body bodyFirst))
      (leaks : Leaks table true test) :
    Leaks table iterating id
  | operand {iterating : Bool} {id child : NodeId} {node : Node}
      (lookup : table.node? id = some node)
      (noLoop : ∀ kind test body bodyFirst, node ≠ .loop kind test body bodyFirst)
      (mem : child ∈ node.operands) (leaks : Leaks table iterating child) :
    Leaks table iterating id

/-- What can leave a node in a frame without a loop can leave it in any frame. -/
theorem NodeTable.Leaks.iterating {table : NodeTable} {iterating : Bool} {id : NodeId}
    (h : table.Leaks iterating id) : table.Leaks true id := by
  induction h with
  | next lookup => exact .next lookup
  | redo lookup => exact .redo lookup
  | condition lookup leaks => exact .condition lookup leaks
  | operand lookup noLoop mem _ ih => exact .operand lookup noLoop mem ih

namespace Task

/-- A method has code that a `next` or `redo` can leave, or a closure has fallbacks that one can
leave. -/
def Leaks (program : Program) (m : Machine) : Task → Prop
  | method callee _ _ _ =>
    ∃ child ∈ (Code.ofMethod callee).operands, program.nodes.Leaks false child
  | closure proc _ _ _ =>
    ∃ closure, m.closures.get? proc = some closure ∧
      ∃ child ∈ closure.params.fallbacks, program.nodes.Leaks true child
  | node _ | store .. | .program .. | loop .. => False

/-- A `next` or `redo` can leave the node that is evaluated. -/
def Emits (program : Program) (m : Machine) : Task → Prop
  | node id => program.nodes.Leaks (Frame.iterating m.calls.frames) id
  | store .. | .program .. | method .. | closure .. | loop .. => False

end Task

/-- The exits that the work of a task may end in are those that leak from its node or its code. -/
structure Setting.Accounts (S : Setting) (program : Program) (m : Machine) (task : Task) :
    Prop where
  starts : ∀ e, e.IsIteration → S.starts e → task.Emits program m
  operands : ∀ child ∈ S.operands, program.nodes.Leaks (Frame.iterating S.frames) child →
    task.Emits program m ∨ task.Leaks program m

/-! ### Loops and closures -/

namespace Comp

variable {program : Program} {S : Setting}

theorem inLoop_of_beginLoop {stack : CallStack} {frame : Frame}
    (h : stack.beginLoop.frames.head? = some frame) : 0 < frame.loopDepth := by
  cases hframes : stack.frames with
  | nil => simp [CallStack.beginLoop, CallStack.modifyCurrent, hframes] at h
  | cons first rest =>
    rw [CallStack.beginLoop_frames hframes] at h
    cases h
    exact Nat.succ_pos _

/-- A loop hands on what leaves its condition. -/
theorem afterTest_iteration {kind : LoopKind} {test body : NodeId} {e : Exit} {m : Machine}
    (he : e.IsIteration) :
    (LoopStep.afterTest kind (.error e)).Carries (.iteration program) test body e e.Passed m := by
  cases e with
  | next | redo => exact rfl
  | _ => cases he

/-- A loop takes what leaves its body. -/
theorem afterBody_iteration {id test body : NodeId} {kind : LoopKind} {bodyFirst : Bool} {e : Exit}
    {Q : Ending Value → Prop} {m : Machine}
    (lookup : program.nodes.node? id = some (.loop kind test body bodyFirst)) (inLoop : m.InLoop)
    (he : e.IsIteration) :
    (LoopStep.afterBody (.error e)).Carries (.iteration program) test body e Q m := by
  cases e with
  | next value => exact .loop (.condition value lookup inLoop)
  | redo => exact .loop (.body lookup inLoop)
  | _ => cases he

/-- What a closure makes of a `next` or `redo` of its body or its fallbacks. -/
def ClosureTurns (e : Exit) (ending : Ending Value) : Prop :=
  ending = .error e ∨ ∃ value, e = .next value ∧ ending = .ok value

/-- A closure takes what leaves its body. -/
theorem letsOut_runBody_iteration {closure : Closure} {id : FrameId} {rest : List Frame}
    (hS : S.frames = closureFrame closure id :: rest) (fuel : Nat) {m : Machine}
    {seen : Exit → Prop} (hm : m.calls.frames = S.frames) :
    (runBody closure.body fuel m).LetsOut (.iteration program) Work.NoCleanup S S.frames ClosureTurns
      seen := by
  induction fuel generalizing m seen with
  | zero => trivial
  | succ fuel ih =>
    refine ⟨nofun, hm, fun m' hframes => ⟨fun e he => ?_, fun ending => ?_⟩⟩
    · cases e with
      | next value => exact ⟨hframes, .inr ⟨value, rfl, rfl⟩⟩
      | redo =>
        cases fuel with
        | zero => trivial
        | succ fuel =>
          have current : m'.frame? = some (closureFrame closure id) := by
            rw [Machine.frame?, CallStack.current?, hframes, hS, List.head?_cons]
          exact ⟨closure.body, rfl, .inl (.closureBody current)⟩
      | _ => cases he
    · cases ending with
      | ok value => exact ⟨hframes, nofun⟩
      | error e =>
        cases e with
        | redo => exact ih hframes
        | next value => exact ⟨hframes, nofun⟩
        | error | returnTo | breakTo =>
          refine ⟨hframes, fun e he hexits => ?_⟩
          cases he
          cases hexits

end Comp

namespace Passage

variable {program : Program}

theorem iterating_closureFrame (closure : Closure) (id : FrameId) (rest : List Frame) :
    Frame.iterating (Comp.closureFrame closure id :: rest) = true := by
  rw [Frame.iterating, List.head?_cons, Option.any_some, Comp.closureFrame]
  split <;> rfl

theorem forwards_catchClosure {proc : ProcId} {id : FrameId} {given : CallArgs}
    {block : Option ProcId} {closure : Closure} {names : NameTable} {e : Exit}
    {result : Ending Value} {frames : List Frame} {m : Machine} (he : e.IsIteration)
    (h : Comp.ClosureTurns e result) :
    (Task.closure proc id given block).Forwards program e (Comp.closureFrame closure id :: frames)
      (Comp.catchClosure closure id (Comp.recordFrames names m result)) frames := by
  obtain rfl | ⟨value, rfl, rfl⟩ := h
  · rw [Comp.recordFrames_of_exits (P := .iteration program) he]
    have hcatch : Comp.catchClosure closure id (.error e) = .error e := by
      cases e with
      | next | redo => rw [Comp.catchClosure]; split <;> rfl
      | _ => cases he
    rw [hcatch]
    exact .activation rfl e _ _
  · have hcatch : Comp.catchClosure closure id (.ok value) = .ok value := by
      rw [Comp.catchClosure]
      split <;> rfl
    rw [Comp.recordFrames, hcatch]
    · exact .answer proc id given block closure value frames
    · exact nofun

/-- The exits that a node starts itself leak from it. -/
theorem leaks_of_starts {id : NodeId} {n : Node} {frames : List Frame} {e : Exit}
    (lookup : program.nodes.node? id = some n) (he : e.IsIteration) (starts : n.Starts frames e) :
    program.nodes.Leaks (Frame.iterating frames) id := by
  cases e with
  | next value =>
    cases n with
    | nextWith value =>
      have iterating : Frame.iterating frames = true := starts
      exact iterating ▸ .next lookup
    | _ => cases starts
  | redo =>
    cases n with
    | redo =>
      have iterating : Frame.iterating frames = true := starts
      exact iterating ▸ .redo lookup
    | _ => cases starts
  | _ => cases he

/-- The work of a task hands a `next` or `redo` on as the passage says, and ends in one only where
one leaks. -/
def Accounted (program : Program) (fuel : Nat) (m : Machine) (task : Task) : Prop :=
  ∃ S : Setting, S.Accounts program m task ∧ ∀ seen,
    (task.work program fuel m).LetsOut (.iteration program) (task.HasCleanup program) S m.calls.frames
      (fun e ending => task.Forwards program e S.frames ending m.calls.frames) seen

section Tasks

variable {fuel : Nat} {m : Machine} {id : NodeId}

theorem silent (frames : List Frame) (task : Task) :
    Setting.Accounts ⟨frames, [], fun _ => False⟩ program m task :=
  ⟨fun _ _ h => h.elim, nofun⟩

theorem accounted_loop {kind : LoopKind} {test body : NodeId} {bodyFirst : Bool}
    (lookup : program.nodes.node? id = some (.loop kind test body bodyFirst)) :
    Accounted program fuel m (.node id) := by
  refine ⟨⟨m.calls.beginLoop.frames, [test], fun _ => False⟩, ⟨fun _ _ h => h.elim, ?_⟩, ?_⟩
  · intro child hchild leaks
    cases List.mem_singleton.mp hchild
    exact .inl (.condition lookup leaks.iterating)
  · intro seen
    rw [Task.work, lookup]
    refine (Comp.letsOut_loop (fun e m he _ => Comp.afterTest_iteration he)
      (fun e m' he hframes => Comp.afterBody_iteration lookup (fun frame hframe => ?_) he)
      List.mem_cons_self (fun e he hleave => ?_) fuel bodyFirst rfl).ofNoCleanup ?_
    · rw [Machine.frame?, CallStack.current?, hframes] at hframe
      exact Comp.inLoop_of_beginLoop hframe
    · cases e with
      | next | redo => cases hleave
      | _ => cases he
    · rintro e ending - rfl
      exact .condition e lookup m.calls

theorem accounted_node {n : Node} (lookup : program.nodes.node? id = some n)
    (noLoop : ∀ kind test body bodyFirst, n ≠ .loop kind test body bodyFirst) :
    Accounted program fuel m (.node id) := by
  refine ⟨⟨m.calls.frames, n.operands, n.Starts m.calls.frames⟩,
    ⟨fun e he => leaks_of_starts lookup he, ?_⟩, fun seen => ?_⟩
  · exact fun child hchild leaks => .inl (.operand lookup noLoop hchild leaks)
  · rw [Task.work, lookup]
    refine (Comp.letsOut_node fuel lookup noLoop (fun _ h => h) (fun _ h => h) rfl).mono ?_ ?_
    · exact fun cleanup h => ⟨id, rfl, h⟩
    · rintro e ending - rfl
      exact .node id e m.calls.frames

theorem accounted_method (callee : Method) (id : FrameId) (given : CallArgs)
    (block : Option ProcId) : Accounted program fuel m (.method callee id given block) := by
  refine ⟨⟨{ id, kind := .method, name := callee.name, block } :: m.calls.frames,
    (Code.ofMethod callee).operands, fun _ => False⟩, ⟨fun _ _ h => h.elim, ?_⟩, fun seen => ?_⟩
  · exact fun child hchild leaks => .inr ⟨child, hchild, leaks⟩
  · refine (Comp.letsOut_runMethod rfl (fun _ h => h)).ofNoCleanup ?_
    rintro e ending he rfl
    cases e with
    | next | redo => exact .activation rfl _ _ _
    | _ => cases he

theorem accounted_closure (proc : ProcId) (id : FrameId) (given : CallArgs)
    (block : Option ProcId) : Accounted program fuel m (.closure proc id given block) := by
  rw [Accounted, Task.work, Comp.runProc, Comp.gets_bind]
  cases found : m.closures.get? proc with
  | none => exact ⟨_, silent [] _, fun seen => Comp.letsOut_fail _ m seen⟩
  | some closure =>
    refine ⟨⟨Comp.closureFrame closure id :: m.calls.frames, closure.params.fallbacks,
      fun _ => False⟩, ⟨fun _ _ h => h.elim, fun child hchild leaks => .inr ?_⟩, fun seen => ?_⟩
    · rw [iterating_closureFrame] at leaks
      exact ⟨closure, found, child, hchild, leaks⟩
    · refine (Comp.letsOut_runClosure (Q := Comp.ClosureTurns) rfl (fun _ h => h)
        (fun _ => .inl rfl)
        fun m seen hm => Comp.letsOut_runBody_iteration rfl fuel hm).ofNoCleanup ?_
      rintro e ending he ⟨result, m', hturns, rfl⟩
      exact forwards_catchClosure he hturns

theorem accounted_builtin (block : ProcId) (id : FrameId) :
    Accounted program fuel m (.loop block id) := by
  refine ⟨_, silent ({ id, kind := .builtin, name := .loop } :: m.calls.frames) _,
    fun seen => (Comp.letsOut_runLoop rfl).ofNoCleanup ?_⟩
  rintro e ending he rfl
  cases e with
  | next | redo => exact .activation rfl _ _ _
  | _ => cases he

/-- Every task but a program hands a `next` or `redo` on as the passage says, and ends in one only
where one leaks. -/
theorem accounted (program : Program) (task : Task) (fuel : Nat) (m : Machine)
    (hprogram : ¬ task.IsProgram) : Accounted program fuel m task := by
  cases task with
  | node id =>
    cases lookup : program.nodes.node? id with
    | none =>
      rw [Accounted, Task.work, lookup]
      exact ⟨_, silent [] _, fun seen => Comp.letsOut_fail _ m seen⟩
    | some n =>
      by_cases hloop : ∃ kind test body bodyFirst, n = .loop kind test body bodyFirst
      · obtain ⟨kind, test, body, bodyFirst, rfl⟩ := hloop
        exact accounted_loop lookup
      · exact accounted_node lookup fun kind test body bodyFirst h =>
          hloop ⟨kind, test, body, bodyFirst, h⟩
  | store => exact ⟨_, silent [] _, fun seen => Comp.letsOut_ok _ rfl seen⟩
  | program root id => exact absurd trivial hprogram
  | method callee id given block => exact accounted_method callee id given block
  | closure proc id given block => exact accounted_closure proc id given block
  | loop block id => exact accounted_builtin block id

/-- A `next` or `redo` passes as the passage says. -/
theorem kept_iteration (program : Program) : (iteration program).Kept := by
  intro task fuel m hprogram
  obtain ⟨S, -, hlets⟩ := accounted program task fuel m hprogram
  exact ⟨S, hlets⟩

end Tasks

end Passage

end ScriptSemantics
