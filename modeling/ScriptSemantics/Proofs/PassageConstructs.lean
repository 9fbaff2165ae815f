import ScriptSemantics.Proofs.OperandLogic
import ScriptSemantics.Proofs.Passage

/-!
# Constructs that let exits out

What every construct makes of the exits of its parts.

## Main Definitions

* `Comp.letting` — the logic of operands that let exits out
* `Node.Starts` — the exits that a node starts itself
* `Comp.LoopStep.Carries` — how a loop goes on with an exit under way

## Main Results

* `Comp.letsOut_begin` — guarded bodies have their cleanup part evaluated while an exit is under way
* `Comp.letsOut_node` — nodes other than loops let exits out
* `Comp.letsOut_loop`, `Comp.letsOut_inFrame` — what loops and activations make of exits

## Design Notes

A construct that does not catch anything is built from operations that let exits out, whatever the
kind of the exits, and only guarded bodies, loops and activations need an argument.
-/

namespace ScriptSemantics

namespace Comp

variable {program : Program} {P : Passage program} {S : Setting}

/-! ### Transparent constructs -/

/-- Operands let exits out where all of them may be evaluated. -/
def letting (P : Passage program) (S : Setting) : OperandLogic id :=
  .plain (fun xs x _ => xs ⊆ S.operands → Lets P S x)
    (fun a _ => .pure a)
    (fun result _ => .ofExcept result)
    (fun _ h => .eval (h List.mem_cons_self))
    fun hx hf h =>
      have ⟨hxs, hys⟩ := List.append_subset.mp h
      .bind (hx hxs) fun a => hf a hys

/-- A conditional hands on the exits of its condition and of its branches. -/
theorem Lets.cond {test thenBranch : NodeId} {elseBranch : Option NodeId}
    (h : (Node.cond test thenBranch elseBranch).operands ⊆ S.operands) :
    Lets P S (cond test thenBranch elseBranch) := by
  obtain ⟨htest, h⟩ := List.cons_subset.mp h
  obtain ⟨hthen, helse⟩ := List.cons_subset.mp h
  refine .inTransparentScope (.bind (.eval htest) fun value => ?_)
  split
  · exact .eval hthen
  · exact (letting P S).optional_same () elseBranch helse

/-- A rescue clause hands on the exits of its body. -/
theorem Lets.runClause (error : EvalError) {clause : RescueClause}
    (h : clause.body ∈ S.operands) : Lets P S (runClause error clause) := by
  rw [Comp.runClause]
  cases clause.binding with
  | none => exact .eval h
  | some name => exact .bind (.store _ _ _) fun _ => .eval h

/-- Only errors are rescued. -/
theorem Lets.guarded (names : NameTable) {body : NodeId} {rescues : List RescueClause}
    {elseBranch : Option NodeId} (hbody : body ∈ S.operands)
    (hrescues : rescues.map RescueClause.body ⊆ S.operands)
    (helse : elseBranch.toList ⊆ S.operands) :
    Lets P S (guarded names body rescues elseBranch) := by
  refine fun m seen hm => letsOut_attempt (.eval hbody) hm (fun e m he hframes => ?_)
    fun ending m seen hframes => ?_
  · cases e with
    | error error => exact absurd he (P.exits_error error)
    | _ => exact ⟨hframes, rfl⟩
  · have passOn : ∀ exit, ending = .error exit →
        (Comp.exit exit m : Work Value).LetsOut P Work.NoCleanup (S.after ending) S.frames
          Exit.Passed seen :=
      fun exit hexit => Lets.exit (S := S.after ending) (fun _ => .inr hexit) m seen hframes
    cases ending with
    | ok value =>
      cases elseBranch with
      | none => exact ⟨hframes, nofun⟩
      | some branch =>
        exact Lets.eval (S := S.after _) (helse List.mem_cons_self) m seen hframes
    | error exit =>
      cases exit with
      | error error =>
        dsimp only
        cases hclause : rescues.find? (clauseMatches names error.cause) with
        | some clause =>
          have hmem := List.mem_map_of_mem (f := RescueClause.body)
            (List.mem_of_find?_eq_some hclause)
          exact Lets.runClause (S := S.after _) error (hrescues hmem) m seen hframes
        | none => exact passOn _ rfl
      | _ => exact passOn _ rfl

/-- The cleanup part runs before the exit goes on, and drops it only for an exit of its own. -/
theorem letsOut_begin {id body : NodeId} {rescues : List RescueClause}
    {elseBranch ensure : Option NodeId} {m : Machine} {seen : Exit → Prop}
    (hnode : program.nodes.node? id = some (.begin body rescues elseBranch ensure))
    (h : (Node.begin body rescues elseBranch ensure).operands ⊆ S.operands)
    (hm : m.calls.frames = S.frames) :
    (begin program.names body rescues elseBranch ensure m).LetsOut P (program.IsCleanup id) S
      S.frames Exit.Passed seen := by
  obtain ⟨hbody, h⟩ := List.cons_subset.mp h
  obtain ⟨h, hensure⟩ := List.append_subset.mp h
  obtain ⟨hrescues, helse⟩ := List.append_subset.mp h
  refine letsOut_attempt (.inTransparentScope (.guarded _ hbody hrescues helse)) hm
    (fun e m he hframes => ?_) fun ending m seen hframes => ?_
  · cases ensure with
    | none => exact ⟨hframes, rfl⟩
    | some cleanup =>
      refine ⟨cleanup, rfl, .inr ⟨⟨body, rescues, elseBranch, hnode⟩, ?_, ?_⟩⟩
      · exact fun value m' same => ⟨same.trans hframes, rfl, rfl⟩
      · exact fun other m' same => ⟨same.trans hframes, rfl⟩
  · have passOn : Lets P (S.after ending) (Comp.settle ending) := .settle fun _ he _ => .inr he
    cases ensure with
    | none => exact (passOn m seen hframes).ofNoCleanup fun _ _ _ h => h
    | some cleanup =>
      have hcleanup : cleanup ∈ (S.after ending).operands := hensure List.mem_cons_self
      exact (Lets.bind (.inTransparentScope (.eval hcleanup)) (fun _ => passOn) m seen
        hframes).ofNoCleanup fun _ _ _ h => h

/-! ### Loops -/

/-- With an exit under way, a loop goes on with this step. -/
def LoopStep.Carries (P : Passage program) (test body : NodeId) (e : Exit)
    (Q : Ending Value → Prop) (m : Machine) : LoopStep → Prop
  | .stop value => Q (.ok value)
  | .leave exit => Q (.error exit)
  | .test => P.resumes e test m
  | .body => P.resumes e body m

/-- A loop ends or goes on with an exit as the step says that follows it. -/
theorem carries_loopFrom {kind : LoopKind} {test body : NodeId} {e : Exit}
    {Q : Ending Value → Prop} (fuel : Nat) {step : LoopStep} {m : Machine}
    (hm : m.calls.frames = S.frames) (h : step.Carries P test body e Q m) :
    (loopFrom kind test body fuel step m).Carries P Work.NoCleanup S.frames e Q := by
  cases fuel with
  | zero => trivial
  | succ fuel =>
    cases step with
    | stop value => exact ⟨hm, h⟩
    | leave exit => exact ⟨hm, h⟩
    | test => exact ⟨test, rfl, .inl h⟩
    | body => exact ⟨body, rfl, .inl h⟩

section Loops

variable {kind : LoopKind} {test body : NodeId} {Q : Exit → Ending Value → Prop}
  (afterTest : ∀ e m, P.exits e → m.calls.frames = S.frames →
    (LoopStep.afterTest kind (.error e)).Carries P test body e (Q e) m)
  (afterBody : ∀ e m, P.exits e → m.calls.frames = S.frames →
    (LoopStep.afterBody (.error e)).Carries P test body e (Q e) m)
  (htest : test ∈ S.operands)
  (hbody : ∀ e, P.exits e → LoopStep.afterBody (.error e) = .leave e → body ∈ S.operands)

include afterTest afterBody htest hbody

/-- A loop ends in an exit only when its condition or its body has, and goes on with the exits that
it takes. -/
theorem letsOut_loopFrom (fuel : Nat) {step : LoopStep} {m : Machine} {seen : Exit → Prop}
    (hm : m.calls.frames = S.frames)
    (hstep : ∀ e, step = .leave e → P.exits e → seen e ∨ S.starts e) :
    (loopFrom kind test body fuel step m).LetsOut P Work.NoCleanup S S.frames Q seen := by
  induction fuel generalizing step m seen with
  | zero => trivial
  | succ fuel ih =>
    cases step with
    | stop value => exact ⟨hm, nofun⟩
    | leave exit =>
      refine ⟨hm, fun e he => ?_⟩
      cases he
      exact hstep exit rfl
    | test =>
      refine ⟨nofun, hm, fun m' hframes => ⟨fun e he => ?_, fun ending => ?_⟩⟩
      · exact carries_loopFrom fuel hframes (afterTest e m' he hframes)
      · refine ih hframes fun e he hexits => .inl (.inr ⟨?_, Regime.afterTest_leave he |>.1⟩)
        rintro _ ⟨⟩
        exact htest
    | body =>
      refine ⟨nofun, hm, fun m' hframes => ⟨fun e he => ?_, fun ending => ?_⟩⟩
      · exact carries_loopFrom fuel hframes (afterBody e m' he hframes)
      · refine ih hframes fun e he hexits => .inl (.inr ⟨?_, Regime.afterBody_leave he |>.1⟩)
        rintro _ ⟨⟩
        exact hbody e hexits ((Regime.afterBody_leave he).1 ▸ he)

/-- The frame that counts the loop is the one in which its rounds run. -/
theorem letsOut_loop (fuel : Nat) (bodyFirst : Bool) {m : Machine} {seen : Exit → Prop}
    (hm : S.frames = m.calls.beginLoop.frames) :
    (loop fuel kind test body bodyFirst m).LetsOut P Work.NoCleanup S m.calls.frames Q seen := by
  have inside : (Comp.inTransparentScope (loopFrom kind test body fuel
      (if bodyFirst then .body else .test)) (m.mapCalls .beginLoop)).LetsOut P Work.NoCleanup S
        S.frames Q seen := by
    refine letsOut_inTransparentScope
      (letsOut_loopFrom afterTest afterBody htest hbody fuel hm.symm fun e he => ?_)
    split at he <;> cases he
  refine inside.andThen ?_ ?_
  · exact fun e ending m' _ hframes hQ => ⟨CallStack.endLoop_frames (hframes.trans hm), hQ⟩
  · exact fun seen ending m' hframes known => ⟨CallStack.endLoop_frames (hframes.trans hm), known⟩

end Loops

/-! ### Calls -/

theorem Lets.allocateFrame : Lets P S allocateFrame :=
  .modifyGet fun _ => rfl

/-- A block that is passed is an operand.  One that is written at the call is closed over. -/
theorem Lets.blockArg (callId : FrameId) {block : Option BlockArg}
    (h : (block.bind BlockArg.operand?).toList ⊆ S.operands) :
    Lets P S (blockArg program callId block) := by
  cases block with
  | none => exact .pure _
  | some arg =>
    cases arg with
    | literal literal =>
      rw [Comp.blockArg]
      split
      · exact .bind (.modifyGet fun _ => rfl) fun _ => .pure _
      · exact .bind (.modifyGet fun _ => rfl) fun _ => .pure _
      · exact .fail _
    | pass expr =>
      refine .bind (.eval (h List.mem_cons_self)) fun value => ?_
      split
      · exact .pure _
      · exact .pure _
      · exact .fail _

theorem Lets.expectNoArgs (given : CallArgs) : Lets P S (expectNoArgs given) := by
  rw [Comp.expectNoArgs]
  split
  · exact .pure _
  · exact .fail _

theorem Lets.blockValue (asLambda : Bool) (block : Option ProcId) :
    Lets P S (blockValue asLambda block) := by
  cases block with
  | none => exact .fail _
  | some proc =>
    rw [Comp.blockValue]
    split
    · exact .bind (.modifyGet fun _ => rfl) fun _ => .pure _
    · exact .pure _

theorem Lets.startLoop (callId : FrameId) (block : Option ProcId) :
    Lets P S (startLoop callId block) := by
  cases block with
  | none => exact .fail _
  | some block => exact .perform nofun nofun

/-- No builtin catches anything, and the loop is an activation of its own. -/
theorem Lets.builtin (names : NameTable) (name : Name) (callId : FrameId) (given : CallArgs)
    (block : Option ProcId) : Lets P S (builtin names name callId given block) := by
  rw [Comp.builtin]
  split
  · exact .bind (.expectNoArgs given) fun _ => .bind (.gets _) fun _ => .pure _
  · split
    · exact .bind (.expectNoArgs given) fun _ => .blockValue _ block
    · split
      · exact .bind (.expectNoArgs given) fun _ => .startLoop callId block
      · exact .fail _

/-- What a name runs is an activation of its own, or a builtin. -/
theorem Lets.dispatch (names : NameTable) (name : Name) (callId : FrameId) (given : CallArgs)
    (block : Option ProcId) : Lets P S (dispatch names name callId given block) := by
  refine .bind (.gets _) fun found => ?_
  cases found with
  | some callee => exact .perform nofun nofun
  | none => exact .builtin names name callId given block

/-- A call hands on the exits of its arguments and of what it runs. -/
theorem Lets.call {name : Name} {argList : List Arg} {block : Option BlockArg}
    (h : (Node.call name argList block).operands ⊆ S.operands) :
    Lets P S (call program name argList block) := by
  obtain ⟨hargs, hblock⟩ := List.append_subset.mp h
  exact .bind .allocateFrame fun _ => .bind (.blockArg _ hblock) fun _ =>
    .bind ((letting P S).args_same () argList rfl hargs) fun _ => .dispatch _ _ _ _ _

/-- So does the call of a closure, and it hands on those of the callee. -/
theorem Lets.callValue {callee : NodeId} {argList : List Arg} {block : Option BlockArg}
    (h : (Node.callValue callee argList block).operands ⊆ S.operands) :
    Lets P S (callValue program callee argList block) := by
  obtain ⟨hcallee, h⟩ := List.cons_subset.mp h
  obtain ⟨hargs, hblock⟩ := List.append_subset.mp h
  refine .bind (.eval hcallee) fun value => ?_
  split
  · exact .bind .allocateFrame fun _ => .bind (.blockArg _ hblock) fun _ =>
      .bind ((letting P S).args_same () argList rfl hargs) fun _ => .perform nofun nofun
  · exact .fail _

/-- So does the call of the block of the current frame. -/
theorem Lets.yield {argList : List Arg} (h : argList.map Arg.expr ⊆ S.operands) :
    Lets P S (yield argList) := by
  refine .bind (.gets _) fun block => ?_
  cases block with
  | none => exact .fail _
  | some block =>
    exact .bind ((letting P S).args_same () argList rfl h) fun _ =>
      .bind .allocateFrame fun _ => .perform nofun nofun

/-- A name may run a method, whose exits it hands on. -/
theorem Lets.ident (names : NameTable) (id : NodeId) (name : Name) :
    Lets P S (ident names id name) := by
  refine .bind (.gets _) fun value => ?_
  cases value with
  | some value => exact .pure _
  | none =>
    refine .bind (.gets _) fun known => ?_
    split
    · exact .bind .allocateFrame fun _ => .dispatch _ _ _ _ _
    · exact .fail _

end Comp

/-! ### Exits and nodes -/

/-- Whether the innermost of some frames has something that `next` and `redo` act on. -/
def Frame.iterating (frames : List Frame) : Bool :=
  frames.head?.any (·.isIterating)

/-- The exits that a node starts itself. -/
def Node.Starts (frames : List Frame) : Node → Exit → Prop
  | .returnWith _, .returnTo _ _ | .breakWith _, .breakTo _ _ => True
  | .nextWith _, .next _ | .redo, .redo => Frame.iterating frames = true
  | _, _ => False

namespace Comp

variable {program : Program} {P : Passage program} {S : Setting}

/-- A node may start the exit that it stands for, and hands on those of its operand. -/
theorem Lets.returnWith {value : Option NodeId} (h : value.toList ⊆ S.operands)
    (starts : ∀ e, (Node.returnWith value).Starts S.frames e → S.starts e) :
    Lets P S (returnWith value) := by
  refine .bind ((letting P S).optional_same () value h) fun value => .bind (.gets _) fun machine => ?_
  split
  · split
    · exact .exit fun _ => starts _ trivial
    · exact .fail _
  · exact .fail _

/-- So may a `break`, whatever it addresses. -/
theorem Lets.breakWith {value : Option NodeId} (h : value.toList ⊆ S.operands)
    (starts : ∀ e, (Node.breakWith value).Starts S.frames e → S.starts e) :
    Lets P S (breakWith value) := by
  have leave : ∀ target value, Lets P S (Comp.exit (.breakTo target value) : Comp Value) :=
    fun target value => .exit fun _ => starts _ trivial
  refine .bind ((letting P S).optional_same () value h) fun value => .bind (.gets _) fun machine => ?_
  split
  · exact .fail _
  · split
    · exact leave _ _
    · split
      · exact leave _ _
      · split
        · split
          · exact leave _ _
          · exact .fail _
        · exact .fail _
      all_goals exact .fail _

/-- `next` and `redo` start where there is something to act on, which only the frames decide. -/
theorem Lets.ifIterating {e : Exit} {cause : ErrorCause}
    (starts : Frame.iterating S.frames = true → S.starts e) :
    Lets P S (do if ← isIterating then Comp.exit e else Comp.fail cause : Comp Value) := by
  refine .gets_bind fun m seen hframes => ?_
  split
  next h =>
    refine Lets.exit (fun _ => starts ?_) m seen hframes
    rw [← hframes]
    exact h
  next => exact Lets.fail _ m seen hframes

theorem Lets.nextWith {value : Option NodeId} (h : value.toList ⊆ S.operands)
    (starts : ∀ e, (Node.nextWith value).Starts S.frames e → S.starts e) :
    Lets P S (nextWith value) :=
  .bind ((letting P S).optional_same () value h) fun value => .ifIterating (starts (.next value))

theorem Lets.redo (starts : ∀ e, Node.redo.Starts S.frames e → S.starts e) :
    Lets P S redo :=
  .ifIterating (starts .redo)

/-- An assignment hands on the exits of its operands. -/
theorem Lets.assign (id : NodeId) (name : Name) {elems : List Elem}
    (h : elems.map Elem.expr ⊆ S.operands) : Lets P S (assign id name elems) :=
  .bind ((letting P S).items_same () elems h) fun _ => .bind (.ofExcept _) fun _ => .store id name _

/-- So does one with an operator. -/
theorem Lets.opAssign (id : NodeId) (name : Name) (op : BinaryOp) {expr : NodeId}
    (h : expr ∈ S.operands) : Lets P S (opAssign id name op expr) :=
  .bind (.gets _) fun _ => .bind (.eval h) fun _ => .bind (.ofExcept _) fun _ =>
    .store id name _

/-- Nodes other than loops let exits out, those of their operands and those that they start. -/
theorem letsOut_node (fuel : Nat) {id : NodeId} {n : Node} {m : Machine} {seen : Exit → Prop}
    (hnode : program.nodes.node? id = some n)
    (hloop : ∀ kind test body bodyFirst, n ≠ .loop kind test body bodyFirst)
    (h : n.operands ⊆ S.operands) (starts : ∀ e, n.Starts S.frames e → S.starts e)
    (hm : m.calls.frames = S.frames) :
    (node program fuel id n m).LetsOut P (program.IsCleanup id) S S.frames Exit.Passed seen := by
  have plain : Lets P S (node program fuel id n) →
      (node program fuel id n m).LetsOut P (program.IsCleanup id) S S.frames Exit.Passed seen :=
    fun lets => (lets m seen hm).ofNoCleanup fun _ _ _ h => h
  cases n with
  | nil | bool | int | str | symbol => exact plain (.pure _)
  | array elems => exact plain ((letting P S).array_same () elems h)
  | hash list => exact plain ((letting P S).hash_same () list h)
  | ident => exact plain (.ident _ _ _)
  | assign => exact plain (.assign _ _ h)
  | opAssign => exact plain (.opAssign _ _ _ (h List.mem_cons_self))
  | binary op left right => exact plain ((letting P S).binary () op left right h)
  | seq stmts => exact plain ((letting P S).seq_same () stmts rfl h)
  | cond => exact plain (.cond h)
  | loop kind test body bodyFirst => exact absurd rfl (hloop kind test body bodyFirst)
  | begin => exact letsOut_begin hnode h hm
  | define => exact plain (.bind (.modify fun _ => rfl) fun _ => .pure _)
  | block | lambda => exact plain (.bind (.modifyGet fun _ => rfl) fun _ => .pure _)
  | call => exact plain (.call h)
  | callValue => exact plain (.callValue h)
  | yield => exact plain (.yield h)
  | returnWith => exact plain (.returnWith h starts)
  | breakWith => exact plain (.breakWith h starts)
  | nextWith => exact plain (.nextWith h starts)
  | redo => exact plain (.redo starts)
  | raise message =>
    exact plain (.bind ((letting P S).optional_same () message h) fun _ =>
      .bind (.gets _) fun _ => .fail _)

/-! ### Activations -/

/-- The fallbacks of parameters are evaluated inside of the activation. -/
theorem Lets.bindParams (block : Option ProcId) {params : ParamList} {plan : BindPlan}
    (hplan : plan.DrawnFrom params) (h : params.fallbacks ⊆ S.operands) :
    Lets P S (bindParams block plan) := by
  induction plan with
  | nil => exact .pure _
  | cons param rest ih =>
    have hrest : BindPlan.DrawnFrom params rest :=
      ⟨fun p hp => hplan.names p (List.mem_cons_of_mem _ hp),
        fun p hp => hplan.fallbacks p (List.mem_cons_of_mem _ hp)⟩
    refine .bind ?_ fun value => .bind ?_ fun _ => ih hrest
    · cases hbinding : param.binding with
      | value value => exact .pure _
      | fallback expr =>
        exact .eval (h (hplan.fallbacks param List.mem_cons_self expr hbinding))
      | block => exact .pure _
    · rw [defineParam]
      split
      · exact .pure _
      · exact .modify fun _ => rfl

/-- Every round of the looping builtin is an activation of its own. -/
theorem Lets.repeatBlock (block : ProcId) (rounds : Nat) :
    Lets P S (repeatBlock block rounds) := by
  induction rounds with
  | zero => exact fun _ _ _ => trivial
  | succ rounds ih =>
    exact .bind .allocateFrame fun _ => .bind (.perform nofun nofun) fun _ => ih

/-- Only errors record frames. -/
theorem recordFrames_of_exits {names : NameTable} {m : Machine} {e : Exit} (he : P.exits e) :
    recordFrames names m (.error e : Ending Value) = .error e := by
  cases e with
  | error error => exact absurd he (P.exits_error error)
  | _ => rfl

/-- An exit that is no error was there before frames were recorded. -/
theorem exits_of_recordFrames {names : NameTable} {m : Machine} {ending : Ending Value} {e : Exit}
    (he : P.exits e) (h : recordFrames names m ending = .error e) : ending = .error e := by
  rw [recordFrames.eq_def] at h
  split at h
  next =>
    cases h
    exact absurd he (P.exits_error _)
  next => exact h

section Frames

variable {names : NameTable} {frame : Frame} {parent : Option ScopeId} {x : Comp Value}
  {Q : Exit → Ending Value → Prop} {m : Machine} {seen : Exit → Prop}

/-- Frames are recorded in errors only, after the body of an activation. -/
theorem letsOut_recordFrames (hx : (x m).LetsOut P Work.NoCleanup S S.frames Q seen) :
    (mapEnding (recordFrames names) x m).LetsOut P Work.NoCleanup S S.frames
      (fun e ending => ∃ result m', Q e result ∧ ending = recordFrames names m' result) seen := by
  refine hx.andThen ?_ ?_
  · exact fun e ending m' _ hframes hQ => ⟨hframes, ending, m', hQ, rfl⟩
  · exact fun seen ending m' hframes known =>
      ⟨hframes, fun e he hexits => known e (exits_of_recordFrames hexits he) hexits⟩

/-- A frame that is refused makes an error, and one that is not is gone in the end. -/
theorem letsOut_withFrame (hm : S.frames = frame :: m.calls.frames)
    (hx : ∀ m, m.calls.frames = S.frames → (x m).LetsOut P Work.NoCleanup S S.frames Q seen) :
    (withFrame frame parent x m).LetsOut P Work.NoCleanup S m.calls.frames Q seen := by
  rw [withFrame]
  cases hpush : m.calls.push frame with
  | error cause => exact letsOut_fail cause m seen
  | ok calls =>
    have hcalls : (m.activate calls parent).calls.frames = S.frames := by
      rw [Machine.activate, CallStack.push_eq hpush, hm]
    have left : ∀ m' : Machine, m'.calls.frames = S.frames →
        m'.deactivate.calls.frames = m.calls.frames := by
      intro m' hframes
      rw [Machine.deactivate, CallStack.pop, hframes, hm, List.tail_cons]
    refine (hx _ hcalls).andThen ?_ ?_
    · exact fun e ending m' _ hframes hQ => ⟨left m' hframes, hQ⟩
    · exact fun seen ending m' hframes known => ⟨left m' hframes, known⟩

/-- An activation makes of an exit what its body and its catching function make of it. -/
theorem letsOut_inFrame {catching : Ending Value → Ending Value}
    (catches : Regime.Catches frame catching) (hm : S.frames = frame :: m.calls.frames)
    (hx : ∀ m, m.calls.frames = S.frames → (x m).LetsOut P Work.NoCleanup S S.frames Q seen) :
    (mapEnding (fun _ => catching) (inFrame names frame parent x) m).LetsOut P Work.NoCleanup S
      m.calls.frames
      (fun e ending => ∃ result m', Q e result ∧ ending = catching (recordFrames names m' result))
      seen := by
  refine (letsOut_withFrame hm fun m hm => letsOut_recordFrames (hx m hm)).andThen ?_ ?_
  · rintro e ending m' - hframes ⟨result, m'', hQ, rfl⟩
    exact ⟨hframes, result, m'', hQ, rfl⟩
  · exact fun seen ending m' hframes known =>
      ⟨hframes, fun e he hexits => known e (catches _ e he).1 hexits⟩

end Frames

/-- A method makes of an exit what its catching functions make of it. -/
theorem letsOut_runMethod {names : NameTable} {callee : Method} {id : FrameId} {given : CallArgs}
    {block : Option ProcId} {m : Machine} {seen : Exit → Prop}
    (hm : S.frames = { id, kind := .method, name := callee.name, block } :: m.calls.frames)
    (h : (Code.ofMethod callee).operands ⊆ S.operands) :
    (runMethod names callee id given block m).LetsOut P Work.NoCleanup S m.calls.frames
      (fun e ending => ending = catchBreak id (catchReturn id (.error e))) seen := by
  obtain ⟨hfallbacks, hbody⟩ := List.append_subset.mp h
  rw [runMethod]
  cases hplan : BindPlan.make names callee.params .strict given with
  | error cause => exact letsOut_fail cause m seen
  | ok plan =>
    have body : Lets P S (do
        Comp.modify (·.declareOwned callee.root)
        Comp.bindParams block plan
        Comp.eval callee.body : Comp Value) :=
      .bind (.modify fun _ => rfl) fun _ =>
        .bind (.bindParams block (BindPlan.drawnFrom_make hplan) hfallbacks) fun _ =>
          .eval (hbody List.mem_cons_self)
    refine (letsOut_inFrame Regime.catches_method hm fun m hm => body m seen hm).ofNoCleanup ?_
    rintro e ending he ⟨result, m', rfl, rfl⟩
    rw [recordFrames_of_exits he]

/-- A closure makes of an exit what its body and its catching function make of it. -/
theorem letsOut_runClosure {names : NameTable} {closure : Closure} {id : FrameId}
    {given : CallArgs} {block : Option ProcId} {fuel : Nat} {Q : Exit → Ending Value → Prop}
    {m : Machine} {seen : Exit → Prop}
    (hm : S.frames = closureFrame closure id :: m.calls.frames)
    (h : closure.params.fallbacks ⊆ S.operands) (passes : ∀ e, Q e (.error e))
    (hbody : ∀ m seen, m.calls.frames = S.frames →
      (runBody closure.body fuel m).LetsOut P Work.NoCleanup S S.frames Q seen) :
    (runClosure names fuel closure id given block m).LetsOut P Work.NoCleanup S m.calls.frames
      (fun e ending => ∃ result m', Q e result ∧
        ending = catchClosure closure id (recordFrames names m' result)) seen := by
  rw [runClosure]
  cases hplan : BindPlan.make names closure.params (.ofLambda closure.isLambda) given with
  | error cause => exact letsOut_fail cause m seen
  | ok plan =>
    refine letsOut_inFrame Regime.catches_closure hm fun m hm => ?_
    refine letsOut_bind (.modify fun _ => rfl) hm passes fun _ m seen hm => ?_
    exact letsOut_bind (.bindParams block (BindPlan.drawnFrom_make hplan) h) hm passes fun _ => hbody

/-- The looping builtin makes of an exit what its catching function makes of it. -/
theorem letsOut_runLoop {names : NameTable} {fuel : Nat} {block : ProcId} {id : FrameId}
    {m : Machine} {seen : Exit → Prop}
    (hm : S.frames = { id, kind := .builtin, name := .loop } :: m.calls.frames) :
    (runLoop names fuel block id m).LetsOut P Work.NoCleanup S m.calls.frames
      (fun e ending => ending = catchBreak id (.error e)) seen := by
  refine (letsOut_inFrame (Regime.catches_loop rfl) hm fun m hm =>
    Lets.repeatBlock block fuel m seen hm).ofNoCleanup ?_
  rintro e ending he ⟨result, m', rfl, rfl⟩
  rw [recordFrames_of_exits he]

end Comp

end ScriptSemantics
