import ScriptSemantics.Proofs.OperandLogic
import ScriptSemantics.Proofs.Resemblance

/-!
# Constructs in resembling runs

Every construct of the evaluator resembles itself: in two runs it asks for the same tasks, and it
ends in corresponding ways when these do.

## Main Definitions

* `Resemblance.Lawful.logic` — the logic of operands that resemble themselves

## Main Results

* `Resemblance.Lawful.pairs_node` — no node looks at the depth limit, nor at what errors say apart
  from their cause
* `Resemblance.Steady.pairs_body`, `Resemblance.Steady.pairs_repeatBlock` — nor does what is run
  inside of an activation, and it makes no errors itself

## Design Notes

There is one lemma for each construct that is more than operands and a literal.  What makes no errors
itself needs a steady resemblance only.
-/

namespace ScriptSemantics.Resemblance

variable {R : Resemblance} {program : Program} {names : NameTable}

/-! ### Operands -/

/-- Operands resemble themselves, with the same data, when the errors of operations on data do. -/
def Lawful.logic (lawful : R.Lawful) : OperandLogic id :=
  .plain (fun _ x x' => R.Pairs x x') .pure (.ofExcept lawful) .eval .bind

/-! ### Inside of activations -/

/-- An activation absorbs the same `return` in both runs, and no errors. -/
theorem Endings.catchReturn {ending ending' : Ending Value} (h : R.Endings ending ending')
    (id : FrameId) : R.Endings (Comp.catchReturn id ending) (Comp.catchReturn id ending') := by
  cases h with
  | ok value => exact .ok value
  | error h => exact .error h
  | @exit e h =>
    cases e with
    | error => cases h
    | returnTo target value =>
      rw [Comp.catchReturn]
      split
      · exact .ok value
      · exact .exit rfl
    | breakTo | next | redo => exact .exit rfl

/-- An activation absorbs the same `break` in both runs, and no errors. -/
theorem Endings.catchBreak {ending ending' : Ending Value} (h : R.Endings ending ending')
    (id : FrameId) : R.Endings (Comp.catchBreak id ending) (Comp.catchBreak id ending') := by
  cases h with
  | ok value => exact .ok value
  | error h => exact .error h
  | @exit e h =>
    cases e with
    | error => cases h
    | breakTo target value =>
      cases target with
      | loop => exact .exit rfl
      | frame target =>
        rw [Comp.catchBreak]
        split
        · exact .ok value
        · exact .exit rfl
    | returnTo | next | redo => exact .exit rfl

/-- A closure absorbs the same exits in both runs. -/
theorem Endings.catchClosure {ending ending' : Ending Value} (h : R.Endings ending ending')
    (closure : Closure) (id : FrameId) :
    R.Endings (Comp.catchClosure closure id ending) (Comp.catchClosure closure id ending') := by
  rw [Comp.catchClosure, Comp.catchClosure]
  split
  · exact (h.catchReturn id).catchBreak id
  · exact h.catchBreak id

/-- Exits that nothing caught become errors in both runs. -/
theorem Endings.topEnding (lawful : R.Lawful) {ending ending' : Ending Value}
    (h : R.Endings ending ending') (id : FrameId) :
    R.Endings (Comp.topEnding id ending) (Comp.topEnding id ending') := by
  have caught := h.catchReturn id
  rw [Comp.topEnding, Comp.topEnding]
  generalize Comp.catchReturn id ending = e, Comp.catchReturn id ending' = e' at caught ⊢
  cases caught with
  | ok value => exact .ok value
  | error h => exact .error h
  | @exit e h =>
    cases e with
    | error => cases h
    | returnTo | breakTo | next | redo => exact .error (lawful.made _)

/-- The body of a closure, run again after each `redo`. -/
theorem pairs_runBody (body : NodeId) (fuel : Nat) :
    R.Pairs (Comp.runBody body fuel) (Comp.runBody body fuel) := by
  induction fuel with
  | zero => exact .outOfFuel
  | succ fuel ih =>
    refine .attempt_bind (.eval body) fun ending ending' endings => ?_
    cases endings with
    | ok value => exact .pure value
    | error h => exact .settle (.error h)
    | @exit e h =>
      cases e with
      | next value => exact .pure value
      | redo => exact ih
      | error | returnTo | breakTo => exact .settle (.exit h)

namespace Steady

variable (steady : R.Steady)

include steady

/-- Parameters receive the same values, since both runs have the same plan. -/
theorem pairs_bindParams (block : Option ProcId) (plan : BindPlan) :
    R.Pairs (Comp.bindParams block plan) (Comp.bindParams block plan) := by
  induction plan with
  | nil => exact .pure _
  | cons param rest ih =>
    have received : R.Pairs (Comp.binding block param.binding) (Comp.binding block param.binding) := by
      cases param.binding with
      | value value => exact .pure value
      | fallback expr => exact .eval expr
      | block => exact .pure _
    have defined : ∀ value,
        R.Pairs (Comp.defineParam param.name value) (Comp.defineParam param.name value) := by
      intro value
      rw [Comp.defineParam]
      split
      · exact .pure ()
      · exact .modify steady (.mapEnv _)
    exact .bind received fun value => .bind (defined value) fun _ => ih

/-- What a callable runs inside of its activation: its names are declared and its parameters
bound. -/
theorem pairs_body {root : NodeId} {block : Option ProcId} {plan : BindPlan} {x : Comp Value}
    (hx : R.Pairs x x) :
    R.Pairs
      (do Comp.modify (·.declareOwned root)
          Comp.bindParams block plan
          x)
      (do Comp.modify (·.declareOwned root)
          Comp.bindParams block plan
          x) :=
  .bind (.modify steady (.of_calls (fun _ _ => rfl) fun _ => rfl)) fun _ =>
    .bind (steady.pairs_bindParams block plan) fun _ => hx

/-- The looping builtin calls its block under the same identities in both runs. -/
theorem pairs_repeatBlock (block : ProcId) (rounds : Nat) :
    R.Pairs (Comp.repeatBlock block rounds) (Comp.repeatBlock block rounds) := by
  induction rounds with
  | zero => exact .outOfFuel
  | succ rounds ih => exact .allocate_bind steady fun _ => .bind (.perform _) fun _ => ih

end Steady

/-! ### Control flow -/

open ScriptSemantics.Comp (LoopStep)

/-- Two runs of a loop go on in the same way, or end in errors that correspond to each other. -/
inductive Steps (R : Resemblance) : LoopStep → LoopStep → Prop
  | same {step : LoopStep} (h : ∀ error, step ≠ .leave (.error error)) : Steps R step step
  | error {error error' : EvalError} (h : R.errors error error') :
      Steps R (.leave (.error error)) (.leave (.error error'))

/-- A loop goes on in the same way after its condition, or leaves with errors that correspond. -/
theorem Endings.afterTest (kind : LoopKind) {ending ending' : Ending Value}
    (h : R.Endings ending ending') :
    R.Steps (.afterTest kind ending) (.afterTest kind ending') := by
  cases h with
  | ok value =>
    have tested : LoopStep.afterTest kind (.ok value) =
        if (kind == .whileTrue) = value.isTruthy then .body else .stop .nil := rfl
    rw [tested]
    split
    next => exact .same nofun
    next => exact .same nofun
  | error h => exact .error h
  | @exit e h =>
    cases e with
    | error => cases h
    | breakTo target value => cases target <;> exact .same nofun
    | returnTo | next | redo => exact .same nofun

/-- A loop goes on in the same way after its body, or leaves with errors that correspond. -/
theorem Endings.afterBody {ending ending' : Ending Value} (h : R.Endings ending ending') :
    R.Steps (.afterBody ending) (.afterBody ending') := by
  cases h with
  | ok value => exact .same nofun
  | error h => exact .error h
  | @exit e h =>
    cases e with
    | error => cases h
    | breakTo target value => cases target <;> exact .same nofun
    | returnTo | next | redo => exact .same nofun

/-- A loop takes the same steps in both runs. -/
theorem pairs_loopFrom (kind : LoopKind) (test body : NodeId) (fuel : Nat) {step step' : LoopStep}
    (h : R.Steps step step') :
    R.Pairs (Comp.loopFrom kind test body fuel step) (Comp.loopFrom kind test body fuel step') := by
  induction fuel generalizing step step' with
  | zero => exact .outOfFuel
  | succ fuel ih =>
    cases h with
    | error h => exact .settle (.error h)
    | same h =>
      cases step with
      | stop value => exact .pure value
      | leave e =>
        cases e with
        | error error => exact absurd rfl (h error)
        | returnTo | breakTo | next | redo => exact .exit rfl
      | test => exact .attempt_bind (.eval test) fun _ _ endings => ih (endings.afterTest kind)
      | body => exact .attempt_bind (.eval body) fun _ _ endings => ih endings.afterBody

/-- A clause receives the message of an error, which its cause determines. -/
theorem pairs_runClause {error error' : EvalError} (same : error'.cause = error.cause)
    (clause : RescueClause) :
    R.Pairs (Comp.runClause error clause) (Comp.runClause error' clause) := by
  have message : error'.message = error.message := congrArg ErrorCause.message same
  rw [Comp.runClause, Comp.runClause, message]
  split
  · exact .bind (.store _ _ _) fun _ => .eval _
  · exact .eval _

/-- Whether there is something to act on depends on the frame, and no limit changes frames. -/
theorem pairs_redo (lawful : R.Lawful) : R.Pairs Comp.redo Comp.redo := by
  refine .gets_bind lawful.toSteady (fun _ _ => rfl) fun iterating => ?_
  split
  · exact .exit rfl
  · exact .fail lawful _

namespace Steady

variable (steady : R.Steady)

include steady

/-- Both runs count the loop. -/
theorem pairs_loop (fuel : Nat) (kind : LoopKind) (test body : NodeId) (bodyFirst : Bool) :
    R.Pairs (Comp.loop fuel kind test body bodyFirst) (Comp.loop fuel kind test body bodyFirst) := by
  have begun : R.Steps (if bodyFirst then .body else .test) (if bodyFirst then .body else .test) :=
    .same (by cases bodyFirst <;> nofun)
  exact .bracket steady (.modifyCurrent fun _ _ => rfl) (.modifyCurrent fun _ _ => rfl)
    (.inTransparentScope steady (pairs_loopFrom _ _ _ _ begun))

/-- The same closure is made in both runs. -/
theorem pairs_closure (literal : NodeId) (params : ParamList) (body : NodeId) (isLambda : Bool) :
    R.Pairs (Comp.closure literal params body isLambda)
      (Comp.closure literal params body isLambda) :=
  .bind (.modifyGet steady (fun _ _ => rfl) (.of_calls (fun _ _ => rfl) fun _ => rfl)) fun _ =>
    .pure _

end Steady

namespace Lawful

variable (lawful : R.Lawful)

include lawful

/-- The condition has the same value in both runs. -/
theorem pairs_cond (test thenBranch : NodeId) (elseBranch : Option NodeId) :
    R.Pairs (Comp.cond test thenBranch elseBranch) (Comp.cond test thenBranch elseBranch) := by
  refine .inTransparentScope lawful.toSteady (.bind (.eval test) fun value => ?_)
  split
  · exact .eval thenBranch
  · exact lawful.logic.optional_same () elseBranch

/-- Errors with the same cause are taken by the same clause.  Others go on, with whatever else they
say. -/
theorem pairs_guarded (body : NodeId) (rescues : List RescueClause) (elseBranch : Option NodeId) :
    R.Pairs (Comp.guarded names body rescues elseBranch)
      (Comp.guarded names body rescues elseBranch) := by
  refine .attempt_bind (.eval body) fun ending ending' endings => ?_
  cases endings with
  | ok value =>
    cases elseBranch with
    | some branch => exact .eval branch
    | none => exact .pure value
  | @error error error' h =>
    have same := lawful.cause h
    dsimp only
    rw [same]
    split
    · exact pairs_runClause same _
    · exact .settle (.error h)
  | @exit e h =>
    cases e with
    | error => cases h
    | returnTo | breakTo | next | redo => exact .exit rfl

/-- The endings that are kept while the cleanup part runs still correspond after it. -/
theorem pairs_begin (body : NodeId) (rescues : List RescueClause)
    (elseBranch ensure : Option NodeId) :
    R.Pairs (Comp.begin names body rescues elseBranch ensure)
      (Comp.begin names body rescues elseBranch ensure) := by
  have steady := lawful.toSteady
  refine .attempt_bind (.inTransparentScope steady (lawful.pairs_guarded body rescues elseBranch))
    fun ending ending' endings => ?_
  cases ensure with
  | none => exact .settle endings
  | some cleanup =>
    exact .bind (.inTransparentScope steady (.eval cleanup)) fun _ => .settle endings

/-- The target of a `return` is live in both runs or in none of them. -/
theorem pairs_returnWith (value : Option NodeId) :
    R.Pairs (Comp.returnWith value) (Comp.returnWith value) := by
  refine .bind (lawful.logic.optional_same () value) fun value =>
    .gets_bind lawful.toSteady (fun _ _ => rfl) fun m => ?_
  split
  · split
    · exact .exit rfl
    · exact .fail lawful _
  · exact .fail lawful _

/-- So is that of a `break`. -/
theorem pairs_breakWith (value : Option NodeId) :
    R.Pairs (Comp.breakWith value) (Comp.breakWith value) := by
  refine .bind (lawful.logic.optional_same () value) fun value =>
    .gets_bind lawful.toSteady (fun _ _ => rfl) fun m => ?_
  split
  · exact .fail lawful _
  · split
    · exact .exit rfl
    · split
      · exact .exit rfl
      · split
        · split
          · exact .exit rfl
          · exact .fail lawful _
        · exact .fail lawful _
      all_goals exact .fail lawful _

theorem pairs_nextWith (value : Option NodeId) :
    R.Pairs (Comp.nextWith value) (Comp.nextWith value) := by
  refine .bind (lawful.logic.optional_same () value) fun value =>
    .gets_bind lawful.toSteady (fun _ _ => rfl) fun iterating => ?_
  split
  · exact .exit rfl
  · exact .fail lawful _

/-- An error that is raised has the same cause in both runs. -/
theorem pairs_raise (message : Option NodeId) :
    R.Pairs (Comp.raise names message) (Comp.raise names message) :=
  .bind (lawful.logic.optional_same () message) fun _ =>
    .gets_bind lawful.toSteady (fun _ _ => rfl) fun _ => .fail lawful _

/-! ### Calls -/

/-- The same block is passed in both runs. -/
theorem pairs_blockArg (callId : FrameId) (block : Option BlockArg) :
    R.Pairs (Comp.blockArg program callId block) (Comp.blockArg program callId block) := by
  have made : ∀ literal params body isLambda,
      R.Pairs (Comp.modifyGet (·.makeClosure literal params body isLambda (some callId)))
        (Comp.modifyGet (·.makeClosure literal params body isLambda (some callId))) :=
    fun _ _ _ _ => .modifyGet lawful.toSteady (fun _ _ => rfl)
      (.of_calls (fun _ _ => rfl) fun _ => rfl)
  cases block with
  | none => exact .pure _
  | some arg =>
    cases arg with
    | literal literal =>
      rw [Comp.blockArg]
      split
      · exact .bind (made _ _ _ _) fun _ => .pure _
      · exact .bind (made _ _ _ _) fun _ => .pure _
      · exact .fail lawful _
    | pass expr =>
      refine .bind (.eval expr) fun value => ?_
      split
      · exact .pure _
      · exact .pure _
      · exact .fail lawful _

/-- Builtins look at the block of the current frame and at the arguments only. -/
theorem pairs_builtin (name : Name) (callId : FrameId) (given : CallArgs) (block : Option ProcId) :
    R.Pairs (Comp.builtin names name callId given block)
      (Comp.builtin names name callId given block) := by
  have noArgs : R.Pairs (Comp.expectNoArgs given) (Comp.expectNoArgs given) := by
    rw [Comp.expectNoArgs]
    split
    · exact .pure ()
    · exact .fail lawful _
  have blockValue : ∀ asLambda,
      R.Pairs (Comp.blockValue asLambda block) (Comp.blockValue asLambda block) := by
    intro asLambda
    cases block with
    | none => exact .fail lawful _
    | some proc =>
      rw [Comp.blockValue]
      split
      · exact .bind (.modifyGet lawful.toSteady (fun _ _ => rfl)
          (.of_calls (fun _ _ => rfl) fun _ => rfl)) fun _ => .pure _
      · exact .pure _
  have startLoop : R.Pairs (Comp.startLoop callId block) (Comp.startLoop callId block) := by
    cases block with
    | none => exact .fail lawful _
    | some proc => exact .perform _
  rw [Comp.builtin]
  split
  · exact .bind noArgs fun _ => .gets_bind lawful.toSteady (fun _ _ => rfl) fun _ => .pure _
  · split
    · exact .bind noArgs fun _ => blockValue _
    · split
      · exact .bind noArgs fun _ => startLoop
      · exact .fail lawful _

/-- The same method or builtin is found in both runs. -/
theorem pairs_dispatch (name : Name) (callId : FrameId) (given : CallArgs)
    (block : Option ProcId) :
    R.Pairs (Comp.dispatch names name callId given block)
      (Comp.dispatch names name callId given block) := by
  refine .gets_bind lawful.toSteady (fun _ _ => rfl) fun found => ?_
  cases found with
  | some callee => exact .perform _
  | none => exact lawful.pairs_builtin name callId given block

/-- Both calls take the same identity. -/
theorem pairs_call (name : Name) (argList : List Arg) (block : Option BlockArg) :
    R.Pairs (Comp.call program name argList block) (Comp.call program name argList block) :=
  .allocate_bind lawful.toSteady fun callId => .bind (lawful.pairs_blockArg callId block) fun _ =>
    .bind (lawful.logic.args_same () argList rfl) fun _ => lawful.pairs_dispatch _ _ _ _

theorem pairs_callValue (callee : NodeId) (argList : List Arg) (block : Option BlockArg) :
    R.Pairs (Comp.callValue program callee argList block)
      (Comp.callValue program callee argList block) := by
  refine .bind (.eval callee) fun value => ?_
  split
  · exact .allocate_bind lawful.toSteady fun callId =>
      .bind (lawful.pairs_blockArg callId block) fun _ =>
        .bind (lawful.logic.args_same () argList rfl) fun _ => .perform _
  · exact .fail lawful _

theorem pairs_yield (argList : List Arg) : R.Pairs (Comp.yield argList) (Comp.yield argList) := by
  refine .gets_bind lawful.toSteady (fun _ _ => rfl) fun block => ?_
  cases block with
  | none => exact .fail lawful _
  | some block =>
    exact .bind (lawful.logic.args_same () argList rfl) fun _ =>
      .allocate_bind lawful.toSteady fun _ => .perform _

theorem pairs_ident (id : NodeId) (name : Name) :
    R.Pairs (Comp.ident names id name) (Comp.ident names id name) := by
  refine .gets_bind lawful.toSteady (fun _ _ => rfl) fun found => ?_
  cases found with
  | some value => exact .pure value
  | none =>
    refine .gets_bind lawful.toSteady (fun _ _ => rfl) fun known => ?_
    split
    · exact .allocate_bind lawful.toSteady fun _ => lawful.pairs_dispatch _ _ _ _
    · exact .fail lawful _

/-! ### Nodes -/

/-- The old value is the same in both runs. -/
theorem pairs_opAssign (id : NodeId) (name : Name) (op : BinaryOp) (expr : NodeId) :
    R.Pairs (Comp.opAssign id name op expr) (Comp.opAssign id name op expr) :=
  .gets_bind lawful.toSteady (fun _ _ => rfl) fun _ => .bind (.eval expr) fun _ =>
    .bind (.ofExcept lawful _) fun _ => .store id name _

/-- Every node resembles itself. -/
theorem pairs_node (fuel : Nat) (id : NodeId) (n : Node) :
    R.Pairs (Comp.node program fuel id n) (Comp.node program fuel id n) := by
  have steady := lawful.toSteady
  cases n with
  | nil | bool | int | str | symbol => exact .pure _
  | array elems => exact lawful.logic.array_same () elems
  | hash list => exact lawful.logic.hash_same () list
  | ident name => exact lawful.pairs_ident id name
  | assign name elems =>
    exact .bind (lawful.logic.items_same () elems) fun _ =>
      .bind (.ofExcept lawful _) fun _ => .store id name _
  | opAssign name op expr => exact lawful.pairs_opAssign id name op expr
  | binary op left right => exact lawful.logic.binary () op left right
  | seq stmts => exact lawful.logic.seq_same () stmts rfl
  | cond test thenBranch elseBranch => exact lawful.pairs_cond test thenBranch elseBranch
  | loop kind test body bodyFirst => exact steady.pairs_loop fuel kind test body bodyFirst
  | begin body rescues elseBranch ensure => exact lawful.pairs_begin body rescues elseBranch ensure
  | define name params body =>
    exact .bind (.modify steady (.of_calls (fun _ _ => rfl) fun _ => rfl)) fun _ => .pure _
  | block params body => exact steady.pairs_closure id params body false
  | lambda params body => exact steady.pairs_closure id params body true
  | call name argList block => exact lawful.pairs_call name argList block
  | callValue callee argList block => exact lawful.pairs_callValue callee argList block
  | yield argList => exact lawful.pairs_yield argList
  | returnWith value => exact lawful.pairs_returnWith value
  | breakWith value => exact lawful.pairs_breakWith value
  | nextWith value => exact lawful.pairs_nextWith value
  | redo => exact pairs_redo lawful
  | raise message => exact lawful.pairs_raise message

end Lawful

end ScriptSemantics.Resemblance
