import ScriptSemantics.Proofs.OperandLogic
import ScriptSemantics.Proofs.Pairing

/-!
# Constructs in lock step

Every construct of the evaluator goes in lock step on coupled machines, provided that the machines
agree on the local that it reads.

## Main Definitions

* `Coupling.logic` — the logic of operands that go in lock step
* `Coupling.AgreesAt` — two machines agree on the local that a node reads

## Main Results

* `Coupling.matches_node` — a node goes in lock step where the machines agree on what it reads

## Design Notes

There is one lemma for each construct, and it follows the definition of the construct.  Operands and
literals need none, since their logic covers them.
-/

namespace ScriptSemantics.Coupling

variable {C : Coupling} {program : Program} {g g' : Ledger} {m m' : Machine}

/-! ### Operands -/

/-- Operands go in lock step, with the same data. -/
def logic (C : Coupling) : OperandLogic id :=
  .plain (fun _ x x' => C.Pairs x x') .pure .ofExcept .eval .bind

/-! ### Calls -/

section Calls

variable {callId : FrameId} (hid : C.ids.Occurs callId)

include hid

/-- The block of a call is closed over the call itself, under the identity that the call has in each
run. -/
theorem pairs_blockArg (block : Option BlockArg) :
    C.Pairs (Comp.blockArg program callId block)
      (Comp.blockArg program (C.ids.new callId) block) := by
  cases block with
  | none => exact .pure _
  | some arg =>
    cases arg with
    -- the closure keeps the identity of the call as the target of its breaks
    | literal literal =>
      have close : ∀ params body isLambda,
          C.Pairs (Comp.modifyGet (·.makeClosure literal params body isLambda (some callId)))
            (Comp.modifyGet
              (·.makeClosure literal params body isLambda (some (C.ids.new callId)))) := by
        intro params body isLambda
        refine .modifyGet fun g m g' m' related =>
          related.makeClosure literal params body isLambda (some callId) fun id htag => ?_
        cases htag
        exact hid
      rw [Comp.blockArg, Comp.blockArg]
      split
      · exact .bind (close _ _ false) fun _ => .pure _
      · exact .bind (close _ _ true) fun _ => .pure _
      · exact .fail _
    | pass expr =>
      refine .bind (.eval expr) fun value => ?_
      split
      · exact .pure _
      · exact .pure _
      · exact .fail _

/-- The endless loop runs under the identity of its call. -/
theorem pairs_startLoop (block : Option ProcId) :
    C.Pairs (Comp.startLoop callId block) (Comp.startLoop (C.ids.new callId) block) := by
  cases block with
  | none => exact .fail _
  | some block => exact .perform (.loop block callId) hid

/-- Builtins look at the block of the current frame and at the arguments only, and both machines
agree on these. -/
theorem pairs_builtin (names : NameTable) (name : Name) (given : CallArgs)
    (block : Option ProcId) :
    C.Pairs (Comp.builtin names name callId given block)
      (Comp.builtin names name (C.ids.new callId) given block) := by
  have noArgs : C.Pairs (Comp.expectNoArgs given) (Comp.expectNoArgs given) := by
    rw [Comp.expectNoArgs]
    split
    · exact .pure _
    · exact .fail _
  have blockValue : ∀ asLambda, C.Pairs (Comp.blockValue asLambda block)
      (Comp.blockValue asLambda block) := by
    intro asLambda
    cases block with
    | none => exact .fail _
    | some proc =>
      rw [Comp.blockValue]
      split
      · exact .bind (.modifyGet fun _ _ _ _ related => related.addLambda proc) fun _ => .pure _
      · exact .pure _
  rw [Comp.builtin, Comp.builtin]
  split
  · refine .bind noArgs fun _ => .gets_bind_same (fun _ _ _ _ related => ?_) fun _ => .pure _
    rw [related.block?]
  · split
    · exact .bind noArgs fun _ => blockValue _
    · split
      · exact .bind noArgs fun _ => pairs_startLoop hid block
      · exact .fail _

/-- A name is looked up in tables of methods that are the same, so it runs the same method or
builtin. -/
theorem pairs_dispatch (names : NameTable) (name : Name) (given : CallArgs)
    (block : Option ProcId) :
    C.Pairs (Comp.dispatch names name callId given block)
      (Comp.dispatch names name (C.ids.new callId) given block) := by
  refine .gets_bind_same (fun _ _ _ _ related => by rw [related.methods]) fun found => ?_
  cases found with
  | some callee => exact .perform (.method callee callId given block) hid
  | none => exact pairs_builtin hid names name given block

end Calls

/-- The identity of a call is set aside first, and everything about the call is named after it. -/
theorem pairs_call (name : Name) (argList : List Arg) (block : Option BlockArg) :
    C.Pairs (Comp.call program name argList block) (Comp.call program name argList block) :=
  .allocate_bind fun _ hid => .bind (pairs_blockArg hid block) fun _ =>
    .bind (C.logic.args_same () argList rfl) fun _ => pairs_dispatch hid _ _ _ _

/-- A closure that is called has the same identity in both runs. -/
theorem pairs_callValue (callee : NodeId) (argList : List Arg) (block : Option BlockArg) :
    C.Pairs (Comp.callValue program callee argList block)
      (Comp.callValue program callee argList block) := by
  refine .bind (.eval callee) fun value => ?_
  split
  next proc =>
    exact .allocate_bind fun callId hid => .bind (pairs_blockArg hid block) fun block =>
      .bind (C.logic.args_same () argList rfl) fun given =>
        .perform (.closure proc callId given block) hid
  next => exact .fail _

/-- The block of the current frame is the same in both runs. -/
theorem pairs_yield (argList : List Arg) :
    C.Pairs (Comp.yield argList) (Comp.yield argList) := by
  refine .gets_bind_same (fun _ _ _ _ related => related.block?) fun block => ?_
  cases block with
  | none => exact .fail _
  | some block =>
    exact .bind (C.logic.args_same () argList rfl) fun given => .allocate_bind fun callId hid =>
      .perform (.closure block callId given none) hid

/-- A read goes in lock step where both machines read the same. -/
theorem matches_ident (related : C.Related g m g' m') {names : NameTable} {id : NodeId}
    {name : Name} (same : m'.read? id name = m.read? id name) :
    (Comp.ident names id name m).Matches C C.Ends (Comp.ident names id name m') g g' := by
  rw [Comp.ident, Comp.gets_bind, Comp.gets_bind, same]
  cases m.read? id name with
  | some value => exact Pairs.pure _ g m g' m' related
  | none =>
    refine Pairs.gets_bind_same (fun _ _ _ _ related => by rw [related.methods]) (fun known => ?_)
      g m g' m' related
    split
    · exact .allocate_bind fun _ hid => pairs_dispatch hid _ _ _ _
    · exact .fail _

/-! ### Control flow -/

theorem pairs_cond (test thenBranch : NodeId) (elseBranch : Option NodeId) :
    C.Pairs (Comp.cond test thenBranch elseBranch) (Comp.cond test thenBranch elseBranch) := by
  refine .inTransparentScope (.bind (.eval test) fun value => ?_)
  split
  · exact .eval thenBranch
  · exact C.logic.optional_same () elseBranch

/-- A loop takes the same steps in both runs.  An exit with which it ends addresses corresponding
activations. -/
theorem pairs_loopFrom (kind : LoopKind) (test body : NodeId) (fuel : Nat)
    (step : Comp.LoopStep) (proper : step.Proper C.ids) :
    C.Pairs (Comp.loopFrom kind test body fuel step)
      (Comp.loopFrom kind test body fuel (step.rename C.ids)) := by
  induction fuel generalizing step with
  | zero => exact .outOfFuel
  | succ fuel ih =>
    cases step with
    | stop value => exact .pure value
    | leave exit => exact .exit proper
    | test =>
      refine .attempt_bind (.eval test) fun ending hending => ?_
      obtain ⟨heq, hproper⟩ := Comp.LoopStep.afterTest_rename kind hending
      rw [heq]
      exact ih _ hproper
    | body =>
      refine .attempt_bind (.eval body) fun ending hending => ?_
      obtain ⟨heq, hproper⟩ := Comp.LoopStep.afterBody_rename hending
      rw [heq]
      exact ih _ hproper

theorem pairs_loop (fuel : Nat) (kind : LoopKind) (test body : NodeId) (bodyFirst : Bool) :
    C.Pairs (Comp.loop fuel kind test body bodyFirst)
      (Comp.loop fuel kind test body bodyFirst) := by
  refine .bracket (.inTransparentScope ?_) (fun _ _ _ _ related => related.beginLoop)
    fun _ _ _ _ related => related.endLoop
  cases bodyFirst
  · exact pairs_loopFrom kind test body fuel .test trivial
  · exact pairs_loopFrom kind test body fuel .body trivial

theorem pairs_runClause (error : EvalError) (clause : RescueClause) :
    C.Pairs (Comp.runClause error clause) (Comp.runClause error clause) := by
  rw [Comp.runClause]
  split
  · exact .bind (.store _ _ _) fun _ => .eval _
  · exact .eval _

/-- Errors are the same in both runs, so the same clause takes them.  Other exits pass. -/
theorem pairs_guarded (names : NameTable) (body : NodeId) (rescues : List RescueClause)
    (elseBranch : Option NodeId) :
    C.Pairs (Comp.guarded names body rescues elseBranch)
      (Comp.guarded names body rescues elseBranch) := by
  refine .attempt_bind (.eval body) fun ending hending => ?_
  rcases ending with e | value
  · cases e with
    | error error =>
      dsimp only [Ending.rename, Exit.rename]
      split
      · exact pairs_runClause error _
      · exact .exit trivial
    | breakTo target value => cases target <;> exact .exit hending
    | _ => exact .exit hending
  · cases elseBranch with
    | none => exact .pure value
    | some branch => exact .eval branch

/-- The ending that is kept while the cleanup part runs is given back as it was. -/
theorem pairs_begin (names : NameTable) (body : NodeId) (rescues : List RescueClause)
    (elseBranch ensure : Option NodeId) :
    C.Pairs (Comp.begin names body rescues elseBranch ensure)
      (Comp.begin names body rescues elseBranch ensure) := by
  refine .attempt_bind (.inTransparentScope (pairs_guarded names body rescues elseBranch))
    fun ending hending => ?_
  cases ensure with
  | none => exact .settle _ hending
  | some cleanup =>
    exact .bind (.inTransparentScope (.eval cleanup)) fun _ => .settle _ hending

/-! ### Exits -/

/-- The target of a `return` is live in both runs or in none of them. -/
theorem pairs_returnWith (value : Option NodeId) :
    C.Pairs (Comp.returnWith value) (Comp.returnWith value) := by
  refine .bind (C.logic.optional_same () value) fun value => .gets_bind fun g m g' m' related => ?_
  have htarget : m'.frame?.bind (·.returnTarget) =
      (m.frame?.bind (·.returnTarget)).map C.ids.new := by
    rw [related.frame?]
    cases m.frame? with
    | none => rfl
    | some frame => exact frame.returnTarget_rename
  rw [htarget]
  cases hfound : m.frame?.bind (·.returnTarget) with
  | none => exact Pairs.fail _ g m g' m' related
  | some target =>
    obtain ⟨frame, hframe, hreturn⟩ := Option.bind_eq_some_iff.mp hfound
    have hoccurs := (related.proper_frame? hframe).returnTarget target hreturn
    dsimp only [Option.map_some]
    rw [related.isLive_eq hoccurs]
    split
    · exact Pairs.exit (e := .returnTo target value) hoccurs g m g' m' related
    · exact Pairs.fail _ g m g' m' related

/-- The loop or the activation that a `break` addresses corresponds to that of the other run, and is
live in both or in none of them. -/
theorem pairs_breakWith (value : Option NodeId) :
    C.Pairs (Comp.breakWith value) (Comp.breakWith value) := by
  refine .bind (C.logic.optional_same () value) fun value => .gets_bind fun g m g' m' related => ?_
  rw [related.frame?]
  cases hframe : m.frame? with
  | none => exact Pairs.fail _ g m g' m' related
  | some frame =>
    have proper := related.proper_frame? hframe
    have hdepth : (frame.rename C.ids).loopDepth = frame.loopDepth := rfl
    have hkind : (frame.rename C.ids).kind = frame.kind := rfl
    have htag : (frame.rename C.ids).breakTag = frame.breakTag.map C.ids.new := rfl
    dsimp only [Option.map_some]
    rw [hdepth, hkind, htag]
    split
    · exact Pairs.exit (e := .breakTo .loop value) trivial g m g' m' related
    · cases frame.kind with
      | lambda =>
        exact Pairs.exit (e := .breakTo (.frame frame.id) value) proper.id g m g' m' related
      | block =>
        cases hfound : frame.breakTag with
        | none => exact Pairs.fail _ g m g' m' related
        | some tag =>
          have hoccurs := proper.breakTag tag hfound
          dsimp only [Option.map_some]
          rw [related.isLive_eq hoccurs]
          split
          · exact Pairs.exit (e := .breakTo (.frame tag) value) hoccurs g m g' m' related
          · exact Pairs.fail _ g m g' m' related
      | top | method | builtin => exact Pairs.fail _ g m g' m' related

/-- `next` and `redo` have something to act on in both runs or in none of them. -/
theorem isIterating_eq (related : C.Related g m g' m') :
    m'.frame?.any (·.isIterating) = m.frame?.any (·.isIterating) := by
  rw [related.frame?]
  cases m.frame? <;> rfl

theorem pairs_nextWith (value : Option NodeId) :
    C.Pairs (Comp.nextWith value) (Comp.nextWith value) := by
  refine .bind (C.logic.optional_same () value) fun value =>
    .gets_bind_same (fun _ _ _ _ => isIterating_eq) fun iterating => ?_
  split
  · exact .exit (e := .next value) trivial
  · exact .fail _

theorem pairs_redo : C.Pairs Comp.redo Comp.redo := by
  refine .gets_bind_same (fun _ _ _ _ => isIterating_eq) fun iterating => ?_
  split
  · exact .exit (e := .redo) trivial
  · exact .fail _

/-- A message shows no identity of a closure. -/
theorem pairs_raise (names : NameTable) (message : Option NodeId) :
    C.Pairs (Comp.raise names message) (Comp.raise names message) := by
  refine .bind (C.logic.optional_same () message) fun value => .gets_bind fun g m g' m' related => ?_
  -- the message shows closures without their identities
  have same := Comp.raiseMessage_congr names m.closures m'.closures
    (fun id => by rw [related.get?_closures]; cases m.closures.get? id <;> rfl) value
  rw [same]
  exact Pairs.fail _ g m g' m' related

/-! ### Nodes -/

/-- Two machines agree on the local that a node reads, if it reads one. -/
structure AgreesAt (program : Program) (id : NodeId) (m m' : Machine) : Prop where
  read : ∀ name, program.nodes.node? id = some (.ident name) →
    m'.read? id name = m.read? id name
  update : ∀ name op expr, program.nodes.node? id = some (.opAssign name op expr) →
    (m'.env.lookup name).getD .nil = (m.env.lookup name).getD .nil

theorem pairs_assign (id : NodeId) (name : Name) (elems : List Elem) :
    C.Pairs (Comp.assign id name elems) (Comp.assign id name elems) :=
  .bind (C.logic.items_same () elems) fun _ => .bind (.ofExcept _) fun _ => .store id name _

/-- The old value is read before the operand is evaluated.  It may be missing in one of the runs, as
long as both go on with the same value. -/
theorem matches_opAssign (related : C.Related g m g' m') {id expr : NodeId} {name : Name}
    {op : BinaryOp} (same : (m'.env.lookup name).getD .nil = (m.env.lookup name).getD .nil) :
    (Comp.opAssign id name op expr m).Matches C C.Ends (Comp.opAssign id name op expr m') g g' := by
  rw [Comp.opAssign, Comp.gets_bind, Comp.gets_bind, same]
  exact Pairs.bind (.eval expr) (fun _ => .bind (.ofExcept _) fun _ => .store id name _)
    g m g' m' related

theorem pairs_closure (id : NodeId) (params : ParamList) (body : NodeId) (isLambda : Bool) :
    C.Pairs (Comp.closure id params body isLambda) (Comp.closure id params body isLambda) :=
  .bind (.modifyGet fun _ _ _ _ related =>
    related.makeClosure id params body isLambda none (by simp)) fun _ => .pure _

/-- A node goes in lock step where the machines agree on what it reads. -/
theorem matches_node (related : C.Related g m g' m') (fuel : Nat) {id : NodeId} {node : Node}
    (hnode : program.nodes.node? id = some node) (agrees : AgreesAt program id m m') :
    (Comp.node program fuel id node m).Matches C C.Ends (Comp.node program fuel id node m')
      g g' := by
  have paired : ∀ {x : Comp Value}, C.Pairs x x → (x m).Matches C C.Ends (x m') g g' :=
    fun hx => hx g m g' m' related
  cases node with
  | nil | bool | int | str | symbol => exact paired (.pure _)
  | array elems => exact paired (C.logic.array_same () elems)
  | hash list => exact paired (C.logic.hash_same () list)
  | ident name => exact matches_ident related (agrees.read name hnode)
  | assign name elems => exact paired (pairs_assign id name elems)
  | opAssign name op expr => exact matches_opAssign related (agrees.update name op expr hnode)
  | binary op left right => exact paired (C.logic.binary () op left right)
  | seq stmts => exact paired (C.logic.seq_same () stmts rfl)
  | cond test thenBranch elseBranch => exact paired (pairs_cond test thenBranch elseBranch)
  | loop kind test body bodyFirst => exact paired (pairs_loop fuel kind test body bodyFirst)
  | begin body rescues elseBranch ensure =>
    exact paired (pairs_begin _ body rescues elseBranch ensure)
  | define name params body =>
    exact paired (.bind (.modify fun _ _ _ _ related => related.define _) fun _ => .pure _)
  | block params body => exact paired (pairs_closure id params body false)
  | lambda params body => exact paired (pairs_closure id params body true)
  | call name argList block => exact paired (pairs_call name argList block)
  | callValue callee argList block => exact paired (pairs_callValue callee argList block)
  | yield argList => exact paired (pairs_yield argList)
  | returnWith value => exact paired (pairs_returnWith value)
  | breakWith value => exact paired (pairs_breakWith value)
  | nextWith value => exact paired (pairs_nextWith value)
  | redo => exact paired pairs_redo
  | raise message => exact paired (pairs_raise _ message)

end ScriptSemantics.Coupling
