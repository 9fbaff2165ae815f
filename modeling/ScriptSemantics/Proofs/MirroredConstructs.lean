import ScriptSemantics.Proofs.MirroredWork
import ScriptSemantics.Proofs.OperandLogic
import ScriptSemantics.Proofs.PairedConstructs

/-!
# Mirrored constructs

Every construct of the evaluator goes alike on mirrored machines when the operands of the second one
correspond to those of the first one.

## Main Definitions

* `Mirroring.logic` — the logic of operands that go alike
* `Mirroring.Relates` — the nodes of one program correspond to those of another one

## Main Results

* `Mirroring.Relates.pairs_node` — corresponding nodes go alike

## Design Notes

There is one lemma for each construct that is more than operands and a literal, and it follows the
definition of the construct.
-/

namespace ScriptSemantics

/-- The block that is written at a call. -/
def Node.literal? : Node → Option NodeId
  | call _ _ (some (.literal written)) | callValue _ _ (some (.literal written)) => some written
  | _ => none

namespace Mirroring

/-- Every node of the first program is in the second one, with corresponding operands.  Blocks that
are written at calls are operands that correspond to themselves. -/
structure Relates (M : Mirroring) (program program' : Program) : Prop where
  names : program'.names = program.names
  node : ∀ id, program'.nodes.node? (M.place id) =
    (program.nodes.node? id).map (Node.relabel M.operand)
  literal : ∀ id node block, program.nodes.node? id = some node → node.literal? = some block →
    M.operand block = M.place block

variable {M : Mirroring} {slack : Slack} {program program' : Program} {m m' : Machine}
  {fuel fuel' : Nat}

/-! ### Operands -/

/-- Operands go alike, with the same data, and only free closures occur in these. -/
def logic (M : Mirroring) (slack : Slack) : OperandLogic M.operand where
  World := Unit
  Later _ _ := True
  Same _ := .within M.Free
  Goes d _ _ x x' := M.Pairs slack (d.Within M.Free) x x'
  congruence _ := DataRelation.congruence_within
  mono _ same := same
  pure := by
    rintro d - a _ ⟨rfl, free⟩
    exact .pure free
  ofExcept := by
    rintro d - _ _ (⟨rfl, free⟩ | cause)
    · exact .pure free
    · exact .fail cause
  eval := .eval
  bind hx hf := .bind hx fun a free => hf () a a trivial ⟨rfl, free⟩

/-! ### Calls -/

/-- Both machines close a literal. -/
theorem pairs_makeClosure (literal : NodeId) (params : ParamList) (body : NodeId) (isLambda : Bool)
    (breakTag : Option FrameId) :
    M.Pairs slack M.Free (Comp.modifyGet (·.makeClosure literal params body isLambda breakTag))
      (Comp.modifyGet (·.makeClosure (M.place literal) (params.relabel M.operand) (M.operand body)
        isLambda breakTag)) := by
  refine .modifyGet fun m m' inside => ?_
  obtain ⟨same, free, mirrors⟩ := inside.makeClosure literal params body isLambda breakTag
  exact ⟨same, free, mirrors, .keep (.refl _) rfl rfl (Nat.le_refl _) rfl,
    .keep (.refl _) rfl rfl (Nat.le_refl _) rfl⟩

/-- A block that is written at a call is the same operand in both programs, so the same kind of
literal is closed.  A block that is passed is free, since it is the value of an operand. -/
theorem Relates.pairs_blockArg (relates : M.Relates program program') (callId : FrameId)
    {block : Option BlockArg}
    (literal : ∀ written, block = some (.literal written) → M.operand written = M.place written) :
    M.Pairs slack M.FreeBlock (Comp.blockArg program callId block)
      (Comp.blockArg program' callId (block.map (BlockArg.relabel M.operand))) := by
  cases block with
  | none => exact .pure freeBlock_none
  | some arg =>
    cases arg with
    | literal written =>
      have hnode := relates.node written
      rw [← literal written rfl] at hnode
      rw [Option.map_some, BlockArg.relabel, Comp.blockArg, Comp.blockArg, hnode]
      have close : ∀ params body isLambda, M.Pairs slack M.FreeBlock
          (Comp.modifyGet (·.makeClosure written params body isLambda (some callId)) >>=
            fun id => pure (some id))
          (Comp.modifyGet (·.makeClosure (M.operand written) (params.relabel M.operand)
            (M.operand body) isLambda (some callId)) >>= fun id => pure (some id)) := by
        intro params body isLambda
        rw [literal written rfl]
        exact .bind (pairs_makeClosure written params body isLambda _) fun id free =>
          .pure (freeBlock_some free)
      cases program.nodes.node? written with
      | none => exact .fail _
      | some node =>
        cases node with
        | block params body => exact close params body false
        | lambda params body => exact close params body true
        | _ => exact .fail _
    | pass expr =>
      refine .bind (.eval expr) fun value free => ?_
      cases value with
      | nil => exact .pure freeBlock_none
      | proc id => exact .pure (freeBlock_some (Value.within_proc.mp free))
      | _ => exact .fail _

/-- Only a free closure is repeated, under the same identity. -/
theorem pairs_startLoop (callId : FrameId) {block : Option ProcId} (free : M.FreeBlock block) :
    M.Pairs slack (Value.Within M.Free) (Comp.startLoop callId block)
      (Comp.startLoop callId block) := by
  cases block with
  | none => exact .fail _
  | some block => exact .perform fun _ _ inside => .loop callId inside.toMirrors (free block rfl)

/-- The copy that makes a lambda of a free closure is free. -/
theorem pairs_blockValue (asLambda : Bool) {block : Option ProcId} (free : M.FreeBlock block) :
    M.Pairs slack (Value.Within M.Free) (Comp.blockValue asLambda block)
      (Comp.blockValue asLambda block) := by
  cases block with
  | none => exact .fail _
  | some proc =>
    rw [Comp.blockValue]
    split
    · have copied : M.Pairs slack M.Free (Comp.modifyGet (·.addLambda proc))
          (Comp.modifyGet (·.addLambda proc)) := by
        refine .modifyGet fun m m' inside => ?_
        obtain ⟨same, hfree, mirrors⟩ := inside.addLambda (free proc rfl)
        exact ⟨same, hfree, mirrors, .addLambda m proc, .addLambda m' proc⟩
      exact .bind copied fun id hfree => .pure (Value.within_proc.mpr hfree)
    · exact .pure (Value.within_proc.mpr (free proc rfl))

theorem pairs_expectNoArgs (given : CallArgs) :
    M.Pairs slack (fun _ => True) (Comp.expectNoArgs given) (Comp.expectNoArgs given) := by
  rw [Comp.expectNoArgs]
  split
  · exact .pure trivial
  · exact .fail _

/-- Builtins look at the block of the current frame and at the arguments only, which are the same in
both runs. -/
theorem pairs_builtin (names : NameTable) (name : Name) (callId : FrameId) (given : CallArgs)
    {block : Option ProcId} (free : M.FreeBlock block) :
    M.Pairs slack (Value.Within M.Free) (Comp.builtin names name callId given block)
      (Comp.builtin names name callId given block) := by
  rw [Comp.builtin]
  split
  · refine .bind (pairs_expectNoArgs given) fun _ _ => ?_
    refine .gets_bind_same (fun m m' inside => by rw [inside.block?]) fun known => ?_
    exact .pure (Value.within_bool known)
  · split
    · exact .bind (pairs_expectNoArgs given) fun _ _ => pairs_blockValue _ free
    · split
      · exact .bind (pairs_expectNoArgs given) fun _ _ => pairs_startLoop callId free
      · exact .fail _

/-- The same names are defined, and methods of one name correspond. -/
theorem pairs_dispatch (names : NameTable) (name : Name) (callId : FrameId) {given : CallArgs}
    {block : Option ProcId} (freeArgs : given.Within M.Free) (free : M.FreeBlock block) :
    M.Pairs slack (Value.Within M.Free) (Comp.dispatch names name callId given block)
      (Comp.dispatch names name callId given block) := by
  refine .gets_bind fun m m' inside => ?_
  rw [inside.method?_eq]
  cases m.methods.get? name with
  | none => exact pairs_builtin names name callId given free m m' inside
  | some callee =>
    exact Pairs.perform (fun _ _ inside => .method callee callId inside.toMirrors freeArgs free)
      m m' inside

/-- Both calls have the same identity, since as many were given out before. -/
theorem Relates.pairs_call (relates : M.Relates program program') (name : Name) (list : List Arg)
    {block : Option BlockArg}
    (literal : ∀ written, block = some (.literal written) → M.operand written = M.place written) :
    M.Pairs slack (Value.Within M.Free) (Comp.call program name list block)
      (Comp.call program' name (list.map (Arg.relabel M.operand))
        (block.map (BlockArg.relabel M.operand))) := by
  refine .bind .allocateFrame fun callId _ => ?_
  refine .bind (relates.pairs_blockArg callId literal) fun block free => ?_
  refine .bind ((M.logic slack).args () list ⟨rfl, CallArgs.within_empty⟩) fun given freeArgs => ?_
  rw [relates.names]
  exact pairs_dispatch program.names name callId freeArgs free

/-- A closure that is called is the value of an operand, so it is free. -/
theorem Relates.pairs_callValue (relates : M.Relates program program') (callee : NodeId)
    (list : List Arg) {block : Option BlockArg}
    (literal : ∀ written, block = some (.literal written) → M.operand written = M.place written) :
    M.Pairs slack (Value.Within M.Free) (Comp.callValue program callee list block)
      (Comp.callValue program' (M.operand callee) (list.map (Arg.relabel M.operand))
        (block.map (BlockArg.relabel M.operand))) := by
  refine .bind (.eval callee) fun value hvalue => ?_
  cases value with
  | proc id =>
    refine .bind .allocateFrame fun callId _ => ?_
    refine .bind (relates.pairs_blockArg callId literal) fun block free => ?_
    refine .bind ((M.logic slack).args () list ⟨rfl, CallArgs.within_empty⟩) fun given freeArgs => ?_
    exact .perform fun _ _ inside =>
      .closure callId inside.toMirrors (Value.within_proc.mp hvalue) freeArgs free
  | _ => exact .fail _

/-- The block of the current frame is free, since the run is inside that frame. -/
theorem pairs_yield (list : List Arg) :
    M.Pairs slack (Value.Within M.Free) (Comp.yield list)
      (Comp.yield (list.map (Arg.relabel M.operand))) := by
  refine .gets_bind fun m m' inside => ?_
  rw [inside.block?]
  have free := inside.block
  cases hblock : m.block? with
  | none => exact Pairs.fail _ m m' inside
  | some block =>
    refine Pairs.bind ((M.logic slack).args () list ⟨rfl, CallArgs.within_empty⟩)
      (fun given freeArgs => ?_) m m' inside
    refine .bind .allocateFrame fun callId _ => ?_
    exact .perform fun _ _ inside =>
      .closure callId inside.toMirrors (free block hblock) freeArgs freeBlock_none

/-- Both runs read the same local, whichever scopes it is in sight from. -/
theorem pairs_ident (names : NameTable) (id : NodeId) (name : Name) :
    M.Pairs slack (Value.Within M.Free) (Comp.ident names id name)
      (Comp.ident names (M.place id) name) := by
  refine .gets_bind fun m m' inside => ?_
  rw [inside.read?_eq]
  cases hread : m.read? id name with
  | some value =>
    have hlookup : m.env.lookup name = some value := by
      rw [Machine.read?] at hread
      split at hread
      · cases hread
      · exact hread
    exact Pairs.pure (inside.within_lookup hlookup) m m' inside
  | none =>
    refine Pairs.gets_bind_same (fun m m' inside => inside.contains_methods_eq name) (fun known => ?_)
      m m' inside
    split
    · exact .bind .allocateFrame fun callId _ =>
        pairs_dispatch names name callId CallArgs.within_empty freeBlock_none
    · exact .fail _

/-! ### Control flow -/

/-- The condition has the same value in both runs. -/
theorem pairs_cond (test thenBranch : NodeId) (elseBranch : Option NodeId) :
    M.Pairs slack (Value.Within M.Free) (Comp.cond test thenBranch elseBranch)
      (Comp.cond (M.operand test) (M.operand thenBranch) (elseBranch.map M.operand)) := by
  refine .inTransparentScope (.bind (.eval test) fun value _ => ?_)
  split
  · exact .eval thenBranch
  · exact (M.logic slack).optional () elseBranch

/-- Only free closures occur in what a loop does next. -/
def ProperStep (M : Mirroring) : Comp.LoopStep → Prop
  | .stop value => value.Within M.Free
  | .leave exit => exit.Within M.Free
  | .body | .test => True

/-- What follows a condition carries on its value or its exit, in which only free closures occur. -/
theorem properStep_afterTest (kind : LoopKind) {ending : Ending Value}
    (proper : M.Proper (Value.Within M.Free) ending) : M.ProperStep (.afterTest kind ending) := by
  rcases ending with e | value
  · cases e with
    | breakTo target value => cases target <;> exact proper
    | _ => exact proper
  · rw [Comp.LoopStep.afterTest]
    split
    · trivial
    · exact Value.within_nil

/-- What follows a run of the body carries on its exit, in which only free closures occur. -/
theorem properStep_afterBody {ending : Ending Value}
    (proper : M.Proper (Value.Within M.Free) ending) : M.ProperStep (.afterBody ending) := by
  rcases ending with e | value
  · cases e with
    | breakTo target value => cases target <;> exact proper
    | next | redo => trivial
    | _ => exact proper
  · trivial

/-- A loop takes the same steps in both runs, though one of them may be out of fuel earlier. -/
theorem pairs_loopFrom (kind : LoopKind) (test body : NodeId) (step : Comp.LoopStep)
    (covers : slack.Covers fuel fuel') (proper : M.ProperStep step) :
    M.Pairs slack (Value.Within M.Free) (Comp.loopFrom kind test body fuel step)
      (Comp.loopFrom kind (M.operand test) (M.operand body) fuel' step) := by
  refine .by_fuel covers step proper (fun _ => rfl) (fun _ => rfl) fun fuel fuel' ih step proper => ?_
  cases step with
  | stop value => exact .pure proper
  | leave exit => exact .exit proper
  | test =>
    exact .attempt_bind (.eval test) fun ending hending => ih _ (properStep_afterTest kind hending)
  | body =>
    exact .attempt_bind (.eval body) fun ending hending => ih _ (properStep_afterBody hending)

theorem pairs_loop (covers : slack.Covers fuel fuel') (kind : LoopKind) (test body : NodeId)
    (bodyFirst : Bool) :
    M.Pairs slack (Value.Within M.Free) (Comp.loop fuel kind test body bodyFirst)
      (Comp.loop fuel' kind (M.operand test) (M.operand body) bodyFirst) := by
  refine .inLoop (.inTransparentScope ?_)
  cases bodyFirst
  · exact pairs_loopFrom kind test body .test covers trivial
  · exact pairs_loopFrom kind test body .body covers trivial

theorem pairs_runClause (error : EvalError) (clause : RescueClause) :
    M.Pairs slack (Value.Within M.Free) (Comp.runClause error clause)
      (Comp.runClause error (clause.relabel M.operand)) := by
  obtain ⟨classes, binding, body⟩ := clause
  cases binding with
  | none => exact .eval body
  | some name => exact .bind (.store _ _ name (Value.within_str _)) fun _ _ => .eval body

/-- Relabelling changes no class of a clause, so corresponding clauses take an error. -/
theorem pairs_guarded (names : NameTable) (body : NodeId) (rescues : List RescueClause)
    (elseBranch : Option NodeId) :
    M.Pairs slack (Value.Within M.Free) (Comp.guarded names body rescues elseBranch)
      (Comp.guarded names (M.operand body) (rescues.map (RescueClause.relabel M.operand))
        (elseBranch.map M.operand)) := by
  refine .attempt_bind (.eval body) fun ending proper => ?_
  rcases ending with e | value
  · cases e with
    | error error =>
      dsimp only
      have hfind : (rescues.map (RescueClause.relabel M.operand)).find?
          (Comp.clauseMatches names error.cause) =
          (rescues.find? (Comp.clauseMatches names error.cause)).map (RescueClause.relabel M.operand) :=
        List.find?_map
      rw [hfind]
      cases rescues.find? (Comp.clauseMatches names error.cause) with
      | some clause => exact pairs_runClause error clause
      | none => exact .exit trivial
    | _ => exact .exit proper
  · cases elseBranch with
    | none => exact .pure proper
    | some branch => exact .eval branch

/-- The ending that is kept while the cleanup part runs is the same in both runs. -/
theorem pairs_begin (names : NameTable) (body : NodeId) (rescues : List RescueClause)
    (elseBranch ensure : Option NodeId) :
    M.Pairs slack (Value.Within M.Free) (Comp.begin names body rescues elseBranch ensure)
      (Comp.begin names (M.operand body) (rescues.map (RescueClause.relabel M.operand))
        (elseBranch.map M.operand) (ensure.map M.operand)) := by
  refine .attempt_bind (.inTransparentScope (pairs_guarded names body rescues elseBranch))
    fun ending proper => ?_
  cases ensure with
  | none => exact .settle ending proper
  | some cleanup =>
    exact .bind (.inTransparentScope (.eval cleanup)) fun _ _ => .settle ending proper

/-! ### Exits -/

/-- What depends on the call stack only goes alike. -/
theorem Pairs.calls_bind {α : Type} {good : α → Prop} {k : Machine → Comp α}
    (only : ∀ m m' : Machine, m'.calls = m.calls → k m' = k m)
    (hk : ∀ m, M.Pairs slack good (k m) (k m)) :
    M.Pairs slack good (Comp.machine >>= k) (Comp.machine >>= k) := by
  refine .gets_bind fun m m' inside => ?_
  rw [only m m' inside.calls]
  exact hk m m m' inside

/-- The target of a `return` and its liveness depend on the call stack, which both runs share. -/
theorem pairs_returnWith (value : Option NodeId) :
    M.Pairs slack (Value.Within M.Free) (Comp.returnWith value)
      (Comp.returnWith (value.map M.operand)) := by
  refine .bind ((M.logic slack).optional () value) fun value free => .calls_bind ?_ fun m => ?_
  · intro m m' h
    simp only [Machine.frame?, h]
  · split
    · split
      · exact .exit free
      · exact .fail _
    · exact .fail _

/-- So do those of a `break`. -/
theorem pairs_breakWith (value : Option NodeId) :
    M.Pairs slack (Value.Within M.Free) (Comp.breakWith value)
      (Comp.breakWith (value.map M.operand)) := by
  refine .bind ((M.logic slack).optional () value) fun value free => .calls_bind ?_ fun m => ?_
  · intro m m' h
    simp only [Machine.frame?, h]
  · split
    · exact .fail _
    · split
      · exact .exit free
      · split
        · exact .exit free
        · split
          · split
            · exact .exit free
            · exact .fail _
          · exact .fail _
        all_goals exact .fail _

/-- Whether there is something to act on depends on the current frame only. -/
theorem pairs_nextWith (value : Option NodeId) :
    M.Pairs slack (Value.Within M.Free) (Comp.nextWith value)
      (Comp.nextWith (value.map M.operand)) := by
  refine .bind ((M.logic slack).optional () value) fun value free => ?_
  refine .gets_bind_same (fun m m' inside => by rw [inside.frame?]) fun iterating => ?_
  split
  · exact .exit free
  · exact .fail _

theorem pairs_redo : M.Pairs slack (Value.Within M.Free) Comp.redo Comp.redo := by
  refine .gets_bind_same (fun m m' inside => by rw [inside.frame?]) fun iterating => ?_
  split
  · exact .exit trivial
  · exact .fail _

theorem pairs_raise (names : NameTable) (message : Option NodeId) :
    M.Pairs slack (Value.Within M.Free) (Comp.raise names message)
      (Comp.raise names (message.map M.operand)) := by
  refine .bind ((M.logic slack).optional () message) fun value _ => .gets_bind fun m m' inside => ?_
  -- the message tells lambdas from other closures, and nothing else
  rw [Comp.raiseMessage_congr names m.closures m'.closures inside.isLambda_eq value]
  exact Pairs.fail _ m m' inside

/-! ### Nodes -/

theorem pairs_assign (id : NodeId) (name : Name) (elems : List Elem) :
    M.Pairs slack (Value.Within M.Free) (Comp.assign id name elems)
      (Comp.assign (M.place id) name (elems.map (Elem.relabel M.operand))) := by
  refine .bind ((M.logic slack).items () elems) fun parts hparts => ?_
  refine .bind (.ofExcept fun _ => SequenceItem.within_assigned hparts) fun value free => ?_
  exact .store id (M.place id) name free

/-- The old value is in sight in both runs or in none of them. -/
theorem pairs_opAssign (id : NodeId) (name : Name) (op : BinaryOp) (expr : NodeId) :
    M.Pairs slack (Value.Within M.Free) (Comp.opAssign id name op expr)
      (Comp.opAssign (M.place id) name op (M.operand expr)) := by
  refine .gets_bind_same (fun m m' inside => inside.lookup_eq name) fun present => ?_
  refine .bind (.eval expr) fun right _ => ?_
  refine .bind (@Pairs.ofExcept _ M slack (Value.Within M.Free) _ fun _ => BinaryOp.within_eval)
    fun value free => ?_
  exact .store id (M.place id) name free

theorem pairs_closure (id : NodeId) (params : ParamList) (body : NodeId) (isLambda : Bool) :
    M.Pairs slack (Value.Within M.Free) (Comp.closure id params body isLambda)
      (Comp.closure (M.place id) (params.relabel M.operand) (M.operand body) isLambda) :=
  .bind (pairs_makeClosure id params body isLambda none) fun _ free =>
    .pure (Value.within_proc.mpr free)

/-- Both runs register a method, with corresponding roots and bodies. -/
theorem pairs_define (id : NodeId) (name : Name) (params : ParamList) (body : NodeId) :
    M.Pairs slack (Value.Within M.Free)
      (Comp.modify (·.define { name, params, body, root := id }) >>= fun _ => pure (.symbol name))
      (Comp.modify (·.define
        { name, params := params.relabel M.operand, body := M.operand body, root := M.place id }) >>=
          fun _ => pure (.symbol name)) := by
  have registered : M.Pairs slack (fun _ => True)
      (Comp.modify (·.define { name, params, body, root := id }))
      (Comp.modify (·.define
        { name, params := params.relabel M.operand, body := M.operand body, root := M.place id })) :=
    .modify fun m m' inside => ⟨inside.toMirrors.define { name, params, body, root := id },
      .keep (.refl _) rfl rfl (Nat.le_refl _) rfl, .keep (.refl _) rfl rfl (Nat.le_refl _) rfl⟩
  exact .bind registered fun _ _ => .pure (Value.within_symbol name)

/-- Corresponding nodes go alike. -/
theorem Relates.pairs_node (relates : M.Relates program program') (covers : slack.Covers fuel fuel')
    {id : NodeId} {node : Node} (hnode : program.nodes.node? id = some node) :
    M.Pairs slack (Value.Within M.Free) (Comp.node program fuel id node)
      (Comp.node program' fuel' (M.place id) (node.relabel M.operand)) := by
  have literal := relates.literal id node
  have hnames := relates.names
  cases node with
  | nil => exact .pure Value.within_nil
  | bool b => exact .pure (Value.within_bool b)
  | int n => exact .pure (Value.within_int n)
  | symbol name => exact .pure (Value.within_symbol name)
  | str text =>
    rw [Node.relabel, Comp.node, Comp.node, hnames]
    exact .pure (Value.within_str _)
  | array elems => exact (M.logic slack).array () elems
  | hash list => exact (M.logic slack).hash () list
  | ident name =>
    rw [Node.relabel, Comp.node, Comp.node, hnames]
    exact pairs_ident program.names id name
  | assign name elems => exact pairs_assign id name elems
  | opAssign name op expr => exact pairs_opAssign id name op expr
  | binary op left right => exact (M.logic slack).binary () op left right
  | seq stmts => exact (M.logic slack).seq () stmts ⟨rfl, Value.within_nil⟩
  | cond test thenBranch elseBranch => exact pairs_cond test thenBranch elseBranch
  | loop kind test body bodyFirst => exact pairs_loop covers kind test body bodyFirst
  | begin body rescues elseBranch ensure =>
    rw [Node.relabel, Comp.node, Comp.node, hnames]
    exact pairs_begin program.names body rescues elseBranch ensure
  | define name params body => exact pairs_define id name params body
  | block params body => exact pairs_closure id params body false
  | lambda params body => exact pairs_closure id params body true
  | call name list block =>
    refine relates.pairs_call name list fun written hwritten => ?_
    subst hwritten
    exact literal written hnode rfl
  | callValue callee list block =>
    refine relates.pairs_callValue callee list fun written hwritten => ?_
    subst hwritten
    exact literal written hnode rfl
  | yield list => exact pairs_yield list
  | returnWith value => exact pairs_returnWith value
  | breakWith value => exact pairs_breakWith value
  | nextWith value => exact pairs_nextWith value
  | redo => exact pairs_redo
  | raise message =>
    rw [Node.relabel, Comp.node, Comp.node, hnames]
    exact pairs_raise program.names message

end Mirroring

end ScriptSemantics
