import ScriptSemantics.Proofs.OperandLogic
import ScriptSemantics.Proofs.OperandOrder
import ScriptSemantics.Proofs.Walks

/-!
# The order of evaluation

A node evaluates its operands in the order in which the walk of the resolver visits them, with one
exception: a value that is passed as the block of a call is evaluated before the arguments.

## Main Definitions

* `Node.visited` — the operands of a node in the order of the walk
* `Node.schedule` — the operands of a node in the order of evaluation
* `Node.BlockFirst` — a block is evaluated before arguments that the walk visits first
* `Comp.traversing` — the logic of operands that are evaluated in their order

## Main Results

* `Node.schedule_eq_visited` — the two orders differ for calls that pass a block only
* `Comp.traverses_node` — every node evaluates its operands in passes over its schedule
* `Program.operands_are_scheduled` — so do the steps of every evaluation of a node
-/

namespace ScriptSemantics

/-! ### Two orders -/

namespace Node

/-- The operands of a node in the order in which the walk visits them. -/
def visited (id : NodeId) (node : Node) : List NodeId :=
  (node.moves id).filterMap Move.visited?

/-- The operands of a node in the order in which they are evaluated. -/
def schedule (id : NodeId) : Node → List NodeId
  | call _ args (some (.pass expr)) => expr :: args.map Arg.expr
  | callValue callee args (some (.pass expr)) => callee :: expr :: args.map Arg.expr
  | other => other.visited id

/-- A value is passed as the block of a call that has arguments. -/
def BlockFirst : Node → Prop
  | call _ args (some (.pass _)) | callValue _ args (some (.pass _)) => args ≠ []
  | _ => False

variable {id : NodeId} {node : Node}

/-- Only a call that passes a block may evaluate its operands in another order than the walk visits
them. -/
theorem schedule_eq_visited (h : ¬ node.BlockFirst) : node.schedule id = node.visited id := by
  cases node with
  | call name args block =>
    rcases block with _ | ⟨literal⟩ | ⟨expr⟩
    · rfl
    · rfl
    · obtain rfl : args = [] := by simpa [BlockFirst] using h
      rfl
  | callValue callee args block =>
    rcases block with _ | ⟨literal⟩ | ⟨expr⟩
    · rfl
    · rfl
    · obtain rfl : args = [] := by simpa [BlockFirst] using h
      rfl
  | _ => rfl

/-- Operands as they are written are in the order of evaluation, those of loops and of calls that
pass a block apart. -/
theorem sublist_schedule {xs : List NodeId} (hloop : node.isLoop = false) (h : ¬ node.BlockFirst)
    (sub : xs.Sublist node.children) : xs.Sublist (node.schedule id) := by
  rw [schedule_eq_visited h, visited, visited_moves_of_not_loop hloop]
  exact sub

end Node

/-! ### Operands of all kinds -/

namespace Comp

variable {program : Program} {fuel : Nat}

/-- Operands are traversed one after the other. -/
def traversing : OperandLogic id :=
  .plain (fun xs x _ => x.Traverses xs) .pure .ofExcept .eval .bind

/-- A literal is closed over, and nothing of it is evaluated. -/
theorem traverses_closure (literal : NodeId) (params : ParamList) (body : NodeId) (isLambda : Bool) :
    (closure literal params body isLambda).Traverses [] :=
  .bind_silent (.modifyGet fun _ => .of_env_eq rfl) fun _ => .pure _

/-! ### Calls -/

/-- The block of a call is an operand when it is a value. -/
def blockOperand : Option BlockArg → List NodeId
  | some (.pass expr) => [expr]
  | _ => []

/-- Only a block that is passed on is evaluated. -/
theorem traverses_blockArg (callId : FrameId) (block : Option BlockArg) :
    (blockArg program callId block).Traverses (blockOperand block) := by
  rcases block with _ | ⟨literal⟩ | ⟨expr⟩
  · exact .pure none
  · show (blockArg program callId (some (.literal literal))).Traverses []
    rw [blockArg]
    split
    · exact .bind_silent (.modifyGet fun _ => .of_env_eq rfl) fun _ => .pure _
    · exact .bind_silent (.modifyGet fun _ => .of_env_eq rfl) fun _ => .pure _
    · exact .fail _
  · refine .eval_bind expr fun value => ?_
    cases value with
    | nil => exact .pure none
    | proc id => exact .pure (some id)
    | _ => exact .fail _

/-- What a built-in method does is no evaluation of operands. -/
theorem traverses_builtin (names : NameTable) (name : Name) (callId : FrameId) (given : CallArgs)
    (block : Option ProcId) : (builtin names name callId given block).Traverses [] := by
  have noArgs : (expectNoArgs given).Traverses [] := by
    rw [expectNoArgs]
    split
    · exact .pure ()
    · exact .fail _
  unfold builtin
  split
  · exact noArgs.bind_silent fun _ => .bind_silent (.gets _) fun _ => .pure _
  · split
    · refine noArgs.bind_silent fun _ => ?_
      cases block with
      | none => exact .fail _
      | some id =>
        rw [blockValue]
        split
        · exact .bind_silent (.modifyGet fun _ => .of_env_eq rfl) fun _ => .pure _
        · exact .pure _
    · split
      · refine noArgs.bind_silent fun _ => ?_
        cases block with
        | none => exact .fail _
        | some id => exact .perform (.loop id callId)
      · exact .fail _

/-- Nor is the call of what has been found under a name. -/
theorem traverses_dispatch (names : NameTable) (name : Name) (callId : FrameId) (given : CallArgs)
    (block : Option ProcId) : (dispatch names name callId given block).Traverses [] := by
  refine .bind_silent (.gets _) fun method => ?_
  cases method with
  | some method => exact .perform (.method method callId given block)
  | none => exact traverses_builtin names name callId given block

/-- The block of a call goes before its arguments. -/
theorem traverses_call (id : NodeId) (name : Name) (argList : List Arg) (block : Option BlockArg) :
    (call program name argList block).Traverses ((Node.call name argList block).schedule id) := by
  have all : (call program name argList block).Traverses
      (blockOperand block ++ argList.map Arg.expr) :=
    Traverses.allocateFrame.bind_silent fun callId =>
      (traverses_blockArg callId block).bind fun block =>
        .bind_last (traversing.args_same () argList rfl) fun given =>
          traverses_dispatch program.names name callId given block
  refine all.mono ?_
  rcases block with _ | ⟨literal⟩ | ⟨expr⟩
  · exact Node.sublist_schedule rfl not_false (by simp [blockOperand, Node.children])
  · exact Node.sublist_schedule rfl not_false (by simp [blockOperand, Node.children])
  · exact .refl _

/-- A call of a value evaluates the callee, the passed block and the arguments. -/
theorem traverses_callValue (id callee : NodeId) (argList : List Arg) (block : Option BlockArg) :
    (callValue program callee argList block).Traverses
      ((Node.callValue callee argList block).schedule id) := by
  have all : (callValue program callee argList block).Traverses
      (callee :: (blockOperand block ++ argList.map Arg.expr)) := by
    refine .eval_bind callee fun value => ?_
    cases value with
    | proc proc =>
      exact Traverses.allocateFrame.bind_silent fun callId =>
        (traverses_blockArg callId block).bind fun block =>
          .bind_last (traversing.args_same () argList rfl) fun given =>
            .perform (.closure proc callId given block)
    | _ => exact .fail _
  refine all.mono ?_
  rcases block with _ | ⟨literal⟩ | ⟨expr⟩
  · exact Node.sublist_schedule rfl not_false (by simp [blockOperand, Node.children])
  · exact Node.sublist_schedule rfl not_false (by simp [blockOperand, Node.children])
  · exact .refl _

theorem traverses_yield (argList : List Arg) : (yield argList).Traverses (argList.map Arg.expr) := by
  refine .bind_silent (.gets _) fun block => ?_
  cases block with
  | none => exact .fail _
  | some block =>
    exact .bind_last (traversing.args_same () argList rfl) fun given =>
      Traverses.allocateFrame.bind_silent fun id => .perform (.closure block id given none)

/-- A read evaluates no operands, also where it turns out to be a call. -/
theorem traverses_ident (names : NameTable) (id : NodeId) (name : Name) :
    (ident names id name).Traverses [] := by
  refine .bind_silent (.gets _) fun value => ?_
  cases value with
  | some value => exact .pure value
  | none =>
    refine .bind_silent (.gets _) fun known => ?_
    split
    · exact Traverses.allocateFrame.bind_silent fun callId =>
        traverses_dispatch names name callId {} none
    · exact .fail _

/-! ### Exits -/

theorem traverses_returnWith (value : Option NodeId) :
    (returnWith value).Traverses value.toList := by
  refine .bind_last (traversing.optional_same () value) fun value =>
    .bind_silent (.gets _) fun m => ?_
  split
  · split
    · exact .settle _
    · exact .fail _
  · exact .fail _

theorem traverses_breakWith (value : Option NodeId) :
    (breakWith value).Traverses value.toList := by
  refine .bind_last (traversing.optional_same () value) fun value =>
    .bind_silent (.gets _) fun m => ?_
  split
  · exact .fail _
  · split
    · exact .settle _
    · split
      · exact .settle _
      · split
        · split
          · exact .settle _
          · exact .fail _
        · exact .fail _
      all_goals exact .fail _

theorem traverses_nextWith (value : Option NodeId) : (nextWith value).Traverses value.toList := by
  refine .bind_last (traversing.optional_same () value) fun value =>
    .bind_silent (.gets _) fun iterating => ?_
  split
  · exact .settle _
  · exact .fail _

theorem traverses_redo : redo.Traverses [] := by
  refine .bind_silent (.gets _) fun iterating => ?_
  split
  · exact .settle _
  · exact .fail _

theorem traverses_raise (names : NameTable) (message : Option NodeId) :
    (raise names message).Traverses message.toList :=
  .bind_last (traversing.optional_same () message) fun _ => .bind_silent (.gets _) fun _ => .fail _

/-! ### Transparent constructs -/

/-- A conditional evaluates its test and one of its branches. -/
theorem traverses_cond (test thenBranch : NodeId) (elseBranch : Option NodeId) :
    (cond test thenBranch elseBranch).Traverses (test :: thenBranch :: elseBranch.toList) := by
  refine traverses_inTransparentScope ?_
  refine Traverses.eval_bind test fun value => ?_
  split
  · exact (Traverses.eval thenBranch).mono (by simp)
  · exact .mono (traversing.optional_same () elseBranch) (List.sublist_cons_self _ _)

theorem traverses_runClause (error : EvalError) (clause : RescueClause) :
    (runClause error clause).Traverses [clause.body] := by
  rw [runClause]
  cases clause.binding with
  | some name => exact .bind_silent (.store _ _ _) fun _ => .eval clause.body
  | none => exact .eval clause.body

/-- The clauses and the branch for success come after the guarded part, one of them at most. -/
theorem traverses_guarded (names : NameTable) (body : NodeId) (rescues : List RescueClause)
    (elseBranch : Option NodeId) :
    (guarded names body rescues elseBranch).Traverses
      ([body] ++ (rescues.map RescueClause.body ++ elseBranch.toList)) := by
  refine (Traverses.eval body).attempt_bind fun ending => ?_
  cases ending with
  | ok value =>
    cases elseBranch with
    | some branch => exact (Traverses.eval branch).mono (List.sublist_append_right _ _)
    | none => exact .pure value
  | error exit =>
    cases exit with
    | error error =>
      dsimp only
      cases hclause : rescues.find? (clauseMatches names error.cause) with
      | some clause =>
        refine (traverses_runClause error clause).mono ?_
        have hmem := List.mem_map_of_mem (f := RescueClause.body) (List.mem_of_find?_eq_some hclause)
        exact (List.singleton_sublist.mpr hmem).trans (List.sublist_append_left _ _)
      | none => exact .settle _
    | returnTo | breakTo | next | redo => exact .settle _

/-- The cleanup part comes last. -/
theorem traverses_begin (names : NameTable) (body : NodeId) (rescues : List RescueClause)
    (elseBranch ensure : Option NodeId) :
    (begin names body rescues elseBranch ensure).Traverses
      ([body] ++ (rescues.map RescueClause.body ++ elseBranch.toList) ++ ensure.toList) := by
  refine Traverses.attempt_bind
    (traverses_inTransparentScope (traverses_guarded names body rescues elseBranch)) fun ending => ?_
  cases ensure with
  | none => exact .settle ending
  | some cleanup =>
    exact Traverses.bind_last (traverses_inTransparentScope (Traverses.eval cleanup)) fun _ =>
      .settle ending

/-! ### Loops -/

section Loop

variable {kind : LoopKind} {test body : NodeId} {order afterTest afterBody : List NodeId}

/-- What is left of an order before a step of a loop. -/
def LoopStep.left (test body : NodeId) (afterTest afterBody : List NodeId) : LoopStep → List NodeId
  | .test => test :: afterTest
  | .body => body :: afterBody
  | _ => []

/-- After a test the body is left of the pass, or nothing. -/
theorem LoopStep.left_afterTest (kind : LoopKind) (ending : Ending Value) :
    (LoopStep.afterTest kind ending).left test body afterTest afterBody = body :: afterBody ∨
      (LoopStep.afterTest kind ending).left test body afterTest afterBody = [] := by
  unfold LoopStep.afterTest
  split
  · split
    · exact .inl rfl
    · exact .inr rfl
  · exact .inr rfl
  · exact .inr rfl

/-- After the body the test is left, the body once more, or nothing. -/
theorem LoopStep.left_afterBody (ending : Ending Value) :
    (LoopStep.afterBody ending).left test body afterTest afterBody = test :: afterTest ∨
      (ending = .error .redo ∧
        (LoopStep.afterBody ending).left test body afterTest afterBody = body :: afterBody) ∨
      (LoopStep.afterBody ending).left test body afterTest afterBody = [] := by
  unfold LoopStep.afterBody
  split
  · exact .inl rfl
  · exact .inl rfl
  · exact .inr (.inl ⟨rfl, rfl⟩)
  · exact .inr (.inr rfl)
  · exact .inr (.inr rfl)

/-- A loop passes over its order when the body, after a test, and the test, after a run of the body,
are left in the same or in a new pass. -/
theorem traverses_loopFrom
    (testBody : ∀ ending, ∃ onward, Onward (some order) (.node test) afterTest ending onward ∧
      (body :: afterBody).Sublist onward)
    (bodyTest : ∀ ending, ∃ onward, Onward (some order) (.node body) afterBody ending onward ∧
      (test :: afterTest).Sublist onward)
    (bodyAgain : (body :: afterBody).Sublist order) (step : LoopStep) (m : Machine) :
    (loopFrom kind test body fuel step m).Traverses (some order)
      (step.left test body afterTest afterBody) m := by
  induction fuel generalizing step m with
  | zero => trivial
  | succ fuel ih =>
    cases step with
    | stop value => exact .refl m
    | leave exit => exact .refl m
    | test =>
      rw [loopFrom, Comp.attempt_bind]
      refine ⟨.refl m, afterTest, .refl _, fun ending m' => ?_⟩
      have later := ih (.afterTest kind ending) m'
      rcases LoopStep.left_afterTest kind ending with hleft | hleft <;> rw [hleft] at later
      · obtain ⟨onward, honward, hsub⟩ := testBody ending
        exact ⟨onward, honward, later.mono hsub⟩
      · exact ⟨afterTest, .on, later.mono (List.nil_sublist _)⟩
    | body =>
      rw [loopFrom, Comp.attempt_bind]
      refine ⟨.refl m, afterBody, .refl _, fun ending m' => ?_⟩
      have later := ih (.afterBody ending) m'
      rcases LoopStep.left_afterBody ending with hleft | ⟨hredo, hleft⟩ | hleft <;>
        rw [hleft] at later
      · obtain ⟨onward, honward, hsub⟩ := bodyTest ending
        exact ⟨onward, honward, later.mono hsub⟩
      · exact ⟨order, .again rfl (.inr hredo), later.mono bodyAgain⟩
      · exact ⟨afterBody, .on, later.mono (List.nil_sublist _)⟩

/-- A loop passes over its condition and its body in written order, again and again. -/
theorem traverses_loop (id : NodeId) (bodyFirst : Bool) (m : Machine) :
    (loop fuel kind test body bodyFirst m).Traverses
      (some ((Node.loop kind test body bodyFirst).schedule id))
      ((Node.loop kind test body bodyFirst).schedule id) m := by
  have before : ∀ m : Machine, m.SameBindings (m.mapCalls .beginLoop) := fun _ => .of_env_eq rfl
  have after : ∀ m : Machine, m.SameBindings (m.mapCalls .endLoop) := fun _ => .of_env_eq rfl
  refine traverses_bracket before after (traverses_inTransparentScope ?_) m
  intro m
  cases bodyFirst with
  | true =>
    exact @traverses_loopFrom fuel kind test body [body, test] [] [test]
      (fun _ => ⟨_, .again rfl (.inl rfl), .refl _⟩) (fun _ => ⟨_, .on, .refl _⟩) (.refl _) .body m
  | false =>
    exact @traverses_loopFrom fuel kind test body [test, body] [body] []
      (fun _ => ⟨_, .on, .refl _⟩) (fun _ => ⟨_, .again rfl (.inl rfl), .refl _⟩)
      (List.sublist_cons_self _ _) .test m

end Loop

/-! ### Nodes -/

/-- A node other than a loop evaluates its operands in the order of its schedule. -/
theorem traverses_schedule (id : NodeId) {n : Node} (h : n.isLoop = false) :
    (node program fuel id n).Traverses (n.schedule id) := by
  -- most nodes evaluate their children as they are written
  have written {x : Comp Value} (last : ¬ n.BlockFirst) (hx : x.Traverses n.children) :
      x.Traverses (n.schedule id) :=
    hx.mono (Node.sublist_schedule h last (.refl _))
  cases n with
  | nil | bool | int | str | symbol => exact .pure _
  | ident name => exact traverses_ident program.names id name
  | array elems =>
    exact written not_false (traversing.array_same () elems)
  | hash list =>
    exact written not_false (traversing.hash_same () list)
  | assign name value =>
    refine written not_false ?_
    exact .bind_last (traversing.items_same () value) fun _ =>
      .bind_silent (.ofExcept _) fun _ => .store _ _ _
  | opAssign name op value =>
    exact .bind_silent (.gets _) fun _ => .eval_bind value fun _ =>
      .bind_silent (.ofExcept _) fun _ => .store _ _ _
  | binary op left right =>
    exact written not_false (traversing.binary () op left right)
  | seq stmts => exact written not_false (traversing.seq_same () stmts rfl)
  | cond test thenBranch elseBranch =>
    exact written not_false (traverses_cond test thenBranch elseBranch)
  | loop => cases h
  | begin body rescues elseBranch ensure =>
    refine written not_false ?_
    exact traverses_begin program.names body rescues elseBranch ensure
  | define name params body =>
    exact .bind_silent (.modify fun _ => .of_env_eq rfl) fun _ => .pure _
  | block params body | lambda params body =>
    exact (traverses_closure id params body _).mono (List.nil_sublist _)
  | call name argList block => exact traverses_call id name argList block
  | callValue callee argList block => exact traverses_callValue id callee argList block
  | yield argList => exact written not_false (traverses_yield argList)
  | returnWith value => exact written not_false (traverses_returnWith value)
  | breakWith value => exact written not_false (traverses_breakWith value)
  | nextWith value => exact written not_false (traverses_nextWith value)
  | redo => exact traverses_redo
  | raise message =>
    exact written not_false (traverses_raise program.names message)

/-- Every node evaluates its operands in the order of its schedule and changes no bindings itself;
loops do so again and again. -/
theorem traverses_node (id : NodeId) (n : Node) (m : Machine) :
    (node program fuel id n m).Traverses (if n.isLoop then some (n.schedule id) else none)
      (n.schedule id) m := by
  cases hloop : n.isLoop with
  | false => exact traverses_schedule id hloop m
  | true =>
    cases n with
    | loop kind test body bodyFirst => exact traverses_loop id bodyFirst m
    | _ => cases hloop

end Comp

/-! ### Runs -/

namespace Program

/-- The steps of the evaluation of a node evaluate its operands in passes over its schedule, in a
single pass if the node is no loop, and each step starts with the bindings that the one before
leaves.  The schedule is the order of the walk unless a block is passed with arguments. -/
theorem operands_are_scheduled (program : Program) (fuel : Nat) {id : NodeId} {node : Node}
    (hnode : program.nodes.node? id = some node) (m : Machine) :
    Nonempty (Passes node.isLoop (node.schedule id) (program.steps fuel (.node id) m)) ∧
    (∀ step ∈ (program.steps fuel (.node id) m).head?, m.SameBindings step.before) ∧
    (program.steps fuel (.node id) m).IsChain Step.HandsOn ∧
    (¬ node.BlockFirst → node.schedule id = node.visited id) := by
  have traverses := @Comp.traverses_node program fuel id node m
  have work : program.steps fuel (.node id) m =
      (Comp.node program fuel id node m).steps (program.perform fuel) := by
    rw [steps, Task.work, hnode]
  rw [work]
  exact ⟨traverses.passes, traverses.handsOn.1, traverses.handsOn.2, Node.schedule_eq_visited⟩

/-- The program `[x = 1, x]`, where `x` is the second name that is not reserved. -/
def rereadingArray : Program where
  names := .initial
  nodes := ⟨#[.int 1, .assign ⟨35⟩ [.plain ⟨0⟩], .ident ⟨35⟩, .array [.plain ⟨1⟩, .plain ⟨2⟩]]⟩

/-- The elements of an array are evaluated in one pass, so the second one reads what the first one
assigns. -/
theorem array_is_scheduled :
    let steps := rereadingArray.steps 3 (.node ⟨3⟩) (.initial .unlimited [])
    Nonempty (Passes false [⟨1⟩, ⟨2⟩] steps) ∧ steps.IsChain Step.HandsOn ∧
      steps.filterMap Step.operand? = [⟨1⟩, ⟨2⟩] := by
  obtain ⟨passes, -, hands, -⟩ :=
    @operands_are_scheduled rereadingArray 3 ⟨3⟩ _ rfl (.initial .unlimited [])
  exact ⟨passes, hands, rfl⟩

/-- The program `m(x = 5, &x)`. -/
def passingBlock : Program where
  names := .initial
  nodes := ⟨#[.int 5, .assign ⟨35⟩ [.plain ⟨0⟩], .ident ⟨35⟩,
    .call ⟨34⟩ [.positional ⟨1⟩] (some (.pass ⟨2⟩))]⟩

/-- A block is evaluated before the argument that the walk visits first, and does not see what it
assigns. -/
theorem block_goes_first :
    let steps := passingBlock.steps 3 (.node ⟨3⟩) (.initial .unlimited [(⟨35⟩, .nil)])
    steps.filterMap Step.operand? = [⟨2⟩, ⟨1⟩] ∧
      (∃ node, passingBlock.nodes.node? ⟨3⟩ = some node ∧ node.visited ⟨3⟩ = [⟨1⟩, ⟨2⟩] ∧
        ¬ (steps.filterMap Step.operand?).Sublist (node.visited ⟨3⟩)) ∧
      ∃ m, steps.head?.bind Step.result = some (.ok .nil, m) := by
  intro steps
  have evaluated : steps.filterMap Step.operand? = [⟨2⟩, ⟨1⟩] := rfl
  refine ⟨evaluated, ⟨_, rfl, rfl, ?_⟩, _, rfl⟩
  rw [evaluated]
  decide

end Program

end ScriptSemantics
