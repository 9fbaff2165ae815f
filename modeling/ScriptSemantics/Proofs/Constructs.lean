import ScriptSemantics.Proofs.OperandLogic
import ScriptSemantics.Proofs.Runs
import ScriptSemantics.Proofs.Stack

/-!
# Constructs under a regime

Every construct of the evaluator keeps the contract of a lawful regime.

## Main Definitions

* `Regime.logic` — the logic of operands that may be evaluated
* `Regime.Calling`, `Regime.AtCall` — where a call may run something, where it is about to

## Main Results

* `Regime.runs_node` — the work of every node keeps the contract of a lawful regime

## Design Notes

There is one lemma for each construct that is more than operands and a literal, and it follows the
definition of the construct.  Nothing here depends on what the conditions of the regime say.
-/

namespace ScriptSemantics.Regime

variable {γ : Type} {R : Regime γ} {n : Nat} {P : γ → Machine → Prop} {program : Program}

/-! ### Operands -/

theorem Sees.of_cons {child : NodeId} {children : List NodeId} (h : R.Sees P (child :: children)) :
    (∀ g m, P g m → R.here g child m) ∧ R.Sees P children :=
  ⟨h child List.mem_cons_self, fun c hc => h c (List.mem_cons_of_mem child hc)⟩

/-- Operands of two lists may be evaluated where those of the lists put together may. -/
theorem Sees.of_append {xs ys : List NodeId} (h : R.Sees P (xs ++ ys)) :
    R.Sees P xs ∧ R.Sees P ys :=
  ⟨fun c hc => h c (List.mem_append_left ys hc), fun c hc => h c (List.mem_append_right xs hc)⟩

/-- Operands keep the contract where all of them may be evaluated. -/
def logic (laws : R.Lawful program) (stable : R.Stable n P) : OperandLogic id :=
  .plain (fun xs x _ => R.Sees P xs → R.Runs n P x)
    (fun a _ => Runs.pure laws stable.ready a)
    (fun result _ => Runs.ofExcept laws stable.ready result)
    (fun expr sees => Runs.eval laws.steps (sees expr List.mem_cons_self))
    fun hx hf sees => Runs.bind laws.steps stable (hx sees.of_append.1) fun a => hf a sees.of_append.2

/-! ### Places -/

/-- What a node stores is one of the locals that the node is known to store. -/
theorem runs_store (laws : R.Lawful program) {id site : NodeId} {node : Node} {name : Name}
    {value : Value} (hnode : program.nodes.node? id = some node)
    (htarget : (site, name) ∈ node.targets id) :
    R.Runs n (fun g m => R.here g id m) (Comp.store site name value) :=
  fun _ _ here hn => ⟨laws.nodes.target here hnode htarget,
    fun _ _ _ hpost => ⟨laws.steps.mono hn hpost.1, hpost.2⟩⟩

/-- The operands of a node may be evaluated where the node may be. -/
theorem Lawful.sees (laws : R.Lawful program) {id : NodeId} {node : Node}
    (hnode : program.nodes.node? id = some node) :
    R.Sees (fun g m => R.here g id m) node.operands :=
  fun _ hchild _ _ here => laws.nodes.operand here hnode hchild

/-- The places where a call may run something as a new activation. -/
def Calling (R : Regime γ) (callId : FrameId) (g : γ) (m : Machine) : Prop :=
  R.ready g m ∧ R.reserved g callId m

/-- The places where a node may be evaluated that is about to make a call. -/
def AtCall (R : Regime γ) (id : NodeId) (callId : FrameId) (g : γ) (m : Machine) : Prop :=
  R.here g id m ∧ R.reserved g callId m

/-- The identity of a call stays set aside as long as the node that makes it is evaluated. -/
theorem Stable.atCall (laws : R.Lawful program) {id : NodeId} {callId : FrameId}
    (lt : callId.index < n) : R.Stable n (R.AtCall id callId) :=
  (Stable.of_here laws id).andReserved laws.steps lt

/-- At the end of a call it does not matter any more which node made it. -/
theorem AtCall.calling (laws : R.Lawful program) {id : NodeId} {callId : FrameId} {g : γ}
    {m : Machine} (h : R.AtCall id callId g m) : R.Calling callId g m :=
  ⟨laws.nodes.ready h.1, h.2⟩

/-! ### Calls -/

section Calls

variable (laws : R.Lawful program) {id : NodeId} {callId : FrameId}

include laws

/-- A new frame identity is set aside for the call that follows. -/
theorem runs_allocate (stable : R.Stable n P) {f : FrameId → Comp Value}
    (hf : ∀ callId : FrameId, n ≤ callId.index →
      R.Runs n (fun g m => P g m ∧ R.reserved g callId m) (f callId)) :
    R.Runs n P (Comp.allocateFrame >>= f) := by
  intro g m hP hn
  obtain ⟨hstep, hreserved⟩ := laws.nodes.allocate (n := n) (stable.ready _ _ hP)
  have hn' := Nat.le_trans hn (laws.steps.nextId_le hstep)
  show (f m.allocateFrame.1 m.allocateFrame.2).Meets R.contract (R.Ends n g m) g
  refine (hf _ hn g _ ⟨stable.step hstep hP, hreserved⟩ hn').mono fun g' ending m' hend => ?_
  exact ⟨laws.steps.trans hstep hend.1, hend.2⟩

/-- A closure runs under the identity that was set aside for the call. -/
theorem runs_perform_closure {proc : ProcId} {given : CallArgs} {block : Option ProcId}
    (le : n ≤ callId.index) :
    R.Runs n (R.Calling callId) (Comp.perform (.closure proc callId given block)) :=
  fun _ _ hP _ => ⟨hP, fun _ _ _ hpost => ⟨laws.steps.mono le hpost.1, hpost.2.1⟩⟩

/-- So does the looping builtin. -/
theorem runs_perform_loop {block : ProcId} (le : n ≤ callId.index) :
    R.Runs n (R.Calling callId) (Comp.perform (.loop block callId)) :=
  fun _ _ hP _ => ⟨hP, fun _ _ _ hpost => ⟨laws.steps.mono le hpost.1, hpost.2.1⟩⟩

/-- So does a method that was found by its name. -/
theorem runs_perform_method {name : Name} {callee : Method} {given : CallArgs}
    {block : Option ProcId} (le : n ≤ callId.index) :
    R.Runs n (fun g m => R.Calling callId g m ∧ m.methods.get? name = some callee)
      (Comp.perform (.method callee callId given block)) :=
  fun _ _ hP _ => ⟨⟨hP.1.1, hP.1.2, name, hP.2⟩,
    fun _ _ _ hpost => ⟨laws.steps.mono le hpost.1, hpost.2.1⟩⟩

/-- A literal is closed over for the call whose identity is set aside, so that its breaks address
that call. -/
theorem runs_blockArg {node : Node} (hnode : program.nodes.node? id = some node)
    (lt : callId.index < n) {block : Option BlockArg}
    (hoperand : ∀ expr, block.bind BlockArg.operand? = some expr → expr ∈ node.operands)
    (hliteral : ∀ expr, block.bind BlockArg.literal? = some expr → expr ∈ node.literals) :
    R.Runs n (R.AtCall id callId) (Comp.blockArg program callId block) := by
  have stable : R.Stable n (R.AtCall id callId) := .atCall laws lt
  cases block with
  | none => exact Runs.pure laws stable.ready _
  | some arg =>
    cases arg with
    | literal literal =>
      -- the literal is closed over right after the identity is set aside, in the same frame
      have close : ∀ params body isLambda,
          program.nodes.node? literal =
            some (if isLambda then .lambda params body else .block params body) →
          R.Runs n (R.AtCall id callId) (Comp.modifyGet
            (·.makeClosure literal params body isLambda (some callId))) := by
        intro params body isLambda hlookup
        refine Runs.modifyGet fun g m hP => ?_
        refine laws.nodes.close hP.1 hnode (.inr (hliteral literal rfl)) hlookup ?_
        intro frame hframe
        cases hframe
        exact hP.2
      rw [Comp.blockArg]
      split
      next params body hlookup =>
        exact Runs.bind laws.steps stable (close params body false hlookup) fun _ =>
          Runs.pure laws stable.ready _
      next params body hlookup =>
        exact Runs.bind laws.steps stable (close params body true hlookup) fun _ =>
          Runs.pure laws stable.ready _
      next => exact Runs.fail laws stable.ready _
    | pass expr =>
      refine Runs.bind laws.steps stable (Runs.eval laws.steps fun g m hP => ?_) fun value => ?_
      · exact laws.nodes.operand hP.1 hnode (hoperand expr rfl)
      · split
        · exact Runs.pure laws stable.ready _
        · exact Runs.pure laws stable.ready _
        · exact Runs.fail laws stable.ready _

/-- The block and the arguments of a call are evaluated while its frame identity is set aside. -/
theorem runs_passArgs {node : Node} (hnode : program.nodes.node? id = some node)
    (le : n ≤ callId.index) {block : Option BlockArg} {argList : List Arg}
    (hoperand : ∀ expr, block.bind BlockArg.operand? = some expr → expr ∈ node.operands)
    (hliteral : ∀ expr, block.bind BlockArg.literal? = some expr → expr ∈ node.literals)
    (hargs : ∀ expr ∈ argList.map Arg.expr, expr ∈ node.operands)
    {k : Option ProcId → CallArgs → Comp Value}
    (hk : ∀ block given, R.Runs n (R.AtCall id callId) (k block given)) :
    R.Runs n (R.AtCall id callId) (do
      let block ← Comp.blockArg program callId block
      let given ← Comp.args {} argList
      k block given) := by
  have stable : R.Stable (callId.index + 1) (R.AtCall id callId) :=
    .atCall laws (Nat.lt_succ_self _)
  have le' : n ≤ callId.index + 1 := Nat.le_succ_of_le le
  have bound : ∀ g m, R.AtCall id callId g m → callId.index + 1 ≤ m.calls.nextId :=
    fun g m hP => laws.activations.reserved hP.2
  refine Runs.bind_of_le laws.steps stable le' bound
    (runs_blockArg laws hnode (Nat.lt_succ_self _) hoperand hliteral) fun block => ?_
  refine Runs.bind_of_le laws.steps stable le' bound
    ((logic laws stable).args_same () argList rfl fun expr hexpr g m hP => ?_) fun given => hk block given
  exact laws.nodes.operand hP.1 hnode (hargs expr hexpr)

/-- A check of the arguments changes nothing. -/
theorem runs_expectNoArgs (ready : ∀ g m, P g m → R.ready g m) {given : CallArgs} :
    R.Runs n P (Comp.expectNoArgs given) := by
  rw [Comp.expectNoArgs]
  split
  · exact Runs.pure laws ready _
  · exact Runs.fail laws ready _

/-- A block is given back as a value, as a lambda by a copy of its closure. -/
theorem runs_blockValue (ready : ∀ g m, P g m → R.ready g m) {asLambda : Bool}
    {block : Option ProcId} : R.Runs n P (Comp.blockValue asLambda block) := by
  cases block with
  | none => exact Runs.fail laws ready _
  | some proc =>
    rw [Comp.blockValue]
    split
    · intro g m hP hn
      exact ⟨laws.nodes.addLambda (ready g m hP), allowsEnding_ok⟩
    · exact Runs.pure laws ready _

/-- A loop without a block is an error of the call. -/
theorem runs_startLoop (le : n ≤ callId.index) {block : Option ProcId} :
    R.Runs n (R.Calling callId) (Comp.startLoop callId block) := by
  cases block with
  | none => exact Runs.fail laws (fun _ _ h => h.1) _
  | some block => exact runs_perform_loop laws le

/-- The identity that was set aside is still free when a builtin has checked its arguments. -/
theorem runs_builtin (le : n ≤ callId.index) {names : NameTable} {name : Name} {given : CallArgs}
    {block : Option ProcId} :
    R.Runs n (R.Calling callId) (Comp.builtin names name callId given block) := by
  have stable : R.Stable (callId.index + 1) (R.Calling callId) :=
    (Stable.of_ready laws.steps).andReserved laws.steps (Nat.lt_succ_self _)
  have afterCheck : ∀ {f : Unit → Comp Value}, (∀ u, R.Runs n (R.Calling callId) (f u)) →
      R.Runs n (R.Calling callId) (Comp.expectNoArgs given >>= f) := fun hf =>
    Runs.bind_of_le laws.steps stable (Nat.le_succ_of_le le)
      (fun g m hP => laws.activations.reserved hP.2) (runs_expectNoArgs laws stable.ready) hf
  rw [Comp.builtin]
  split
  · exact afterCheck fun _ => Runs.gets_bind fun _ => Runs.pure laws (fun _ _ h => h.1.1) _
  · split
    · exact afterCheck fun _ => runs_blockValue laws stable.ready
    · split
      · exact afterCheck fun _ => runs_startLoop laws le
      · exact Runs.fail laws stable.ready _

/-- A name runs the method that was registered under it, else a builtin. -/
theorem runs_dispatch (le : n ≤ callId.index) {names : NameTable} {name : Name}
    {given : CallArgs} {block : Option ProcId} :
    R.Runs n (R.Calling callId) (Comp.dispatch names name callId given block) := by
  refine Runs.gets_bind fun found => ?_
  cases found with
  | some callee => exact runs_perform_method laws le
  | none => exact (runs_builtin laws le).weaken fun _ _ h => h.1

/-- The identity of a call is set aside before its block and arguments are evaluated. -/
theorem runs_call {name : Name} {argList : List Arg} {block : Option BlockArg}
    (hnode : program.nodes.node? id = some (.call name argList block)) :
    R.Runs n (fun g m => R.here g id m) (Comp.call program name argList block) := by
  refine runs_allocate laws (.of_here laws id) fun callId le => ?_
  refine runs_passArgs laws hnode le ?_ ?_ ?_ fun block given =>
    (runs_dispatch laws le).weaken fun _ _ => AtCall.calling laws
  · exact fun expr hexpr => List.mem_append_right _ (Option.mem_toList.mpr hexpr)
  · exact fun expr hexpr => Option.mem_toList.mpr hexpr
  · exact fun expr hexpr => List.mem_append_left _ hexpr

/-- The callee is evaluated before the identity of the call is set aside. -/
theorem runs_callValue {callee : NodeId} {argList : List Arg} {block : Option BlockArg}
    (hnode : program.nodes.node? id = some (.callValue callee argList block)) :
    R.Runs n (fun g m => R.here g id m) (Comp.callValue program callee argList block) := by
  have stable : R.Stable n (fun g m => R.here g id m) := .of_here laws id
  have hcallee := laws.sees hnode callee List.mem_cons_self
  refine Runs.bind laws.steps stable (Runs.eval laws.steps hcallee) fun value => ?_
  split
  · refine runs_allocate laws stable fun callId le => ?_
    refine runs_passArgs laws hnode le ?_ ?_ ?_ fun block given =>
      (runs_perform_closure laws le).weaken fun _ _ => AtCall.calling laws
    · exact fun expr hexpr =>
        List.mem_cons_of_mem _ (List.mem_append_right _ (Option.mem_toList.mpr hexpr))
    · exact fun expr hexpr => Option.mem_toList.mpr hexpr
    · exact fun expr hexpr => List.mem_cons_of_mem _ (List.mem_append_left _ hexpr)
  · exact Runs.fail laws stable.ready _

/-- The arguments are evaluated before the identity of the call is set aside. -/
theorem runs_yield {argList : List Arg} (hnode : program.nodes.node? id = some (.yield argList)) :
    R.Runs n (fun g m => R.here g id m) (Comp.yield argList) := by
  have stable : R.Stable n (fun g m => R.here g id m) := .of_here laws id
  refine Runs.gets_bind fun block => Runs.weaken ?_ fun g m h => h.1
  cases block with
  | none => exact Runs.fail laws stable.ready _
  | some block =>
    refine Runs.bind laws.steps stable
      ((logic laws stable).args_same () argList rfl (laws.sees hnode)) fun given => ?_
    refine runs_allocate laws stable fun callId le => ?_
    exact (runs_perform_closure laws le).weaken fun _ _ => AtCall.calling laws

/-- A name that is no local may run a method without arguments. -/
theorem runs_ident {names : NameTable} {name : Name} :
    R.Runs n (fun g m => R.here g id m) (Comp.ident names id name) := by
  have stable : R.Stable n (fun g m => R.here g id m) := .of_here laws id
  refine Runs.gets_bind fun value => Runs.weaken ?_ fun g m h => h.1
  cases value with
  | some value => exact Runs.pure laws stable.ready _
  | none =>
    refine Runs.gets_bind fun known => Runs.weaken ?_ fun g m h => h.1
    split
    · refine runs_allocate laws stable fun callId le => ?_
      exact (runs_dispatch laws le).weaken fun _ _ => AtCall.calling laws
    · exact Runs.fail laws stable.ready _

end Calls

/-! ### Transparent scopes -/

/-- A loop step that goes on with an exit which may be under way, no `break` of the loop itself. -/
def AllowsStep (R : Regime γ) (step : Comp.LoopStep) (m : Machine) : Prop :=
  ∀ e, step = .leave e → R.exits e m ∧ ∀ value, e ≠ .breakTo .loop value

/-- A loop is left by the exits of its condition, a `break` of the loop apart. -/
theorem afterTest_leave {kind : LoopKind} {ending : Ending Value} {e : Exit}
    (h : Comp.LoopStep.afterTest kind ending = .leave e) :
    ending = .error e ∧ ∀ value, e ≠ .breakTo .loop value := by
  cases ending with
  | ok value =>
    rw [Comp.LoopStep.afterTest] at h
    split at h <;> cases h
  | error exit =>
    rw [Comp.LoopStep.afterTest.eq_def] at h
    split at h
    next => split at h <;> cases h
    next => cases h
    next exit' hne hexit =>
      cases hexit
      cases h
      exact ⟨rfl, fun value heq => hne value (heq ▸ rfl)⟩

/-- A loop is left by the exits of its body, a `break` of the loop, `next` and `redo` apart. -/
theorem afterBody_leave {ending : Ending Value} {e : Exit}
    (h : Comp.LoopStep.afterBody ending = .leave e) :
    ending = .error e ∧ ∀ value, e ≠ .breakTo .loop value := by
  rw [Comp.LoopStep.afterBody.eq_def] at h
  split at h
  next => cases h
  next => cases h
  next => cases h
  next => cases h
  next exit hnext hredo hbreak =>
    cases h
    exact ⟨rfl, fun value heq => hbreak value (heq ▸ rfl)⟩

theorem allowsStep_afterTest {kind : LoopKind} {ending : Ending Value} {m : Machine}
    (h : R.AllowsEnding ending m) : R.AllowsStep (.afterTest kind ending) m :=
  fun e he => ⟨h e (afterTest_leave he).1, (afterTest_leave he).2⟩

theorem allowsStep_afterBody {ending : Ending Value} {m : Machine}
    (h : R.AllowsEnding ending m) : R.AllowsStep (.afterBody ending) m :=
  fun e he => ⟨h e (afterBody_leave he).1, (afterBody_leave he).2⟩

section Scopes

variable (laws : R.Lawful program) {id : NodeId}

include laws

/-- A transparent scope is left again however the computation in it ends. -/
theorem runs_inTransparentScope {α : Type} {x : Comp α}
    (hx : R.Runs n (fun g m => R.here g id m) x) :
    R.Runs n (fun g m => R.here g id m) (Comp.inTransparentScope x) := by
  intro g m here hn
  refine Work.Meets.andThen ((hx g _ (laws.nodes.enterScope here) hn).mono ?_)
  intro g' ending m' hend
  obtain ⟨hstep, hexits⟩ := laws.nodes.leaveScope here hend.1
  exact ⟨hstep, fun e he => hexits e (hend.2 e he)⟩

theorem runs_cond {test thenBranch : NodeId} {elseBranch : Option NodeId}
    (hnode : program.nodes.node? id = some (.cond test thenBranch elseBranch)) :
    R.Runs n (fun g m => R.here g id m) (Comp.cond test thenBranch elseBranch) := by
  have stable : R.Stable n (fun g m => R.here g id m) := .of_here laws id
  obtain ⟨htest, sees⟩ := (laws.sees hnode).of_cons
  obtain ⟨hthen, helse⟩ := sees.of_cons
  refine runs_inTransparentScope laws (Runs.bind laws.steps stable
    (Runs.eval laws.steps htest) fun value => ?_)
  split
  · exact Runs.eval laws.steps hthen
  · exact (logic laws stable).optional_same () elseBranch helse

/-- How a loop may end: a `break` of the loop itself does not leave it. -/
def EndsLoop (R : Regime γ) (n : Nat) (g : γ) (m : Machine) (g' : γ) (ending : Ending Value)
    (m' : Machine) : Prop :=
  R.Ends n g m g' ending m' ∧ ∀ value, ending ≠ .error (.breakTo .loop value)

/-- Every round of a loop keeps the contract, by induction on the fuel.  The notes of the observer
and the machine change from round to round. -/
theorem meets_loopFrom {kind : LoopKind} {test body : NodeId}
    (htest : ∀ g m, R.here g id m → R.here g test m)
    (hbody : ∀ g m, R.here g id m → R.here g body m)
    {fuel : Nat} {step : Comp.LoopStep} {g : γ} {m : Machine}
    (here : R.here g id m) (hn : n ≤ m.calls.nextId) (hstep : R.AllowsStep step m) :
    (Comp.loopFrom kind test body fuel step m).Meets R.contract (R.EndsLoop n g m) g := by
  have stable : R.Stable n (fun g m => R.here g id m) := .of_here laws id
  induction fuel generalizing step g m with
  | zero => trivial
  | succ fuel ih =>
    -- a round evaluates the test or the body and goes on with what its ending says
    have goOn : ∀ (child : NodeId) (next : Ending Value → Comp.LoopStep),
        (∀ g m, R.here g id m → R.here g child m) →
        (∀ ending m, R.AllowsEnding ending m → R.AllowsStep (next ending) m) →
        ((Comp.attempt (Comp.eval child) >>= fun ending =>
          Comp.loopFrom kind test body fuel (next ending)) m).Meets R.contract
            (R.EndsLoop n g m) g := by
      intro child next hchild hnext
      refine Work.Meets.andThen (Work.Meets.andThen
        ((Runs.eval laws.steps hchild g m here hn).mono fun g' ending m' hend => ?_))
      have hn' := Nat.le_trans hn (laws.steps.nextId_le hend.1)
      have here' := laws.steps.here hend.1 here
      show (Comp.loopFrom kind test body fuel (next ending) m').Meets R.contract _ g'
      refine (ih here' hn' (hnext ending m' hend.2)).mono fun g'' ending' m'' hend' => ?_
      exact ⟨⟨laws.steps.trans hend.1 hend'.1.1, hend'.1.2⟩, hend'.2⟩
    cases step with
    | stop value => exact ⟨⟨laws.steps.refl (stable.ready g m here), allowsEnding_ok⟩, nofun⟩
    | leave exit =>
      obtain ⟨hexit, hne⟩ := hstep exit rfl
      refine ⟨⟨laws.steps.refl (stable.ready g m here), allowsEnding_error hexit⟩, ?_⟩
      intro value heq
      cases heq
      exact hne value rfl
    | test => exact goOn test _ htest fun _ _ => allowsStep_afterTest
    | body => exact goOn body _ hbody fun _ _ => allowsStep_afterBody

/-- The frame counts the loop while it runs, so that a `break` has something to address. -/
theorem runs_loop {fuel : Nat} {kind : LoopKind} {test body : NodeId} {bodyFirst : Bool}
    (hnode : program.nodes.node? id = some (.loop kind test body bodyFirst)) :
    R.Runs n (fun g m => R.here g id m) (Comp.loop fuel kind test body bodyFirst) := by
  intro g m here hn
  obtain ⟨htest, sees⟩ := (laws.sees hnode).of_cons
  obtain ⟨hbody, -⟩ := sees.of_cons
  have hereLoop := laws.nodes.beginLoop here
  refine Work.Meets.andThen (Work.Meets.andThen ?_)
  have hn' : n ≤ (m.mapCalls CallStack.beginLoop).calls.nextId := by
    rw [Machine.mapCalls, CallStack.beginLoop_nextId]
    exact hn
  refine (meets_loopFrom laws htest hbody (laws.nodes.enterScope hereLoop) hn' ?_).mono ?_
  · intro e he
    split at he <;> cases he
  · intro g' ending m' ⟨hend, hne⟩
    obtain ⟨hleave, hexits⟩ := laws.nodes.leaveScope hereLoop hend.1
    obtain ⟨hstep, hexits'⟩ := laws.nodes.endLoop here hleave
    refine ⟨hstep, fun e he => hexits' e (fun value heq => ?_) (hexits e (hend.2 e he))⟩
    exact hne value (heq ▸ he)

/-- The local of a clause is stored for the body of the clause. -/
theorem runs_runClause {node : Node} (hnode : program.nodes.node? id = some node)
    {clause : RescueClause} {error : EvalError} (hbody : clause.body ∈ node.operands)
    (hbinding : ∀ name, clause.binding = some name → (clause.body, name) ∈ node.targets id) :
    R.Runs n (fun g m => R.here g id m) (Comp.runClause error clause) := by
  have stable : R.Stable n (fun g m => R.here g id m) := .of_here laws id
  have body : R.Runs n (fun g m => R.here g id m) (Comp.eval clause.body) :=
    Runs.eval laws.steps (laws.sees hnode _ hbody)
  rw [Comp.runClause]
  split
  next name hname =>
    exact Runs.bind laws.steps stable (runs_store laws hnode (hbinding name hname)) fun _ => body
  next => exact body

/-- A clause is evaluated at the node itself, and what no clause takes goes on. -/
theorem runs_guarded {body : NodeId} {rescues : List RescueClause}
    {elseBranch ensure : Option NodeId}
    (hnode : program.nodes.node? id = some (.begin body rescues elseBranch ensure)) :
    R.Runs n (fun g m => R.here g id m)
      (Comp.guarded program.names body rescues elseBranch) := by
  have stable : R.Stable n (fun g m => R.here g id m) := .of_here laws id
  obtain ⟨hbody, sees⟩ := (laws.sees hnode).of_cons
  obtain ⟨hrest, -⟩ := sees.of_append
  obtain ⟨-, helse⟩ := hrest.of_append
  refine Runs.attempt_bind laws.steps stable (Runs.eval laws.steps hbody) fun ending => ?_
  have stable' := stable.andAllows laws.steps ending
  cases ending with
  | ok value =>
    cases elseBranch with
    | none => exact Runs.pure laws stable'.ready _
    | some branch =>
      exact (Runs.eval laws.steps (helse branch List.mem_cons_self)).weaken fun _ _ h => h.1
  | error exit =>
    have passOn : R.Runs n (fun g m => R.here g id m ∧ R.AllowsEnding (.error exit) m)
        (Comp.exit exit : Comp Value) := Runs.exit laws stable'.ready fun g m h => h.2 exit rfl
    cases exit with
    | error error =>
      dsimp only
      split
      next clause hclause =>
        have hmem := List.mem_of_find?_eq_some hclause
        refine (runs_runClause laws hnode ?_ fun name hname => ?_).weaken fun _ _ h => h.1
        · exact List.mem_cons_of_mem _ (List.mem_append_left _
            (List.mem_append_left _ (List.mem_map_of_mem hmem)))
        · exact List.mem_filterMap.mpr ⟨clause, hmem, by rw [hname]; rfl⟩
      next => exact passOn
    | _ => exact passOn

/-- The ending that is kept while the cleanup part runs may still be under way after it. -/
theorem runs_begin {body : NodeId} {rescues : List RescueClause}
    {elseBranch ensure : Option NodeId}
    (hnode : program.nodes.node? id = some (.begin body rescues elseBranch ensure)) :
    R.Runs n (fun g m => R.here g id m)
      (Comp.begin program.names body rescues elseBranch ensure) := by
  have stable : R.Stable n (fun g m => R.here g id m) := .of_here laws id
  obtain ⟨-, sees⟩ := (laws.sees hnode).of_cons
  obtain ⟨-, hensure⟩ := sees.of_append
  refine Runs.attempt_bind laws.steps stable
    (runs_inTransparentScope laws (runs_guarded laws hnode)) fun ending => ?_
  have stable' := stable.andAllows laws.steps ending
  have settle : R.Runs n (fun g m => R.here g id m ∧ R.AllowsEnding ending m)
      (Comp.settle ending) := Runs.settle laws stable'.ready fun g m h => h.2
  cases ensure with
  | none => exact settle
  | some cleanup =>
    have run : R.Runs n (fun g m => R.here g id m)
        (Comp.inTransparentScope (Comp.eval cleanup)) :=
      runs_inTransparentScope laws
        (Runs.eval laws.steps (hensure cleanup List.mem_cons_self))
    exact Runs.bind laws.steps stable' (run.weaken fun _ _ h => h.1) fun _ => settle

end Scopes

/-! ### Exits -/

section Exits

variable (laws : R.Lawful program) {id : NodeId}

include laws

/-- A `return` starts with a live target only. -/
theorem runs_returnWith {value : Option NodeId}
    (hnode : program.nodes.node? id = some (.returnWith value)) :
    R.Runs n (fun g m => R.here g id m) (Comp.returnWith value) := by
  have stable : R.Stable n (fun g m => R.here g id m) := .of_here laws id
  refine Runs.bind laws.steps stable
    ((logic laws stable).optional_same () value (laws.sees hnode)) fun value => ?_
  refine Runs.gets_bind fun machine => ?_
  have ready : ∀ g m, R.here g id m ∧ m = machine → R.ready g m := fun g m h => stable.ready g m h.1
  split
  next target htarget =>
    split
    next hlive =>
      refine Runs.exit laws ready fun g m h => ?_
      obtain ⟨here, rfl⟩ := h
      exact laws.starts.returnTo here htarget hlive
    next => exact Runs.fail laws ready _
  next => exact Runs.fail laws ready _

/-- A `break` starts with a running loop, a lambda or a live call to address. -/
theorem runs_breakWith {value : Option NodeId}
    (hnode : program.nodes.node? id = some (.breakWith value)) :
    R.Runs n (fun g m => R.here g id m) (Comp.breakWith value) := by
  have stable : R.Stable n (fun g m => R.here g id m) := .of_here laws id
  refine Runs.bind laws.steps stable
    ((logic laws stable).optional_same () value (laws.sees hnode)) fun value => ?_
  refine Runs.gets_bind fun machine => ?_
  have ready : ∀ g m, R.here g id m ∧ m = machine → R.ready g m := fun g m h => stable.ready g m h.1
  split
  next => exact Runs.fail laws ready _
  next frame hframe =>
    split
    next hdepth =>
      refine Runs.exit laws ready fun g m h => ?_
      obtain ⟨here, rfl⟩ := h
      exact laws.starts.breakLoop here hframe hdepth
    next =>
      split
      next hkind =>
        refine Runs.exit laws ready fun g m h => ?_
        obtain ⟨here, rfl⟩ := h
        exact laws.starts.breakLambda here hframe hkind
      next hkind =>
        split
        next tag htag =>
          split
          next hlive =>
            refine Runs.exit laws ready fun g m h => ?_
            obtain ⟨here, rfl⟩ := h
            exact laws.starts.breakBlock here hframe hkind htag hlive
          next => exact Runs.fail laws ready _
        next => exact Runs.fail laws ready _
      all_goals exact Runs.fail laws ready _

/-- `next` starts where a loop or a closure answers to it. -/
theorem runs_nextWith {value : Option NodeId}
    (hnode : program.nodes.node? id = some (.nextWith value)) :
    R.Runs n (fun g m => R.here g id m) (Comp.nextWith value) := by
  have stable : R.Stable n (fun g m => R.here g id m) := .of_here laws id
  refine Runs.bind laws.steps stable
    ((logic laws stable).optional_same () value (laws.sees hnode)) fun value => ?_
  refine Runs.gets_bind fun iterating => ?_
  split
  next h =>
    exact Runs.exit laws (fun g m h => stable.ready g m h.1) fun g m hP =>
      laws.starts.next hP.1 (hP.2.trans h)
  next => exact Runs.fail laws (fun g m h => stable.ready g m h.1) _

/-- `redo` starts where a loop or a closure answers to it. -/
theorem runs_redo : R.Runs n (fun g m => R.here g id m) Comp.redo := by
  have stable : R.Stable n (fun g m => R.here g id m) := .of_here laws id
  refine Runs.gets_bind fun iterating => ?_
  split
  next h =>
    exact Runs.exit laws (fun g m h => stable.ready g m h.1) fun g m hP =>
      laws.starts.redo hP.1 (hP.2.trans h)
  next => exact Runs.fail laws (fun g m h => stable.ready g m h.1) _

theorem runs_raise {names : NameTable} {message : Option NodeId}
    (hnode : program.nodes.node? id = some (.raise message)) :
    R.Runs n (fun g m => R.here g id m) (Comp.raise names message) := by
  have stable : R.Stable n (fun g m => R.here g id m) := .of_here laws id
  refine Runs.bind laws.steps stable
    ((logic laws stable).optional_same () message (laws.sees hnode)) fun value => ?_
  exact Runs.gets_bind fun _ => Runs.fail laws (fun g m h => stable.ready g m h.1) _

end Exits

/-! ### Nodes -/

section Nodes

variable (laws : R.Lawful program) {id : NodeId}

include laws

/-- An assignment stores the local that the node names, after its operands are evaluated. -/
theorem runs_assign {name : Name} {elems : List Elem}
    (hnode : program.nodes.node? id = some (.assign name elems)) :
    R.Runs n (fun g m => R.here g id m) (Comp.assign id name elems) := by
  have stable : R.Stable n (fun g m => R.here g id m) := .of_here laws id
  refine Runs.bind laws.steps stable
    ((logic laws stable).items_same () elems (laws.sees hnode)) fun parts => ?_
  refine Runs.bind laws.steps stable (Runs.ofExcept laws stable.ready _) fun value => ?_
  exact runs_store laws hnode List.mem_cons_self

/-- The old value is read before the operand is evaluated. -/
theorem runs_opAssign {name : Name} {op : BinaryOp} {expr : NodeId}
    (hnode : program.nodes.node? id = some (.opAssign name op expr)) :
    R.Runs n (fun g m => R.here g id m) (Comp.opAssign id name op expr) := by
  have stable : R.Stable n (fun g m => R.here g id m) := .of_here laws id
  refine Runs.gets_bind fun present => Runs.weaken ?_ fun g m h => h.1
  have hexpr := laws.sees hnode expr List.mem_cons_self
  refine Runs.bind laws.steps stable (Runs.eval laws.steps hexpr) fun right => ?_
  refine Runs.bind laws.steps stable (Runs.ofExcept laws stable.ready _) fun value => ?_
  exact runs_store laws hnode List.mem_cons_self

/-- A literal is closed over where it stands, without a call to address. -/
theorem runs_closure {params : ParamList} {body : NodeId} (isLambda : Bool)
    (hnode : program.nodes.node? id =
      some (if isLambda then .lambda params body else .block params body)) :
    R.Runs n (fun g m => R.here g id m) (Comp.closure id params body isLambda) := by
  have stable : R.Stable n (fun g m => R.here g id m) := .of_here laws id
  refine Runs.bind laws.steps stable (Runs.modifyGet fun g m here => ?_) fun _ =>
    Runs.pure laws stable.ready _
  exact laws.nodes.close here hnode (.inl rfl) hnode nofun

/-- Every node keeps the contract where it may be evaluated. -/
theorem runs_node {fuel : Nat} {node : Node} (hnode : program.nodes.node? id = some node) :
    R.Runs n (fun g m => R.here g id m) (Comp.node program fuel id node) := by
  have stable : R.Stable n (fun g m => R.here g id m) := .of_here laws id
  cases node with
  | nil | bool | int | str | symbol => exact Runs.pure laws stable.ready _
  | array elems => exact (logic laws stable).array_same () elems (laws.sees hnode)
  | hash list => exact (logic laws stable).hash_same () list (laws.sees hnode)
  | ident => exact runs_ident laws
  | assign => exact runs_assign laws hnode
  | opAssign => exact runs_opAssign laws hnode
  | binary op left right => exact (logic laws stable).binary () op left right (laws.sees hnode)
  | seq stmts => exact (logic laws stable).seq_same () stmts rfl (laws.sees hnode)
  | cond => exact runs_cond laws hnode
  | loop => exact runs_loop laws hnode
  | begin => exact runs_begin laws hnode
  | define =>
    exact Runs.bind laws.steps stable
      (Runs.modify fun g m here => laws.nodes.define here hnode) fun _ =>
      Runs.pure laws stable.ready _
  | block => exact runs_closure laws false hnode
  | lambda => exact runs_closure laws true hnode
  | call => exact runs_call laws hnode
  | callValue => exact runs_callValue laws hnode
  | yield => exact runs_yield laws hnode
  | returnWith => exact runs_returnWith laws hnode
  | breakWith => exact runs_breakWith laws hnode
  | nextWith => exact runs_nextWith laws hnode
  | redo => exact runs_redo laws
  | raise => exact runs_raise laws hnode

end Nodes

end ScriptSemantics.Regime
