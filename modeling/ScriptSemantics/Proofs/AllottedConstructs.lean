import ScriptSemantics.Proofs.Allotment
import ScriptSemantics.Proofs.OperandLogic

/-!
# Constructs and identities

Every construct of the evaluator brings nothing into reach that was not, and runs activations only
under identities that it kept for them.

## Main Definitions

* `Comp.allotting` — the logic of operands that bring nothing into reach

## Main Results

* `Comp.calls_dispatch` — what a name calls runs under the identity of the call, if at all
* `Comp.allots_call`, `Comp.allots_callValue`, `Comp.allots_yield`, `Comp.allots_ident` — calls
* `Comp.allots_node` — every node

## Design Notes

There is one lemma for each construct that is more than operands and a literal, and it follows the
definition of the construct.
-/

namespace ScriptSemantics

/-- What holds of the closures in an item may be weakened. -/
theorem SequenceItem.Within.mono {P P' : ProcId → Prop} (weaker : ∀ proc, P proc → P' proc)
    {item : SequenceItem} (h : item.Within P) : item.Within P' := by
  cases item <;> exact Value.Within.mono weaker h

/-- What holds of the closures in what is yielded may be weakened. -/
theorem Datum.within_mono {P P' : ProcId → Prop} (weaker : ∀ proc, P proc → P' proc) {d : Datum}
    {a : d.Carrier} (h : d.Within P a) : d.Within P' a := by
  cases d with
  | value => exact Value.Within.mono weaker h
  | values => exact fun v hv => Value.Within.mono weaker (h v hv)
  | key => trivial
  | parts => exact fun part hpart => SequenceItem.Within.mono weaker (h part hpart)
  | entries => exact fun pair hpair => Value.Within.mono weaker (h pair hpair)
  | args => exact CallArgs.Within.mono weaker h

/-- Only closures of some kind occur in what a loop does next. -/
def Comp.LoopStep.Within (P : ProcId → Prop) : LoopStep → Prop
  | stop value => value.Within P
  | leave exit => exit.Within P
  | body | test => True

namespace Comp

variable {Q : FrameId → Prop} {m₀ : Machine} {program : Program} {fuel : Nat} {callId : FrameId}

/-! ### Operands -/

/-- Operands bring nothing into reach, and nothing but what is in reach occurs in what they
yield. -/
def allotting (Q : FrameId → Prop) : OperandLogic id where
  World := Machine
  Later := Machine.Before
  Same m := .within (m.Knows Q)
  Goes d m _ x _ := x.Allots Q m (fun m a => d.Within (m.Knows Q) a)
  congruence _ := DataRelation.congruence_within
  mono := by
    rintro d m m' a _ later ⟨rfl, known⟩
    exact ⟨rfl, Datum.within_mono (fun _ => Machine.Knows.mono later) known⟩
  pure := by
    rintro d m a _ ⟨rfl, known⟩
    exact .pure fun _ later => Datum.within_mono (fun _ => Machine.Knows.mono later) known
  ofExcept := by
    rintro d m _ _ (⟨rfl, known⟩ | cause)
    · exact .pure fun _ later => Datum.within_mono (fun _ => Machine.Knows.mono later) known
    · exact .fail cause
  eval := .eval
  bind hx hf := .bind hx fun m a later known => hf m a a later ⟨rfl, known⟩

/-- A closure may be made for a call whose identity is kept out of reach. -/
theorem allots_makeClosure {R : FrameId → Prop} (wider : ∀ id, R id → Q id) (literal : NodeId)
    (params : ParamList) (body : NodeId) (isLambda : Bool) {tag : Option FrameId}
    (given : ∀ id, tag = some id → m₀.Given Q id) :
    Allots R m₀ (fun m proc => m.Knows Q proc)
      (modifyGet (·.makeClosure literal params body isLambda tag)) := by
  refine .modifyGet fun m later guards => ?_
  obtain ⟨before, kept, -⟩ := guards.makeClosure literal params body isLambda tag
  obtain ⟨-, -, knows⟩ := (guards.mono wider).makeClosure literal params body isLambda tag
  exact ⟨⟨before, rfl, kept⟩, knows fun id hid => (given id hid).mono later⟩

/-- A literal that is no block of a call names no call. -/
theorem allots_closure (literal : NodeId) (params : ParamList) (body : NodeId) (isLambda : Bool) :
    (closure literal params body isLambda).Allots Q m₀ (Covered Q) := by
  refine .bind (allots_makeClosure (fun _ h => h) literal params body isLambda fun _ hid => ?_)
    fun _ _ _ knows => .value (Value.within_proc.mpr knows)
  cases hid

/-! ### Calls -/

/-- A closure is passed as a block. -/
theorem allots_passed {R : FrameId → Prop} {proc : ProcId} (knows : m₀.Knows Q proc) :
    Allots R m₀ (fun m passed => ∀ proc, passed = some proc → m.Knows Q proc)
      (pure (some proc)) := by
  refine .pure fun m later other hother => ?_
  cases hother
  exact knows.mono later

/-- A block that is written at a call names the call, so that it is out of reach before. -/
theorem allots_blockArg (given : m₀.Given Q callId) (block : Option BlockArg) :
    (blockArg program callId block).Allots (AllBut Q callId) m₀
      (fun m passed => ∀ proc, passed = some proc → m.Knows Q proc) := by
  cases block with
  | none => exact .pure fun _ _ _ hproc => by cases hproc
  | some arg =>
    cases arg with
    | literal written =>
      have closes : ∀ params body isLambda, Allots (AllBut Q callId) m₀
          (fun m passed => ∀ proc, passed = some proc → m.Knows Q proc)
          (modifyGet (·.makeClosure written params body isLambda (some callId)) >>=
            fun proc => pure (some proc)) := by
        intro params body isLambda
        refine .bind (allots_makeClosure (fun _ h => h.1) written params body isLambda
          fun id hid => ?_) fun _ _ _ knows => allots_passed knows
        cases hid
        exact given
      rw [blockArg]
      split
      · exact closes _ _ false
      · exact closes _ _ true
      · exact .fail _
    | pass expr =>
      refine .bind (.eval expr) fun m value _ hvalue => ?_
      cases value with
      | nil => exact .pure fun _ _ _ hproc => by cases hproc
      | proc proc => exact allots_passed ((Value.within_proc.mp hvalue).weaken fun _ h => h.2.1)
      | _ => exact .fail _

/-- The block that is repeated is known. -/
theorem calls_startLoop {block : Option ProcId}
    (known : ∀ proc, block = some proc → m₀.Knows Q proc) :
    (startLoop callId block).Calls Q callId m₀ := by
  cases block with
  | none => exact .fail _
  | some block =>
    exact .perform rfl fun m later given => .loop given ((known block rfl).mono later)

/-- A block that is turned into a value is known, and so is its copy. -/
theorem allots_blockValue (asLambda : Bool) {block : Option ProcId}
    (known : ∀ proc, block = some proc → m₀.Knows Q proc) :
    (blockValue asLambda block).Allots Q m₀ (Covered Q) := by
  cases block with
  | none => exact .fail _
  | some proc =>
    have knows := known proc rfl
    rw [blockValue]
    split
    · have copied : Allots Q m₀ (fun m proc => m.Knows Q proc) (modifyGet (·.addLambda proc)) := by
        refine .modifyGet fun m later guards => ?_
        obtain ⟨before, guards, knows⟩ := guards.addLambda (knows.mono later)
        exact ⟨⟨before, rfl, guards⟩, knows⟩
      exact .bind copied fun _ _ _ knows => .value (Value.within_proc.mpr knows)
    · exact .value (Value.within_proc.mpr knows)

/-- A check of the arguments changes nothing. -/
theorem allots_expectNoArgs (given : CallArgs) :
    (expectNoArgs given).Allots Q m₀ (fun _ _ => True) := by
  rw [expectNoArgs]
  split
  · exact .pure fun _ _ => trivial
  · exact .fail _

/-- A builtin gives the block away or repeats it, and makes no other use of the identity. -/
theorem calls_builtin (names : NameTable) (name : Name) (given : CallArgs) {block : Option ProcId}
    (known : ∀ proc, block = some proc → m₀.Knows Q proc) :
    (builtin names name callId given block).Calls Q callId m₀ := by
  have kept : ∀ m : Machine, m₀.Before m → ∀ proc, block = some proc → m.Knows Q proc :=
    fun _ later proc hproc => (known proc hproc).mono later
  rw [builtin]
  split
  · refine .bind (allots_expectNoArgs given) fun m _ later _ => .gets_bind fun m later _ => ?_
    exact .of_allots (.value (Value.within_bool _))
  · split
    · exact .bind (allots_expectNoArgs given) fun m _ later _ =>
        .of_allots (allots_blockValue _ (kept m later))
    · split
      · exact .bind (allots_expectNoArgs given) fun m _ later _ => calls_startLoop (kept m later)
      · exact .fail _

/-- What a name calls runs under the identity of the call, if at all. -/
theorem calls_dispatch (names : NameTable) (name : Name) {given : CallArgs}
    {block : Option ProcId} (knownArgs : given.Within (m₀.Knows Q))
    (known : ∀ proc, block = some proc → m₀.Knows Q proc) :
    (dispatch names name callId given block).Calls Q callId m₀ := by
  refine .gets_bind fun m later _ => ?_
  have kept : ∀ proc, block = some proc → m.Knows Q proc :=
    fun proc hproc => (known proc hproc).mono later
  cases m.methods.get? name with
  | none => exact calls_builtin names name given kept
  | some callee =>
    refine .perform rfl fun m' later' hid => .method callee hid ?_ fun proc hproc => ?_
    · exact knownArgs.mono fun _ => Machine.Knows.mono (later.trans later')
    · exact (kept proc hproc).mono later'

/-- The arguments of a call are evaluated while its identity is kept out of reach. -/
theorem calls_args {k : CallArgs → Comp Value} (list : List Arg)
    (hk : ∀ m given, m₀.Before m → given.Within (m.Knows Q) → (k given).Calls Q callId m) :
    (args {} list >>= k).Calls Q callId m₀ := by
  refine .bind ((allotting (AllBut Q callId)).args_same m₀ list ⟨rfl, CallArgs.within_empty⟩)
    fun m given later known => ?_
  have inside : given.Within (m.Knows (AllBut Q callId)) := known
  exact hk m given later (inside.mono fun _ knows => knows.weaken fun _ h => h.2.1)

/-- The identity of a call is out of reach while its block and its arguments are evaluated. -/
theorem allots_call (name : Name) (list : List Arg) (block : Option BlockArg) :
    (call program name list block).Allots Q m₀ (Covered Q) := by
  refine .allocate_bind fun m callId _ hid => ?_
  refine .bind (allots_blockArg hid block) fun m₁ passed _ known => ?_
  refine calls_args list fun m₂ given later knownArgs => ?_
  exact calls_dispatch program.names name knownArgs fun proc hproc => (known proc hproc).mono later

/-- A closure that is called is known before the identity of the call is taken. -/
theorem allots_callValue (callee : NodeId) (list : List Arg) (block : Option BlockArg) :
    (callValue program callee list block).Allots Q m₀ (Covered Q) := by
  refine .bind (.eval callee) fun m value _ hvalue => ?_
  cases value with
  | proc proc =>
    have knows : m.Knows Q proc := Value.within_proc.mp hvalue
    refine .allocate_bind fun m₁ callId later₁ hid => ?_
    refine .bind (allots_blockArg hid block) fun m₂ passed later₂ known => ?_
    refine calls_args list fun m₃ given later₃ knownArgs => .perform rfl fun m₄ later₄ hid => ?_
    have knownArgs' := knownArgs.mono fun _ => Machine.Knows.mono later₄
    refine .closure hid ?_ knownArgs' fun other hother => ?_
    · exact knows.mono (((later₁.trans later₂).trans later₃).trans later₄)
    · exact (known other hother).mono (later₃.trans later₄)
  | _ => exact .fail _

/-- The block of the current frame is known. -/
theorem allots_yield (list : List Arg) : (yield list).Allots Q m₀ (Covered Q) := by
  refine .gets_bind fun m later guards => ?_
  cases hblock : m.block? with
  | none => exact .fail _
  | some block =>
    have knows := guards.block hblock
    refine .bind ((allotting Q).args_same m list ⟨rfl, CallArgs.within_empty⟩)
      fun m₁ given later₁ knownArgs => ?_
    refine .allocate_bind fun m₂ id later₂ _ => .perform rfl fun m₃ later₃ hid => ?_
    refine .closure hid (knows.mono ((later₁.trans later₂).trans later₃)) ?_ fun _ h => by cases h
    exact CallArgs.Within.mono (fun _ => Machine.Knows.mono (later₂.trans later₃)) knownArgs

/-- What is read from a local is known. -/
theorem allots_ident (names : NameTable) (id : NodeId) (name : Name) :
    (ident names id name).Allots Q m₀ (Covered Q) := by
  refine .gets_bind fun m later guards => ?_
  cases hread : m.read? id name with
  | some value =>
    have hlookup : m.env.lookup name = some value := by
      rw [Machine.read?] at hread
      split at hread
      · cases hread
      · exact hread
    exact .value (guards.lookup hlookup)
  | none =>
    refine .gets_bind fun m' _ _ => ?_
    split
    · exact .allocate_bind fun _ callId _ _ =>
        calls_dispatch names name CallArgs.within_empty fun _ h => by cases h
    · exact .fail _

/-! ### Control flow -/

/-- Every branch yields what is known. -/
theorem allots_cond (test thenBranch : NodeId) (elseBranch : Option NodeId) :
    (cond test thenBranch elseBranch).Allots Q m₀ (Covered Q) := by
  refine .inTransparentScope (.bind (.eval test) fun m value _ _ => ?_)
  split
  · exact .eval thenBranch
  · exact (allotting Q).optional_same m elseBranch

section Loop

variable {P : ProcId → Prop} {ending : Ending Value}

/-- What follows a condition carries on its value or its exit. -/
theorem LoopStep.within_afterTest (kind : LoopKind) (h : ending.Within (Value.Within P) P) :
    (LoopStep.afterTest kind ending).Within P := by
  rcases ending with e | value
  · cases e with
    | breakTo target value => cases target <;> exact h
    | _ => exact h
  · rw [afterTest]
    split
    · trivial
    · exact Value.within_nil

/-- What follows a run of the body carries on its exit. -/
theorem LoopStep.within_afterBody (h : ending.Within (Value.Within P) P) :
    (LoopStep.afterBody ending).Within P := by
  rcases ending with e | value
  · cases e with
    | breakTo target value => cases target <;> exact h
    | next | redo => trivial
    | _ => exact h
  · trivial

/-- A loop yields what its rounds yield, by induction on the fuel. -/
theorem allots_loopFrom (kind : LoopKind) (test body : NodeId) {step : LoopStep}
    (known : step.Within (m₀.Knows Q)) :
    (loopFrom kind test body fuel step).Allots Q m₀ (Covered Q) := by
  induction fuel generalizing m₀ step with
  | zero => exact .outOfFuel
  | succ fuel ih =>
    cases step with
    | stop value => exact .value known
    | leave exit => exact .exit known
    | test =>
      exact .attempt_bind (.eval test) fun _ _ _ hending =>
        ih (LoopStep.within_afterTest kind hending)
    | body =>
      exact .attempt_bind (.eval body) fun _ _ _ hending => ih (LoopStep.within_afterBody hending)

/-- The count of loops brings nothing into reach. -/
theorem allots_loop (kind : LoopKind) (test body : NodeId) (bodyFirst : Bool) :
    (loop fuel kind test body bodyFirst).Allots Q m₀ (Covered Q) := by
  refine .inLoop (.inTransparentScope (allots_loopFrom kind test body ?_))
  cases bodyFirst <;> trivial

end Loop

/-- The local of a clause receives a text. -/
theorem allots_runClause (error : EvalError) (clause : RescueClause) :
    (runClause error clause).Allots Q m₀ (Covered Q) := by
  rw [runClause]
  split
  · exact .bind (.store _ _ (Value.within_str _)) fun _ _ _ _ => .eval clause.body
  · exact .eval clause.body

/-- What no clause takes goes on as it was. -/
theorem allots_guarded (names : NameTable) (body : NodeId) (rescues : List RescueClause)
    (elseBranch : Option NodeId) :
    (guarded names body rescues elseBranch).Allots Q m₀ (Covered Q) := by
  refine .attempt_bind (.eval body) fun m ending _ known => ?_
  rcases ending with e | value
  · cases e with
    | error error =>
      dsimp only
      split
      · exact allots_runClause error _
      · exact .exit trivial
    | _ => exact .exit known
  · cases elseBranch with
    | none => exact .value known
    | some branch => exact .eval branch

/-- The ending that is kept while the cleanup part runs is still known after it. -/
theorem allots_begin (names : NameTable) (body : NodeId) (rescues : List RescueClause)
    (elseBranch ensure : Option NodeId) :
    (begin names body rescues elseBranch ensure).Allots Q m₀ (Covered Q) := by
  refine .attempt_bind (.inTransparentScope (allots_guarded names body rescues elseBranch))
    fun m ending _ known => ?_
  have settled : ∀ m', m.Before m' → Allots Q m' (Covered Q) (settle ending) :=
    fun m' later => .settle ending fun m'' later' => known.mono (later.trans later')
  cases ensure with
  | none => exact settled m (.refl m)
  | some cleanup =>
    exact .bind (.inTransparentScope (.eval cleanup)) fun m' _ later _ => settled m' later

/-! ### Exits -/

/-- The value of a `return` is known, whichever activation it leaves. -/
theorem allots_returnWith (value : Option NodeId) :
    (returnWith value).Allots Q m₀ (Covered Q) := by
  refine .bind ((allotting Q).optional_same m₀ value) fun _ value _ (known : Covered Q _ value) =>
    .gets_bind fun m later _ => ?_
  split
  · split
    · exact .exit (known.mono later)
    · exact .fail _
  · exact .fail _

/-- The value of a `break` is known, whichever loop or activation it leaves. -/
theorem allots_breakWith (value : Option NodeId) :
    (breakWith value).Allots Q m₀ (Covered Q) := by
  refine .bind ((allotting Q).optional_same m₀ value) fun _ value _ (known : Covered Q _ value) =>
    .gets_bind fun m later _ => ?_
  have leaves : ∀ target, Allots Q m (Covered Q) (exit (.breakTo target value)) :=
    fun _ => .exit (known.mono later)
  split
  · exact .fail _
  · split
    · exact leaves .loop
    · split
      · exact leaves (.frame _)
      · split
        · split
          · exact leaves (.frame _)
          · exact .fail _
        · exact .fail _
      all_goals exact .fail _

/-- The value of `next` is known. -/
theorem allots_nextWith (value : Option NodeId) :
    (nextWith value).Allots Q m₀ (Covered Q) := by
  refine .bind ((allotting Q).optional_same m₀ value) fun _ value _ (known : Covered Q _ value) =>
    .gets_bind fun m later _ => ?_
  split
  · exact .exit (known.mono later)
  · exact .fail _

theorem allots_redo : redo.Allots Q m₀ (Covered Q) := by
  refine .gets_bind fun m _ _ => ?_
  split
  · exact .exit trivial
  · exact .fail _

theorem allots_raise (names : NameTable) (message : Option NodeId) :
    (raise names message).Allots Q m₀ (Covered Q) :=
  .bind ((allotting Q).optional_same m₀ message) fun _ _ _ _ => .gets_bind fun _ _ _ => .fail _

/-! ### Nodes -/

theorem allots_assign (id : NodeId) (name : Name) (elems : List Elem) :
    (assign id name elems).Allots Q m₀ (Covered Q) :=
  .bind ((allotting Q).items_same m₀ elems) fun _ _ _ known => .ofExcept_bind fun _ hvalue =>
    .store id name (SequenceItem.within_assigned known hvalue)

/-- No closure occurs in the result of an operator. -/
theorem allots_opAssign (id : NodeId) (name : Name) (op : BinaryOp) (expr : NodeId) :
    (opAssign id name op expr).Allots Q m₀ (Covered Q) :=
  .gets_bind fun _ _ _ => .bind (.eval expr) fun _ _ _ _ => .ofExcept_bind fun _ hvalue =>
    .store id name (BinaryOp.within_eval hvalue)

theorem allots_define (method : Method) :
    (modify (·.define method)).Allots Q m₀ (fun _ _ => True) :=
  .modify fun _ _ guards => .of_guards (guards.congr rfl rfl rfl) rfl rfl

/-- Every node brings nothing into reach that was not, and runs activations only under identities
that it kept for them. -/
theorem allots_node (program : Program) (fuel : Nat) (id : NodeId) (node : Node) :
    (Comp.node program fuel id node).Allots Q m₀ (Covered Q) := by
  cases node with
  | nil => exact .value Value.within_nil
  | bool b => exact .value (Value.within_bool b)
  | int n => exact .value (Value.within_int n)
  | str text => exact .value (Value.within_str _)
  | symbol name => exact .value (Value.within_symbol name)
  | array elems => exact (allotting Q).array_same m₀ elems
  | hash list => exact (allotting Q).hash_same m₀ list
  | ident name => exact allots_ident program.names id name
  | assign name elems => exact allots_assign id name elems
  | opAssign name op expr => exact allots_opAssign id name op expr
  | binary op left right => exact (allotting Q).binary m₀ op left right
  | seq stmts => exact (allotting Q).seq_same m₀ stmts ⟨rfl, Value.within_nil⟩
  | cond test thenBranch elseBranch => exact allots_cond test thenBranch elseBranch
  | loop kind test body bodyFirst => exact allots_loop kind test body bodyFirst
  | begin body rescues elseBranch ensure =>
    exact allots_begin program.names body rescues elseBranch ensure
  | define name params body =>
    exact .bind (allots_define _) fun _ _ _ _ => .value (Value.within_symbol name)
  | block params body => exact allots_closure id params body false
  | lambda params body => exact allots_closure id params body true
  | call name list block => exact allots_call name list block
  | callValue callee list block => exact allots_callValue callee list block
  | yield list => exact allots_yield list
  | returnWith value => exact allots_returnWith value
  | breakWith value => exact allots_breakWith value
  | nextWith value => exact allots_nextWith value
  | redo => exact allots_redo
  | raise message => exact allots_raise program.names message

end Comp

end ScriptSemantics
