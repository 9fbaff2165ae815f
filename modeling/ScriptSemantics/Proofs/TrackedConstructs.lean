import ScriptSemantics.Proofs.OperandLogic
import ScriptSemantics.Proofs.Regime
import ScriptSemantics.Proofs.Tracking

/-!
# Constructs that track each other

Every construct of the language tracks itself on machines that correspond, operands and literals by
their logic and any other one by a lemma of its own.

## Main Definitions

* `Outlook.sameData`, `Outlook.logic` — the logic of operands that track themselves
* `Outlook.Fixes` — a scope root stands in its place
* `Outlook.KeepsLiterals` — so do the blocks written at a node, which are the same in both programs

## Main Results

* `Outlook.tracks_node` — a node tracks itself

## Design Notes

The programs of the two runs may differ, but they agree on the node that is looked at and on the
blocks written at it.
-/

namespace ScriptSemantics.Outlook

variable {W : Outlook} {program program' : Program}

/-! ### Operands -/

/-- Whatever operands yield may mention closures. -/
instance (d : Datum) : Named d.Carrier :=
  match d with
  | .value => inferInstanceAs (Named Value)
  | .values => inferInstanceAs (Named (List Value))
  | .key => inferInstanceAs (Named HashKey)
  | .parts => inferInstanceAs (Named (List SequenceItem))
  | .entries => inferInstanceAs (Named HashEntries)
  | .args => inferInstanceAs (Named CallArgs)

/-- Data that are the same up to names. -/
def sameData (W : Outlook) : DataRelation := fun _ a a' => W.Alike a a'

/-- Conversions that correspond fail for the same cause, since causes mention no closures. -/
theorem results_sameData {d : Datum} {result result' : Except ErrorCause d.Carrier}
    (alike : W.Alike result result') : W.sameData.Results d result result' := by
  obtain rfl := alike.eq
  cases result with
  | ok a => exact .ok fun τ hτ => Except.ok.inj (alike τ hτ)
  | error cause => exact .error cause

/-- Every operation by which operands are gathered commutes with naming. -/
theorem congruence_sameData (W : Outlook) : W.sameData.Congruence where
  nil := fun _ _ => rfl
  noParts := fun _ _ => rfl
  noEntries := fun _ _ => rfl
  plain hvalue htail := fun τ hτ =>
    congrArg₂ (SequenceItem.plain · :: ·) (hvalue τ hτ) (htail τ hτ)
  spread hvalue htail := fun τ hτ =>
    congrArg₂ (SequenceItem.spread · :: ·) (hvalue τ hτ) (htail τ hτ)
  build parts := results_sameData (parts.map SequenceItem.build fun _ => SequenceItem.build_under)
  array items := items.map Value.array fun _ _ => Value.under_array.symm
  ofValue {v v'} alike := by
    refine results_sameData fun τ hτ => ?_
    rw [← alike τ hτ, Value.ofValue_under]
    cases HashKey.ofValue v <;> rfl
  put {soFar soFar' key key' v v'} known same alike := fun τ hτ => by
    obtain rfl : key = key' := same.eq
    rw [← known τ hτ, ← alike τ hτ, Assoc.put_under]
  toHashEntries alike :=
    results_sameData (alike.map Value.toHashEntries fun _ v => v.toHashEntries_under)
  putAll {soFar soFar' merged merged'} known alike := fun τ hτ => by
    rw [← known τ hτ, ← alike τ hτ]
    exact (Assoc.putAll_under soFar merged).symm
  hash entries := entries.map Value.hash fun _ _ => Value.under_hash.symm
  push known alike := fun τ hτ => by rw [← known τ hτ, ← alike τ hτ, CallArgs.push_under]
  pushKeyword name known alike := fun τ hτ => by
    rw [← known τ hτ, ← alike τ hτ, CallArgs.pushKeyword_under]
  pushSpread known alike := results_sameData fun τ hτ => by
    rw [← known τ hτ, ← alike τ hτ, CallArgs.pushSpread_under]
  mergeKeywords known alike := results_sameData fun τ hτ => by
    rw [← known τ hτ, ← alike τ hτ, CallArgs.mergeKeywords_under]
  eval op hleft hright := results_sameData fun τ hτ => by
    rw [← hleft τ hτ, ← hright τ hτ, BinaryOp.eval_under]

/-- Operands track themselves, and more is known about names after each of them. -/
def logic : OperandLogic id where
  World := Outlook
  Later W W' := W'.Narrows W
  Same := sameData
  Goes _ W _ x x' := W.Tracks x x'
  congruence := congruence_sameData
  mono later alike := alike.mono later
  pure alike := .pure alike
  ofExcept := by
    rintro d W - - (⟨alike⟩ | cause)
    · exact .pure alike
    · exact .fail cause
  eval := .eval
  bind hx hf := .bind hx fun W' later a a' alike => hf W' a a' later alike

/-! ### Calls -/

/-- A scope root stands in its place. -/
def Fixes (W : Outlook) (id : NodeId) : Prop :=
  ∀ τ, W.Allows τ → τ.node id = id

/-- Some blocks stand in their places and are the same in both programs. -/
def KeepsLiterals (W : Outlook) (program program' : Program) (literals : List NodeId) : Prop :=
  ∀ literal ∈ literals, W.Fixes literal ∧
    program'.nodes.node? literal = program.nodes.node? literal

/-- A scope root stays in its place when more is known about names. -/
theorem Fixes.mono {W' : Outlook} {id : NodeId} (h : W.Fixes id) (narrows : W'.Narrows W) :
    W'.Fixes id :=
  fun τ hτ => h τ (narrows.imp τ hτ)

/-- Written blocks stay in their places when more is known about names. -/
theorem KeepsLiterals.mono {W' : Outlook} {literals : List NodeId}
    (h : W.KeepsLiterals program program' literals) (narrows : W'.Narrows W) :
    W'.KeepsLiterals program program' literals :=
  fun literal hliteral => ⟨(h literal hliteral).1.mono narrows, (h literal hliteral).2⟩

/-- Closures that are made together correspond, provided that their tags do. -/
theorem tracks_makeClosure {literal : NodeId} (fixed : W.Fixes literal) (params : ParamList)
    (body : NodeId) (isLambda : Bool) {tag tag' : Option FrameId} (alike : W.Alike tag tag') :
    W.Tracks (Comp.modifyGet (·.makeClosure literal params body isLambda tag))
      (Comp.modifyGet (·.makeClosure literal params body isLambda tag')) :=
  .modifyGet fun σ m _ later corresponds => corresponds.makeClosure
    (fixed σ (later.imp σ (σ.outlook m).allows_naming)) params body isLambda (alike.mono later)

section Calls

variable {callId callId' : FrameId} (known : W.Alike callId callId')

include known

/-- A block that is written at a call is closed over corresponding calls.  A closure that is passed
is named alike. -/
theorem tracks_blockArg (block : Option BlockArg)
    (literals : W.KeepsLiterals program program' (block.bind BlockArg.literal?).toList) :
    W.Tracks (Comp.blockArg program callId block) (Comp.blockArg program' callId' block) := by
  cases block with
  | none => exact .pure fun _ _ => rfl
  | some arg =>
    cases arg with
    -- the closure keeps the identity of the call as the target of its breaks
    | literal literal =>
      obtain ⟨fixed, same⟩ := literals literal List.mem_cons_self
      have tag : W.Alike (some callId) (some callId') := fun τ hτ => congrArg some (known τ hτ)
      have given : ∀ W' : Outlook, W'.Narrows W → ∀ proc proc' : ProcId, W'.Alike proc proc' →
          W'.Tracks (pure (some proc)) (pure (some proc')) :=
        fun _ _ _ _ alike => .pure fun τ hτ => congrArg some (alike τ hτ)
      rw [Comp.blockArg, Comp.blockArg, same]
      split
      · exact .bind (tracks_makeClosure fixed _ _ false tag) given
      · exact .bind (tracks_makeClosure fixed _ _ true tag) given
      · exact .fail _
    | pass expr =>
      refine .bind (.eval expr) fun W₁ _ value value' alike => ?_
      obtain rfl := alike.eq
      cases value with
      | nil => exact .pure fun _ _ => rfl
      | proc id => exact .pure fun τ hτ => congrArg some (Value.proc.inj (alike τ hτ))
      | _ => exact .fail _

/-- Without a block there is nothing to repeat, in neither run. -/
theorem tracks_startLoop {block block' : Option ProcId} (alike : W.Alike block block') :
    W.Tracks (Comp.startLoop callId block) (Comp.startLoop callId' block') := by
  obtain rfl := alike.eq
  cases block with
  | none => exact .fail _
  | some proc =>
    refine .perform nofun fun τ hτ => ?_
    exact congrArg₂ Task.loop (Option.some.inj (alike τ hτ)) (known τ hτ)

omit known in
/-- A block is turned into a closure value, and into a lambda by a copy of the closure in both
runs. -/
theorem tracks_blockValue (asLambda : Bool) {block block' : Option ProcId}
    (alike : W.Alike block block') :
    W.Tracks (Comp.blockValue asLambda block) (Comp.blockValue asLambda block') := by
  obtain rfl := alike.eq
  cases block with
  | none => exact .fail _
  | some proc =>
    have procs : W.Alike proc (under W.naming proc) := fun τ hτ => Option.some.inj (alike τ hτ)
    cases asLambda with
    | false => exact .pure fun τ hτ => congrArg Value.proc (procs τ hτ)
    | true =>
      refine .bind (.modifyGet fun σ m _ later corresponds => corresponds.addLambda (procs.mono later))
        fun W₁ _ made made' hmade => .pure fun τ hτ => congrArg Value.proc (hmade τ hτ)

/-- Which builtin runs depends on the name and the number of arguments, which no naming changes. -/
theorem tracks_builtin (names : NameTable) (name : Name) {given given' : CallArgs}
    (hgiven : W.Alike given given') {block block' : Option ProcId} (alike : W.Alike block block') :
    W.Tracks (Comp.builtin names name callId given block)
      (Comp.builtin names name callId' given' block') := by
  have noArgs : W.Tracks (Comp.expectNoArgs given) (Comp.expectNoArgs given') := by
    rw [Comp.expectNoArgs, Comp.expectNoArgs, ← hgiven.eq, CallArgs.count_under]
    split
    · exact .pure fun _ _ => rfl
    · exact .fail _
  rw [Comp.builtin, Comp.builtin]
  split
  · refine .bind noArgs fun W₁ _ _ _ _ => .bind (.gets fun σ m m' _ corresponds τ hτ => ?_)
      fun W₂ _ isGiven isGiven' same => .pure fun τ hτ => congrArg Value.bool (same τ hτ)
    rw [← corresponds.block? τ hτ]
    cases m.block? <;> rfl
  · split
    · exact .bind noArgs fun W₁ later _ _ _ => tracks_blockValue _ (alike.mono later)
    · split
      · exact .bind noArgs fun W₁ later _ _ _ => tracks_startLoop (known.mono later) (alike.mono later)
      · exact .fail _

/-- A method is found for the same names in both runs, with roots that correspond. -/
theorem tracks_dispatch (names : NameTable) (name : Name) {given given' : CallArgs}
    (hgiven : W.Alike given given') {block block' : Option ProcId} (alike : W.Alike block block') :
    W.Tracks (Comp.dispatch names name callId given block)
      (Comp.dispatch names name callId' given' block') := by
  refine .gets_bind fun σ m m' later corresponds => ?_
  rw [corresponds.method?]
  cases m.methods.get? name with
  | some callee =>
    refine .perform nofun fun τ hτ => ?_
    have same : under τ callee = under σ callee :=
      congrArg (fun node => { callee with root := node callee.root }) hτ.node
    rw [← known τ (later.imp τ hτ), ← hgiven τ (later.imp τ hτ), ← alike τ (later.imp τ hτ)]
    exact congrArg (Task.method · _ _ _) same
  | none => exact tracks_builtin (known.mono later) names name (hgiven.mono later) (alike.mono later)

end Calls

/-- What is known when the identity of a call is set aside stays known while its block and arguments
are evaluated. -/
theorem tracks_call (names : program'.names = program.names) (name : Name) (argList : List Arg)
    (block : Option BlockArg)
    (literals : W.KeepsLiterals program program' (block.bind BlockArg.literal?).toList) :
    W.Tracks (Comp.call program name argList block) (Comp.call program' name argList block) := by
  rw [Comp.call, Comp.call, names]
  exact .bind .allocate fun W₁ later₁ callId callId' hid =>
    .bind (tracks_blockArg hid block (literals.mono later₁)) fun W₂ later₂ block block' hblock =>
      .bind (logic.args_same _ argList fun _ _ => rfl) fun W₃ later₃ given given' hgiven =>
        tracks_dispatch (hid.mono (later₃.trans later₂)) _ _ hgiven (hblock.mono later₃)

/-- Whether a value is a closure does not depend on names. -/
theorem tracks_callValue (callee : NodeId) (argList : List Arg) (block : Option BlockArg)
    (literals : W.KeepsLiterals program program' (block.bind BlockArg.literal?).toList) :
    W.Tracks (Comp.callValue program callee argList block)
      (Comp.callValue program' callee argList block) := by
  refine .bind (.eval callee) fun W₁ later₁ value value' alike => ?_
  obtain rfl := alike.eq
  cases value with
  | proc proc =>
    refine .bind .allocate fun W₂ later₂ callId callId' hid =>
      .bind (tracks_blockArg hid block (literals.mono (later₂.trans later₁)))
        fun W₃ later₃ block block' hblock => .bind (logic.args_same _ argList fun _ _ => rfl)
          fun W₄ later₄ given given' hgiven => .perform nofun fun τ hτ => ?_
    rw [← hgiven τ hτ, ← hblock τ (later₄.imp τ hτ), ← hid τ (later₃.imp τ (later₄.imp τ hτ))]
    have hproc := Value.proc.inj (alike τ (later₂.imp τ (later₃.imp τ (later₄.imp τ hτ))))
    exact congrArg (Task.closure · _ _ _) hproc
  | _ => exact .fail _

/-- The block of the current frame corresponds to that of the other run from the start. -/
theorem tracks_yield (argList : List Arg) :
    W.Tracks (Comp.yield argList) (Comp.yield argList) := by
  refine .gets_bind fun σ m m' later corresponds => ?_
  have alike := corresponds.block?
  rw [← alike.eq]
  cases hblock : m.block? with
  | none => exact .fail _
  | some block =>
    rw [← alike.eq, hblock] at alike
    refine .bind (logic.args_same _ argList fun _ _ => rfl) fun W₁ later₁ given given' hgiven =>
      .bind .allocate fun W₂ later₂ callId callId' hid => .perform nofun fun τ hτ => ?_
    rw [← hgiven τ (later₂.imp τ hτ), ← hid τ hτ]
    have hproc := Option.some.inj (alike τ (later₁.imp τ (later₂.imp τ hτ)))
    exact congrArg (Task.closure · _ _ _) hproc

/-- A flag of a read is the same in both runs, as the node stands in its place. -/
theorem tracks_ident (names : NameTable) {id : NodeId} (fixed : W.Fixes id) (name : Name) :
    W.Tracks (Comp.ident names id name) (Comp.ident names id name) := by
  refine .gets_bind fun σ m m' later corresponds => ?_
  have alike := corresponds.read? (fixed σ (later.imp σ (σ.outlook m).allows_naming)) name
  rw [← alike.eq]
  cases hread : m.read? id name with
  | some value =>
    rw [← alike.eq, hread] at alike
    exact .pure fun τ hτ => Option.some.inj (alike τ hτ)
  | none =>
    refine .gets_bind fun σ₁ m₁ m₁' later₁ corresponds₁ => ?_
    have contains : m₁'.methods.contains name = m₁.methods.contains name := by
      rw [corresponds₁.methods, Assoc.contains_under]
    rw [contains]
    split
    · exact .bind .allocate fun W₂ later₂ callId callId' hid =>
        tracks_dispatch hid _ _ (fun _ _ => rfl) fun _ _ => rfl
    · exact .fail _

/-! ### Control flow -/

/-- Whether a value is true does not depend on names. -/
theorem tracks_cond (test thenBranch : NodeId) (elseBranch : Option NodeId) :
    W.Tracks (Comp.cond test thenBranch elseBranch) (Comp.cond test thenBranch elseBranch) := by
  refine .inTransparentScope (.bind (.eval test) fun W₁ _ value value' alike => ?_)
  rw [← alike.eq, Value.isTruthy_under]
  split
  · exact .eval thenBranch
  · exact logic.optional_same _ elseBranch

/-- What a loop does next commutes with naming, so both runs take the same steps. -/
theorem tracks_loopFrom (kind : LoopKind) (test body : NodeId) (fuel : Nat)
    {step step' : Comp.LoopStep} (alike : W.Alike step step') :
    W.Tracks (Comp.loopFrom kind test body fuel step) (Comp.loopFrom kind test body fuel step') := by
  induction fuel generalizing W step step' with
  | zero => exact .outOfFuel
  | succ fuel ih =>
    obtain rfl := alike.eq
    cases step with
    | stop value => exact .pure fun τ hτ => Comp.LoopStep.stop.inj (alike τ hτ)
    | leave exit => exact .exit fun τ hτ => Comp.LoopStep.leave.inj (alike τ hτ)
    | test =>
      exact .bind (.attempt (.eval test)) fun W₁ _ ending ending' hending =>
        ih (hending.map (Comp.LoopStep.afterTest kind) fun _ => Comp.LoopStep.afterTest_under kind)
    | body =>
      exact .bind (.attempt (.eval body)) fun W₁ _ ending ending' hending =>
        ih (hending.map Comp.LoopStep.afterBody fun _ => Comp.LoopStep.afterBody_under)

theorem tracks_loop (fuel : Nat) (kind : LoopKind) (test body : NodeId) (bodyFirst : Bool) :
    W.Tracks (Comp.loop fuel kind test body bodyFirst) (Comp.loop fuel kind test body bodyFirst) := by
  refine .bracket (.inTransparentScope (tracks_loopFrom kind test body fuel ?_))
    (fun _ _ _ => Machine.Corresponds.beginLoop) (fun _ _ _ => Machine.Corresponds.endLoop)
    fun σ m => ⟨?_, ?_⟩
  · intro τ _
    cases bodyFirst <;> rfl
  · exact congrArg (Outlook.mk σ _) CallStack.beginLoop_nextId
  · exact congrArg (Outlook.mk σ _) CallStack.endLoop_nextId

theorem tracks_runClause (error : EvalError) (clause : RescueClause) :
    W.Tracks (Comp.runClause error clause) (Comp.runClause error clause) := by
  rw [Comp.runClause]
  split
  · exact .bind (.store _ _ fun _ _ => rfl) fun _ _ _ _ _ => .eval _
  · exact .eval _

/-- Errors are the same under all names, so the same clause takes them. -/
theorem tracks_guarded (names : NameTable) (body : NodeId) (rescues : List RescueClause)
    (elseBranch : Option NodeId) :
    W.Tracks (Comp.guarded names body rescues elseBranch)
      (Comp.guarded names body rescues elseBranch) := by
  refine .bind (.attempt (.eval body)) fun W₁ _ ending ending' alike => ?_
  obtain rfl := alike.eq
  cases ending with
  | ok value =>
    cases elseBranch with
    | none => exact .pure fun τ hτ => Except.ok.inj (alike τ hτ)
    | some branch => exact .eval branch
  | error e =>
    have left : W₁.Tracks (Comp.exit e : Comp Value) (Comp.exit (under W₁.naming e)) :=
      .exit fun τ hτ => Except.error.inj (alike τ hτ)
    cases e with
    | error error =>
      have same : under W₁.naming (.error (.error error) : Ending Value) = .error (.error error) := rfl
      rw [same]
      dsimp only
      split
      · exact tracks_runClause error _
      · exact .exit fun _ _ => rfl
    | _ => exact left

/-- The ending that is kept while the cleanup part runs is still the same up to names after it. -/
theorem tracks_begin (names : NameTable) (body : NodeId) (rescues : List RescueClause)
    (elseBranch ensure : Option NodeId) :
    W.Tracks (Comp.begin names body rescues elseBranch ensure)
      (Comp.begin names body rescues elseBranch ensure) := by
  refine .bind (.attempt (.inTransparentScope (tracks_guarded names body rescues elseBranch)))
    fun W₁ _ ending ending' alike => ?_
  cases ensure with
  | none => exact .settle alike
  | some cleanup =>
    exact .bind (.inTransparentScope (.eval cleanup)) fun _ later _ _ _ => .settle (alike.mono later)

/-! ### Exits -/

/-- The target of a `return` corresponds to that of the other run, and is live when that is. -/
theorem tracks_returnWith (value : Option NodeId) :
    W.Tracks (Comp.returnWith value) (Comp.returnWith value) := by
  refine .bind (logic.optional_same _ value) fun W₁ _ value value' alike =>
    .gets_bind fun σ m m' later corresponds => ?_
  have targets : (σ.outlook m).Alike (m.frame?.bind (·.returnTarget))
      (m'.frame?.bind (·.returnTarget)) := by
    intro τ hτ
    rw [← corresponds.frame? τ hτ]
    cases m.frame? with
    | none => rfl
    | some frame => exact frame.returnTarget_under.symm
  rw [← targets.eq]
  cases htarget : m.frame?.bind (·.returnTarget) with
  | none => exact .fail _
  | some target =>
    rw [← targets.eq, htarget] at targets
    have live : m'.calls.isLive (σ.frame target) = m.calls.isLive target :=
      corresponds.isLive target (σ.outlook m).allows_naming
    change (σ.outlook m).Tracks (if m.calls.isLive target then _ else _)
      (if m'.calls.isLive (σ.frame target) then _ else _)
    rw [live]
    split
    · refine .exit fun τ hτ => ?_
      exact congrArg₂ Exit.returnTo (Option.some.inj (targets τ hτ)) (alike τ (later.imp τ hτ))
    · exact .fail _

/-- A `break` addresses corresponding activations, which are live in both runs or in none of
them. -/
theorem tracks_breakWith (value : Option NodeId) :
    W.Tracks (Comp.breakWith value) (Comp.breakWith value) := by
  refine .bind (logic.optional_same _ value) fun W₁ _ value value' alike =>
    .gets_bind fun σ m m' later corresponds => ?_
  have frames := corresponds.frame?
  have breakTo : ∀ {target target' : BreakTarget}, (σ.outlook m).Alike target target' →
      (σ.outlook m).Tracks (Comp.exit (.breakTo target value) : Comp Value)
        (Comp.exit (.breakTo target' value')) :=
    fun targets => .exit fun τ hτ => congrArg₂ Exit.breakTo (targets τ hτ) (alike τ (later.imp τ hτ))
  rw [← frames.eq]
  cases hframe : m.frame? with
  | none => exact .fail _
  | some frame =>
    rw [← frames.eq, hframe] at frames
    have same : (σ.outlook m).Alike frame (under σ frame) := fun τ hτ => Option.some.inj (frames τ hτ)
    obtain ⟨id, kind, name, home, breakTag, block, loopDepth⟩ := frame
    change (σ.outlook m).Tracks (if 0 < loopDepth then _ else _) (if 0 < loopDepth then _ else _)
    split
    · exact breakTo fun _ _ => rfl
    · cases kind with
      | lambda => exact breakTo fun τ hτ => congrArg (BreakTarget.frame ·.id) (same τ hτ)
      | block =>
        cases breakTag with
        | none => exact .fail _
        | some tag =>
          -- under other names the same activations are live
          have live : m'.calls.isLive (σ.frame tag) = m.calls.isLive tag :=
            corresponds.isLive tag (σ.outlook m).allows_naming
          change (σ.outlook m).Tracks (if m.calls.isLive tag then _ else _)
            (if m'.calls.isLive (σ.frame tag) then _ else _)
          rw [live]
          split
          · refine breakTo fun τ hτ => congrArg BreakTarget.frame ?_
            exact Option.some.inj (congrArg Frame.breakTag (same τ hτ))
          · exact .fail _
      | top | method | builtin => exact .fail _

/-- Whether `next` and `redo` have something to act on does not depend on names. -/
theorem tracks_isIterating : W.Tracks Comp.isIterating Comp.isIterating := by
  refine .gets fun σ m m' _ corresponds τ hτ => ?_
  rw [← corresponds.frame? τ hτ]
  cases m.frame? <;> rfl

theorem tracks_nextWith (value : Option NodeId) :
    W.Tracks (Comp.nextWith value) (Comp.nextWith value) := by
  refine .bind (logic.optional_same _ value) fun W₁ _ value value' alike =>
    .bind tracks_isIterating fun W₂ later iterating iterating' same => ?_
  obtain rfl : iterating = iterating' := same.eq
  split
  · exact .exit fun τ hτ => congrArg Exit.next (alike τ (later.imp τ hτ))
  · exact .fail _

theorem tracks_redo : W.Tracks Comp.redo Comp.redo := by
  refine .bind tracks_isIterating fun W₁ later iterating iterating' same => ?_
  obtain rfl : iterating = iterating' := same.eq
  split
  · exact .exit fun _ _ => rfl
  · exact .fail _

/-- A message shows no identity of a closure. -/
theorem tracks_raise (names : NameTable) (message : Option NodeId) :
    W.Tracks (Comp.raise names message) (Comp.raise names message) := by
  refine .bind (logic.optional_same _ message) fun W₁ _ value value' alike =>
    .gets_bind fun σ m m' later corresponds => ?_
  -- the message shows closures without their identities
  have same := Comp.raiseMessage_under names m.closures m'.closures corresponds.isLambda value
  rw [alike σ (later.imp σ (σ.outlook m).allows_naming)] at same
  rw [same]
  exact .fail _

/-! ### Nodes -/

theorem tracks_closure {id : NodeId} (fixed : W.Fixes id) (params : ParamList) (body : NodeId)
    (isLambda : Bool) :
    W.Tracks (Comp.closure id params body isLambda) (Comp.closure id params body isLambda) :=
  .bind (tracks_makeClosure fixed params body isLambda fun _ _ => rfl) fun _ _ _ _ alike =>
    .pure fun τ hτ => congrArg Value.proc (alike τ hτ)

theorem tracks_assign (id : NodeId) (name : Name) (elems : List Elem) :
    W.Tracks (Comp.assign id name elems) (Comp.assign id name elems) :=
  .bind (logic.items_same W elems) fun _ _ _ _ parts =>
    .bind (.ofExcept (parts.map SequenceItem.assigned fun _ => SequenceItem.assigned_under))
      fun _ _ _ _ alike => .store id name alike

/-- The old value is read before the operand is evaluated, and is the same up to names after it. -/
theorem tracks_opAssign (id : NodeId) (name : Name) (op : BinaryOp) (expr : NodeId) :
    W.Tracks (Comp.opAssign id name op expr) (Comp.opAssign id name op expr) := by
  refine .bind (.gets fun σ m m' _ corresponds => corresponds.lookup name)
    fun W₁ _ present present' hpresent => .bind (.eval expr) fun W₂ later right right' hright =>
      .bind (.ofExcept fun τ hτ => ?_) fun W₃ _ value value' alike => .store id name alike
  rw [← hpresent τ (later.imp τ hτ), ← hright τ hτ, ← BinaryOp.eval_under]
  cases present <;> rfl

/-- A definition registers methods whose roots correspond. -/
theorem tracks_define (fuel : Nat) {id : NodeId} (fixed : W.Fixes id) (name : Name)
    (params : ParamList) (body : NodeId) :
    W.Tracks (Comp.node program fuel id (.define name params body))
      (Comp.node program' fuel id (.define name params body)) := by
  refine .bind (.modify fun σ m m' later corresponds => ⟨corresponds.define ?_, .refl _⟩)
    fun _ _ _ _ _ => .pure fun _ _ => rfl
  have place : σ.node id = id := fixed σ (later.imp σ (σ.outlook m).allows_naming)
  exact congrArg (Method.mk name params body) place

/-- A node tracks itself if it stands in its place and so do the blocks written at it. -/
theorem tracks_node (names : program'.names = program.names) (fuel : Nat) {id : NodeId}
    (fixed : W.Fixes id) {node : Node}
    (literals : W.KeepsLiterals program program' node.literals) :
    W.Tracks (Comp.node program fuel id node) (Comp.node program' fuel id node) := by
  cases node with
  | nil | bool | int | symbol => exact .pure fun _ _ => rfl
  | str text =>
    rw [Comp.node, Comp.node, names]
    exact .pure fun _ _ => rfl
  | array elems => exact logic.array_same W elems
  | hash list => exact logic.hash_same W list
  | ident name =>
    rw [Comp.node, Comp.node, names]
    exact tracks_ident _ fixed name
  | assign name elems => exact tracks_assign id name elems
  | opAssign name op expr => exact tracks_opAssign id name op expr
  | binary op left right => exact logic.binary W op left right
  | seq stmts => exact logic.seq_same W stmts fun _ _ => rfl
  | cond test thenBranch elseBranch => exact tracks_cond test thenBranch elseBranch
  | loop kind test body bodyFirst => exact tracks_loop fuel kind test body bodyFirst
  | begin body rescues elseBranch ensure =>
    rw [Comp.node, Comp.node, names]
    exact tracks_begin _ body rescues elseBranch ensure
  | define name params body => exact tracks_define fuel fixed name params body
  | block params body => exact tracks_closure fixed params body false
  | lambda params body => exact tracks_closure fixed params body true
  | call name argList block => exact tracks_call names name argList block literals
  | callValue callee argList block => exact tracks_callValue callee argList block literals
  | yield argList => exact tracks_yield argList
  | returnWith value => exact tracks_returnWith value
  | breakWith value => exact tracks_breakWith value
  | nextWith value => exact tracks_nextWith value
  | redo => exact tracks_redo
  | raise message =>
    rw [Comp.node, Comp.node, names]
    exact tracks_raise _ message

end ScriptSemantics.Outlook
