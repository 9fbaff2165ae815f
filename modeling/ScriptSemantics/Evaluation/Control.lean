import ScriptSemantics.Evaluation.Operands
import ScriptSemantics.Inspect
import ScriptSemantics.Program

/-!
# Control flow

Conditionals, loops, rescue and cleanup, and the start of non-local exits.

## Main Definitions

* `Comp.cond`, `Comp.loop`, `Comp.begin` — the transparent constructs
* `Comp.returnWith`, `Comp.breakWith`, `Comp.nextWith`, `Comp.redo` — exits
* `Comp.raise` — an error with a message

## Design Notes

An exit is addressed when it starts.  A `return` goes to the return target of the current frame, a
`break` to a running loop of the current frame, else to the call that received the block.  A target
that is no longer live is reported at once.
-/

namespace ScriptSemantics.Comp

/-- A conditional in a scope of its own. -/
def cond (test thenBranch : NodeId) (elseBranch : Option NodeId) : Comp Value :=
  inTransparentScope do
    if (← eval test).isTruthy then eval thenBranch else optional elseBranch

/-- What a loop does next. -/
inductive LoopStep
  /-- End with a value. -/
  | stop (value : Value)
  /-- Run the body. -/
  | body
  /-- Test the condition. -/
  | test
  /-- End with an exit. -/
  | leave (exit : Exit)

/-- What follows a test of the condition. -/
def LoopStep.afterTest (kind : LoopKind) : Ending Value → LoopStep
  | .ok value =>
    if (kind == .whileTrue) = value.isTruthy then body else stop .nil
  | .error (.breakTo .loop value) => stop value
  -- Only the body answers to `next` and `redo`; those of the test go further out.
  | .error exit => leave exit

/-- What follows a run of the body: `redo` runs it again without a test. -/
def LoopStep.afterBody : Ending Value → LoopStep
  | .ok _ | .error (.next _) => test
  | .error .redo => body
  | .error (.breakTo .loop value) => stop value
  | .error exit => leave exit

/-- Run a loop from a step on. -/
def loopFrom (kind : LoopKind) (test body : NodeId) : Nat → LoopStep → Comp Value
  | 0, _ => outOfFuel
  | fuel + 1, step =>
    match step with
    | .stop value => pure value
    | .leave exit => Comp.exit exit
    | .test => do
      let ending ← attempt (eval test)
      loopFrom kind test body fuel (.afterTest kind ending)
    | .body => do
      let ending ← attempt (eval body)
      loopFrom kind test body fuel (.afterBody ending)

/-- A loop in a scope of its own, counted in the current frame while it runs. -/
def loop (fuel : Nat) (kind : LoopKind) (test body : NodeId) (bodyFirst : Bool) : Comp Value :=
  bracket (·.mapCalls CallStack.beginLoop) (·.mapCalls CallStack.endLoop) <|
    inTransparentScope <|
      loopFrom kind test body fuel (if bodyFirst then .body else .test)

/-- Whether a rescue clause takes an error; a clause without classes takes standard errors. -/
def clauseMatches (names : NameTable) (cause : ErrorCause) (clause : RescueClause) : Bool :=
  if clause.classes.isEmpty then cause.isA "StandardError"
  else clause.classes.any fun name => cause.isA (names.lookup name)

/-- Run a rescue clause; its local, if it has one, receives the message. -/
def runClause (error : EvalError) (clause : RescueClause) : Comp Value := do
  match clause.binding with
  | some name =>
    let _ ← store clause.body name (.str error.message)
    eval clause.body
  | none => eval clause.body

/-- A body with its rescue clauses and its else part.  Only errors of the body are rescued. -/
def guarded (names : NameTable) (body : NodeId) (rescues : List RescueClause)
    (elseBranch : Option NodeId) : Comp Value := do
  match ← attempt (eval body) with
  | .ok value =>
    match elseBranch with
    | some branch => eval branch
    | none => return value
  | .error (.error error) =>
    match rescues.find? (clauseMatches names error.cause) with
    | some clause => runClause error clause
    | none => exit (.error error)
  | .error exit => Comp.exit exit

/-- A guarded body with a cleanup part.  The cleanup runs for every end of the body; an exit of the
cleanup replaces that end. -/
def begin (names : NameTable) (body : NodeId) (rescues : List RescueClause)
    (elseBranch ensure : Option NodeId) : Comp Value := do
  let ending ← attempt <| inTransparentScope <| guarded names body rescues elseBranch
  match ensure with
  | some cleanup =>
    -- The value of the cleanup is dropped; an exit of it does not come back here.
    let _ ← inTransparentScope (eval cleanup)
    settle ending
  | none => settle ending

/-- Leave the method or lambda that the code belongs to. -/
def returnWith (value : Option NodeId) : Comp Value := do
  let value ← optional value
  let machine ← Comp.machine
  match machine.frame?.bind (·.returnTarget) with
  | some target =>
    if machine.calls.isLive target then exit (.returnTo target value)
    else fail (.invalidControlTransfer .return "unexpected return")
  | none => fail (.invalidControlTransfer .return "unexpected return")

/-- Leave the innermost loop of the frame, else the call that received the block. -/
def breakWith (value : Option NodeId) : Comp Value := do
  let value ← optional value
  let machine ← Comp.machine
  match machine.frame? with
  | none => fail (.invalidControlTransfer .break "Invalid break")
  | some frame =>
    if 0 < frame.loopDepth then exit (.breakTo .loop value)
    else
      match frame.kind with
      | .lambda => exit (.breakTo (.frame frame.id) value)
      | .block =>
        match frame.breakTag with
        | some tag =>
          if machine.calls.isLive tag then exit (.breakTo (.frame tag) value)
          else fail (.invalidControlTransfer .break "break from proc-closure")
        | none => fail (.invalidControlTransfer .break "break from proc-closure")
      | .top | .method | .builtin => fail (.invalidControlTransfer .break "Invalid break")

/-- Whether the current frame has something that `next` and `redo` act on. -/
def isIterating : Comp Bool :=
  gets fun machine => machine.frame?.any (·.isIterating)

/-- Go on with the next round of the loop, or end the closure. -/
def nextWith (value : Option NodeId) : Comp Value := do
  let value ← optional value
  if ← isIterating then exit (.next value)
  else fail (.invalidControlTransfer .next "Invalid next")

/-- Run the body of the loop or closure again. -/
def redo : Comp Value := do
  if ← isIterating then exit .redo
  else fail (.invalidControlTransfer .redo "Invalid redo")

/-- The message of a raised value: a string stands for itself. -/
def raiseMessage (names : NameTable) (closures : ClosureTable) : Value → String
  | .nil => "unhandled exception"
  | .str text => text
  | other => other.inspect names closures

/-- End in an error with a message. -/
def raise (names : NameTable) (message : Option NodeId) : Comp Value := do
  let value ← optional message
  let closures ← gets (·.closures)
  fail (.raised (raiseMessage names closures value))

end ScriptSemantics.Comp
