import ScriptSemantics.Handle
import ScriptSemantics.Name
import ScriptSemantics.ErrorCause

/-!
# The call stack

One frame per activation: the program, a method, a lambda, a block, or a builtin that runs a block.
Frames carry the identities that non-local exits are addressed to.

## Main Definitions

* `FrameKind`, `Frame` — activations
* `Frame.returnTarget` — the frame that a `return` evaluated here leaves
* `Frame.homeForLiterals` — the frame that a `return` in a block written here will leave
* `CallStack` — the live frames, a depth limit and the supply of identities
* `CallStack.push` — refuses a frame above the limit
* `CallStack.isLive`, `CallStack.capture` — who is still running
-/

namespace ScriptSemantics

/-- What kind of activation a frame is. -/
inductive FrameKind
  | top | method | lambda | block
  /-- A builtin that runs a block; it catches `break` only. -/
  | builtin
deriving DecidableEq

/-- One live activation. -/
structure Frame where
  id : FrameId
  kind : FrameKind
  /-- The name of a method or builtin; empty for other kinds. -/
  name : Name
  /-- For a block: the frame that a `return` leaves. -/
  home : Option FrameId := none
  /-- For a block: the call that a `break` leaves. -/
  breakTag : Option FrameId := none
  /-- The block that `yield` runs. -/
  block : Option ProcId := none
  /-- The number of loops running in this frame. -/
  loopDepth : Nat := 0

namespace Frame

/-- The frame that a `return` evaluated here leaves. -/
def returnTarget (frame : Frame) : Option FrameId :=
  match frame.kind with
  | .top | .method | .lambda => some frame.id
  | .block => frame.home
  | .builtin => none

/-- The home of block literals written here.  Blocks written at the top level have none. -/
def homeForLiterals (frame : Frame) : Option FrameId :=
  match frame.kind with
  | .method | .lambda => some frame.id
  | .block => frame.home
  | .top | .builtin => none

/-- How backtraces show the frame. -/
def label (names : NameTable) (frame : Frame) : String :=
  match frame.kind with
  | .top => "<main>"
  | .method | .builtin => names.lookup frame.name
  | .lambda => "lambda"
  | .block => "block"

/-- Whether `next` and `redo` have somewhere to go: a loop of this frame, or a closure body. -/
def isIterating (frame : Frame) : Bool :=
  decide (0 < frame.loopDepth) || frame.kind == .block || frame.kind == .lambda

end Frame

/-- The live frames, innermost first, with a depth limit and the next unused identity. -/
structure CallStack where
  frames : List Frame
  limit : Option Nat
  nextId : Nat

namespace CallStack

/-- A stack without frames. -/
def empty (limit : Option Nat) : CallStack :=
  { frames := [], limit, nextId := 0 }

/-- An identity that was never given out before. -/
def allocate (stack : CallStack) : FrameId × CallStack :=
  (⟨stack.nextId⟩, { stack with nextId := stack.nextId + 1 })

/-- The number of live frames. -/
def depth (stack : CallStack) : Nat :=
  stack.frames.length

/-- Push a frame, unless the limit is reached. -/
def push (stack : CallStack) (frame : Frame) : Except ErrorCause CallStack :=
  match stack.limit with
  | some limit =>
    if limit ≤ stack.depth then .error (.stackOverflow limit)
    else .ok { stack with frames := frame :: stack.frames }
  | none => .ok { stack with frames := frame :: stack.frames }

/-- Remove the innermost frame. -/
def pop (stack : CallStack) : CallStack :=
  { stack with frames := stack.frames.tail }

/-- The innermost frame. -/
def current? (stack : CallStack) : Option Frame :=
  stack.frames.head?

/-- Change the innermost frame, if there is one. -/
def modifyCurrent (stack : CallStack) (f : Frame → Frame) : CallStack :=
  match stack.frames with
  | [] => stack
  | frame :: rest => { stack with frames := f frame :: rest }

/-- Note that a loop begins in the innermost frame. -/
def beginLoop (stack : CallStack) : CallStack :=
  stack.modifyCurrent fun frame => { frame with loopDepth := frame.loopDepth + 1 }

/-- Note that a loop of the innermost frame is over. -/
def endLoop (stack : CallStack) : CallStack :=
  stack.modifyCurrent fun frame => { frame with loopDepth := frame.loopDepth - 1 }

/-- Whether the frame with this identity is still on the stack. -/
def isLive (stack : CallStack) (id : FrameId) : Bool :=
  stack.frames.any (·.id == id)

/-- The labels of the live frames, innermost first. -/
def capture (names : NameTable) (stack : CallStack) : Backtrace :=
  ⟨stack.frames.map (·.label names)⟩

end CallStack

end ScriptSemantics
