import ScriptSemantics.Value

/-!
# Exits

What an evaluation ends in when it does not yield a value: an error, or a non-local exit on its way
to its target.

## Main Definitions

* `BreakTarget` — where a break is headed
* `Exit` — errors and non-local exits
* `Exit.toError` — the error that an exit becomes when nothing caught it
-/

namespace ScriptSemantics

/-- Where a break is headed. -/
inductive BreakTarget
  /-- The innermost loop of the current activation. -/
  | loop
  /-- The activation with this identity. -/
  | frame (id : FrameId)
deriving DecidableEq

/-- How an evaluation ends when it does not yield a value. -/
inductive Exit
  | error (error : EvalError)
  | returnTo (target : FrameId) (value : Value)
  | breakTo (target : BreakTarget) (value : Value)
  | next (value : Value)
  | redo

namespace Exit

/-- Whether this is an error. -/
def isError : Exit → Bool
  | error _ => true
  | _ => false

/-- The kind of a non-local exit; none for an error. -/
def signal? : Exit → Option Signal
  | error _ => none
  | returnTo _ _ => some .return
  | breakTo _ _ => some .break
  | next _ => some .next
  | redo => some .redo

/-- The error that an exit becomes when nothing caught it. -/
def toError : Exit → EvalError
  | error e => e
  | returnTo _ _ => { cause := .invalidControlTransfer .return "unexpected return" }
  | breakTo _ _ => { cause := .invalidControlTransfer .break "break from proc-closure" }
  | next _ => { cause := .invalidControlTransfer .next "unexpected next" }
  | redo => { cause := .invalidControlTransfer .redo "unexpected redo" }

end Exit

end ScriptSemantics
