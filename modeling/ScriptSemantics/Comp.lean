import ScriptSemantics.Work

/-!
# Computations

A computation reads and changes the machine, has tasks performed, and ends in a value or an exit.
It may also have no end.

## Main Definitions

* `Comp` — computations
* `Comp.perform`, `Comp.eval`, `Comp.store` — have a task performed, have a node evaluated, have a
  local stored
* `Comp.exit`, `Comp.fail` — end in an exit, end in an error
* `Comp.attempt`, `Comp.settle` — turn an end into data and back
* `Comp.mapEnding` — change how a computation ends
* `Comp.bracket` — change the machine around a computation, whatever its end
* `Comp.inTransparentScope`, `Comp.inFrame` — run a computation inside a scope or an activation
-/

namespace ScriptSemantics

/-- A computation on the machine. -/
def Comp (α : Type) : Type :=
  Machine → Work α

namespace Comp

variable {α β : Type}

/-- End in a value. -/
@[inline]
protected def pure (a : α) : Comp α :=
  fun machine => .done (.ok a) machine

/-- Go on with the value of a computation; its exits end the whole. -/
@[inline]
protected def bind (x : Comp α) (f : α → Comp β) : Comp β := fun machine =>
  (x machine).andThen fun
    | .ok a, machine => f a machine
    | .error e, machine => .done (.error e) machine

instance : Monad Comp where
  pure := Comp.pure
  bind := Comp.bind

/-- Have a task performed and end as it ends. -/
def perform (task : Task) : Comp Value :=
  fun machine => .ask task machine .done

/-- Have a node evaluated in the current activation. -/
def eval (id : NodeId) : Comp Value :=
  perform (.node id)

/-- Have a local stored; the value is that of the local. -/
def store (site : NodeId) (name : Name) (value : Value) : Comp Value :=
  perform (.store site name value)

/-- No end within the fuel. -/
def outOfFuel : Comp α :=
  fun _ => .stuck

/-- End as given. -/
@[inline]
def settle (ending : Ending α) : Comp α :=
  fun machine => .done ending machine

/-- End in an exit. -/
@[inline]
def exit (e : Exit) : Comp α :=
  settle (.error e)

/-- End in an error. -/
@[inline]
def fail (cause : ErrorCause) : Comp α :=
  exit (.error { cause })

/-- End as a pure operation does. -/
@[inline]
def ofExcept : Except ErrorCause α → Comp α
  | .ok a => Comp.pure a
  | .error cause => fail cause

/-- Read something of the machine. -/
@[inline]
def gets (f : Machine → α) : Comp α :=
  fun machine => .done (.ok (f machine)) machine

/-- Read the machine. -/
@[inline]
def machine : Comp Machine :=
  gets fun machine => machine

theorem gets_bind (f : Machine → α) (k : α → Comp β) (m : Machine) :
    (gets f >>= k) m = k (f m) m := rfl

/-- Change the machine and yield a value. -/
@[inline]
def modifyGet (f : Machine → α × Machine) : Comp α := fun machine =>
  let (a, machine) := f machine
  .done (.ok a) machine

/-- Change the machine. -/
@[inline]
def modify (f : Machine → Machine) : Comp Unit :=
  fun machine => .done (.ok ()) (f machine)

/-- How a computation ends, as data. -/
@[inline]
def attempt (x : Comp α) : Comp (Ending α) := fun machine =>
  (x machine).andThen fun ending machine => .done (.ok ending) machine

/-- Change how a computation ends; the machine that it leaves may be looked at. -/
@[inline]
def mapEnding (f : Machine → Ending α → Ending β) (x : Comp α) : Comp β := fun machine =>
  (x machine).andThen fun ending machine => .done (f machine ending) machine

/-- Change the machine before and after a computation, however it ends. -/
@[inline]
def bracket (before after : Machine → Machine) (x : Comp α) : Comp α := fun machine =>
  (x (before machine)).andThen fun ending machine => .done ending (after machine)

/-! ### Scopes and frames -/

/-- Take a fresh frame identity. -/
def allocateFrame : Comp FrameId :=
  modifyGet Machine.allocateFrame

/-- Run a computation inside a transparent scope. -/
@[inline]
def inTransparentScope (x : Comp α) : Comp α :=
  bracket (·.mapEnv Environment.enterTransparent) (·.mapEnv Environment.leave) x

/-- Run a computation inside a new frame and its owning scope.  Above the depth limit the frame is
refused and nothing is run. -/
@[inline]
def withFrame (frame : Frame) (parent : Option ScopeId) (x : Comp α) : Comp α := fun machine =>
  match machine.calls.push frame with
  | .error cause => fail cause machine
  | .ok calls => bracket (·.activate calls parent) Machine.deactivate x machine

/-- Record the live frames in an error that does not carry any yet. -/
def recordFrames (names : NameTable) (machine : Machine) : Ending α → Ending α
  | .error (.error error) => .error (.error (error.withBacktrace (machine.calls.capture names)))
  | ending => ending

/-- Run a computation inside a new frame.  Errors that leave it carry the frames live inside. -/
@[inline]
def inFrame (names : NameTable) (frame : Frame) (parent : Option ScopeId) (x : Comp α) : Comp α :=
  withFrame frame parent (mapEnding (recordFrames names) x)

end Comp

end ScriptSemantics
