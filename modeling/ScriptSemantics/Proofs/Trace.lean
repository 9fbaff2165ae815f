import ScriptSemantics.Interpreter

/-!
# Traces

What happens during a run, in order: each task is entered in some state of the machine and, unless
it does not end within its fuel, left with an ending in some other state.

## Main Definitions

* `Event` — a task is entered or left
* `Program.record` — the events of one task, its own first and last event included
* `Program.evaluation`, `Program.session` — the events of one and of several `evaluate`s

## Design Notes

The events of a task are those of the tasks that its work asks for, one after the other.  A run that
does not end still has events: those up to the point where the fuel is used up.
-/

namespace ScriptSemantics

/-- A moment of a run. -/
inductive Event
  /-- A task is about to be performed on a machine. -/
  | enter (task : Task) (machine : Machine)
  /-- A task has ended and leaves a machine behind. -/
  | leave (task : Task) (ending : Ending Value) (machine : Machine)

/-- The state of the machine at an event. -/
def Event.machine : Event → Machine
  | enter _ machine | leave _ _ machine => machine

/-- The machine on which a node is entered. -/
def Event.entered? (id : NodeId) : Event → Option Machine
  | enter (.node other) machine => if other = id then some machine else none
  | enter (.store ..) _ | enter (.program ..) _ | enter (.method ..) _ | enter (.closure ..) _
  | enter (.loop ..) _ | leave .. => none

theorem Event.eq_of_entered? {id : NodeId} {event : Event} {m : Machine}
    (h : event.entered? id = some m) : event = .enter (.node id) m := by
  cases event with
  | leave => cases h
  | enter task machine =>
    cases task with
    | node other =>
      obtain ⟨rfl, hm⟩ := Option.ite_none_right_eq_some.mp h
      rw [Option.some.inj hm]
    | _ => cases h

namespace Work

variable {α β : Type}

/-- The events of some work, given how tasks end and which events they have. -/
def events (perform : Task → Eval Value) (record : Task → Machine → List Event) :
    Work α → List Event
  | done _ _ => []
  | stuck => []
  | ask task machine resume =>
    record task machine ++
      match perform task machine with
      | some (ending, machine) => events perform record (resume ending machine)
      | none => []

end Work

namespace Program

/-- The last event of a task, if it ends. -/
def departure (task : Task) : Option (Ending Value × Machine) → List Event
  | some (ending, machine) => [.leave task ending machine]
  | none => []

/-- The events of a task. -/
def record (program : Program) : Nat → Task → Machine → List Event
  | 0, task, machine => [.enter task machine]
  | fuel + 1, task, machine =>
    .enter task machine ::
      ((task.work program fuel machine).events (program.perform fuel) (program.record fuel) ++
        departure task (program.perform (fuel + 1) task machine))

/-- The events of one `evaluate`.  A rejected program has none. -/
def evaluation (program : Program) (fuel : Nat) (root : NodeId) (machine : Machine) :
    List Event :=
  match resolve program.nodes root machine.env.topBindings.keys with
  | .error _ => []
  | .ok resolution =>
    let (id, machine) := { machine with resolution }.allocateFrame
    program.record fuel (.program root id) machine

/-- The events of several `evaluate`s on one machine.  One that does not end is the last. -/
def session (program : Program) (fuel : Nat) : List NodeId → Machine → List Event
  | [], _ => []
  | root :: rest, machine =>
    program.evaluation fuel root machine ++
      match program.evaluateWith fuel root machine with
      | some (_, machine) => session program fuel rest machine
      | none => []

end Program

end ScriptSemantics
