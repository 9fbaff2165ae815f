import ScriptSemantics.Task

/-!
# Work

What is left to do of a computation: nothing, because it has ended, or a task whose ending decides
how it goes on.

## Main Definitions

* `Work` — the rest of a computation
* `Work.andThen` — go on with the ending of some work
* `Work.run` — do the work, given how tasks are performed
-/

namespace ScriptSemantics

/-- The rest of a computation. -/
inductive Work (α : Type)
  /-- It has ended. -/
  | done (ending : Ending α) (machine : Machine)
  /-- It does not end within its fuel. -/
  | stuck
  /-- A task has to be performed first. -/
  | ask (task : Task) (machine : Machine) (resume : Ending Value → Machine → Work α)

namespace Work

variable {α β : Type}

/-- Go on with the ending of some work and the machine that it leaves. -/
def andThen : Work α → (Ending α → Machine → Work β) → Work β
  | done ending machine, next => next ending machine
  | stuck, _ => stuck
  | ask task machine resume, next =>
    ask task machine fun ending machine => (resume ending machine).andThen next

/-- Do the work, performing its tasks one after the other. -/
def run (perform : Task → Eval Value) : Work α → Option (Ending α × Machine)
  | done ending machine => some (ending, machine)
  | stuck => none
  | ask task machine resume =>
    match perform task machine with
    | some (ending, machine) => run perform (resume ending machine)
    | none => none

@[simp]
theorem done_andThen (ending : Ending α) (m : Machine) (next : Ending α → Machine → Work β) :
    (done ending m).andThen next = next ending m := rfl

@[simp]
theorem stuck_andThen (next : Ending α → Machine → Work β) :
    (stuck : Work α).andThen next = stuck := rfl

@[simp]
theorem ask_andThen (task : Task) (m : Machine) (resume : Ending Value → Machine → Work α)
    (next : Ending α → Machine → Work β) :
    (ask task m resume).andThen next =
      ask task m fun ending m => (resume ending m).andThen next := rfl

end Work

end ScriptSemantics
