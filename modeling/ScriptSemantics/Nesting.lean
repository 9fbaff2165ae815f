/-!
# Nested steps

The steps of an evaluation nest as deep as the program does, and each of them takes up some of the
native stack.  A step first makes sure of enough room: where less than the red zone is left, it goes
on in a new segment of the stack.

## Main Definitions

* `ensureSufficientStack` — the room of a step, given the room that is left
* `nestedSteps` — start a chain of steps and count them

## Main Results

* `nestedStepsFrom_eq` — steps that fit into the red zone nest as deep as one likes
-/

namespace ScriptSemantics

/-- The room that is kept available, in bytes. -/
def redZone : Nat :=
  100 * 1024

/-- The room of a new segment, in bytes. -/
def segmentSize : Nat :=
  1024 * 1024

/-- The room of a step, given the room that is left. -/
def ensureSufficientStack (room : Nat) : Nat :=
  if room < redZone then segmentSize else room

/-- Start the remaining steps of a chain, given the size of a step, the room that is left and how
many steps have been started.  A step without enough room overflows the stack, and no other
follows. -/
def nestedStepsFrom (size room started : Nat) : Nat → Nat
  | 0 => started
  | remaining + 1 =>
    let room := ensureSufficientStack room
    if room < size then started else nestedStepsFrom size (room - size) (started + 1) remaining

/-- The number of steps that a chain of the given length starts, each as large as the red zone. -/
def nestedSteps (length : Nat) : Nat :=
  nestedStepsFrom redZone 0 0 length

theorem redZone_le_ensureSufficientStack (room : Nat) : redZone ≤ ensureSufficientStack room := by
  unfold ensureSufficientStack
  split
  · decide
  · omega

/-- Steps that fit into the red zone never overflow the stack, however many there are. -/
theorem nestedStepsFrom_eq {size : Nat} (fits : size ≤ redZone) (room started remaining : Nat) :
    nestedStepsFrom size room started remaining = started + remaining := by
  induction remaining generalizing room started with
  | zero => rfl
  | succ remaining ih =>
    have enough : ¬ ensureSufficientStack room < size :=
      Nat.not_lt.mpr (Nat.le_trans fits (redZone_le_ensureSufficientStack room))
    rw [nestedStepsFrom, if_neg enough, ih]
    omega

/-- A chain of any length comes to its end. -/
theorem nestedSteps_eq (length : Nat) : nestedSteps length = length := by
  rw [nestedSteps, nestedStepsFrom_eq (Nat.le_refl redZone), Nat.zero_add]

end ScriptSemantics
