import ScriptSemantics.Proofs.CompRuns

/-!
# When splats are expanded

A call expands each splat before it evaluates the next argument, and a sequence literal evaluates
all its elements before it expands the first splat.  The two orders can be told apart only by a
splat that has no sequence form.

## Main Definitions

* `Comp.sequence` — the elements of a sequence literal, expanded
* `Comp.Interrupted` — where the arguments of a call come to a splat that has no sequence form

## Main Results

* `Comp.run_args_of_smooth` — without such a splat, both orders give the same values or exit
* `Program.splats_expand_alike` — the two orders agree up to such a splat, and after it the literal
  goes on with its other elements
-/

namespace ScriptSemantics

/-- An element of a sequence literal as an argument of a call. -/
def Elem.toArg : Elem → Arg
  | plain expr => .positional expr
  | splat expr => .splat expr

/-- An element of a sequence literal with its value. -/
def Elem.item : Elem → Value → SequenceItem
  | plain _ => .plain
  | splat _ => .spread

/-- Add values after the positional arguments. -/
def CallArgs.append (args : CallArgs) (values : List Value) : CallArgs :=
  { args with positional := args.positional ++ values }

theorem CallArgs.append_append (args : CallArgs) (xs ys : List Value) :
    (args.append xs).append ys = args.append (xs ++ ys) := by
  simp [append]

@[simp]
theorem CallArgs.append_nil (args : CallArgs) : args.append [] = args := by
  simp [append]

namespace Comp

variable {perform : Task → Eval Value} {m m₁ m' : Machine} {elem : Elem}
  {elems rest : List Elem} {value : Value} {front : List Value} {cause : ErrorCause}

/-- The elements of a sequence literal: all are evaluated before the first splat is expanded. -/
def sequence (elems : List Elem) : Comp (List Value) := do
  let parts ← items elems
  ofExcept (SequenceItem.build parts)

/-! ### One element -/

theorem items_cons (elem : Elem) (rest : List Elem) :
    items (elem :: rest) = do
      let value ← eval elem.expr
      let tail ← items rest
      return elem.item value :: tail := by
  cases elem <;> rfl

theorem args_cons (soFar : CallArgs) (elem : Elem) (list : List Arg) :
    args soFar (elem.toArg :: list) = (do
      let value ← eval elem.expr
      let front ← ofExcept (elem.item value).elements
      args (soFar.append front) list) := by
  cases elem with
  | plain expr => rfl
  | splat expr =>
    refine congrArg (eval expr >>= ·) (funext fun value => ?_)
    change (ofExcept (soFar.pushSpread value) >>= _) = (ofExcept value.toSequence >>= _)
    rw [CallArgs.pushSpread]
    cases value.toSequence <;> rfl

theorem run_sequence (elems : List Elem) (m : Machine) :
    (sequence elems m).run perform = ((items elems m).run perform).map fun result =>
      (result.1.bind fun parts => Ending.ofExcept (SequenceItem.build parts), result.2) := by
  rw [sequence, run_bind]
  cases (items elems m).run perform with
  | none => rfl
  | some result =>
    obtain ⟨_ | parts, m'⟩ := result
    · rfl
    · change (ofExcept (SequenceItem.build parts) m').run perform = _
      rw [ofExcept_eq]
      rfl

/-- The elements after one that has a value. -/
theorem run_items_cons (hvalue : perform (.node elem.expr) m = some (.ok value, m₁)) :
    (items (elem :: rest) m).run perform = ((items rest m₁).run perform).map fun result =>
      (result.1.map (elem.item value :: ·), result.2) := by
  rw [items_cons, run_bind, run_eval, hvalue]
  change ((items rest >>= fun tail => pure (elem.item value :: tail)) m₁).run perform = _
  rw [run_bind]
  cases (items rest m₁).run perform with
  | none => rfl
  | some result => obtain ⟨_ | _, _⟩ := result <;> rfl

/-- The arguments after one that has a value. -/
theorem run_args_cons (soFar : CallArgs) (list : List Arg)
    (hvalue : perform (.node elem.expr) m = some (.ok value, m₁)) :
    (args soFar (elem.toArg :: list) m).run perform =
      continued perform (fun front => args (soFar.append front) list)
        (Ending.ofExcept (elem.item value).elements, m₁) := by
  rw [args_cons, run_bind, run_eval, hvalue]
  change ((ofExcept _ >>= _) m₁).run perform = _
  rw [run_bind, ofExcept_eq]
  rfl

/-- The elements after one that has a value and, if it is a splat, a sequence form. -/
theorem run_sequence_cons (hvalue : perform (.node elem.expr) m = some (.ok value, m₁))
    (hfront : (elem.item value).elements = .ok front) :
    (sequence (elem :: rest) m).run perform = ((sequence rest m₁).run perform).map fun result =>
      (result.1.map (front ++ ·), result.2) := by
  rw [run_sequence, run_sequence, run_items_cons hvalue, Option.map_map, Option.map_map]
  refine congrArg (Option.map · _) (funext fun result => ?_)
  obtain ⟨_ | parts, m'⟩ := result
  · rfl
  · refine congrArg (·, m') ?_
    change Ending.ofExcept (SequenceItem.build (elem.item value :: parts)) = _
    rw [SequenceItem.build, hfront]
    change _ = (Ending.ofExcept (SequenceItem.build parts)).map _
    cases SequenceItem.build parts <;> rfl

/-- An element that ends in an exit, or in nothing, ends the literal and the arguments. -/
theorem run_args_cons_of_no_value
    (hvalue : ∀ value m₁, perform (.node elem.expr) m ≠ some (.ok value, m₁))
    (soFar : CallArgs) (list : List Arg) :
    (args soFar (elem.toArg :: list) m).run perform =
      ((sequence (elem :: rest) m).run perform).map fun result =>
        (result.1.map soFar.append, result.2) := by
  rw [run_sequence, args_cons, items_cons, run_bind, run_bind, run_eval]
  rcases hrun : perform (.node elem.expr) m with _ | ⟨_ | value, m₁⟩
  · rfl
  · rfl
  · exact absurd hrun (hvalue value m₁)

/-! ### A splat without a sequence form -/

/-- The arguments of a call come to a splat that has no sequence form: the elements that are left
after it, why it has none, and the machine then. -/
inductive Interrupted (perform : Task → Eval Value) :
    List Elem → Machine → List Elem → ErrorCause → Machine → Prop
  | here {elem : Elem} {rest : List Elem} {m m' : Machine} {value : Value} {cause : ErrorCause}
    (hvalue : perform (.node elem.expr) m = some (.ok value, m'))
    (hfails : (elem.item value).elements = .error cause) :
    Interrupted perform (elem :: rest) m rest cause m'
  | later {elem : Elem} {elems rest : List Elem} {m m₁ m' : Machine} {value : Value}
    {front : List Value} {cause : ErrorCause}
    (hvalue : perform (.node elem.expr) m = some (.ok value, m₁))
    (hfront : (elem.item value).elements = .ok front)
    (later : Interrupted perform elems m₁ rest cause m') :
    Interrupted perform (elem :: elems) m rest cause m'

/-- The call ends there. -/
theorem Interrupted.run_args (h : Interrupted perform elems m rest cause m') (soFar : CallArgs) :
    (args soFar (elems.map Elem.toArg) m).run perform = some (.error (.error { cause }), m') := by
  induction h generalizing soFar with
  | here hvalue hfails =>
    rw [List.map_cons, run_args_cons soFar _ hvalue, hfails]
    rfl
  | later hvalue hfront _ ih =>
    rw [List.map_cons, run_args_cons soFar _ hvalue, hfront]
    exact ih _

/-- The literal goes on with the elements that are left, and then fails for the same cause. -/
theorem Interrupted.run_sequence (h : Interrupted perform elems m rest cause m') :
    (sequence elems m).run perform = ((items rest m').run perform).map fun result =>
      (result.1.bind fun _ => .error (.error { cause }), result.2) := by
  induction h with
  | @here elem rest m m' value cause hvalue hfails =>
    rw [Comp.run_sequence, run_items_cons hvalue, Option.map_map]
    refine congrArg (Option.map · _) (funext fun result => ?_)
    obtain ⟨_ | parts, m'⟩ := result
    · rfl
    · refine congrArg (·, m') ?_
      change Ending.ofExcept (SequenceItem.build (elem.item value :: parts)) = _
      rw [SequenceItem.build, hfails]
      rfl
  | later hvalue hfront _ ih =>
    rw [run_sequence_cons hvalue hfront, ih, Option.map_map]
    refine congrArg (Option.map · _) (funext fun result => ?_)
    obtain ⟨_ | _, _⟩ := result <;> rfl

/-- Without such a splat, the arguments of a call are the elements of the literal. -/
theorem run_args_of_smooth (soFar : CallArgs)
    (smooth : ∀ rest cause m', ¬ Interrupted perform elems m rest cause m') :
    (args soFar (elems.map Elem.toArg) m).run perform =
      ((sequence elems m).run perform).map fun result =>
        (result.1.map soFar.append, result.2) := by
  induction elems generalizing soFar m with
  | nil =>
    rw [run_sequence]
    change some (Except.ok soFar, m) = some (.ok (soFar.append []), m)
    rw [CallArgs.append_nil]
  | cons elem rest ih =>
    by_cases hvalue : ∃ value m₁, perform (.node elem.expr) m = some (.ok value, m₁)
    · obtain ⟨value, m₁, hvalue⟩ := hvalue
      cases hfront : (elem.item value).elements with
      | error cause => exact absurd (.here hvalue hfront) (smooth rest cause m₁)
      | ok front =>
        have smooth' : ∀ rest' cause m', ¬ Interrupted perform rest m₁ rest' cause m' :=
          fun rest' cause m' h => smooth rest' cause m' (.later hvalue hfront h)
        rw [List.map_cons, run_args_cons soFar _ hvalue, hfront, run_sequence_cons hvalue hfront,
          Option.map_map]
        refine (ih (soFar.append front) smooth').trans ?_
        refine congrArg (Option.map · _) (funext fun result => ?_)
        obtain ⟨_ | values, m'⟩ := result
        · rfl
        · exact congrArg (Except.ok ·, m') (soFar.append_append front values)
    · exact run_args_cons_of_no_value
        (fun value m₁ h => hvalue ⟨value, m₁, h⟩) soFar _

end Comp

namespace Program

open ScriptSemantics.Comp

/-- Call arguments and the elements of a sequence literal agree, with the same values or the same
exit and the same machine, unless a splat before the last element has no sequence form.  At such a
splat the call fails, and the literal goes on: it ends in an exit of the elements that are left, or
fails after them for the cause that the call failed for. -/
theorem splats_expand_alike (program : Program) (fuel : Nat) (elems : List Elem) (m : Machine) :
    ((∀ rest cause m', Interrupted (program.perform fuel) elems m rest cause m' → rest = []) →
      (args {} (elems.map Elem.toArg) m).run (program.perform fuel) =
        ((sequence elems m).run (program.perform fuel)).map fun result =>
          (result.1.map fun values => { positional := values }, result.2)) ∧
    ∀ rest cause m', Interrupted (program.perform fuel) elems m rest cause m' →
      (args {} (elems.map Elem.toArg) m).run (program.perform fuel) =
        some (.error (.error { cause }), m') ∧
      (sequence elems m).run (program.perform fuel) =
        ((items rest m').run (program.perform fuel)).map fun result =>
          (result.1.bind fun _ => .error (.error { cause }), result.2) := by
  refine ⟨fun last => ?_, fun rest cause m' h => ⟨h.run_args {}, h.run_sequence⟩⟩
  by_cases h : ∃ rest cause m', Interrupted (program.perform fuel) elems m rest cause m'
  · -- Nothing is left after the splat, so the literal fails in the same machine.
    obtain ⟨rest, cause, m', h⟩ := h
    obtain rfl := last rest cause m' h
    rw [h.run_args {}, h.run_sequence]
    rfl
  · exact run_args_of_smooth {} fun rest cause m' hsplat => h ⟨rest, cause, m', hsplat⟩

/-- A host object whose conversion to an array gives no array. -/
def unlistable : Value :=
  .object ⟨0⟩ "Unlistable" [.int 1] (some .firstElement)

/-- The nodes `o` and `x = 5`, where `o` and `x` are the first two names that are not reserved. -/
def splattedOperands : Program where
  names := .initial
  nodes := ⟨#[.ident ⟨34⟩, .int 5, .assign ⟨35⟩ [.plain ⟨1⟩]]⟩

/-- The locals `o`, which no splat can expand, and `x`, which is nil. -/
def splattedLocals : Machine :=
  .initial .unlimited [(⟨34⟩, unlistable), (⟨35⟩, .nil)]

/-- A splat that fails as the last element fails in both orders alike, and one that fails as the
first element lets only the literal go on. -/
theorem splats_expand_alike_last :
    (args {} [.positional ⟨2⟩, .splat ⟨0⟩] splattedLocals).run (splattedOperands.perform 3) =
      ((sequence [.plain ⟨2⟩, .splat ⟨0⟩] splattedLocals).run (splattedOperands.perform 3)).map
        (fun result => (result.1.map fun values => { positional := values }, result.2)) ∧
    ∃ cause, (sequence [.splat ⟨0⟩, .plain ⟨2⟩] splattedLocals).run (splattedOperands.perform 3) =
      ((items [.plain ⟨2⟩] splattedLocals).run (splattedOperands.perform 3)).map
        fun result => (result.1.bind fun _ => .error (.error { cause }), result.2) := by
  constructor
  · refine (splats_expand_alike splattedOperands 3 [.plain ⟨2⟩, .splat ⟨0⟩] splattedLocals).1 ?_
    rintro rest cause m' (⟨_, hfails⟩ | ⟨_, _, ⟨_, _⟩ | ⟨_, _, later⟩⟩)
    · cases hfails
    · rfl
    · cases later
  · exact ⟨_, ((splats_expand_alike splattedOperands 3 [.splat ⟨0⟩, .plain ⟨2⟩] splattedLocals).2
      [.plain ⟨2⟩] _ splattedLocals (.here rfl rfl)).2⟩

/-- The call `m(*o, x = 5)` fails before `x` is assigned, and the array `[*o, x = 5]` fails for the
same cause, but after it. -/
theorem splat_expands_late :
    ∃ error m₁ m₂,
      (args {} [.splat ⟨0⟩, .positional ⟨2⟩] splattedLocals).run (splattedOperands.perform 3) =
        some (.error error, m₁) ∧
      (sequence [.splat ⟨0⟩, .plain ⟨2⟩] splattedLocals).run (splattedOperands.perform 3) =
        some (.error error, m₂) ∧
      m₁.env.lookup ⟨35⟩ = some .nil ∧ m₂.env.lookup ⟨35⟩ = some (.int 5) :=
  ⟨_, _, _, rfl, rfl, rfl, rfl⟩

end Program

end ScriptSemantics
