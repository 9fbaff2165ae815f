import ScriptSemantics.Coercion

/-!
# Sequence literals flatten

A sequence literal appends what its items contribute, in their order.  So it may be cut anywhere,
and items that were built before can be spread in their own place.

## Main Definitions

* `Value.converting` — a host object by what its conversion hook gives
* `SequenceItem.FailsFirst` — the leftmost spread without a sequence form, and why it has none

## Main Results

* `SequenceItem.build_append` — a literal is built from its two parts, the left one first
* `SequenceItem.build_eq_error_iff` — a literal fails exactly as its leftmost failing spread
* `SequenceItem.build_is_flattening` — the laws of sequence literals, splats and assigned values

## Design Notes

A conversion hook gives each host object one value, and `Value.converting` shows that this can be
any value at all.  So no literal and no failure is left out.
-/

namespace ScriptSemantics

namespace Value

/-- A host object whose conversion hook gives this value. -/
def converting (id : ObjectId) (className : String) (result : Value) : Value :=
  object id className [result] (some .firstElement)

/-- A host object has the elements of the array that its hook gives, and fails for anything else. -/
theorem toSequence_converting (id : ObjectId) (className : String) (result : Value) :
    (converting id className result).toSequence =
      match result with
      | array items => .ok items
      | other => .error (.coercionFailure className other.typeName) := by
  cases result <;> rfl

end Value

namespace SequenceItem

variable {item : SequenceItem} {items xs ys pre post : List SequenceItem} {value : Value}
  {values front back : List Value} {cause : ErrorCause}

/-- The leftmost spread that has no sequence form fails for this cause. -/
def FailsFirst (items : List SequenceItem) (cause : ErrorCause) : Prop :=
  ∃ before value after, items = before ++ .spread value :: after ∧
    (∀ other, .spread other ∈ before → ∃ values, other.toSequence = .ok values) ∧
    value.toSequence = .error cause

/-! ### Cutting a literal -/

/-- A literal is built from its two parts, the left one first. -/
theorem build_append (xs ys : List SequenceItem) :
    build (xs ++ ys) = do
      let front ← build xs
      let back ← build ys
      return front ++ back := by
  induction xs with
  | nil => exact (bind_pure (build ys)).symm
  | cons item rest ih =>
    rw [List.cons_append, build, build, ih]
    simp only [bind_assoc, pure_bind, List.append_assoc]

theorem build_append_ok (hfront : build xs = .ok front) (hback : build ys = .ok back) :
    build (xs ++ ys) = .ok (front ++ back) := by
  rw [build_append, hfront, hback]
  rfl

/-- A literal that has elements does so in both parts. -/
theorem build_append_eq_ok_iff :
    build (xs ++ ys) = .ok values ↔
      ∃ front back, build xs = .ok front ∧ build ys = .ok back ∧ values = front ++ back := by
  constructor
  · intro h
    rw [build_append] at h
    cases hfront : build xs with
    | error cause => rw [hfront] at h; cases h
    | ok front =>
      cases hback : build ys with
      | error cause => rw [hfront, hback] at h; cases h
      | ok back =>
        rw [hfront, hback] at h
        cases h
        exact ⟨front, back, rfl, rfl, rfl⟩
  · rintro ⟨front, back, hfront, hback, rfl⟩
    exact build_append_ok hfront hback

/-- Parts that contribute the same can be exchanged. -/
theorem build_congr_middle (pre post : List SequenceItem) (same : build xs = build ys) :
    build (pre ++ xs ++ post) = build (pre ++ ys ++ post) := by
  rw [build_append, build_append, build_append, build_append, same]

/-! ### Failing literals -/

/-- Only a spread can fail. -/
theorem elements_eq_error_iff :
    item.elements = .error cause ↔ ∃ value, item = .spread value ∧ value.toSequence = .error cause := by
  cases item with
  | plain value => exact ⟨nofun, nofun⟩
  | spread value => exact ⟨fun h => ⟨value, rfl, h⟩, by rintro ⟨_, ⟨⟩, h⟩; exact h⟩

/-- A literal has elements when all its spreads do. -/
theorem exists_build_eq_ok
    (h : ∀ other, .spread other ∈ items → ∃ values, other.toSequence = .ok values) :
    ∃ values, build items = .ok values := by
  induction items with
  | nil => exact ⟨[], rfl⟩
  | cons item rest ih =>
    obtain ⟨back, hback⟩ := ih fun other hother => h other (List.mem_cons_of_mem _ hother)
    obtain ⟨front, hfront⟩ : ∃ front, item.elements = .ok front := by
      cases item with
      | plain value => exact ⟨[value], rfl⟩
      | spread value => exact h value List.mem_cons_self
    refine ⟨front ++ back, ?_⟩
    rw [build, hfront, hback]
    rfl

/-- A literal fails exactly as its leftmost failing spread. -/
theorem build_eq_error_iff : build items = .error cause ↔ FailsFirst items cause := by
  constructor
  · intro h
    induction items with
    | nil => cases h
    | cons item rest ih =>
      rw [build] at h
      cases hfront : item.elements with
      | error first =>
        rw [hfront] at h
        cases h
        obtain ⟨value, rfl, hvalue⟩ := elements_eq_error_iff.mp hfront
        exact ⟨[], value, rest, rfl, nofun, hvalue⟩
      | ok front =>
        rw [hfront] at h
        have hrest : build rest = .error cause := by
          cases hback : build rest with
          | error later => rw [hback] at h; cases h; rfl
          | ok back => rw [hback] at h; cases h
        obtain ⟨before, value, after, rfl, hbefore, hvalue⟩ := ih hrest
        refine ⟨item :: before, value, after, rfl, fun other hother => ?_, hvalue⟩
        rcases List.mem_cons.mp hother with rfl | hother
        · exact ⟨front, hfront⟩
        · exact hbefore other hother
  · rintro ⟨before, value, after, rfl, hbefore, hvalue⟩
    obtain ⟨front, hfront⟩ := exists_build_eq_ok hbefore
    rw [build_append, hfront, build, elements, hvalue]
    rfl

/-! ### Spreading what was built -/

/-- A literal of one spread has the elements of its value. -/
theorem build_spread (value : Value) : build [.spread value] = value.toSequence := by
  rw [build, elements]
  cases value.toSequence with
  | error cause => rfl
  | ok values => exact congrArg Except.ok (List.append_nil values)

/-- All but a lone plain value is stored as the array of its literal. -/
theorem assigned_of_ne_plain (h : ∀ only, items ≠ [.plain only]) :
    assigned items = (build items).map .array := by
  have arrays : ∀ result : Except ErrorCause (List Value),
      (result >>= fun values => .ok (.array values)) = result.map Value.array := by
    rintro (cause | values) <;> rfl
  unfold assigned
  split
  next only => exact absurd rfl (h only)
  next value =>
    rw [build_spread]
    exact arrays value.toSequence
  next => exact arrays (build items)

/-- Building a literal is a flattening homomorphism: it is built from the literals of single items,
of which a plain value contributes itself and a spread its elements; the elements of two parts are
appended, and a literal fails exactly as its leftmost failing spread, so that this decides the error
when one of two parts does not build; items may be built first and spread in their place; the
elements of a splat are those of their array; and an assignment stores the array of the literal,
save for a lone plain value.  Host objects may be spread whatever their hooks give. -/
theorem build_is_flattening (xs ys pre post : List SequenceItem) (value : Value) :
    (build [] = .ok [] ∧ build [.plain value] = .ok [value] ∧
      build [.spread value] = value.toSequence) ∧
    (∀ front back, build xs = .ok front → build ys = .ok back →
      build (xs ++ ys) = .ok (front ++ back)) ∧
    (∀ cause, build xs = .error cause ↔ FailsFirst xs cause) ∧
    (¬ (∃ front back, build xs = .ok front ∧ build ys = .ok back) →
      ∃ cause, FailsFirst (xs ++ ys) cause ∧ build (xs ++ ys) = .error cause) ∧
    (∀ values, build xs = .ok values →
      build (pre ++ [.spread (.array values)] ++ post) = build (pre ++ xs ++ post)) ∧
    (∀ values, value.toSequence = .ok values → (Value.array values).toSequence = value.toSequence) ∧
    ((∀ only, xs ≠ [.plain only]) → assigned xs = (build xs).map .array) ∧
    ∀ id className, (Value.converting id className value).toSequence =
      match value with
      | .array items => .ok items
      | other => .error (.coercionFailure className other.typeName) := by
  refine ⟨⟨rfl, rfl, build_spread value⟩, fun _ _ => build_append_ok, fun _ => build_eq_error_iff,
    fun fails => ?_, fun values hvalues => ?_, fun values hvalues => hvalues.symm,
    assigned_of_ne_plain, fun id className => ?_⟩
  · cases h : build (xs ++ ys) with
    | error cause => exact ⟨cause, build_eq_error_iff.mp h, rfl⟩
    | ok values =>
      obtain ⟨front, back, hfront, hback, -⟩ := build_append_eq_ok_iff.mp h
      exact absurd ⟨front, back, hfront, hback⟩ fails
  · exact build_congr_middle pre post ((build_spread (.array values)).trans hvalues.symm)
  · exact Value.toSequence_converting id className value

/-- A hash, nil and an object are spread in the left part, and the first of two failing objects of
the right part decides the error. -/
theorem build_is_flattening_mixed :
    let pair : Value := .object ⟨0⟩ "Pair" [.int 3, .nil] (some .payload)
    let xs : List SequenceItem :=
      [.plain (.int 1), .spread (.hash [(.symbol ⟨34⟩, .int 2)]), .spread .nil, .spread pair]
    let ys : List SequenceItem :=
      [.plain .nil, .spread (.converting ⟨1⟩ "Pair" (.int 4)),
        .spread (.converting ⟨2⟩ "Other" .nil)]
    let built : List Value := [.int 1, .array [.symbol ⟨34⟩, .int 2], .int 3, .nil]
    build (xs ++ xs) = .ok (built ++ built) ∧
      build ys = .error (.coercionFailure "Pair" "Integer") ∧
      (∃ cause, FailsFirst (xs ++ ys) cause ∧ build (xs ++ ys) = .error cause) ∧
      build (ys ++ [.spread (.array built)] ++ ys) = build (ys ++ xs ++ ys) ∧
      (Value.array [.int 3, .nil]).toSequence = pair.toSequence ∧
      assigned xs = (build xs).map .array ∧
      assigned [.spread pair] = .ok (.array [.int 3, .nil]) := by
  intro pair xs ys built
  have hbuilt : build xs = .ok built := rfl
  obtain ⟨-, append, -⟩ := build_is_flattening xs xs [] [] .nil
  obtain ⟨-, -, -, fails, wrap, sequence, assign, -⟩ := build_is_flattening xs ys ys ys pair
  obtain ⟨-, -, failing, -⟩ := build_is_flattening ys [] [] [] .nil
  obtain ⟨⟨-, -, spread⟩, -, -, -, -, -, alone, -⟩ :=
    build_is_flattening [.spread pair] [] [] [] pair
  refine ⟨append _ _ hbuilt hbuilt, (failing _).mpr ?_, fails ?_, wrap _ hbuilt, sequence _ rfl,
    assign ?_, ?_⟩
  · refine ⟨[.plain .nil], .converting ⟨1⟩ "Pair" (.int 4), _, rfl, ?_, rfl⟩
    intro other hother
    cases List.mem_singleton.mp hother
  · rintro ⟨_, _, -, hback⟩
    cases hback
  · intro only h
    have length : 4 = 1 := congrArg List.length h
    omega
  · rw [alone (fun only h => by cases h), spread]
    rfl

end SequenceItem

end ScriptSemantics
