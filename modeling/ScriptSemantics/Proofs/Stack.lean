import ScriptSemantics.CallStack

/-!
# The call stack, operation by operation

What each operation on the call stack changes and what it leaves alone.

## Main Results

* `CallStack.push_eq` — a push that is not refused only puts its frame on top
* `CallStack.push_congr` — stacks of the same height and limit take or refuse a frame alike
* `CallStack.isLive_iff` — an identity is live when some frame of the stack has it
-/

namespace ScriptSemantics.CallStack

variable {stack : CallStack} {frame : Frame}

@[simp]
theorem modifyCurrent_nextId (f : Frame → Frame) :
    (stack.modifyCurrent f).nextId = stack.nextId := by
  unfold modifyCurrent
  split <;> rfl

@[simp]
theorem modifyCurrent_limit (f : Frame → Frame) :
    (stack.modifyCurrent f).limit = stack.limit := by
  unfold modifyCurrent
  split <;> rfl

@[simp]
theorem beginLoop_nextId : stack.beginLoop.nextId = stack.nextId :=
  modifyCurrent_nextId _

@[simp]
theorem endLoop_nextId : stack.endLoop.nextId = stack.nextId :=
  modifyCurrent_nextId _

@[simp]
theorem beginLoop_limit : stack.beginLoop.limit = stack.limit :=
  modifyCurrent_limit _

@[simp]
theorem endLoop_limit : stack.endLoop.limit = stack.limit :=
  modifyCurrent_limit _

theorem beginLoop_frames {rest : List Frame} (h : stack.frames = frame :: rest) :
    stack.beginLoop.frames = { frame with loopDepth := frame.loopDepth + 1 } :: rest := by
  simp only [beginLoop, modifyCurrent, h]

/-- The end of a loop changes only how many loops a frame counts. -/
theorem mem_endLoop (h : frame ∈ stack.frames) :
    ∃ depth, { frame with loopDepth := depth } ∈ stack.endLoop.frames := by
  cases hframes : stack.frames with
  | nil => simp [hframes] at h
  | cons first rest =>
    simp only [endLoop, modifyCurrent, hframes]
    rw [hframes] at h
    rcases List.mem_cons.mp h with rfl | h
    · exact ⟨_, List.mem_cons_self⟩
    · exact ⟨frame.loopDepth, List.mem_cons_of_mem _ h⟩

/-- The end of a loop undoes the note of its beginning. -/
theorem endLoop_frames {stack stack' : CallStack}
    (h : stack'.frames = stack.beginLoop.frames) : stack'.endLoop.frames = stack.frames := by
  obtain ⟨frames, limit, nextId⟩ := stack
  obtain ⟨frames', limit', nextId'⟩ := stack'
  cases frames with
  | nil =>
    cases h
    rfl
  | cons frame rest =>
    cases h
    rfl

theorem push_eq {pushed : CallStack} (h : stack.push frame = .ok pushed) :
    pushed = { stack with frames := frame :: stack.frames } := by
  unfold push at h
  split at h
  · split at h <;> cases h
    rfl
  · cases h
    rfl

/-- Two stacks of the same height and limit both take a frame or both refuse it. -/
theorem push_congr {stack stack' : CallStack} (limit : stack'.limit = stack.limit)
    (depth : stack'.depth = stack.depth) (frame frame' : Frame) :
    stack'.push frame' = match stack.push frame with
      | .ok _ => .ok { stack' with frames := frame' :: stack'.frames }
      | .error cause => .error cause := by
  rw [push, push, limit, depth]
  cases stack.limit with
  | none => rfl
  | some limit =>
    dsimp only
    by_cases h : limit ≤ stack.depth
    · rw [if_pos h, if_pos h]
    · rw [if_neg h, if_neg h]

theorem isLive_iff {id : FrameId} :
    stack.isLive id = true ↔ ∃ frame ∈ stack.frames, frame.id = id := by
  simp [isLive]

end ScriptSemantics.CallStack
