import ScriptSemantics.Evaluation.Node

/-!
# Renaming frame identities

The identity of an activation matters only in comparison with other identities.  What is addressed
to an activation stays addressed to it when identities are renamed, as long as the ones that can
occur keep apart.

## Main Definitions

* `FrameRenaming` — new identities, different ones for the identities that can occur
* `Frame.rename`, `Closure.rename`, `Exit.rename`, `Task.rename` — what carries identities
* `FrameRenaming.Respects` — a function on endings commutes with the renaming

## Main Results

* `FrameRenaming.isLive_eq` — the same activations are live
* `FrameRenaming.respects_catchReturn`, `FrameRenaming.respects_catchBreak` — activations absorb the
  same exits
-/

namespace ScriptSemantics

/-- A renaming of frame identities. -/
structure FrameRenaming where
  /-- The new identity. -/
  new : FrameId → FrameId
  /-- The identities that can occur. -/
  Occurs : FrameId → Prop
  injective : ∀ {a b}, Occurs a → Occurs b → new a = new b → a = b

/-- A frame with its identities renamed. -/
def Frame.rename (ρ : FrameRenaming) (frame : Frame) : Frame :=
  { frame with
    id := ρ.new frame.id
    home := frame.home.map ρ.new
    breakTag := frame.breakTag.map ρ.new }

/-- The identities in a frame can occur. -/
structure Frame.Proper (ρ : FrameRenaming) (frame : Frame) : Prop where
  id : ρ.Occurs frame.id
  home : ∀ id ∈ frame.home, ρ.Occurs id
  breakTag : ∀ id ∈ frame.breakTag, ρ.Occurs id

/-- A closure with its identities renamed. -/
def Closure.rename (ρ : FrameRenaming) (closure : Closure) : Closure :=
  { closure with
    home := closure.home.map ρ.new
    breakTag := closure.breakTag.map ρ.new }

/-- The identities in a closure can occur. -/
structure Closure.Proper (ρ : FrameRenaming) (closure : Closure) : Prop where
  home : ∀ id ∈ closure.home, ρ.Occurs id
  breakTag : ∀ id ∈ closure.breakTag, ρ.Occurs id

/-- An exit with its addressee renamed. -/
def Exit.rename (ρ : FrameRenaming) : Exit → Exit
  | returnTo target value => returnTo (ρ.new target) value
  | breakTo (.frame target) value => breakTo (.frame (ρ.new target)) value
  | other => other

/-- The addressee of an exit can occur. -/
def Exit.Proper (ρ : FrameRenaming) : Exit → Prop
  | returnTo target _ | breakTo (.frame target) _ => ρ.Occurs target
  | _ => True

namespace Ending

variable {α : Type}

/-- An ending with the addressee of its exit renamed. -/
def rename (ρ : FrameRenaming) : Ending α → Ending α
  | .ok a => .ok a
  | .error e => .error (e.rename ρ)

/-- The addressee of the exit, if any, can occur. -/
def Proper (ρ : FrameRenaming) : Ending α → Prop
  | .ok _ => True
  | .error e => e.Proper ρ

end Ending

namespace Task

/-- A task with the identity of its activation renamed. -/
def rename (ρ : FrameRenaming) : Task → Task
  | method callee id given block => method callee (ρ.new id) given block
  | closure proc id given block => closure proc (ρ.new id) given block
  | loop block id => loop block (ρ.new id)
  | other => other

/-- The task is no program, and the identity of its activation can occur. -/
def Proper (ρ : FrameRenaming) : Task → Prop
  | node _ | store .. => True
  | program .. => False
  | method _ id _ _ | closure _ id _ _ | loop _ id => ρ.Occurs id

end Task

/-- A step of a loop with the addressee of its exit renamed. -/
def Comp.LoopStep.rename (ρ : FrameRenaming) : LoopStep → LoopStep
  | leave exit => leave (exit.rename ρ)
  | other => other

/-- The addressee of the exit with which a loop is left, if any, can occur. -/
def Comp.LoopStep.Proper (ρ : FrameRenaming) : LoopStep → Prop
  | leave exit => exit.Proper ρ
  | _ => True

variable {ρ : FrameRenaming}

/-! ### Frames and closures -/

namespace Frame

variable {frame : Frame}

/-- A renumbered frame addresses the renumbered target. -/
theorem returnTarget_rename : (frame.rename ρ).returnTarget = frame.returnTarget.map ρ.new := by
  rw [returnTarget, returnTarget, rename]
  cases frame.kind <;> rfl

theorem homeForLiterals_rename :
    (frame.rename ρ).homeForLiterals = frame.homeForLiterals.map ρ.new := by
  rw [homeForLiterals, homeForLiterals, rename]
  cases frame.kind <;> rfl

/-- The target of a return occurs. -/
theorem Proper.returnTarget (h : frame.Proper ρ) : ∀ id ∈ frame.returnTarget, ρ.Occurs id := by
  intro id hid
  rw [Frame.returnTarget] at hid
  cases hkind : frame.kind <;> rw [hkind] at hid
  case block => exact h.home id hid
  case builtin => cases hid
  all_goals
    cases hid
    exact h.id

/-- The home that a frame passes to literals occurs. -/
theorem Proper.homeForLiterals (h : frame.Proper ρ) :
    ∀ id ∈ frame.homeForLiterals, ρ.Occurs id := by
  intro id hid
  rw [Frame.homeForLiterals] at hid
  cases hkind : frame.kind <;> rw [hkind] at hid
  case block => exact h.home id hid
  case top | builtin => cases hid
  all_goals
    cases hid
    exact h.id

end Frame

theorem Comp.closureFrame_rename (closure : Closure) (id : FrameId) :
    Comp.closureFrame (closure.rename ρ) (ρ.new id) = (Comp.closureFrame closure id).rename ρ := by
  rw [Comp.closureFrame, Comp.closureFrame, Closure.rename]
  cases closure.isLambda <;> rfl

/-- The frame of a closure has identities that occur. -/
theorem Closure.Proper.frame {closure : Closure} (h : closure.Proper ρ) {id : FrameId}
    (hid : ρ.Occurs id) : (Comp.closureFrame closure id).Proper ρ := by
  rw [Comp.closureFrame]
  split
  · exact ⟨hid, by simp, by simp⟩
  · exact ⟨hid, h.home, h.breakTag⟩

namespace FrameRenaming

/-- Identities that occur stay apart. -/
theorem new_eq_iff (ρ : FrameRenaming) {a b : FrameId} (ha : ρ.Occurs a) (hb : ρ.Occurs b) :
    ρ.new a = ρ.new b ↔ a = b :=
  ⟨ρ.injective ha hb, congrArg ρ.new⟩

/-- The same activations are live. -/
theorem isLive_eq {stack stack' : CallStack} (frames : stack'.frames = stack.frames.map (·.rename ρ))
    (proper : ∀ frame ∈ stack.frames, frame.Proper ρ) {id : FrameId} (hid : ρ.Occurs id) :
    stack'.isLive (ρ.new id) = stack.isLive id := by
  rw [Bool.eq_iff_iff, CallStack.isLive, CallStack.isLive, frames, List.any_map, List.any_eq_true,
    List.any_eq_true]
  have same : ∀ frame ∈ stack.frames, (ρ.new frame.id == ρ.new id) = true ↔
      (frame.id == id) = true := fun frame hframe => by
    rw [beq_iff_eq, beq_iff_eq, ρ.new_eq_iff (proper frame hframe).id hid]
  exact exists_congr fun frame => and_congr_right fun hframe => same frame hframe

/-! ### Endings -/

/-- Two functions on endings agree up to the renaming. -/
def Respects (ρ : FrameRenaming) {α β : Type} (f f' : Ending α → Ending β) : Prop :=
  ∀ ending, ending.Proper ρ → f' (ending.rename ρ) = (f ending).rename ρ ∧ (f ending).Proper ρ

/-- Ways to end that respect a renumbering may be combined. -/
theorem Respects.comp {α β γ : Type} {f f' : Ending α → Ending β} {g g' : Ending β → Ending γ}
    (hg : ρ.Respects g g') (hf : ρ.Respects f f') :
    ρ.Respects (fun ending => g (f ending)) fun ending => g' (f' ending) := by
  intro ending proper
  obtain ⟨heq, hproper⟩ := hf ending proper
  change g' (f' (ending.rename ρ)) = (g (f ending)).rename ρ ∧ (g (f ending)).Proper ρ
  rw [heq]
  exact hg _ hproper

/-- Returns are caught by the renumbered activation. -/
theorem respects_catchReturn {id : FrameId} (hid : ρ.Occurs id) :
    ρ.Respects (Comp.catchReturn id) (Comp.catchReturn (ρ.new id)) := by
  intro ending proper
  rcases ending with e | value
  · cases e with
    | returnTo target value =>
      simp only [Comp.catchReturn, Ending.rename, Exit.rename, ρ.new_eq_iff proper hid]
      split
      · exact ⟨rfl, trivial⟩
      · exact ⟨rfl, proper⟩
    | breakTo target value => cases target <;> exact ⟨rfl, proper⟩
    | _ => exact ⟨rfl, proper⟩
  · exact ⟨rfl, trivial⟩

/-- Breaks are caught by the renumbered activation. -/
theorem respects_catchBreak {id : FrameId} (hid : ρ.Occurs id) :
    ρ.Respects (Comp.catchBreak id) (Comp.catchBreak (ρ.new id)) := by
  intro ending proper
  rcases ending with e | value
  · cases e with
    | breakTo target value =>
      cases target with
      | loop => exact ⟨rfl, trivial⟩
      | frame target =>
        simp only [Comp.catchBreak, Ending.rename, Exit.rename, ρ.new_eq_iff proper hid]
        split
        · exact ⟨rfl, trivial⟩
        · exact ⟨rfl, proper⟩
    | _ => exact ⟨rfl, proper⟩
  · exact ⟨rfl, trivial⟩

theorem respects_catchClosure {closure : Closure} {id : FrameId} (hid : ρ.Occurs id) :
    ρ.Respects (Comp.catchClosure closure id) (Comp.catchClosure (closure.rename ρ) (ρ.new id)) := by
  intro ending proper
  have outer := respects_catchBreak hid
  rw [Comp.catchClosure, Comp.catchClosure]
  change Comp.catchBreak _ (if closure.isLambda then _ else _) = _ ∧ _
  split
  · exact outer.comp (respects_catchReturn hid) ending proper
  · exact outer ending proper

theorem respects_topEnding {id : FrameId} (hid : ρ.Occurs id) :
    ρ.Respects (Comp.topEnding id) (Comp.topEnding (ρ.new id)) := by
  intro ending proper
  obtain ⟨heq, -⟩ := respects_catchReturn hid ending proper
  rw [Comp.topEnding, Comp.topEnding, heq]
  cases Comp.catchReturn id ending with
  | ok value => exact ⟨rfl, trivial⟩
  | error exit =>
    refine ⟨?_, trivial⟩
    cases exit with
    | breakTo target value => cases target <;> rfl
    | _ => rfl

/-- Frames are recorded by their names, which are not renumbered. -/
theorem respects_recordFrames (names : NameTable) {m m' : Machine}
    (frames : m'.calls.frames = m.calls.frames.map (·.rename ρ)) {α : Type} :
    ρ.Respects (Comp.recordFrames names m : Ending α → _) (Comp.recordFrames names m') := by
  intro ending proper
  have same : m'.calls.capture names = m.calls.capture names := by
    rw [CallStack.capture, CallStack.capture, frames, List.map_map]
    rfl
  rcases ending with e | value
  · cases e with
    | error error =>
      refine ⟨?_, trivial⟩
      simp only [Comp.recordFrames, Ending.rename, Exit.rename, same]
    | breakTo target value => cases target <;> exact ⟨rfl, proper⟩
    | _ => exact ⟨rfl, proper⟩
  · exact ⟨rfl, trivial⟩

end FrameRenaming

/-! ### Loops -/

namespace Comp.LoopStep

/-- What follows the test of a loop does not depend on identities. -/
theorem afterTest_rename (kind : LoopKind) {ending : Ending Value} (proper : ending.Proper ρ) :
    afterTest kind (ending.rename ρ) = (afterTest kind ending).rename ρ ∧
      (afterTest kind ending).Proper ρ := by
  rcases ending with e | value
  · cases e with
    | breakTo target value => cases target <;> exact ⟨rfl, proper⟩
    | _ => exact ⟨rfl, proper⟩
  · simp only [afterTest, Ending.rename]
    split <;> exact ⟨rfl, trivial⟩

/-- What follows the body of a loop does not depend on identities. -/
theorem afterBody_rename {ending : Ending Value} (proper : ending.Proper ρ) :
    afterBody (ending.rename ρ) = (afterBody ending).rename ρ ∧ (afterBody ending).Proper ρ := by
  rcases ending with e | value
  · cases e with
    | breakTo target value => cases target <;> exact ⟨rfl, proper⟩
    | _ => exact ⟨rfl, proper⟩
  · exact ⟨rfl, trivial⟩

end Comp.LoopStep

/-! ### Values -/

/-- How values are shown does not depend on frame identities. -/
theorem Comp.raiseMessage_congr (names : NameTable) (table table' : ClosureTable)
    (same : ∀ id, (table'.get? id).any (·.isLambda) = (table.get? id).any (·.isLambda))
    (value : Value) : Comp.raiseMessage names table' value = Comp.raiseMessage names table value := by
  have inspect : ∀ value : Value, value.inspect names table' = value.inspect names table := by
    intro value
    induction value using Value.rec
      (motive_2 := fun items =>
        Value.inspectItems names table' items = Value.inspectItems names table items)
      (motive_3 := fun entries =>
        Value.inspectEntries names table' entries = Value.inspectEntries names table entries)
      (motive_4 := fun pair => pair.2.inspect names table' = pair.2.inspect names table) with
    | proc id => simp only [Value.inspect, Value.inspectProc, same]
    | _ => simp_all [Value.inspect, Value.inspectItems, Value.inspectEntries]
  cases value <;> first | rfl | exact inspect _

end ScriptSemantics
