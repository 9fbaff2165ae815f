import ScriptSemantics.Proofs.LexicalFrames
import ScriptSemantics.Proofs.Reads
import ScriptSemantics.Proofs.TrackedSessions

/-!
# Calls of the block of a method

`yield` runs the block of the method around it, and so does a call of the parameter that the block
was bound to.  The call takes its frame identity before the arguments are evaluated and `yield`
takes it afterwards.  So the activations that the arguments begin have other numbers, and this is
all that can be different.

## Main Definitions

* `Naming.late`, `Naming.rotated` — the numbers of activations when one was taken earlier
* `Machine.SameSince` — two results that differ in the numbers of activations only

## Main Results

* `Program.rel_yield_callValue` — `yield` and the call end in the same way
* `Program.yield_calls_the_block` — so they do wherever they stand in the code of a method
-/

namespace ScriptSemantics

/-! ### Numbers of activations -/

namespace Naming

/-- Activations have other numbers, all else keeps its name. -/
def ofFrames (f : Nat → Nat) (injective : ∀ i j, f i = f j → i = j) : Naming where
  node := id
  proc := id
  frame id := ⟨f id.index⟩
  aligned := True
  inStep := True
  proc_injective h := h
  frame_injective h := congrArg FrameId.mk (injective _ _ (congrArg FrameId.index h))

/-- Every activation from a number on comes later by one. -/
def late (n : Nat) : Naming :=
  ofFrames (fun i => if i < n then i else i + 1) fun i j h => by
    split at h <;> split at h <;> omega

/-- The last one of some activations in a row comes before the others. -/
def rotated (first last : Nat) (h : first ≤ last) : Naming :=
  ofFrames (fun i => if i < first ∨ last < i then i else if i < last then i + 1 else first)
    fun i j h => by split at h <;> split at h <;> (try split at h) <;> (try split at h) <;> omega

theorem rotated_last {first last : Nat} (h : first ≤ last) :
    (rotated first last h).frame ⟨last⟩ = ⟨first⟩ := by
  refine congrArg FrameId.mk ?_
  dsimp only
  split
  · omega
  · exact if_neg (Nat.lt_irrefl _)

end Naming

/-- Two results are the same but for the numbers of activations that were begun since. -/
def Machine.SameSince (m : Machine) (result result' : Ending Value × Machine) : Prop :=
  ∃ σ : Naming, σ.node = id ∧ σ.proc = id ∧
    (∀ id : FrameId, id.index < m.calls.nextId → σ.frame id = id) ∧
    result'.1 = under σ result.1 ∧ result'.2.env = result.2.env ∧ result.2.SameUnder σ result'.2

namespace Machine

variable {m m₁ m₁' : Machine} {n : Nat}

theorem allows_late (m : Machine) : (Naming.same.outlook m).Allows (.late m.calls.nextId) :=
  ⟨rfl, rfl, rfl, fun _ _ => rfl, fun _ hid => congrArg FrameId.mk (if_pos hid)⟩

theorem allows_rotated (hn : n ≤ m₁.calls.nextId) :
    ((Naming.late n).outlook m₁).Allows (.rotated n m₁.calls.nextId hn) := by
  refine ⟨rfl, rfl, rfl, fun _ _ => rfl, fun id hid => congrArg FrameId.mk ?_⟩
  change id.index < m₁.calls.nextId at hid
  dsimp only
  split <;> split <;> omega

/-- A machine on which everything was given out before may take an identity earlier. -/
theorem Corresponds.late (settled : m.Corresponds .same m) :
    m.Corresponds (.late m.calls.nextId) m.allocateFrame.2 := by
  refine settled.extend m.allows_late (Nat.le_refl _) (Nat.le_refl _) settled.procs (fun k => ?_)
    (fun _ _ kept => kept) fun _ _ old => .inl old
  refine congrArg FrameId.mk ((if_neg (Nat.not_lt.mpr (Nat.le_add_right _ _))).trans ?_)
  exact Nat.add_right_comm _ _ _

/-- The identity that was taken earlier has the number of the one that is taken now. -/
theorem Corresponds.rotated (h : m₁.Corresponds (.late n) m₁') (hn : n ≤ m₁.calls.nextId) :
    m₁.allocateFrame.2.Corresponds (.rotated n m₁.calls.nextId hn) m₁' := by
  have next : m₁'.calls.nextId = m₁.calls.nextId + 1 :=
    (congrArg FrameId.index (h.ids 0)).symm.trans (if_neg (Nat.not_lt.mpr hn))
  refine h.extend (allows_rotated hn) (Nat.le_refl _) (Nat.le_succ _) h.procs
    (fun k => congrArg FrameId.mk ?_) (fun _ _ kept => kept) fun _ _ old => .inl old
  dsimp only
  rw [if_pos (by omega), next]

/-- Results that are the same up to names are the same but for the numbers of later activations. -/
theorem Corresponds.sameSince {σ : Naming} {ending ending' : Ending Value}
    (h : m₁.Corresponds σ m₁') (hnode : σ.node = id) (hproc : σ.proc = id)
    (hframe : ∀ id : FrameId, id.index < m.calls.nextId → σ.frame id = id)
    (alike : (σ.outlook m₁).Alike ending ending') : m.SameSince (ending, m₁) (ending', m₁') := by
  refine ⟨σ, hnode, hproc, hframe, alike.eq.symm, ?_, h.sameUnder (σ.outlook m₁).allows_naming⟩
  exact h.env.eq.symm.trans (m₁.env.under_eq_self hproc)

end Machine

/-- A frame keeps the block that was passed to the innermost method around its scope. -/
theorem Ledger.Ready.block?_eq {g : Ledger} {m : Machine} (h : g.Ready m) :
    m.block? = g.block m.env.store m.env.current := by
  obtain ⟨frame, rest, hframes, -, hblock⟩ := h.layers.current h.accurate.founded
  rw [Machine.block?, Machine.frame?, CallStack.current?, hframes]
  exact hblock

theorem Value.eq_proc_of_same {value : Value} {id : ProcId} (h : value.same (.proc id) = true) :
    value = .proc id := by
  cases value with
  | proc other => rw [beq_iff_eq.mp h]
  | _ => cases h

/-! ### Both calls -/

namespace Program

variable {program : Program} {yielding calling callee : NodeId} {name : Name} {argList : List Arg}
  {block : ProcId} {m : Machine}

/-- A `yield` is the evaluation of its arguments and a run of the block. -/
theorem perform_yield (hnode : program.nodes.node? yielding = some (.yield argList))
    (hblock : m.block? = some block) (fuel : Nat) :
    program.perform (fuel + 1) (.node yielding) m =
      ((Comp.args {} argList m).run (program.perform fuel)).bind
        (Comp.continued (program.perform fuel) fun given =>
          Comp.allocateFrame >>= fun id => Comp.perform (.closure block id given none)) := by
  rw [perform, Task.work, hnode]
  change (Comp.yield argList m).run _ = _
  rw [Comp.yield, Comp.gets_bind, hblock]
  exact Comp.run_bind _ _ m

/-- So is a call of what a local holds, which takes its identity first. -/
theorem perform_callValue (hnode : program.nodes.node? calling = some (.callValue callee argList none))
    (hcallee : program.nodes.node? callee = some (.ident name))
    (holds : m.read? callee name = some (.proc block)) (fuel : Nat) :
    program.perform (fuel + 2) (.node calling) m =
      ((Comp.args {} argList m.allocateFrame.2).run (program.perform (fuel + 1))).bind
        (Comp.continued (program.perform (fuel + 1)) fun given =>
          Comp.perform (.closure block m.allocateFrame.1 given none)) := by
  rw [perform, Task.work, hnode]
  change (Comp.callValue program callee argList none m).run _ = _
  rw [Comp.callValue, Comp.run_bind, Comp.run_eval, perform_bound_read hcallee holds]
  exact Comp.run_bind (Comp.args {} argList)
    (fun given => Comp.perform (.closure block m.allocateFrame.1 given none)) m.allocateFrame.2

/-- Without fuel for its operands, no call ends. -/
theorem run_args_eq_none {f : CallArgs → Comp Value}
    (hf : ∀ given m, (f given m).run (fun _ _ => none) = none) :
    ((Comp.args {} argList m).run fun _ _ => none).bind (Comp.continued (fun _ _ => none) f) =
      none := by
  cases argList with
  | nil => exact hf {} m
  | cons arg rest => cases arg <;> rw [Comp.args, Comp.run_bind, Comp.run_eval] <;> rfl

theorem perform_yield_one (hnode : program.nodes.node? yielding = some (.yield argList))
    (hblock : m.block? = some block) : program.perform 1 (.node yielding) m = none :=
  (perform_yield hnode hblock 0).trans (run_args_eq_none fun _ _ => rfl)

theorem perform_callValue_one
    (hnode : program.nodes.node? calling = some (.callValue callee argList none)) :
    program.perform 1 (.node calling) m = none := by
  rw [perform, Task.work, hnode]
  change (Comp.callValue program callee argList none m).run _ = _
  rw [Comp.callValue, Comp.run_bind, Comp.run_eval]
  rfl

/-- The block is run in the same way, by the activation that was taken first and by the last one. -/
theorem rel_perform_block (program : Program) (settled : m.Corresponds .same m)
    (hblock : m.block? = some block)
    {m₁ m₁' : Machine} {given given' : CallArgs}
    (narrows : ((Naming.late m.calls.nextId).outlook m₁).Narrows
      ((Naming.late m.calls.nextId).outlook m))
    (corresponds : m₁.Corresponds (.late m.calls.nextId) m₁')
    (alike : ((Naming.late m.calls.nextId).outlook m₁).Alike given given') (fuel : Nat) :
    Option.Rel m.SameSince
      (program.perform fuel (.closure block m₁.allocateFrame.1 given none) m₁.allocateFrame.2)
      (program.perform fuel (.closure block m.allocateFrame.1 given' none) m₁') := by
  have hn : m.calls.nextId ≤ m₁.calls.nextId := narrows.frames
  -- the activation that was taken first has the number of the one taken last
  have tasks : ((Naming.rotated m.calls.nextId m₁.calls.nextId hn).outlook m₁.allocateFrame.2).Alike
      (Task.closure block m₁.allocateFrame.1 given none)
      (.closure block m.allocateFrame.1 given' none) := by
    intro ρ hρ
    have hlate := (Machine.allows_rotated hn).imp (Nat.le_refl _) (Nat.le_succ _) hρ
    have hsame := m.allows_late.imp (Nat.le_refl _) (Nat.le_refl _) (narrows.imp ρ hlate)
    have blocks := settled.block? ρ hsame
    rw [hblock] at blocks
    have taken : ρ.frame m₁.allocateFrame.1 = m.allocateFrame.1 :=
      (hρ.frame m₁.allocateFrame.1 (Nat.lt_succ_self _)).trans (Naming.rotated_last hn)
    rw [← alike ρ hlate, ← taken]
    exact congrArg (Task.closure · _ _ _) (Option.some.inj blocks)
  have like : (Naming.rotated _ _ hn).Like .same := ⟨rfl, rfl, rfl⟩
  have run := program.parallels_self.perform fuel like (corresponds.rotated hn) tasks nofun
  generalize program.perform fuel (.closure block m₁.allocateFrame.1 given none) _ = result at run ⊢
  generalize program.perform fuel (.closure block m.allocateFrame.1 given' none) m₁' = result' at run ⊢
  cases run with
  | stopped => exact .none
  | parted parts => exact (parts.elim fun _ _ _ => trivial).elim
  | @ended σ₂ ending ending' m₂ m₂' narrows₂ corresponds₂ alike₂ =>
    obtain rfl : σ₂ = .rotated _ _ hn := narrows₂.naming_eq trivial trivial
    exact .some (corresponds₂.sameSince rfl rfl
      (fun _ hid => congrArg FrameId.mk (if_pos (.inl hid))) alike₂)

/-- `yield` and a call of the block end in the same way where a local holds the block. -/
theorem rel_yield_callValue (settled : m.Corresponds .same m)
    (hyielding : program.nodes.node? yielding = some (.yield argList))
    (hcalling : program.nodes.node? calling = some (.callValue callee argList none))
    (hcallee : program.nodes.node? callee = some (.ident name)) (hblock : m.block? = some block)
    (holds : m.read? callee name = some (.proc block)) (fuel : Nat) :
    Option.Rel m.SameSince (program.perform fuel (.node yielding) m)
      (program.perform fuel (.node calling) m) := by
  match fuel with
  | 0 => exact .none
  | 1 =>
    rw [perform_yield_one hyielding hblock, perform_callValue_one hcalling]
    exact .none
  | fuel + 2 =>
    rw [perform_yield hyielding hblock, perform_callValue hcalling hcallee holds]
    have tracked : ((Naming.late m.calls.nextId).outlook m).Tracks (Comp.args {} argList)
        (Comp.args {} argList) :=
      Outlook.logic.args_same _ argList fun _ _ => rfl
    have arguments := tracked.run_self settled.late ⟨rfl, rfl, rfl⟩ program (fuel + 1)
    generalize (Comp.args {} argList m).run (program.perform (fuel + 1)) = result at arguments ⊢
    generalize (Comp.args {} argList m.allocateFrame.2).run (program.perform (fuel + 1)) = result'
      at arguments ⊢
    cases arguments with
    | stopped => exact .none
    | parted parts => exact (parts.elim fun _ _ _ => trivial).elim
    | @ended σ₁ ending ending' m₁ m₁' narrows corresponds alike =>
      -- while the arguments are evaluated, both machines take identities at the same moments
      obtain rfl : σ₁ = .late m.calls.nextId := narrows.naming_eq trivial trivial
      obtain rfl := alike.eq
      cases ending with
      | error e =>
        exact .some (corresponds.sameSince rfl rfl (fun _ hid => congrArg FrameId.mk (if_pos hid))
          fun τ hτ => congrArg Except.error (Except.error.inj (alike τ hτ)))
      | ok given =>
        change Option.Rel _
          ((Comp.perform (.closure block m₁.allocateFrame.1 given none) m₁.allocateFrame.2).run _)
          ((Comp.perform (.closure block m.allocateFrame.1 _ none) m₁').run _)
        rw [Comp.run_perform, Comp.run_perform]
        exact program.rel_perform_block settled hblock narrows corresponds
          (fun τ hτ => Except.ok.inj (alike τ hτ)) (fuel + 1)

/-- In the code of a method that was given a block, or in blocks and lambdas that are written there,
`yield` and a call of the block end in the same way, wherever a local still holds the block. -/
theorem yield_calls_the_block (program : Program) (fuel : Nat) (roots : List NodeId)
    (policy : DepthPolicy) (locals : List (Name × Value))
    (noProcs : ∀ pair ∈ locals, pair.2.procs = []) {i : Nat} {id : NodeId}
    (hevent : (program.session fuel roots (.initial policy locals))[i]? = some (.enter (.node id) m))
    (given : (Ledger.of ((program.session fuel roots (.initial policy locals)).take i)).block
      m.env.store m.env.current = some block)
    (hcallee : program.nodes.node? callee = some (.ident name))
    (holds : m.read? callee name = some (.proc block))
    (hyielding : program.nodes.node? yielding = some (.yield argList))
    (hcalling : program.nodes.node? calling = some (.callValue callee argList none)) (fuel' : Nat) :
    Option.Rel m.SameSince (program.perform fuel' (.node yielding) m)
      (program.perform fuel' (.node calling) m) := by
  have admits := Ledger.admits_session program fuel (Ledger.idle_initial policy locals) roots
  have ready : Ledger.Ready (.of ((program.session fuel roots (.initial policy locals)).take i)) m :=
    admits.allows hevent
  have settled := program.settled_of_mem_session noProcs (List.mem_of_getElem? hevent)
  exact rel_yield_callValue settled hyielding hcalling hcallee (ready.block?_eq.trans given) holds fuel'

/-- The program `def m(&b); loop { yield 1; b.(1) }; end; m { |x| break x }`. -/
def breakingBlock : Program where
  names := .initial
  nodes := ⟨#[.int 1, .yield [.positional ⟨0⟩], .ident ⟨35⟩, .callValue ⟨2⟩ [.positional ⟨0⟩] none,
    .seq [⟨1⟩, ⟨3⟩], .block [] ⟨4⟩, .call .loop [] (some (.literal ⟨5⟩)),
    .define ⟨34⟩ [⟨⟨35⟩, .block⟩] ⟨6⟩, .ident ⟨36⟩, .breakWith (some ⟨8⟩),
    .block [⟨⟨36⟩, .required⟩] ⟨9⟩, .call ⟨34⟩ [] (some (.literal ⟨10⟩)), .seq [⟨7⟩, ⟨11⟩]]⟩

/-- Inside of the loop in the method, `yield 1` and `b.(1)` both break out of the call of the
method, which is the activation 1. -/
theorem breakingBlock_yields : ∃ m,
    (breakingBlock.session 12 [⟨12⟩] (.initial .unlimited []))[10]? =
      some (.enter (.node ⟨1⟩) m) ∧
    m.frame?.map (·.kind) = some .block ∧
    Option.Rel m.SameSince (breakingBlock.perform 6 (.node ⟨1⟩) m)
      (breakingBlock.perform 6 (.node ⟨3⟩) m) ∧
    ∃ e value m', breakingBlock.perform 6 (.node ⟨1⟩) m = some (.error e, m') ∧
      Comp.catchBreak ⟨1⟩ (.error e) = .ok value := by
  have run : ∃ event ∈ (breakingBlock.session 12 [⟨12⟩] (.initial .unlimited []))[10]?,
      ∃ m ∈ event.entered? ⟨1⟩, m.frame?.map (·.kind) = some .block ∧
        (Ledger.of ((breakingBlock.session 12 [⟨12⟩] (.initial .unlimited [])).take 10)).block
          m.env.store m.env.current = some ⟨0⟩ ∧
        (∃ value ∈ m.read? ⟨2⟩ ⟨35⟩, value.same (.proc ⟨0⟩) = true) ∧
        ∃ result ∈ breakingBlock.perform 6 (.node ⟨1⟩) m, result.1.toOption.isNone = true ∧
          (Comp.catchBreak ⟨1⟩ result.1).toOption.isSome = true := by decide +kernel
  obtain ⟨event, hevent, m, hentered, hkind, given, ⟨value, hvalue, hsame⟩, ⟨ending, m'⟩, hperform,
    herror, hcaught⟩ := run
  obtain rfl := Event.eq_of_entered? hentered
  have holds : m.read? ⟨2⟩ ⟨35⟩ = some (.proc ⟨0⟩) := Value.eq_proc_of_same hsame ▸ hvalue
  have same : Option.Rel m.SameSince (breakingBlock.perform 6 (.node ⟨1⟩) m)
      (breakingBlock.perform 6 (.node ⟨3⟩) m) :=
    breakingBlock.yield_calls_the_block 12 [⟨12⟩] .unlimited [] (List.forall_mem_nil _) hevent given
      rfl holds rfl rfl 6
  cases ending with
  | ok => cases herror
  | error e =>
    cases caught : Comp.catchBreak ⟨1⟩ (.error e) with
    | error => rw [caught] at hcaught; cases hcaught
    | ok value => exact ⟨m, hevent, hkind, same, e, value, m', hperform, caught⟩

end Program

end ScriptSemantics
