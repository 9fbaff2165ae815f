import ScriptSemantics.Proofs.Padding
import ScriptSemantics.Proofs.SequenceWalk
import ScriptSemantics.Proofs.StaticSlots

/-!
# The root of a program

To evaluate a program is to evaluate its root on a machine that is made ready for it: with a frame
identity and a frame, with what the resolver has found out, and with the names declared that the
root owns.

## Main Definitions

* `Machine.opened` — the machine on which the root of a program is evaluated
* `CallStack.HasRoom` — the frame of a program is not refused
* `Program.close` — what becomes of the way in which the root ends

## Main Results

* `Program.evaluateWith_opened`, `Program.evaluation_opened` — a program that there is room for is
  evaluated by way of its root
* `Slots.here_opened` — the walk over the first program on a machine stands at its root
* `Slots.binds_top_of_perform` — which locals the first program leaves
-/

namespace ScriptSemantics

/-! ### Programs around their roots -/

/-- The machine on which a program is run: it knows about the locals of the program and has given
out an identity. -/
def Machine.prepared (m : Machine) (resolution : Resolution) : Machine :=
  { m with resolution }.allocateFrame.2

/-- The machine on which the root of a program is evaluated: the frame of the program is on the
stack and the names that its root owns are declared. -/
def Machine.opened (m : Machine) (root : NodeId) (resolution : Resolution) : Machine :=
  { m.prepared resolution with
    calls := { (m.prepared resolution).calls with
      frames := { id := ⟨m.calls.nextId⟩, kind := .top, name := .empty } :: m.calls.frames } }.declareOwned
    root

theorem Machine.opened_env (m : Machine) (root : NodeId) (resolution : Resolution) :
    (m.opened root resolution).env =
      (resolution.ownedNames root).foldl Environment.declare m.env := rfl

theorem Machine.sameShape_opened (m : Machine) (root : NodeId) (resolution : Resolution) :
    m.env.SameShape (m.opened root resolution).env :=
  Environment.sameShape_declareAll _ _

/-- There is room for one more frame. -/
def CallStack.HasRoom (stack : CallStack) : Prop :=
  ∀ limit, stack.limit = some limit → stack.depth < limit

theorem CallStack.push_of_hasRoom {stack : CallStack} (room : stack.HasRoom) (frame : Frame) :
    stack.push frame = .ok { stack with frames := frame :: stack.frames } := by
  rw [push]
  cases hlimit : stack.limit with
  | none => rfl
  | some limit => exact if_neg (Nat.not_le.mpr (room limit hlimit))

theorem CallStack.hasRoom_of_push {stack pushed : CallStack} {frame : Frame}
    (h : stack.push frame = .ok pushed) : stack.HasRoom := by
  intro limit hlimit
  rw [push, hlimit] at h
  dsimp only at h
  split at h
  next => cases h
  next hlt => exact Nat.lt_of_not_le hlt

/-- After its root, a program leaves the room that there was. -/
theorem Machine.Grows.hasRoom_pop {m m' : Machine} {root : NodeId} {res : Resolution}
    (grows : (m.opened root res).Grows m') (room : m.calls.HasRoom) :
    (m'.mapCalls .pop).calls.HasRoom := by
  intro limit hlimit
  have hdepth : (m'.mapCalls .pop).calls.depth = m.calls.depth :=
    congrArg (·.tail.length) grows.frames
  rw [hdepth]
  exact room limit (grows.limit.symm.trans hlimit)

/-- The frame of a program is taken if there is room for it. -/
theorem Machine.push_prepared {m : Machine} {res : Resolution} (room : m.calls.HasRoom) :
    (m.prepared res).calls.push { id := ⟨m.calls.nextId⟩, kind := .top, name := .empty } =
      .ok { (m.prepared res).calls with
        frames := { id := ⟨m.calls.nextId⟩, kind := .top, name := .empty } :: m.calls.frames } := by
  have room' : (m.prepared res).calls.HasRoom := room
  exact CallStack.push_of_hasRoom room' _

namespace Program

variable {program : Program} {fuel : Nat} {root : NodeId} {m m' : Machine} {res : Resolution}

/-- What a program makes of the way in which its root ends. -/
def close (program : Program) (id : FrameId) (result : Ending Value × Machine) :
    Ending Value × Machine :=
  (Comp.recordFrames program.names result.2 (Comp.topEnding id result.1), result.2.mapCalls .pop)

theorem work_program (room : m.calls.HasRoom) :
    (Task.program root ⟨m.calls.nextId⟩).work program fuel (m.prepared res) =
      .ask (.node root) (m.opened root res) fun ending m' =>
        .done (program.close ⟨m.calls.nextId⟩ (ending, m')).1 (m'.mapCalls .pop) := by
  rw [Task.work, Comp.runProgram, Machine.push_prepared room]
  rfl

/-- A program that there is room for is evaluated by evaluating its root. -/
theorem evaluateWith_opened
    (resolved : resolve program.nodes root m.env.topBindings.keys = .ok res)
    (room : m.calls.HasRoom) :
    program.evaluateWith (fuel + 1) root m =
      (program.perform fuel (.node root) (m.opened root res)).map
        (program.close ⟨m.calls.nextId⟩) := by
  rw [evaluateWith, resolved]
  change ((Task.program root ⟨m.calls.nextId⟩).work program fuel (m.prepared res)).run _ = _
  rw [work_program room, Work.run]
  cases program.perform fuel (.node root) (m.opened root res) <;> rfl

/-- The events of an evaluation are those of its root, inside of those of the program. -/
theorem evaluation_opened
    (resolved : resolve program.nodes root m.env.topBindings.keys = .ok res)
    (room : m.calls.HasRoom) :
    program.evaluation (fuel + 1) root m =
      .enter (.program root ⟨m.calls.nextId⟩) (m.prepared res) ::
        (program.record fuel (.node root) (m.opened root res) ++
          departure (.program root ⟨m.calls.nextId⟩)
            ((program.perform fuel (.node root) (m.opened root res)).map
              (program.close ⟨m.calls.nextId⟩))) := by
  rw [evaluation, resolved]
  change program.record (fuel + 1) (.program root ⟨m.calls.nextId⟩) (m.prepared res) = _
  rw [record_succ, work_program room, Work.rest_ask]
  cases program.perform fuel (.node root) (m.opened root res) <;> rfl

/-- The events of the root are events of the evaluation. -/
theorem mem_evaluation_opened
    (resolved : resolve program.nodes root m.env.topBindings.keys = .ok res)
    (room : m.calls.HasRoom) {event : Event}
    (h : event ∈ program.record fuel (.node root) (m.opened root res)) :
    event ∈ program.evaluation (fuel + 1) root m := by
  rw [evaluation_opened resolved room]
  exact List.mem_cons_of_mem _ (List.mem_append_left _ h)

/-- An evaluation that ends in a value had room for its frame. -/
theorem exists_opened {value : Value}
    (h : program.evaluateWith fuel root m = some (.ok value, m')) :
    ∃ below res ending m₁, fuel = below + 1 ∧
      resolve program.nodes root m.env.topBindings.keys = .ok res ∧ m.calls.HasRoom ∧
      program.perform below (.node root) (m.opened root res) = some (ending, m₁) ∧
      program.close ⟨m.calls.nextId⟩ (ending, m₁) = (.ok value, m') := by
  have heval := h
  rw [evaluateWith] at h
  cases resolved : resolve program.nodes root m.env.topBindings.keys with
  | error fault =>
    rw [resolved] at h
    cases h
  | ok res =>
    rw [resolved] at h
    cases fuel with
    | zero => cases h
    | succ below =>
      have room : m.calls.HasRoom := by
        change ((Task.program root ⟨m.calls.nextId⟩).work program below (m.prepared res)).run _ = _
          at h
        rw [Task.work, Comp.runProgram] at h
        cases hpush : (m.prepared res).calls.push
            { id := ⟨m.calls.nextId⟩, kind := .top, name := .empty } with
        | error cause =>
          rw [hpush] at h
          cases h
        | ok calls =>
          have room : (m.prepared res).calls.HasRoom := CallStack.hasRoom_of_push hpush
          exact room
      rw [evaluateWith_opened resolved room] at heval
      obtain ⟨⟨ending, m₁⟩, hperform, hclose⟩ := Option.map_eq_some_iff.mp heval
      exact ⟨below, res, ending, m₁, rfl, rfl, room, hperform, hclose⟩

/-- A program ends in a value when its root does or a `return` is addressed to its frame. -/
theorem of_close_eq_ok {id : FrameId} {ending : Ending Value} {m₁ : Machine} {value : Value}
    (h : program.close id (ending, m₁) = (.ok value, m')) :
    (ending = .ok value ∨ ending = .error (.returnTo id value)) ∧ m' = m₁.mapCalls .pop := by
  obtain ⟨hending, hm⟩ := Prod.mk.inj h
  refine ⟨?_, hm.symm⟩
  rw [Comp.topEnding] at hending
  rcases ending with e | value'
  · cases e with
    | returnTo target value' =>
      rw [Comp.catchReturn] at hending
      split at hending
      next heq =>
        split at heq
        next htarget =>
          cases heq
          cases hending
          exact .inr (by rw [htarget])
        next => cases heq
      next => cases hending
    | breakTo target value' => cases target <;> cases hending
    | _ => cases hending
  · cases hending
    exact .inl rfl

/-- A sequence whose first statement ends in a value ends as its second statement does. -/
theorem perform_sequence {first second whole : NodeId} {value : Value}
    (hwhole : program.nodes.node? whole = some (.seq [first, second]))
    (hfirst : program.perform fuel (.node first) m = some (.ok value, m')) :
    program.perform (fuel + 1) (.node whole) m = program.perform fuel (.node second) m' := by
  rw [perform, Task.work, hwhole]
  change (Work.ask (.node first) m _).run _ = _
  rw [Work.run, hfirst]
  change (Work.ask (.node second) m' _).run _ = _
  rw [Work.run]
  cases program.perform fuel (.node second) m' with
  | none => rfl
  | some result =>
    obtain ⟨ending, m''⟩ := result
    cases ending <;> rfl

end Program
/-! ### The machine of the first program -/

section First

variable {program : Program} {fuel : Nat} {root : NodeId} {g : Ledger} {m m' : Machine}
  {res : Resolution} {policy : DepthPolicy} {locals : List (Name × Value)} {ending : Ending Value}

/-- The ledger of a machine on which the root of a program is evaluated. -/
def Ledger.opened (g : Ledger) (m : Machine) (root : NodeId) (res : Resolution) : Ledger :=
  g.note (.program root ⟨m.calls.nextId⟩) (m.prepared res)

theorem Ledger.Idle.ready_opened (idle : g.Idle m) (room : m.calls.HasRoom) (root : NodeId)
    (res : Resolution) : (g.opened m root res).Ready (m.opened root res) :=
  (Ledger.programLaws ⟨.initial, ⟨#[]⟩⟩).enter (idle.start res) (Machine.push_prepared room)

theorem Ledger.root?_opened (g : Ledger) (m : Machine) (root : NodeId) (res : Resolution) :
    (g.opened m root res).root? (m.opened root res).env.top = some root := by
  rw [(m.sameShape_opened root res).top]
  exact Slots.root?_start

namespace Slots

/-- The walk over the first program stands at its root when this is evaluated. -/
theorem here_opened
    (resolved : resolve program.nodes root (Machine.initial policy locals).env.topBindings.keys =
      .ok res)
    (tree : program.nodes.IsTree root) (hroot : program.nodes.callable? root = none)
    (room : (Machine.initial policy locals).calls.HasRoom) :
    (regimeOf program root (Machine.initial policy locals).env.topBindings.keys res).here
      (Ledger.blank.opened (.initial policy locals) root res) root
      ((Machine.initial policy locals).opened root res) := by
  exact (lawful_regimeOf resolved tree hroot).programs.enter
    ⟨(Ledger.idle_initial policy locals).start res, rfl, fresh_initial resolved tree hroot⟩
    (Machine.push_prepared room)

/-- A program that is a single callable changes no local. -/
theorem env_of_perform_callable (hcallable : (program.nodes.callable? root).isSome = true)
    (hperform : program.perform fuel (.node root) m = some (ending, m')) : m'.env = m.env := by
  cases fuel with
  | zero => cases hperform
  | succ fuel =>
    obtain ⟨callable, hcallable⟩ := Option.isSome_iff_exists.mp hcallable
    obtain ⟨node, hnode, hcode⟩ := Option.bind_eq_some_iff.mp hcallable
    rw [Program.perform, Task.work, hnode] at hperform
    cases node with
    | define | block | lambda =>
      cases hperform
      rfl
    | _ => cases hcode

/-- After the root of the first program, the top-level scope binds the names that the root owns, and
no other name unless it is empty. -/
theorem binds_top_of_perform
    (resolved : resolve program.nodes root (Machine.initial policy locals).env.topBindings.keys =
      .ok res)
    (tree : program.nodes.IsTree root) (room : (Machine.initial policy locals).calls.HasRoom)
    (hperform : program.perform fuel (.node root) ((Machine.initial policy locals).opened root res) =
      some (ending, m')) (name : Name) :
    (name ∈ res.ownedNames root → m'.env.store.binds m'.env.top name = true) ∧
      (name.isEmpty = false → m'.env.store.binds m'.env.top name = true →
        name ∈ res.ownedNames root) := by
  cases hroot : program.nodes.callable? root with
  | none =>
    have here := here_opened resolved tree hroot room
    obtain ⟨⟨hstep, agreement⟩, -⟩ :=
      (lawful_regimeOf resolved tree hroot).kept.post_of_perform (.node root) here hperform
    have howning := hstep.accurate.top
    have htop : m'.env.top = ((Machine.initial policy locals).opened root res).env.top :=
      hstep.grows.top
    have hroot' := Ledger.root?_opened Ledger.blank (.initial policy locals) root res
    refine ⟨agreement.bound _ root howning ?_ name, agreement.owned _ root howning ?_ name⟩
    all_goals
      rw [htop, Ledger.root?, hstep.agree _ (ScopeStore.isOwning_lt here.1.accurate.top)]
      exact hroot'
  | some callable =>
    -- a callable makes a closure or a method, so the locals are those declared before it
    obtain ⟨w, declared, walked⟩ := exists_walked resolved
    have idle := Ledger.idle_initial policy locals
    have same := (Machine.initial policy locals).sameShape_opened root res
    have hcurrent : (Machine.initial policy locals).env.current =
        (Machine.initial policy locals).env.top := by
      rw [Environment.current, idle.entered]
      rfl
    rw [env_of_perform_callable (by rw [hroot]; rfl) hperform, same.top, Machine.opened_env,
      ScopeStore.binds, Environment.binding?_declareAll (hcurrent ▸ idle.accurate.top), hcurrent]
    split
    next h => exact ⟨fun _ => rfl, fun _ _ => h.2.1⟩
    next hnot =>
      refine ⟨fun hname => ?_, fun _ hbinds => ?_⟩
      · rw [Option.isSome_iff_ne_none]
        exact fun hnone => hnot ⟨rfl, hname, hnone⟩
      · rw [walked.top]
        exact walked.kept (Environment.mem_keys_topBindings.mpr hbinds)

end Slots

end First

end ScriptSemantics
