import ScriptSemantics.Proofs.CompRuns
import ScriptSemantics.Proofs.Reads
import ScriptSemantics.Proofs.SpareNodes
import ScriptSemantics.Proofs.StaticSlots

/-!
# Assignments of an operator's result

`x op= e` is the same as `x = x op e` with a read of `x` of its own.

## Main Definitions

* `SpellsOut` — one program says `x = x op e` where the other one says `x op= e`
* `updated` — how both assignments end after their right side
* `Program.spellOut` — the program that says `x = x op e`, with the additional nodes

## Main Results

* `SpellsOut.perform_opAssign`, `SpellsOut.perform_assign` — both are their right side and an update
* `SpellsOut.resolve_eq` — both are resolved in the same way
* `SpellsOut.forth`, `SpellsOut.back` — both run in the same way where `x` is a local
* `Program.bound_of_enter` — in a program that is a tree, `x` is a local there
* `Program.op_assignment_is_assignment` — the two programs cannot be told apart
-/

namespace ScriptSemantics

/-! ### Walks that agree inside of scope roots -/

namespace WalkStep

variable {step step' : NodeId → WalkStep} {w : Walk} {list : List Move}

/-- Moves that stay inside of a scope root go the same way when the visits do. -/
theorem moves_congr (inner : ∀ move ∈ list, move.IsInner)
    (grows : ∀ id w w', step id w = .ok w' → Walk.Grows [] w w')
    (visits : ∀ id, .visit id ∈ list → ∀ w, w.scopes ≠ [] → step' id w = step id w)
    (hscopes : w.scopes ≠ []) : moves step' list w = moves step list w := by
  induction list generalizing w with
  | nil => rfl
  | cons first rest ih =>
    have hfirst : move step' first w = move step first w := by
      cases first with
      | visit id => exact visits id List.mem_cons_self w hscopes
      | _ => rfl
    rw [moves, moves, hfirst]
    cases hmove : move step first w with
    | error => rfl
    | ok mid =>
      have grown : ∃ params, Walk.Grows params w mid := by
        have inside := inner first List.mem_cons_self
        cases first with
        | param name =>
          refine ⟨[name], grows_move inside (fun other heq => ?_) grows hmove⟩
          cases heq
          exact List.mem_cons_self
        | _ => exact ⟨[], grows_move inside (fun _ heq => Move.noConfusion heq) grows hmove⟩
      obtain ⟨params, grown⟩ := grown
      exact ih (fun move hmem => inner move (List.mem_cons_of_mem _ hmem))
        (fun id hmem => visits id (List.mem_cons_of_mem _ hmem)) (grown.scopes.ne_nil hscopes)

/-- The moves at a node go the same way when the visits of its operands do. -/
theorem moves_node_congr (node : Node) (id : NodeId)
    (grows : ∀ id w w', step id w = .ok w' → Walk.Grows [] w w')
    (visits : ∀ child ∈ node.children, ∀ w, w.scopes ≠ [] → step' child w = step child w)
    (hscopes : w.scopes ≠ []) :
    moves step' (node.moves id) w = moves step (node.moves id) w := by
  have visited : ∀ child, .visit child ∈ node.moves id → ∀ w, w.scopes ≠ [] →
      step' child w = step child w := fun child hmem =>
    visits child ((node.visited_moves_perm id).mem_iff.mp (List.mem_filterMap.mpr ⟨_, hmem, rfl⟩))
  cases hcallable : node.callable? with
  | none =>
    exact moves_congr (fun move hmove => (Node.moves_of_not_callable hcallable id move hmove).1)
      grows visited hscopes
  | some callable =>
    obtain ⟨params, body, sees⟩ := callable
    have inside := fun child => visited child ∘ Node.mem_moves_of_mem_inside hcallable
    rw [Node.moves_of_callable hcallable]
    have hinside : moves step' (Move.inside params body) (w.enter id sees) =
        moves step (Move.inside params body) (w.enter id sees) := by
      exact moves_congr (fun _ => Move.isInner_inside) grows inside (List.cons_ne_nil _ _)
    rw [moves, moves]
    simp only [move]
    cases params.validate with
    | error => rfl
    | ok =>
      change moves step' (Move.inside params body ++ [.leave]) (w.enter id sees) =
        moves step (Move.inside params body ++ [.leave]) (w.enter id sees)
      rw [moves_append_eq, moves_append_eq, hinside]
      rfl

theorem moves_visit (id : NodeId) (w : Walk) : moves step [.visit id] w = step id w := by
  rw [moves]
  change step id w >>= _ = _
  cases step id w <;> rfl

end WalkStep

/-! ### An assignment spelled out -/

/-- The two programs differ in the node `e` only: it is `x op= value` in the first one, and in the
second one `x = x op value`, with the read of `x` at the node `i` and the operator at the node
`b`. -/
structure SpellsOut (program program' : Program) (e i b : NodeId) (x : Name) (op : BinaryOp)
    (value : NodeId) : Prop where
  names : program'.names = program.names
  other : ∀ id, id ≠ e → program'.nodes.node? id = program.nodes.node? id
  opAssign : program.nodes.node? e = some (.opAssign x op value)
  assign : program'.nodes.node? e = some (.assign x [.plain b])
  binary : program'.nodes.node? b = some (.binary op i value)
  ident : program'.nodes.node? i = some (.ident x)
  named : x.isEmpty = false

/-- What a machine is like where `x` is a local and the read of it is not flagged. -/
structure Machine.Holds (m : Machine) (x : Name) (i : NodeId) : Prop where
  bound : (m.env.lookup x).isSome = true
  unflagged : m.resolution.isUnbound i = false

/-- How an assignment of an operator's result ends after its right side. -/
def updated (x : Name) (op : BinaryOp) (present : Value) :
    Ending Value × Machine → Ending Value × Machine
  | (.error e, m) => (.error e, m)
  | (.ok right, m) =>
    match op.eval present right with
    | .ok value => (.ok value, m.mapEnv (·.assignLocal x value))
    -- The local keeps the value that it has after the right side.
    | .error cause => (.error (.error { cause }), m)

namespace SpellsOut

variable {program program' : Program} {e i b value : NodeId} {x : Name} {op : BinaryOp}
  {m : Machine} {fuel fuel' : Nat}

/-! ### Resolution -/

/-- Where the walk is inside of a scope root, it goes the same way. -/
theorem visit_eq (h : SpellsOut program program' e i b x op value)
    (founded : program.nodes.Founded) (founded' : program'.nodes.Founded) (id : NodeId)
    {levels levels' : Nat} (hlevels : id.index < levels) (hlevels' : id.index < levels') {w : Walk}
    (hscopes : w.scopes ≠ []) :
    WalkStep.visit program'.nodes levels' id w = WalkStep.visit program.nodes levels id w := by
  obtain ⟨j, hj⟩ : ∃ j, id.index = j := ⟨_, rfl⟩
  induction j using Nat.strongRecOn generalizing id levels levels' w with
  | _ j ih =>
    obtain ⟨levels, rfl⟩ : ∃ k, levels = k + 1 := ⟨levels - 1, by omega⟩
    obtain ⟨levels', rfl⟩ : ∃ k, levels' = k + 1 := ⟨levels' - 1, by omega⟩
    by_cases hid : id = e
    · subst hid
      have hb := founded' id _ h.assign b List.mem_cons_self
      have hi := founded' b _ h.binary i List.mem_cons_self
      have hvalue := founded' b _ h.binary value (List.mem_cons_of_mem _ List.mem_cons_self)
      obtain ⟨levels', rfl⟩ : ∃ k, levels' = k + 2 := ⟨levels' - 2, by omega⟩
      have grown : Walk.Grows [] w (w.declare x) := .declare w x
      have declared : (w.declare x).scopes ≠ [] := grown.scopes.ne_nil hscopes
      -- the new read comes right after a declaration of its name
      have hread : (w.declare x).read i x = w.declare x := by
        rw [Walk.read, visible_declare w h.named hscopes, Bool.true_or, if_pos rfl]
      have hoperand : WalkStep.visit program'.nodes (levels' + 2) b (w.declare x) =
          WalkStep.visit program'.nodes (levels' + 1) value (w.declare x) := by
        rw [WalkStep.visit_succ h.binary]
        change WalkStep.moves _ [.visit i, .visit value] _ = _
        rw [WalkStep.moves]
        change WalkStep.visit program'.nodes (levels' + 1) i (w.declare x) >>= _ = _
        rw [WalkStep.visit_succ h.ident]
        change WalkStep.moves _ [.visit value] ((w.declare x).read i x) = _
        rw [hread, WalkStep.moves_visit]
      rw [WalkStep.visit_succ h.assign, WalkStep.visit_succ h.opAssign]
      change WalkStep.moves _ [.visit b] (w.declare x) = WalkStep.moves _ [.visit value] (w.declare x)
      rw [WalkStep.moves_visit, WalkStep.moves_visit, hoperand]
      exact ih value.index (by omega) value (by omega) (by omega) declared rfl
    · have hother := h.other id hid
      cases hnode : program.nodes.node? id with
      | none =>
        rw [hnode] at hother
        rw [WalkStep.visit, WalkStep.visit, hnode, hother]
      | some node =>
        rw [hnode] at hother
        rw [WalkStep.visit_succ hother, WalkStep.visit_succ hnode]
        refine WalkStep.moves_node_congr node id (fun _ _ _ => WalkStep.grows_visit) ?_ hscopes
        intro child hchild w hscopes
        have hlt := founded id node hnode child hchild
        exact ih child.index (hj ▸ hlt) child (by omega) (by omega) hscopes rfl

/-- Both programs are resolved in the same way. -/
theorem resolve_eq (h : SpellsOut program program' e i b x op value)
    (founded : program.nodes.Founded) (founded' : program'.nodes.Founded) (root : NodeId)
    (predeclared : List Name) :
    resolve program'.nodes root predeclared = resolve program.nodes root predeclared := by
  have hvisit := h.visit_eq founded founded' root (Nat.lt_succ_self _) (Nat.lt_succ_self _)
    (w := .start root predeclared) (List.cons_ne_nil _ _)
  rw [resolve, resolve, hvisit]

/-! ### The node itself -/

/-- What follows the right side. -/
theorem continued_updated (program : Program) (fuel : Nat) (site : NodeId) (present : Value)
    (result : Ending Value × Machine) :
    Comp.continued (program.perform (fuel + 1))
        (fun right => Comp.ofExcept (op.eval present right) >>= Comp.store site x) result =
      some (updated x op present result) := by
  obtain ⟨exit | right, m⟩ := result
  · rfl
  · rw [Comp.continued, updated]
    cases op.eval present right with
    | error cause => rfl
    | ok value => exact Comp.run_perform _ m

/-- `x op= e` evaluates its right side. -/
theorem perform_opAssign (hnode : program.nodes.node? e = some (.opAssign x op value)) (fuel : Nat)
    (m : Machine) :
    program.perform (fuel + 2) (.node e) m = (program.perform (fuel + 1) (.node value) m).map
      (updated x op ((m.env.lookup x).getD .nil)) := by
  rw [Program.perform, Task.work, hnode]
  change ((Comp.eval value >>= fun right =>
    Comp.ofExcept (op.eval ((m.env.lookup x).getD .nil) right) >>= Comp.store e x) m).run _ = _
  rw [Comp.run_bind, Comp.run_eval]
  cases program.perform (fuel + 1) (.node value) m with
  | none => rfl
  | some result => exact continued_updated program fuel e _ result

/-- The assignment of one plain element stores its value. -/
theorem assign_plain (site : NodeId) (name : Name) (expr : NodeId) :
    Comp.assign site name [.plain expr] = (Comp.eval expr >>= Comp.store site name) := by
  funext m
  show Work.ask _ _ _ = Work.ask _ _ _
  congr 1
  funext ending machine
  cases ending <;> rfl

/-- `x = x op e` evaluates its right side too, where `x` is a local. -/
theorem perform_assign (h : SpellsOut program program' e i b x op value) (fuel : Nat)
    (holds : m.Holds x i) :
    program'.perform (fuel + 3) (.node e) m = (program'.perform (fuel + 1) (.node value) m).map
      (updated x op ((m.env.lookup x).getD .nil)) := by
  obtain ⟨present, hpresent⟩ := Option.isSome_iff_exists.mp holds.bound
  have hread : m.read? i x = some present := by
    rw [Machine.read?, holds.unflagged]
    exact hpresent
  have hoperand : program'.perform (fuel + 2) (.node b) m =
      (program'.perform (fuel + 1) (.node value) m).bind
        (Comp.continued (program'.perform (fuel + 1)) fun right =>
          Comp.ofExcept (op.eval present right)) := by
    rw [Program.perform, Task.work, h.binary]
    change ((Comp.eval i >>= fun left => Comp.eval value >>= fun right =>
      Comp.ofExcept (op.eval left right)) m).run _ = _
    rw [Comp.run_bind, Comp.run_eval, Program.perform_bound_read h.ident hread]
    change ((Comp.eval value >>= fun right => Comp.ofExcept (op.eval present right)) m).run _ = _
    rw [Comp.run_bind, Comp.run_eval]
  rw [Program.perform, Task.work, h.assign, hpresent]
  change (Comp.assign e x [.plain b] m).run _ = _
  rw [assign_plain, Comp.run_bind, Comp.run_eval, hoperand, Option.bind_assoc]
  cases program'.perform (fuel + 1) (.node value) m with
  | none => rfl
  | some result =>
    obtain ⟨exit | right, m₁⟩ := result
    · rfl
    · change (((Comp.ofExcept (op.eval present right)) m₁).run _).bind _ = some (updated x op present _)
      rw [updated]
      cases op.eval present right with
      | error cause => rfl
      | ok value => exact Comp.run_perform _ m₁

/-! ### Runs -/

/-- Neither of the nodes that differ is a block. -/
theorem blockArg_eq (h : SpellsOut program program' e i b x op value) (callId : FrameId)
    (block : Option BlockArg) :
    Comp.blockArg program' callId block = Comp.blockArg program callId block := by
  rcases block with _ | ⟨literal | expr⟩
  · rfl
  · simp only [Comp.blockArg]
    by_cases hliteral : literal = e
    · rw [hliteral, h.assign, h.opAssign]
    · rw [h.other literal hliteral]
  · rfl

theorem node_eq (h : SpellsOut program program' e i b x op value) (fuel : Nat) (id : NodeId)
    (n : Node) : Comp.node program' fuel id n = Comp.node program fuel id n := by
  cases n with
  | call | callValue => simp only [Comp.node, Comp.call, Comp.callValue, h.blockArg_eq, h.names]
  | _ => simp only [Comp.node, h.names]

/-- The work of any other task is the same. -/
theorem work_eq (h : SpellsOut program program' e i b x op value) (fuel : Nat) {task : Task}
    (hne : task ≠ .node e) : task.work program' fuel = task.work program fuel := by
  cases task with
  | node id =>
    have hid : id ≠ e := fun heq => hne (congrArg Task.node heq)
    rw [Task.work, Task.work, h.other id hid]
    cases program.nodes.node? id with
    | none => rfl
    | some n => exact h.node_eq fuel id n
  | store => rfl
  | _ => simp only [Task.work, h.names]

/-- Whenever the node `e` is evaluated in a run, `x` is a local and the read of it is not
flagged. -/
def Along (e i : NodeId) (x : Name) (events : List Event) : Prop :=
  ∀ m, .enter (.node e) m ∈ events → m.Holds x i

theorem Along.mono {events events' : List Event} (along : Along e i x events)
    (sub : events' ⊆ events) : Along e i x events' :=
  fun m hevent => along m (sub hevent)

/-- The events of the tasks that a task asks for are among its own. -/
theorem events_subset_record (program : Program) (fuel : Nat) (task : Task) (m : Machine) :
    (task.work program fuel m).events (program.perform fuel) (program.record fuel) ⊆
      program.record (fuel + 1) task m :=
  fun _ hevent => List.mem_cons_of_mem _ (List.mem_append_left _ hevent)

/-- The right side is evaluated in the run of the assignment. -/
theorem record_value_subset (h : SpellsOut program program' e i b x op value) (fuel : Nat)
    (m : Machine) :
    program.record fuel (.node value) m ⊆ program.record (fuel + 1) (.node e) m := by
  intro event hevent
  refine events_subset_record program fuel (.node e) m ?_
  rw [Task.work, h.opAssign]
  exact Work.record_subset_events hevent

/-- What ends in the first program ends in the same way in the second one, with twice the fuel. -/
theorem forth (h : SpellsOut program program' e i b x op value) {task : Task}
    {result : Ending Value × Machine} (along : Along e i x (program.record fuel task m))
    (hperform : program.perform fuel task m = some result) (hle : 2 * fuel ≤ fuel') :
    program'.perform fuel' task m = some result := by
  induction fuel generalizing fuel' task m result with
  | zero => cases hperform
  | succ fuel ih =>
    by_cases htask : task = .node e
    · subst htask
      cases fuel with
      | zero =>
        -- the right side has no fuel left
        rw [Program.perform, Task.work, h.opAssign] at hperform
        cases hperform
      | succ fuel =>
        obtain ⟨fuel', rfl⟩ : ∃ k, fuel' = k + 3 := ⟨fuel' - 3, by omega⟩
        rw [perform_opAssign h.opAssign, Option.map_eq_some_iff] at hperform
        obtain ⟨inner, hinner, rfl⟩ := hperform
        have holds := along m List.mem_cons_self
        have hle' : 2 * (fuel + 1) ≤ fuel' + 1 := by omega
        rw [h.perform_assign fuel' holds,
          ih (along.mono (h.record_value_subset _ m)) hinner hle']
        rfl
    · obtain ⟨fuel', rfl⟩ : ∃ k, fuel' = k + 1 := ⟨fuel' - 1, by omega⟩
      rw [Program.perform] at hperform ⊢
      rw [h.work_eq fuel' htask]
      refine (task.extends_work program (by omega) m).run_eq_some (program.record fuel)
        (fun task m result sub _ hinner => ?_) hperform
      refine ih (along.mono fun event hevent => ?_) hinner (by omega)
      exact events_subset_record program fuel _ _ (sub hevent)

/-- What ends in the second program ends in the same way in the first one, with the same fuel. -/
theorem back (h : SpellsOut program program' e i b x op value) {task : Task}
    {result : Ending Value × Machine} (along : Along e i x (program.record fuel task m))
    (hperform : program'.perform fuel' task m = some result) (hle : fuel' ≤ fuel) :
    program.perform fuel task m = some result := by
  induction fuel' generalizing fuel task m result with
  | zero => cases hperform
  | succ fuel' ih =>
    obtain ⟨fuel, rfl⟩ : ∃ k, fuel = k + 1 := ⟨fuel - 1, by omega⟩
    by_cases htask : task = .node e
    · subst htask
      have holds := along m List.mem_cons_self
      rcases fuel' with _ | _ | fuel'
      · -- the operator has no fuel left
        rw [Program.perform, Task.work, h.assign] at hperform
        cases hperform
      · rw [Program.perform, Task.work, h.assign] at hperform
        change (Comp.assign e x [.plain b] m).run _ = _ at hperform
        rw [assign_plain, Comp.run_bind, Comp.run_eval, Program.perform, Task.work, h.binary]
          at hperform
        cases hperform
      · obtain ⟨fuel, rfl⟩ : ∃ k, fuel = k + 1 := ⟨fuel - 1, by omega⟩
        rw [h.perform_assign fuel' holds, Option.map_eq_some_iff] at hperform
        obtain ⟨inner, hinner, rfl⟩ := hperform
        have hinner' := program'.perform_mono (Nat.le_succ _) hinner
        rw [perform_opAssign h.opAssign, ih (along.mono (h.record_value_subset _ m)) hinner' (by omega)]
        rfl
    · rw [Program.perform] at hperform ⊢
      rw [h.work_eq fuel' htask] at hperform
      refine (task.extends_work program (by omega) m).run_eq_some (program.record fuel)
        (fun task m result _ sub hinner => ?_) hperform
      refine ih (along.mono fun event hevent => ?_) hinner (by omega)
      exact events_subset_record program fuel _ _ (sub hevent)

/-- The programs end in the same way on a machine where `x` is a local at each evaluation of `e`. -/
theorem runsAlike (h : SpellsOut program program' e i b x op value)
    (founded : program.nodes.Founded) (founded' : program'.nodes.Founded) (root : NodeId)
    (m : Machine) (along : ∀ fuel, Along e i x (program.evaluation fuel root m)) :
    RunsAlike Eq (fun fuel => program.evaluateWith fuel root m)
      (fun fuel => program'.evaluateWith fuel root m) := by
  have hresolve := h.resolve_eq founded founded' root m.env.topBindings.keys
  simp only [Program.evaluation] at along
  simp only [Program.evaluateWith, hresolve]
  cases hresolved : resolve program.nodes root m.env.topBindings.keys with
  | error fault =>
    exact ⟨fun _ _ m₁ hrun _ _ => ⟨m₁, hrun, rfl⟩, fun _ _ m₁ hrun _ _ => ⟨m₁, hrun, rfl⟩⟩
  | ok resolution =>
    rw [hresolved] at along
    exact {
      forth := fun fuel _ m₁ hrun fuel' hle => ⟨m₁, h.forth (along fuel) hrun hle, rfl⟩
      back := fun fuel' _ m₁ hrun fuel hle => ⟨m₁, h.back (along fuel) hrun hle, rfl⟩ }

end SpellsOut

namespace Program

variable {program : Program} {e value : NodeId} {x : Name} {op : BinaryOp}

/-! ### Where the name is a local -/

/-- In a program that is a tree, as the first one on its machine, the name of an assignment of an
operator's result is a local whenever the assignment is evaluated, as the walk declares it there. -/
theorem bound_of_enter {fuel : Nat} {root : NodeId} {policy : DepthPolicy}
    {locals : List (Name × Value)} (tree : program.nodes.IsTree root)
    (hnode : program.nodes.node? e = some (.opAssign x op value)) (hne : x.isEmpty = false)
    {m : Machine} (hevent : .enter (.node e) m ∈ program.evaluation fuel root (.initial policy locals)) :
    (m.env.lookup x).isSome = true ∧
      resolve program.nodes root (Machine.initial policy locals).env.topBindings.keys =
        .ok m.resolution := by
  cases resolved : resolve program.nodes root
      (Machine.initial policy locals).env.topBindings.keys with
  | error fault =>
    rw [evaluation, resolved] at hevent
    cases hevent
  | ok res =>
    cases hcallable : program.nodes.callable? root with
    | some callable =>
      exact absurd (.update hnode) (Slots.not_accesses_of_callable (by rw [hcallable]; rfl) hevent)
    | none =>
      obtain ⟨index, hindex⟩ := List.getElem?_of_mem hevent
      have allows := (Slots.admits_evaluation resolved tree hcallable fuel).allows hindex
      obtain ⟨-, agreement, placed⟩ := allows
      obtain ⟨w, sited, hscopes, faces⟩ := placed.target hnode List.mem_cons_self
      obtain ⟨slot, -, uses, -⟩ := Slots.usesSlot_of_sited agreement sited hscopes faces hne
      have hbound : (m.env.store.binding? slot x).isSome = true := uses.bound
      exact ⟨uses.read ▸ hbound, congrArg Except.ok agreement.resolution.symm⟩

/-! ### The program with the additional nodes -/

/-- The nodes that an assignment needs to be spelled out: the read of the name and the operator. -/
def spelling (e : NodeId) (x : Name) (op : BinaryOp) (value : NodeId) : List Node :=
  [.ident x, .binary op e value]

/-- The program that says `x = x op value` where the program says `x op= value`.  The read and the
operator come right before the assignment. -/
def spellOut (program : Program) (e : NodeId) (x : Name) (op : BinaryOp) (value : NodeId) : Program :=
  let spaced := program.insert e.index (spelling e x op value)
  { spaced with nodes :=
      ⟨spaced.nodes.nodes.setIfInBounds (e.index + 2) (.assign x [.plain ⟨e.index + 1⟩])⟩ }

section SpellOut

variable (founded : program.nodes.Founded)
  (hnode : program.nodes.node? e = some (.opAssign x op value))
include founded hnode

theorem founded_spaced :
    (program.insert e.index (spelling e x op value)).nodes.Founded := by
  have he := Nat.le_of_lt (NodeTable.index_lt_of_node hnode)
  refine NodeTable.founded_insert founded he fun j node hj child hchild => ?_
  have hvalue := founded e _ hnode value List.mem_cons_self
  match j, hj with
  | 0, hj =>
    cases hj
    cases hchild
  | 1, hj =>
    cases hj
    rcases List.mem_pair.mp hchild with rfl | rfl <;> omega

/-- The assignment in its new place. -/
theorem node?_spaced : (program.insert e.index (spelling e x op value)).nodes.node?
    ⟨e.index + 2⟩ = some (.opAssign x op value) := by
  have he := Nat.le_of_lt (NodeTable.index_lt_of_node hnode)
  have hvalue := founded e _ hnode value List.mem_cons_self
  have hplaced := NodeTable.node?_shift he (spelling e x op value) e
  rw [hnode, NodeId.shift_of_le (Nat.le_refl _)] at hplaced
  refine hplaced.trans ?_
  rw [Option.map_some, Node.relabel, NodeId.shift_of_lt hvalue]

theorem spellsOut (hne : x.isEmpty = false) :
    SpellsOut (program.insert e.index (spelling e x op value)) (program.spellOut e x op value)
      ⟨e.index + 2⟩ e ⟨e.index + 1⟩ x op value := by
  have he := Nat.le_of_lt (NodeTable.index_lt_of_node hnode)
  have hplaced := node?_spaced founded hnode
  have hsize := NodeTable.index_lt_of_node hplaced
  have other : ∀ id : NodeId, id.index ≠ e.index + 2 → (program.spellOut e x op value).nodes.node? id =
      (program.insert e.index (spelling e x op value)).nodes.node? id := fun id hid =>
    Array.getElem?_setIfInBounds_ne hid.symm
  exact {
    names := rfl
    other := fun id hid => other id fun heq => hid (congrArg NodeId.mk heq)
    opAssign := hplaced
    assign := Array.getElem?_setIfInBounds_self_of_lt hsize
    binary := (other ⟨e.index + 1⟩ (Nat.ne_of_lt (Nat.lt_succ_self _))).trans
      (NodeTable.node?_added he (j := 1) Nat.one_lt_two)
    ident := (other e (by omega)).trans (NodeTable.node?_added he (j := 0) Nat.zero_lt_two)
    named := hne }

theorem founded_spellOut (hne : x.isEmpty = false) :
    (program.spellOut e x op value).nodes.Founded := by
  have spells := spellsOut founded hnode hne
  have spaced := founded_spaced founded hnode
  intro id node hid child hchild
  by_cases heq : id = ⟨e.index + 2⟩
  · subst heq
    rw [spells.assign] at hid
    cases hid
    obtain rfl := List.mem_singleton.mp hchild
    exact Nat.lt_succ_self _
  · rw [spells.other id heq] at hid
    exact spaced id node hid child hchild

/-- The spelled out program is resolved in the same way. -/
theorem resolve_spellOut (hne : x.isEmpty = false) (root : NodeId) (predeclared : List Name) :
    resolve (program.spellOut e x op value).nodes (root.shift e.index 2) predeclared =
      (resolve program.nodes root predeclared).map (Resolution.relabel (NodeId.shift e.index 2)) := by
  have he := Nat.le_of_lt (NodeTable.index_lt_of_node hnode)
  have spells := spellsOut founded hnode hne
  exact (spells.resolve_eq (founded_spaced founded hnode) (founded_spellOut founded hnode hne) _ _).trans
    (NodeTable.resolve_insert founded he (spelling e x op value) root predeclared)

end SpellOut

/-- A node that was inserted is not flagged. -/
theorem isUnbound_inserted {i n j : Nat} (hj : j < n) {found : Except ResolveError Resolution}
    {res : Resolution} (h : found.map (Resolution.relabel (NodeId.shift i n)) = .ok res) :
    res.isUnbound ⟨i + j⟩ = false := by
  cases found with
  | error fault => cases h
  | ok found =>
    cases h
    rw [Resolution.isUnbound, Resolution.relabel, List.contains_eq_mem, decide_eq_false_iff_not]
    intro hmem
    obtain ⟨old, -, hold⟩ := List.mem_map.mp hmem
    exact NodeId.shift_ne_added hj hold

/-- An assignment of an operator's result is an assignment of the operation.  Where the one is
replaced by the other in a program, resolution finds the same, and it never flags the additional
read; as the first one on its machine, a program that is a tree ends in the same way and leaves the
same variables; and where the operation fails, all is left as it is after the right side. -/
theorem op_assignment_is_assignment (program : Program) (founded : program.nodes.Founded)
    {e value : NodeId} {x : Name} {op : BinaryOp}
    (hnode : program.nodes.node? e = some (.opAssign x op value)) (hne : x.isEmpty = false) :
    (∀ (root : NodeId) predeclared,
      resolve (program.spellOut e x op value).nodes (root.shift e.index 2) predeclared =
        (resolve program.nodes root predeclared).map
          (Resolution.relabel (NodeId.shift e.index 2))) ∧
    (∀ (root : NodeId) predeclared res,
      resolve (program.spellOut e x op value).nodes (root.shift e.index 2) predeclared = .ok res →
        res.isUnbound e = false) ∧
    (∀ (root : NodeId) policy locals, program.nodes.IsTree root →
      RunsAlike (fun m m' => m'.env.topBindings = m.env.topBindings ∧
          Mirroring.AtRest (NodeId.shift e.index 2) (NodeId.shift e.index 2) m m')
        (fun fuel => program.evaluateWith fuel root (.initial policy locals))
        (fun fuel => (program.spellOut e x op value).evaluateWith fuel (root.shift e.index 2)
          (.initial policy locals))) ∧
    ∀ fuel m right m₁ cause, program.perform fuel (.node value) m = some (.ok right, m₁) →
      op.eval ((m.env.lookup x).getD .nil) right = .error cause →
      program.perform (fuel + 1) (.node e) m = some (.error (.error { cause }), m₁) := by
  have he := Nat.le_of_lt (NodeTable.index_lt_of_node hnode)
  have spells := spellsOut founded hnode hne
  have resolved := resolve_spellOut founded hnode hne
  refine ⟨resolved, fun root predeclared res hres => ?_, fun root policy locals tree => ?_,
    fun fuel m right m₁ cause hvalue hfails => ?_⟩
  · exact isUnbound_inserted (j := 0) Nat.zero_lt_two ((resolved root predeclared).symm.trans hres)
  · have tree₁ := NodeTable.isTree_insert founded he (spelling e x op value) tree
    have along : ∀ fuel, SpellsOut.Along ⟨e.index + 2⟩ e x
        ((program.insert e.index (spelling e x op value)).evaluation fuel (root.shift e.index 2)
          (.initial policy locals)) := by
      intro fuel m hevent
      obtain ⟨bound, hresolved⟩ := bound_of_enter tree₁ spells.opAssign hne hevent
      have hinserted := NodeTable.resolve_insert founded he (spelling e x op value) root
        (Machine.initial policy locals).env.topBindings.keys
      exact ⟨bound, isUnbound_inserted (j := 0) Nat.zero_lt_two (hinserted.symm.trans hresolved)⟩
    -- first the additional nodes are inserted, then the assignment is replaced
    have spaced := fun fuel => rel_insert founded he (spelling e x op value)
      (Mirroring.atRest_initial _ _ policy locals) fuel root
    have replaced := spells.runsAlike (founded_spaced founded hnode)
      (founded_spellOut founded hnode hne) (root.shift e.index 2) (.initial policy locals) along
    exact (RunsAlike.of_rel spaced replaced).mono fun m m' rest => ⟨rest.topBindings_eq, rest⟩
  · cases fuel with
    | zero => cases hvalue
    | succ fuel =>
      rw [SpellsOut.perform_opAssign hnode, hvalue, Option.map_some, updated, hfails]

/-- The program `x = 1; x += (x = 5)`, where `x` is the first name that is not reserved. -/
def rebinding : Program where
  names := .initial
  nodes := ⟨#[.int 1, .assign ⟨34⟩ [.plain ⟨0⟩], .int 5, .assign ⟨34⟩ [.plain ⟨2⟩],
    .opAssign ⟨34⟩ .add ⟨3⟩, .seq [⟨1⟩, ⟨4⟩]]⟩

/-- The value of `x` is read before the right side assigns another one, in `x += (x = 5)` as in
`x = x + (x = 5)`. -/
theorem rebinding_is_assignment :
    rebinding.nodes.Founded ∧ rebinding.nodes.IsTree ⟨5⟩ ∧
    rebinding.nodes.node? ⟨4⟩ = some (.opAssign ⟨34⟩ .add ⟨3⟩) ∧
    ∃ m m', rebinding.evaluateWith 6 ⟨5⟩ (.initial .unlimited []) = some (.ok (.int 6), m) ∧
      (rebinding.spellOut ⟨4⟩ ⟨34⟩ .add ⟨3⟩).evaluateWith 12 ⟨7⟩ (.initial .unlimited []) =
        some (.ok (.int 6), m') ∧
      m'.env.topBindings = m.env.topBindings := by
  have founded : rebinding.nodes.Founded := by decide
  have tree : rebinding.nodes.IsTree ⟨5⟩ := by decide
  obtain ⟨-, -, evaluate, -⟩ := rebinding.op_assignment_is_assignment founded (e := ⟨4⟩) rfl rfl
  have runs := evaluate ⟨5⟩ .unlimited [] tree
  have run : ∃ m, rebinding.evaluateWith 6 ⟨5⟩ (.initial .unlimited []) = some (.ok (.int 6), m) :=
    ⟨_, rfl⟩
  obtain ⟨m, hrun⟩ := run
  obtain ⟨m', hrun', same, -⟩ := runs.forth 6 _ m hrun 12 (Nat.le_refl _)
  exact ⟨founded, tree, rfl, m, m', hrun, hrun', same⟩

end Program

end ScriptSemantics
