import ScriptSemantics.Proofs.Growth
import ScriptSemantics.Proofs.Standing
import ScriptSemantics.Proofs.Trace

/-!
# Code as it is written

All code that a machine runs is written in the program: every method and every closure has the
parameters and the body of the node that it was made from.  What holds at the root of a program and
is handed down from nodes to their operands holds where this code is written.

## Main Definitions

* `NodeTable.Reaches` — a node can be reached from another one, from operand to operand
* `NodeTable.HandsDown` — a property is handed down from nodes to their operands
* `Code.IsWritten` — some code is that of the callable at its scope root
* `Machine.RunsWritten` — so is the code of all methods and closures, at nodes with some property

## Main Results

* `WrittenCode.lawful` — the operations of the machine keep it so
* `Program.isWritten_of_enter` — the code of every activation of a session is written in the program

## Design Notes

Methods and closures of one program may be run by a later one on the same machine, so the property
is asked of the roots of all programs.
-/

namespace ScriptSemantics

/-! ### Reached nodes -/

namespace NodeTable

/-- A node can be reached from another one, from operand to operand. -/
inductive Reaches (table : NodeTable) (root : NodeId) : NodeId → Prop
  | refl : Reaches table root root
  | operand {id : NodeId} {node : Node} {child : NodeId} (reached : Reaches table root id)
      (found : table.node? id = some node) (mem : child ∈ node.children) :
    Reaches table root child

/-- A property is handed down from nodes to their operands. -/
def HandsDown (table : NodeTable) (P : NodeId → Prop) : Prop :=
  ∀ id node child, P id → table.node? id = some node → child ∈ node.children → P child

variable {table : NodeTable} {root id other : NodeId}

theorem Reaches.trans (h : table.Reaches root id) (h' : table.Reaches id other) :
    table.Reaches root other := by
  induction h' with
  | refl => exact h
  | operand _ found mem ih => exact ih.operand found mem

end NodeTable

/-! ### Written code -/

/-- The code is that of the callable at its scope root, where some property holds. -/
structure Code.IsWritten (table : NodeTable) (P : NodeId → Prop) (code : Code) : Prop where
  callable : ∃ sees, table.callable? code.root = some (code.params, code.body, sees)
  here : P code.root

/-- The code of all methods and closures is written at nodes with some property. -/
structure Machine.RunsWritten (table : NodeTable) (P : NodeId → Prop) (m : Machine) : Prop where
  methods : ∀ name callee, m.methods.get? name = some callee → (Code.ofMethod callee).IsWritten table P
  closures : ∀ proc closure, m.closures.get? proc = some closure →
    (Code.ofClosure closure).IsWritten table P

variable {table : NodeTable} {P : NodeId → Prop} {m m' : Machine}

/-- The operands of written code have the property too. -/
theorem Code.IsWritten.operand {code : Code} (down : table.HandsDown P) (h : code.IsWritten table P)
    {child : NodeId} (hchild : child ∈ code.operands) : P child := by
  obtain ⟨sees, hcode⟩ := h.callable
  obtain ⟨node, hnode, hcallable⟩ := Option.bind_eq_some_iff.mp hcode
  have hmem : child ∈ node.children := by
    cases node <;> cases hcallable <;> exact hchild
  exact down code.root node child h.here hnode hmem

namespace Machine.RunsWritten

theorem initial (policy : DepthPolicy) (locals : List (Name × Value)) :
    (Machine.initial policy locals).RunsWritten table P where
  methods _ _ h := by cases h
  closures proc closure h := by
    change (none : Option Closure) = some closure at h
    cases h

theorem congr (h : m.RunsWritten table P) (methods : m'.methods = m.methods)
    (closures : m'.closures = m.closures) : m'.RunsWritten table P where
  methods := methods ▸ h.methods
  closures := closures ▸ h.closures

theorem define (h : m.RunsWritten table P) {callee : Method}
    (written : (Code.ofMethod callee).IsWritten table P) : (m.define callee).RunsWritten table P where
  methods name other hother := by
    rw [Machine.define, Assoc.get?_put] at hother
    split at hother
    · cases hother
      exact written
    · exact h.methods name other hother
  closures := h.closures

theorem addClosure (h : m.RunsWritten table P) {closure : Closure}
    (written : (Code.ofClosure closure).IsWritten table P) :
    RunsWritten table P { m with closures := (m.closures.add closure).2 } where
  methods := h.methods
  closures proc other hother := by
    rcases m.closures.get?_add_cases hother with hother | ⟨-, rfl⟩
    · exact h.closures proc other hother
    · exact written

theorem addLambda (h : m.RunsWritten table P) (proc : ProcId) :
    (m.addLambda proc).2.RunsWritten table P := by
  rw [Machine.addLambda, ClosureTable.addLambda]
  cases hclosure : m.closures.get? proc with
  | none => exact h
  | some closure =>
    exact @addClosure _ _ _ h { closure with isLambda := true } (h.closures proc closure hclosure)

end Machine.RunsWritten

/-- The code that a method or a closure is invoked with is written. -/
theorem Code.IsWritten.of_opens {γ : Type} {R : Regime γ} {g : γ} {task : Task} {frame : Frame}
    {parent : Option ScopeId} {code : Code} (ready : R.ready g m → m.RunsWritten table P)
    (hpre : R.contract.pre g task m) (opens : task.Opens m frame parent (some code)) :
    code.IsWritten table P := by
  cases opens with
  | method callee =>
    obtain ⟨hready, -, name, hcallee⟩ := hpre
    exact (ready hready).methods name callee hcallee
  | closure proc id given block found => exact (ready hpre.1).closures proc _ found

/-! ### The regime of written code -/

namespace WrittenCode

variable {program : Program}

/-- A machine grows, and goes on to run written code. -/
def Step (table : NodeTable) (P : NodeId → Prop) (m m' : Machine) : Prop :=
  m.Grows m' ∧ (m.RunsWritten table P → m'.RunsWritten table P)

/-- Written code is run, and nodes with some property are evaluated. -/
def regime (table : NodeTable) (P : NodeId → Prop) : Regime Unit where
  note _ _ _ := ()
  ready _ m := m.RunsWritten table P
  here _ id m := P id ∧ m.RunsWritten table P
  stores _ _ _ m := m.RunsWritten table P
  inside _ code m := code.IsWritten table P ∧ m.RunsWritten table P
  reserved _ id m := id.index < m.calls.nextId
  start _ root _ m := P root ∧ m.RunsWritten table P
  finish _ _ _ _ m' := m'.RunsWritten table P
  step _ _ m _ m' := Step table P m m'
  exits _ _ := True
  crosses _ := True

theorem steps : (regime table P).Steps where
  refl _ := ⟨.refl _, id⟩
  trans h h' := ⟨h.1.trans h'.1, h'.2 ∘ h.2⟩
  mono _ h := h
  nextId_le h := h.1.nextId
  ready h := h.2
  here h := And.imp_right h.2
  inside h := And.imp_right h.2
  reserved h _ hid := Nat.lt_of_lt_of_le hid h.1.nextId
  exits _ _ := trivial

theorem nodeLaws (down : program.nodes.HandsDown P) :
    (regime program.nodes P).NodeLaws program where
  note := rfl
  noteStore := rfl
  ready h := h.2
  operand h hnode hchild := ⟨down _ _ _ h.1 hnode (Node.operands_subset (.inl hchild)), h.2⟩
  target h _ _ := h.2
  store _ := ⟨.keep (Environment.sameShape_assignLocal _ _) rfl rfl (Nat.le_refl _) rfl,
    fun h => h.congr rfl rfl⟩
  define h hnode := by
    refine ⟨.keep (.refl _) rfl rfl (Nat.le_refl _) rfl, fun ready => ready.define ⟨⟨false, ?_⟩, h.1⟩⟩
    rw [NodeTable.callable?, Code.ofMethod, hnode]
    rfl
  close {n g id m node literal params body isLambda tag} h hnode hliteral hfound _ := by
    -- a block is closed over at the call that it is passed to, so it may be an operand
    have here : P literal := by
      rcases hliteral with rfl | hliteral
      · exact h.1
      · exact down id node literal h.1 hnode (Node.operands_subset (.inr hliteral))
    refine ⟨.keep (.refl _) rfl rfl (Nat.le_refl _) rfl, fun ready => ready.addClosure ⟨⟨true, ?_⟩, here⟩⟩
    rw [NodeTable.callable?, Code.ofClosure, hfound]
    cases isLambda <;> rfl
  addLambda _ := ⟨.addLambda _ _, fun h => h.addLambda _⟩
  allocate _ := ⟨⟨.keep (.refl _) rfl rfl (Nat.le_succ _) rfl, fun h => h.congr rfl rfl⟩,
    Nat.lt_succ_self _⟩
  enterScope h := ⟨h.1, h.2.congr rfl rfl⟩
  leaveScope _ hstep := ⟨⟨.leaveTransparent hstep.1,
    fun h => (hstep.2 (h.congr rfl rfl)).congr rfl rfl⟩, fun _ _ => trivial⟩
  beginLoop h := ⟨h.1, h.2.congr rfl rfl⟩
  endLoop _ hstep := ⟨⟨.endLoop hstep.1, fun h => (hstep.2 (h.congr rfl rfl)).congr rfl rfl⟩,
    fun _ _ _ => trivial⟩

theorem exitLaws : (regime table P).ExitLaws where
  error := trivial
  returnTo _ _ _ := trivial
  breakLoop _ _ _ := trivial
  breakLambda _ _ _ := trivial
  breakBlock _ _ _ _ _ := trivial
  next _ _ := trivial
  redo _ _ := trivial

theorem activationLaws (down : table.HandsDown P) : (regime table P).ActivationLaws where
  reserved h := h
  note _ _ := ⟨.refl _, id⟩
  enterLoop hpre opens _ := (Regime.ready_of_opens hpre opens).1.congr rfl rfl
  enterCode hpre opens hpush := by
    have ready := (Regime.ready_of_opens hpre opens).1
    exact ⟨⟨.keep (Environment.sameShape_declareAll _ _) rfl rfl (Nat.le_refl _) rfl,
      fun h => h.congr rfl rfl⟩, .of_opens id hpre opens, ready.congr rfl rfl⟩
  operand h hchild := ⟨h.1.operand down hchild, h.2⟩
  define _ _ _ := ⟨.keep (Environment.sameShape_define _ _) rfl rfl (Nat.le_refl _) rfl,
    fun h => h.congr rfl rfl⟩
  leave _ _ hpush _ hstep := ⟨⟨.deactivate hpush hstep.1,
    fun h => (hstep.2 (h.congr rfl rfl)).congr rfl rfl⟩, fun _ _ _ => ⟨trivial, trivial⟩⟩
  crosses := trivial

theorem programLaws (program : Program) : (regime table P).ProgramLaws program where
  refuse h _ := h.2
  enter h _ := ⟨h.1, h.2.congr rfl rfl⟩
  leave h _ hstep _ := (hstep.2 (h.2.congr rfl rfl)).congr rfl rfl

/-- The operations of the machine run written code, and evaluate nodes to which the property is
handed down. -/
theorem lawful (down : program.nodes.HandsDown P) :
    (regime program.nodes P).Lawful program where
  steps := steps
  nodes := nodeLaws down
  starts := exitLaws
  activations := activationLaws down
  programs := programLaws program

/-! ### Sessions -/

/-- The property holds at the root of every program that is not rejected. -/
def Accepts (program : Program) (P : NodeId → Prop) : Prop :=
  ∀ root predeclared resolution,
    resolve program.nodes root predeclared = .ok resolution → P root

variable (down : program.nodes.HandsDown P) (fuel : Nat)

include down

/-- One `evaluate` runs written code, and leaves a machine that does. -/
theorem admits_evaluation (h : m.RunsWritten program.nodes P) (root : NodeId)
    (accepts : ∀ predeclared resolution,
      resolve program.nodes root predeclared = .ok resolution → P root) :
    (regime program.nodes P).contract.Admits () (program.evaluation fuel root m) ∧
      ∀ ending m', program.evaluateWith fuel root m = some (ending, m') →
        m'.RunsWritten program.nodes P := by
  rw [Program.evaluation, Program.evaluateWith]
  cases hresolve : resolve program.nodes root m.env.topBindings.keys with
  | error fault =>
    refine ⟨trivial, fun ending m' heq => ?_⟩
    cases heq
    exact h
  | ok resolution =>
    have hstart : (regime program.nodes P).contract.pre () (.program root ⟨m.calls.nextId⟩)
        ({ m with resolution } : Machine).allocateFrame.2 :=
      ⟨accepts _ resolution hresolve, h.congr rfl rfl⟩
    refine ⟨(lawful down).kept.admits_record (.program root _) hstart, ?_⟩
    intro ending m' heq
    exact (lawful down).kept.post_of_perform (.program root _) hstart heq

/-- A session runs written code. -/
theorem admits_session (h : m.RunsWritten program.nodes P) (roots : List NodeId)
    (accepts : ∀ root ∈ roots, ∀ predeclared resolution,
      resolve program.nodes root predeclared = .ok resolution → P root) :
    (regime program.nodes P).contract.Admits () (program.session fuel roots m) := by
  induction roots generalizing m with
  | nil => trivial
  | cons root rest ih =>
    obtain ⟨here, others⟩ := List.forall_mem_cons.mp accepts
    obtain ⟨hadmits, hnext⟩ := admits_evaluation down fuel h root here
    refine (regime program.nodes P).contract.admits_append.mpr ⟨hadmits, ?_⟩
    cases heval : program.evaluateWith fuel root m with
    | none => trivial
    | some result => exact ih (hnext result.1 result.2 heval) others

end WrittenCode

/-- Nodes that are entered in a session have a property that is handed down from the roots. -/
theorem Program.here_of_enter {program : Program} (down : program.nodes.HandsDown P)
    {roots : List NodeId} (accepts : ∀ root ∈ roots, P root) {fuel : Nat}
    (h : m.RunsWritten program.nodes P) {id : NodeId}
    (hevent : .enter (.node id) m' ∈ program.session fuel roots m) : P id := by
  obtain ⟨i, hi⟩ := List.mem_iff_getElem?.mp hevent
  have admits := WrittenCode.admits_session down fuel h roots fun root hroot _ _ _ => accepts root hroot
  exact (admits.allows hi).1

/-- The code of every activation of a session is written in the program, where a property holds that
is handed down from the roots. -/
theorem Program.isWritten_of_enter {program : Program} (down : program.nodes.HandsDown P)
    (accepts : WrittenCode.Accepts program P) {fuel : Nat} {roots : List NodeId}
    (h : m.RunsWritten program.nodes P) {task : Task} {frame : Frame} {parent : Option ScopeId}
    {code : Code} (hevent : .enter task m' ∈ program.session fuel roots m)
    (opens : task.Opens m' frame parent (some code)) : code.IsWritten program.nodes P := by
  obtain ⟨i, hi⟩ := List.mem_iff_getElem?.mp hevent
  have hpre := (WrittenCode.admits_session down fuel h roots fun root _ => accepts root).allows hi
  exact .of_opens id hpre opens

end ScriptSemantics
