import Mathlib.Logic.Equiv.Basic
import ScriptSemantics.Proofs.TrackedSessions
import ScriptSemantics.Proofs.Wrapping
import ScriptSemantics.Proofs.WrittenCode

/-!
# Lambdas made by a call

`lambda { ... }` makes a block closure for the call and then a lambda of it, which keeps what the
block closure knew of the call.  No lambda ever looks at this, so a program cannot tell such a
lambda from one that was written as a literal.

## Main Definitions

* `Naming.onwards` — names after one side has made more than the other one
* `CallsLambda` — one program calls `lambda` where the other one has a lambda literal
* `Program.writeLambda` — the program that has a lambda literal at a node

## Main Results

* `CallsLambda.tracks_literal` — the call and the literal make lambdas that do the same
* `CallsLambda.parallels` — so all nodes of the two programs track each other
* `CallsLambda.resolve_eq` — both programs are resolved in the same way
* `Program.lambda_call_is_literal` — the events of a session are the same up to names

## Design Notes

The block is a node of its own that the literal does not have, and the scope root of the lambda.  So
it is in the table of both programs, but the one with the literal does not use it.
-/

namespace ScriptSemantics

/-! ### Names after a call -/

/-- Where some things keep their names, the others may have any names after those. -/
theorem injective_from {α : Type} {index : α → Nat} {make : Nat → α}
    (index_make : ∀ n, index (make n) = n) (make_index : ∀ a, make (index a) = a) {f : α → α}
    (injective : ∀ {a b}, f a = f b → a = b) {count next : Nat}
    (below : ∀ a, index a < count → index (f a) < next) {a b : α}
    (h : (if index a < count then f a else make (next + (index a - count))) =
      if index b < count then f b else make (next + (index b - count))) : a = b := by
  have apart : ∀ {a b}, index a < count → f a ≠ make (next + (index b - count)) := fun ha heq => by
    have hlt := below _ ha
    rw [heq, index_make] at hlt
    omega
  split at h <;> split at h
  next ha hb => exact injective h
  next ha hb => exact absurd h (apart ha)
  next ha hb => exact absurd h.symm (apart hb)
  next ha hb =>
    have heq := congrArg index h
    rw [index_make, index_make] at heq
    rw [← make_index a, ← make_index b]
    exact congrArg make (by omega)

namespace Naming

variable (σ : Naming) (procs procs' frames frames' : Nat)
  (hprocs : ∀ id : ProcId, id.index < procs → (σ.proc id).index < procs')
  (hframes : ∀ id : FrameId, id.index < frames → (σ.frame id).index < frames')

/-- Closures and activations have other names from some numbers on. -/
def onwards : Naming where
  node := σ.node
  proc id := if id.index < procs then σ.proc id else ⟨procs' + (id.index - procs)⟩
  frame id := if id.index < frames then σ.frame id else ⟨frames' + (id.index - frames)⟩
  aligned := σ.aligned
  inStep := σ.inStep
  proc_injective := injective_from (fun _ => rfl) (fun _ => rfl) σ.proc_injective hprocs
  frame_injective := injective_from (fun _ => rfl) (fun _ => rfl) σ.frame_injective hframes

theorem allows_onwards :
    (Outlook.mk σ procs frames).Allows (σ.onwards procs procs' frames frames' hprocs hframes) :=
  ⟨rfl, rfl, rfl, fun _ hid => if_pos hid, fun _ hid => if_pos hid⟩

theorem onwards_proc (k : Nat) :
    (σ.onwards procs procs' frames frames' hprocs hframes).proc ⟨procs + k⟩ = ⟨procs' + k⟩ :=
  (if_neg (Nat.not_lt.mpr (Nat.le_add_right _ _))).trans
    (congrArg (fun n => ProcId.mk (procs' + n)) (Nat.add_sub_cancel_left _ _))

theorem onwards_frame (k : Nat) :
    (σ.onwards procs procs' frames frames' hprocs hframes).frame ⟨frames + k⟩ = ⟨frames' + k⟩ :=
  (if_neg (Nat.not_lt.mpr (Nat.le_add_right _ _))).trans
    (congrArg (fun n => FrameId.mk (frames' + n)) (Nat.add_sub_cancel_left _ _))

end Naming

/-- Both sides make a closure.  If nothing is expected of the names, the other side may make another
closure before and take an identity. -/
theorem Outlook.ends_addClosure {σ : Naming} {m m' : Machine} (h : m.Corresponds σ m')
    (unaligned : ¬ σ.aligned) (outOfStep : ¬ σ.inStep) {closure closure' : Closure} (spare : Closure)
    (corresponds : ∀ τ, (σ.outlook m).Allows τ → closure.Corresponds τ closure') :
    (σ.outlook m).Ends (.ok (Value.proc (m.closures.add closure).1))
      { m with closures := (m.closures.add closure).2 }
      (.ok (Value.proc ((m'.closures.add spare).2.add closure').1))
      { m' with
        closures := ((m'.closures.add spare).2.add closure').2
        calls := { m'.calls with nextId := m'.calls.nextId + 1 } } := by
  let table := (m'.closures.add spare).2
  have size := m.closures.size_add closure
  have grown : m.closures.closures.size ≤ (m.closures.add closure).2.closures.size :=
    Nat.le_of_lt (Nat.lt_of_lt_of_eq (Nat.lt_succ_self _) size.symm)
  have hprocs : ∀ id : ProcId, id.index < m.closures.closures.size →
      (σ.proc id).index < table.closures.size :=
    fun _ hid => Nat.lt_of_lt_of_eq (Nat.lt_succ_of_lt (h.proc_lt hid)) (m'.closures.size_add spare).symm
  have hframes : ∀ id : FrameId, id.index < m.calls.nextId →
      (σ.frame id).index < m'.calls.nextId + 1 := fun _ hid => Nat.lt_succ_of_lt (h.frame_lt hid)
  -- the names skip the spare closure and its identity
  let τ := σ.onwards _ _ _ _ hprocs hframes
  have agrees : (σ.outlook m).Allows τ := σ.allows_onwards _ _ _ _ hprocs hframes
  have procs : ∀ k, τ.proc ⟨m.closures.closures.size + k⟩ = ⟨table.closures.size + k⟩ :=
    σ.onwards_proc _ _ _ _ hprocs hframes
  have name : τ.proc (m.closures.add closure).1 = (table.add closure').1 := procs 0
  refine ⟨τ, ⟨grown, Nat.le_refl _, agrees, fun aligned => absurd aligned unaligned,
    fun inStep => absurd inStep outOfStep⟩, ?_, fun ρ hρ => ?_⟩
  · refine h.extend agrees grown (Nat.le_refl _) (fun k => ?_) (σ.onwards_frame _ _ _ _ hprocs hframes)
      (fun id other hother => ?_) fun id other hother => ?_
    · rw [size, table.size_add, Nat.add_assoc, Nat.add_assoc]
      exact procs (1 + k)
    · exact table.get?_add_of_some closure' (m'.closures.get?_add_of_some spare hother)
    · rcases m.closures.get?_add_cases hother with old | ⟨rfl, rfl⟩
      · exact .inl old
      · refine .inr ⟨closure', ?_, corresponds⟩
        rw [name]
        exact table.get?_add_self closure'
  · refine congrArg (fun id => Except.ok (Value.proc id)) ?_
    exact (hρ.proc _ (Nat.lt_of_lt_of_eq (Nat.lt_succ_self _) size.symm)).trans name

/-- The route over a node that stays as it is, at other places. -/
theorem Node.route_place {place : NodeId → NodeId} {route route' : NodeId → List Move} (node : Node)
    (n : NodeId) (below : ∀ child ∈ node.children,
      route' child = (route child).map (Move.relabel id place)) :
    (node.moves (place n)).flatMap (Move.expand route') =
      ((node.moves n).flatMap (Move.expand route)).map (Move.relabel id place) := by
  have moved : ((node.relabel id).moves (place n)).flatMap (Move.expand route') =
      ((node.moves n).flatMap (Move.expand route)).map (Move.relabel id place) :=
    node.route_relabel n below
  rwa [Node.relabel_id] at moved

/-! ### A lambda by either way -/

/-- The two programs differ in the node `e` only: it is a lambda literal in the first one, and in
the second one a call of `lambda` with the same block, which is written at the node `b` and is no
operand of any other node. -/
structure CallsLambda (program program' : Program) (e b : NodeId) (params : ParamList) (body : NodeId) :
    Prop where
  names : program'.names = program.names
  other : ∀ id, id ≠ e → program'.nodes.node? id = program.nodes.node? id
  literal : program.nodes.node? e = some (.lambda params body)
  call : program'.nodes.node? e = some (.call .lambda [] (some (.literal b)))
  block : program.nodes.node? b = some (.block params body)
  spare : ∀ id node, program.nodes.node? id = some node → b ∉ node.children
  /-- The block precedes the call. -/
  precedes : b.index < e.index
  /-- The literal is evaluated, and not passed on as a block. -/
  evaluated : ∀ id node, program.nodes.node? id = some node → e ∉ node.literals

namespace CallsLambda

variable {program program' : Program} {e b body : NodeId} {params : ParamList} {σ : Naming}
  {m m' : Machine}

theorem ne (h : CallsLambda program program' e b params body) : b ≠ e := by
  rintro rfl
  cases h.block.symm.trans h.literal

/-- The block is the same in both programs. -/
theorem block' (h : CallsLambda program program' e b params body) :
    program'.nodes.node? b = some (.block params body) :=
  (h.other b h.ne).trans h.block

/-- What is written at one of the nodes is found at the other one. -/
def place (e b : NodeId) : NodeId → NodeId := Equiv.swap e b

theorem place_injective (e b : NodeId) : Function.Injective (place e b) :=
  (Equiv.swap e b).injective

theorem place_of_ne {id : NodeId} (he : id ≠ e) (hb : id ≠ b) : place e b id = id :=
  Equiv.swap_apply_of_ne_of_ne he hb

/-- The kind of names that the two programs have: from the first lambda on, they make different
closures and take identities at different moments. -/
def base (e b : NodeId) : Naming where
  node := place e b
  proc := id
  frame := id
  aligned := False
  inStep := False
  proc_injective h := h
  frame_injective h := h

/-- A lambda of a block differs from a lambda literal in what it knows of a call. -/
theorem addLambda_makeClosure (m : Machine) (literal : NodeId) (params : ParamList) (body : NodeId)
    (tag : Option FrameId) :
    let made := m.makeClosure literal params body false tag
    made.2.addLambda made.1 = made.2.makeClosure literal params body true tag := by
  intro made
  have found : made.2.closures.get? made.1 = some (m.closureOf literal params body false tag) :=
    m.closures.get?_add_self _
  rw [Machine.addLambda, ClosureTable.addLambda, found]
  rfl

/-- A call of `lambda` takes an identity and makes a block closure before it makes the lambda. -/
theorem work_call (h : CallsLambda program program' e b params body)
    (builtin : m.methods.get? .lambda = none) (fuel : Nat) :
    Task.work program' fuel (.node e) m =
      let callId := m.allocateFrame.1
      let made := (m.allocateFrame.2.makeClosure b params body false (some callId)).2
      .done (.ok (.proc (made.makeClosure b params body true (some callId)).1))
        (made.makeClosure b params body true (some callId)).2 := by
  rw [Task.work, h.call]
  change Comp.call program' .lambda [] (some (.literal b)) m = _
  have blockArg : ∀ callId, Comp.blockArg program' callId (some (.literal b)) = (do
      return some (← Comp.modifyGet (·.makeClosure b params body false (some callId)))) := fun callId => by
    rw [Comp.blockArg, h.block']
  rw [Comp.call]
  simp only [blockArg]
  change Comp.dispatch program'.names .lambda m.allocateFrame.1 {}
    (some (m.allocateFrame.2.makeClosure b params body false (some m.allocateFrame.1)).1)
    (m.allocateFrame.2.makeClosure b params body false (some m.allocateFrame.1)).2 = _
  have known : (m.allocateFrame.2.makeClosure b params body false
      (some m.allocateFrame.1)).2.methods.get? .lambda = none := builtin
  rw [Comp.dispatch, Comp.gets_bind, known]
  dsimp only
  rw [← addLambda_makeClosure]
  rfl

/-- The call and the literal make lambdas that do the same. -/
theorem tracks_literal (h : CallsLambda program program' e b params body) (like : σ.Like (base e b))
    (corresponds : m.Corresponds σ m') (builtin : m.methods.get? .lambda = none) (fuel : Nat) :
    (Task.work program fuel (.node e) m).Tracks (σ.outlook m) (Task.work program' fuel (.node e) m') := by
  have builtin' : m'.methods.get? .lambda = none := by rw [corresponds.method?, builtin]; rfl
  have place : σ.node e = b := (congrFun like.node e).trans (Equiv.swap_apply_left e b)
  have unaligned : ¬ σ.aligned := fun aligned => like.aligned.mp aligned
  have outOfStep : ¬ σ.inStep := fun inStep => like.inStep.mp inStep
  rw [h.work_call builtin', Task.work, h.literal]
  -- a lambda never looks at what the block closure knew of the call
  exact Outlook.ends_addClosure corresponds unaligned outOfStep
    (m'.closureOf b params body false (some m'.allocateFrame.1)) fun τ hτ =>
      corresponds.closureOf place params body true (fun needed => absurd needed (by simp [unaligned])) hτ

/-! ### Both programs -/

/-- The programs track each other, as long as `lambda` is not defined where the call is
evaluated. -/
theorem parallels (h : CallsLambda program program' e b params body) :
    program.Parallels (base e b) (fun id m => id ≠ b ∧ (id = e → m.methods.get? .lambda = none))
      program' where
  names := h.names
  node fuel id σ m m' like corresponds holds := by
    by_cases hid : id = e
    · subst hid
      exact h.tracks_literal like corresponds (holds.2 rfl) fuel
    have fixed : ∀ id, id ≠ e → id ≠ b → (σ.outlook m).Fixes id := fun id he hb τ hτ =>
      (congrFun (hτ.node.trans like.node) id).trans (place_of_ne he hb)
    refine Outlook.tracks_here h.names fuel (h.other id hid) (fixed id hid holds.1)
      (fun node hnode literal hliteral => ?_) σ m m' (.refl _) corresponds
    have hne : literal ≠ e := ne_of_mem_of_not_mem hliteral (h.evaluated id node hnode)
    have hnb : literal ≠ b :=
      ne_of_mem_of_not_mem (Node.operands_subset (.inr hliteral)) (h.spare id node hnode)
    exact ⟨fixed literal hne hnb, h.other literal hne⟩

/-- The walk over the call is the walk over its block, which makes the moves of the literal. -/
theorem route_call (h : CallsLambda program program' e b params body) {levels levels' : Nat}
    (below : ∀ child ∈ (Node.lambda params body).children, program'.nodes.route levels' child =
      (program.nodes.route levels child).map (Move.relabel id (place e b))) :
    program'.nodes.route (levels' + 2) e =
      (program.nodes.route (levels + 1) e).map (Move.relabel id (place e b)) := by
  have moved := (Node.lambda params body).route_place e below
  rw [place, Equiv.swap_apply_left] at moved
  rw [NodeTable.route_succ h.call, NodeTable.route_succ h.literal]
  change program'.nodes.route (levels' + 1) b ++ [] = _
  rw [List.append_nil, NodeTable.route_succ h.block']
  exact moved

/-- The walk over the second program makes the same moves; the block is entered in place of the
literal. -/
theorem route_eq (h : CallsLambda program program' e b params body)
    (founded : program.nodes.Founded) {n : NodeId} (hn : n ≠ b) {levels levels' : Nat}
    (hlevels : n.index < levels) (hlevels' : n.index < levels') :
    program'.nodes.route levels' n =
      (program.nodes.route levels n).map (Move.relabel id (place e b)) := by
  obtain ⟨i, hi⟩ : ∃ i, n.index = i := ⟨_, rfl⟩
  induction i using Nat.strongRecOn generalizing n levels levels' with
  | _ i ih =>
    obtain ⟨levels, rfl⟩ : ∃ k, levels = k + 1 := ⟨levels - 1, by omega⟩
    obtain ⟨levels', rfl⟩ : ∃ k, levels' = k + 1 := ⟨levels' - 1, by omega⟩
    have below : ∀ node, program.nodes.node? n = some node → ∀ child ∈ node.children, ∀ deep,
        child.index < deep → program'.nodes.route deep child =
          (program.nodes.route levels child).map (Move.relabel id (place e b)) := by
      intro node hnode child hchild deep hdeep
      have hlt := founded n node hnode child hchild
      exact ih child.index (hi ▸ hlt) (ne_of_mem_of_not_mem hchild (h.spare n node hnode)) (by omega)
        hdeep rfl
    by_cases he : n = e
    · subst he
      have hlt := h.precedes
      obtain ⟨levels', rfl⟩ : ∃ k, levels' = k + 1 := ⟨levels' - 1, by omega⟩
      refine h.route_call fun child hchild => below _ h.literal child hchild levels' ?_
      have := founded b _ h.block child hchild
      omega
    · cases hnode : program.nodes.node? n with
      | none =>
        rw [NodeTable.route, NodeTable.route, h.other n he, hnode]
        rfl
      | some node =>
        have moved := node.route_place n fun child hchild => by
          have := founded n node hnode child hchild
          exact below node hnode child hchild levels' (by omega)
        rw [place_of_ne he hn] at moved
        rwa [NodeTable.route_succ ((h.other n he).trans hnode), NodeTable.route_succ hnode]

/-- The programs are rejected in the same way, or the same is found; what was found at the literal
is found at the block. -/
theorem resolve_eq (h : CallsLambda program program' e b params body)
    (founded : program.nodes.Founded) {root : NodeId} (he : root ≠ e) (hb : root ≠ b)
    (predeclared : List Name) :
    resolve program'.nodes root predeclared =
      (resolve program.nodes root predeclared).map (Resolution.relabel (place e b)) := by
  have route := h.route_eq founded hb (Nat.lt_succ_self _) (Nat.lt_succ_self _)
  have resolved : resolve program'.nodes (place e b root) predeclared =
      (resolve program.nodes root predeclared).map (Resolution.relabel (place e b)) :=
    resolve_relabel (place_injective e b) (by rw [place_of_ne he hb]; exact route) predeclared
  rwa [place_of_ne he hb] at resolved

end CallsLambda

namespace Program

/-- The program that has a lambda literal at a node. -/
def writeLambda (program : Program) (e : NodeId) (params : ParamList) (body : NodeId) : Program :=
  { program with nodes := ⟨program.nodes.nodes.setIfInBounds e.index (.lambda params body)⟩ }

section WriteLambda

variable {program : Program} {e b body : NodeId} {params : ParamList}
  (founded : program.nodes.Founded)
  (call : program.nodes.node? e = some (.call .lambda [] (some (.literal b))))
  (block : program.nodes.node? b = some (.block params body))

include call in
theorem node?_writeLambda_self :
    (program.writeLambda e params body).nodes.node? e = some (.lambda params body) :=
  Array.getElem?_setIfInBounds_self_of_lt (NodeTable.index_lt_of_node call)

theorem node?_writeLambda_of_ne {id : NodeId} (hid : id ≠ e) :
    (program.writeLambda e params body).nodes.node? id = program.nodes.node? id :=
  Array.getElem?_setIfInBounds_ne fun heq => hid (congrArg NodeId.mk heq.symm)

include founded call block

theorem founded_writeLambda : (program.writeLambda e params body).nodes.Founded := by
  intro id node hnode child hchild
  by_cases hid : id = e
  · subst hid
    rw [node?_writeLambda_self call] at hnode
    cases hnode
    exact Nat.lt_trans (founded b _ block child hchild)
      (founded id _ call b List.mem_cons_self)
  · rw [node?_writeLambda_of_ne hid] at hnode
    exact founded id node hnode child hchild

/-- A call of `lambda` with a block that is written nowhere else, and the literal in its place. -/
theorem callsLambda
    (once : ∀ id node, id ≠ e → program.nodes.node? id = some node → b ∉ node.children)
    (evaluated : ∀ id node, program.nodes.node? id = some node → e ∉ node.literals) :
    CallsLambda (program.writeLambda e params body) program e b params body := by
  have precedes : b.index < e.index := founded e _ call b List.mem_cons_self
  have hne : b ≠ e := fun heq => Nat.ne_of_lt precedes (congrArg NodeId.index heq)
  exact {
    names := rfl
    other := fun id hid => (node?_writeLambda_of_ne hid).symm
    literal := node?_writeLambda_self call
    call := call
    block := (node?_writeLambda_of_ne hne).trans block
    precedes := precedes
    spare := fun id node hnode => by
      by_cases hid : id = e
      · subst hid
        rw [node?_writeLambda_self call] at hnode
        cases hnode
        exact fun hmem => Nat.lt_irrefl _ (founded b _ block b hmem)
      · exact once id node hid ((node?_writeLambda_of_ne hid).symm.trans hnode)
    evaluated := fun id node hnode => by
      by_cases hid : id = e
      · subst hid
        rw [node?_writeLambda_self call] at hnode
        cases hnode
        exact List.not_mem_nil
      · exact evaluated id node ((node?_writeLambda_of_ne hid).symm.trans hnode) }

/-- A call of `lambda` may be written as a lambda literal.  The events of a session are the same up
to the names of closures and activations, and the block is the scope root in place of the literal:
the lambdas are the same but for the call that the block closure kept, and so is whatever becomes of
them later, in the activation that made them or after it has ended.  This holds until the call is
evaluated while there is a method of the user's named `lambda`.  A lambda that is a program of its
own is left out; no code gets hold of it. -/
theorem lambda_call_is_literal
    (once : ∀ id node, id ≠ e → program.nodes.node? id = some node → b ∉ node.children)
    (evaluated : ∀ id node, program.nodes.node? id = some node → e ∉ node.literals) (fuel : Nat)
    {roots : List NodeId} (inner : ∀ root ∈ roots, root ≠ e ∧ root ≠ b) (policy : DepthPolicy)
    {locals : List (Name × Value)} (noProcs : ∀ pair ∈ locals, pair.2.procs = []) :
    ∃ σ : Naming, σ.node = Equiv.swap e b ∧ ∀ n,
      (∀ m, .enter (.node e) m ∈ ((program.writeLambda e params body).session fuel roots
        (.initial policy locals)).take n → m.methods.get? .lambda = none) →
      List.Forall₂ (Event.SameUnder σ)
        (((program.writeLambda e params body).session fuel roots (.initial policy locals)).take n)
        ((program.session fuel roots (.initial policy locals)).take n) := by
  have calls := callsLambda founded call block once evaluated
  have founded' := founded_writeLambda founded call block
  have spare : (program.writeLambda e params body).nodes.HandsDown (· ≠ b) :=
    fun id node _ _ hnode hchild => ne_of_mem_of_not_mem hchild (calls.spare id node hnode)
  have initial := Machine.corresponds_initial (σ := CallsLambda.base e b) rfl rfl policy noProcs
  rcases calls.parallels.session (CallsLambda.place_injective e b) ⟨rfl, rfl, rfl⟩ fuel roots initial
    (fun root hroot => CallsLambda.place_of_ne (inner root hroot).1 (inner root hroot).2)
    (fun root hroot => calls.resolve_eq founded' (inner root hroot).1 (inner root hroot).2)
    with ⟨W, narrows, same⟩ | parts
  · exact ⟨W.naming, narrows.allows.node, fun n _ => List.forall₂_take n same.sameUnder⟩
  · obtain ⟨W, narrows, same⟩ := parts.take
    refine ⟨W.naming, narrows.allows.node, fun n builtin =>
      (same n fun id m hevent => ⟨?_, fun hid => builtin m (hid ▸ hevent)⟩).sameUnder⟩
    exact here_of_enter spare (fun root hroot => (inner root hroot).2) (.initial policy locals)
      (List.mem_of_mem_take hevent)

end WriteLambda

/-- The program `def make; y = 5; lambda { |x| return y }; end; f = make; f.(1)`. -/
def returningLambda : Program where
  names := .initial
  nodes := ⟨#[.int 5, .assign ⟨34⟩ [.plain ⟨0⟩], .ident ⟨34⟩, .returnWith (some ⟨2⟩),
    .block [⟨⟨35⟩, .required⟩] ⟨3⟩, .call .lambda [] (some (.literal ⟨4⟩)), .seq [⟨1⟩, ⟨5⟩],
    .define ⟨36⟩ [] ⟨6⟩, .call ⟨36⟩ [] none, .assign ⟨37⟩ [.plain ⟨8⟩], .ident ⟨37⟩, .int 1,
    .callValue ⟨10⟩ [.positional ⟨11⟩] none, .seq [⟨7⟩, ⟨9⟩, ⟨12⟩]]⟩

/-- The lambda returns after its method has ended, by either way. -/
theorem returningLambda_is_literal :
    ∃ σ : Naming, σ.node = Equiv.swap ⟨5⟩ ⟨4⟩ ∧
      List.Forall₂ (Event.SameUnder σ)
        ((returningLambda.writeLambda ⟨5⟩ [⟨⟨35⟩, .required⟩] ⟨3⟩).session 12 [⟨13⟩]
          (.initial .unlimited []))
        (returningLambda.session 12 [⟨13⟩] (.initial .unlimited [])) ∧
      ∃ value m, returningLambda.evaluateWith 12 ⟨13⟩ (.initial .unlimited []) = some (.ok value, m) ∧
        value.same (.int 5) = true := by
  have founded : returningLambda.nodes.Founded := by decide
  have others : ∀ node ∈ returningLambda.nodes.nodes.toList.eraseIdx 5, ⟨4⟩ ∉ node.children := by decide
  have evaluated : ∀ node ∈ returningLambda.nodes.nodes.toList, ⟨5⟩ ∉ node.literals := by decide
  have undefined : ((returningLambda.writeLambda ⟨5⟩ [⟨⟨35⟩, .required⟩] ⟨3⟩).session 12 [⟨13⟩]
      (.initial .unlimited [])).all
        (fun event => (event.machine.methods.get? .lambda).isNone) = true := by decide +kernel
  have run : ∃ result ∈ returningLambda.evaluateWith 12 ⟨13⟩ (.initial .unlimited []),
      result.1.toOption.any (·.same (.int 5)) = true := by decide +kernel
  have inner : ∀ root ∈ [(⟨13⟩ : NodeId)], root ≠ ⟨5⟩ ∧ root ≠ ⟨4⟩ := by decide
  obtain ⟨σ, place, same⟩ := lambda_call_is_literal founded rfl rfl
    (fun id node hid hnode => others node (List.mem_eraseIdx_iff_getElem?.mpr
      ⟨id.index, fun heq => hid (congrArg NodeId.mk heq), Array.getElem?_toList.trans hnode⟩))
    (fun id node hnode => evaluated node (Array.mem_toList_iff.mpr (Array.mem_of_getElem? hnode))) 12
    inner .unlimited (List.forall_mem_nil _)
  have all := same 100 fun m hevent => Option.isNone_iff_eq_none.mp
    (List.all_eq_true.mp undefined _ (List.mem_of_mem_take hevent))
  rw [List.take_of_length_le (by decide +kernel), List.take_of_length_le (by decide +kernel)] at all
  obtain ⟨⟨ending, m⟩, hrun, hvalue⟩ := run
  cases ending with
  | error e => cases hvalue
  | ok value => exact ⟨σ, place, all, value, m, hrun, hvalue⟩

end Program

end ScriptSemantics
