import ScriptSemantics.Proofs.CompRuns
import ScriptSemantics.Proofs.TrackedConstructs

/-!
# Runs that track each other

What is done inside an activation tracks itself, so methods, closures, the looping builtin and
programs do.  By induction on the fuel, tasks that are the same up to names then end in the same way
up to names, on all machines that correspond.

## Main Definitions

* `Outlook.SameEvents`, `Outlook.SameRun` — the events, and the results, are the same up to names
* `Outlook.Parts` — a condition fails, and the events are the same until then
* `Program.Parallels` — the nodes of two programs track each other, where the condition holds

## Main Results

* `Task.tracks_work` — the work of a task tracks that of the task under other names
* `Program.Parallels.perform` — so do the runs

## Design Notes

One program may do more at a node than the other one, as long as both track each other.  They may do
so under a condition on the machine.  Nothing is said of the runs from where it fails.
-/

namespace ScriptSemantics

namespace Outlook

variable {W : Outlook} {program program' : Program}

/-! ### Bodies -/

theorem tracks_defineParam (name : Name) {value value' : Value} (alike : W.Alike value value') :
    W.Tracks (Comp.defineParam name value) (Comp.defineParam name value') := by
  rw [Comp.defineParam, Comp.defineParam]
  split
  · exact .pure fun _ _ => rfl
  · exact .modify fun σ m m' later corresponds =>
      ⟨corresponds.defineLocal name (alike.mono later), .refl _⟩

theorem tracks_binding {block block' : Option ProcId} (blocks : W.Alike block block')
    {binding binding' : Binding} (alike : W.Alike binding binding') :
    W.Tracks (Comp.binding block binding) (Comp.binding block' binding') := by
  obtain rfl := alike.eq
  cases binding with
  | value value => exact .pure fun τ hτ => Binding.value.inj (alike τ hτ)
  | fallback expr => exact .eval expr
  | block =>
    refine .pure fun τ hτ => ?_
    rw [← blocks τ hτ]
    cases block <;> rfl

theorem tracks_bindParams {block block' : Option ProcId} (blocks : W.Alike block block')
    {plan plan' : BindPlan} (alike : W.Alike plan plan') :
    W.Tracks (Comp.bindParams block plan) (Comp.bindParams block' plan') := by
  induction plan generalizing W plan' with
  | nil =>
    obtain rfl := alike.eq
    exact .pure fun _ _ => rfl
  | cons param rest ih =>
    obtain rfl := alike.eq
    have first : W.Alike param.binding (under W.naming param.binding) := fun τ hτ =>
      congrArg PlannedParam.binding (List.cons.inj (alike τ hτ)).1
    have others : W.Alike rest (under W.naming rest) := fun τ hτ => (List.cons.inj (alike τ hτ)).2
    exact .bind (tracks_binding blocks first) fun W₁ later₁ value value' hvalue =>
      .bind (tracks_defineParam param.name hvalue) fun W₂ later₂ _ _ _ =>
        ih (blocks.mono (later₂.trans later₁)) (others.mono (later₂.trans later₁))

theorem tracks_declareOwned {root root' : NodeId} (place : ∀ τ, W.Allows τ → τ.node root = root') :
    W.Tracks (Comp.modify (·.declareOwned root)) (Comp.modify (·.declareOwned root')) := by
  refine .modify fun σ m m' later corresponds => ⟨?_, .refl _⟩
  rw [← place σ (later.imp σ (σ.outlook m).allows_naming)]
  exact corresponds.declareOwned root

theorem tracks_runBody (body : NodeId) (fuel : Nat) :
    W.Tracks (Comp.runBody body fuel) (Comp.runBody body fuel) := by
  induction fuel generalizing W with
  | zero => exact .outOfFuel
  | succ fuel ih =>
    refine .bind (.attempt (.eval body)) fun W₁ _ ending ending' alike => ?_
    obtain rfl := alike.eq
    rcases ending with (error | ⟨target, value⟩ | ⟨target, value⟩ | value | -) | value
    case error.redo => exact ih
    case error.next => exact .pure fun τ hτ => Exit.next.inj (Except.error.inj (alike τ hτ))
    all_goals exact .settle alike

theorem tracks_repeatBlock {block block' : ProcId} (alike : W.Alike block block') (rounds : Nat) :
    W.Tracks (Comp.repeatBlock block rounds) (Comp.repeatBlock block' rounds) := by
  induction rounds generalizing W with
  | zero => exact .outOfFuel
  | succ rounds ih =>
    refine .bind .allocate fun W₁ later₁ id id' hid => .bind (.perform nofun fun τ hτ => ?_)
      fun W₂ later₂ _ _ _ => ih (alike.mono (later₂.trans later₁))
    rw [← alike τ (later₁.imp τ hτ), ← hid τ hτ]
    rfl

/-! ### Activations -/

/-- What is done inside an activation tracks itself, or both frames are refused. -/
theorem tracks_inFrame (names : NameTable) {frame frame' : Frame} (frames : W.Alike frame frame')
    (parent : Option ScopeId) {x x' : Comp Value} (hx : W.Tracks x x') :
    W.Tracks (Comp.inFrame names frame parent x) (Comp.inFrame names frame' parent x') := by
  intro σ m m' later corresponds
  rw [Comp.inFrame, Comp.inFrame, Comp.withFrame, Comp.withFrame]
  cases hpush : m.calls.push frame with
  | error cause =>
    rw [corresponds.refuse hpush]
    exact Tracks.fail cause σ m m' later corresponds
  | ok calls =>
    obtain ⟨calls', hpush', activated⟩ := corresponds.activate hpush (frames.mono later) parent
    rw [hpush']
    have same : σ.outlook (m.activate calls parent) = σ.outlook m := by
      rw [CallStack.push_eq hpush]
      rfl
    have inside : W.Tracks (Comp.mapEnding (Comp.recordFrames names) x)
        (Comp.mapEnding (Comp.recordFrames names) x') :=
      hx.mapEnding fun σ m m' _ corresponds τ hτ ending =>
        Comp.recordFrames_under names (corresponds.frames τ hτ).symm ending
    have entered := inside σ _ _ (same ▸ later) activated
    rw [same] at entered
    exact entered.andThen fun σ₁ _ _ _ _ _ corresponds₁ alike =>
      ⟨σ₁, .refl _, corresponds₁.deactivate, alike⟩

section Activations

variable {id id' : FrameId} (ids : W.Alike id id') {given given' : CallArgs}
  (hgiven : W.Alike given given') {block block' : Option ProcId} (blocks : W.Alike block block')

include ids

theorem tracks_runLoop (names : NameTable) (fuel : Nat) {proc proc' : ProcId}
    (alike : W.Alike proc proc') :
    W.Tracks (Comp.runLoop names fuel proc id) (Comp.runLoop names fuel proc' id') := by
  refine .mapEnding (tracks_inFrame names (fun τ hτ => ?_) none (tracks_repeatBlock alike fuel))
    fun σ m m' later _ τ hτ ending => ?_
  · rw [← ids τ hτ]
    rfl
  · rw [← ids τ (later.imp τ hτ)]
    exact Comp.catchBreak_under id ending

include hgiven blocks

theorem tracks_runMethod (names : NameTable) {callee callee' : Method} (alike : W.Alike callee callee') :
    W.Tracks (Comp.runMethod names callee id given block)
      (Comp.runMethod names callee' id' given' block') := by
  obtain rfl := alike.eq
  have plans : W.Alike (BindPlan.make names callee.params .strict given)
      (BindPlan.make names callee.params .strict given') :=
    hgiven.map (BindPlan.make names callee.params .strict) fun _ _ => BindPlan.make_under ..
  refine .bind (.ofExcept plans) fun W₁ later₁ plan plan' hplan =>
    .mapEnding (tracks_inFrame names (fun τ hτ => ?_) none ?_) fun σ m m' later _ τ hτ ending => ?_
  · rw [← ids τ (later₁.imp τ hτ), ← blocks τ (later₁.imp τ hτ)]
    rfl
  · have place : ∀ τ, W₁.Allows τ → τ.node callee.root = (under W.naming callee).root :=
      fun τ hτ => congrArg Method.root (alike τ (later₁.imp τ hτ))
    exact .bind (tracks_declareOwned place) fun W₂ later₂ _ _ _ =>
      .bind (tracks_bindParams (blocks.mono (later₂.trans later₁)) (hplan.mono later₂))
        fun _ _ _ _ _ => .eval callee.body
  · rw [← ids τ (later₁.imp τ (later.imp τ hτ)), under_frameId, Comp.catchReturn_under,
      Comp.catchBreak_under]

theorem tracks_runClosure (names : NameTable) (fuel : Nat) {closure closure' : Closure}
    (corresponds : ∀ τ, W.Allows τ → closure.Corresponds τ closure') :
    W.Tracks (Comp.runClosure names fuel closure id given block)
      (Comp.runClosure names fuel closure' id' given' block') := by
  have same := corresponds W.naming W.allows_naming
  have plans : W.Alike (BindPlan.make names closure.params (.ofLambda closure.isLambda) given)
      (BindPlan.make names closure.params (.ofLambda closure.isLambda) given') :=
    hgiven.map (BindPlan.make names closure.params (.ofLambda closure.isLambda))
      fun _ _ => BindPlan.make_under ..
  rw [Comp.runClosure, Comp.runClosure, same.params, same.isLambda, same.captured, same.body]
  refine .bind (.ofExcept plans) fun W₁ later₁ plan plan' hplan =>
    .mapEnding (tracks_inFrame names (fun τ hτ => ?_) _ ?_) fun σ m m' later _ τ hτ ending => ?_
  · rw [← ids τ (later₁.imp τ hτ)]
    exact ((corresponds τ (later₁.imp τ hτ)).frame id).symm
  · have place : ∀ τ, W₁.Allows τ → τ.node closure.literal = closure'.literal :=
      fun τ hτ => ((corresponds τ (later₁.imp τ hτ)).literal).symm
    exact .bind (tracks_declareOwned place) fun W₂ later₂ _ _ _ =>
      .bind (tracks_bindParams (blocks.mono (later₂.trans later₁)) (hplan.mono later₂))
        fun _ _ _ _ _ => tracks_runBody closure.body fuel
  · rw [← ids τ (later₁.imp τ (later.imp τ hτ))]
    exact Comp.catchClosure_under id ending same.isLambda

theorem tracks_runProc (names : NameTable) (fuel : Nat) {proc proc' : ProcId}
    (alike : W.Alike proc proc') :
    W.Tracks (Comp.runProc names fuel proc id given block)
      (Comp.runProc names fuel proc' id' given' block') := by
  refine .gets_bind fun σ m m' later corresponds => ?_
  have name : σ.proc proc = proc' := (alike.mono later).eq
  cases hclosure : m.closures.get? proc with
  | none =>
    have hclosure' := corresponds.closure?_none hclosure
    rw [name] at hclosure'
    rw [hclosure']
    exact .fail _
  | some closure =>
    obtain ⟨closure', hclosure', closures⟩ := corresponds.closures proc closure hclosure
    rw [name] at hclosure'
    rw [hclosure']
    exact tracks_runClosure (ids.mono later) (hgiven.mono later) (blocks.mono later) names fuel closures

end Activations

theorem tracks_runProgram (names : NameTable) {root : NodeId} (fixed : W.Fixes root)
    {id id' : FrameId} (ids : W.Alike id id') :
    W.Tracks (Comp.runProgram names root id) (Comp.runProgram names root id') := by
  intro σ m m' later corresponds
  have frames : (σ.outlook m).Alike ({ id, kind := .top, name := .empty } : Frame)
      { id := id', kind := .top, name := .empty } := fun τ hτ => by
    rw [← ids τ (later.imp τ hτ)]
    rfl
  rw [Comp.runProgram, Comp.runProgram]
  cases hpush : m.calls.push { id, kind := .top, name := .empty } with
  | error cause =>
    rw [corresponds.refuse hpush]
    exact Tracks.fail cause σ m m' later corresponds
  | ok calls =>
    obtain ⟨calls', hpush', pushed⟩ := corresponds.push hpush frames
    rw [hpush']
    have same : σ.outlook (({ m with calls } : Machine).declareOwned root) = σ.outlook m := by
      rw [CallStack.push_eq hpush]
      rfl
    have declared := pushed.declareOwned root
    rw [fixed σ (later.imp σ (σ.outlook m).allows_naming)] at declared
    have inside : W.Tracks
        (Comp.mapEnding (fun machine ending =>
          Comp.recordFrames names machine (Comp.topEnding id ending)) (Comp.eval root))
        (Comp.mapEnding (fun machine ending =>
          Comp.recordFrames names machine (Comp.topEnding id' ending)) (Comp.eval root)) := by
      refine .mapEnding (.eval root) fun σ m m' later corresponds τ hτ ending => ?_
      rw [← ids τ (later.imp τ hτ), under_frameId, Comp.topEnding_under]
      exact Comp.recordFrames_under names (corresponds.frames τ hτ).symm _
    have entered := inside σ _ _ (same ▸ later) declared
    rw [same] at entered
    exact entered.andThen fun σ₁ _ _ _ _ _ corresponds₁ alike =>
      ⟨σ₁, .refl _, corresponds₁.pop, alike⟩

end Outlook

/-! ### Tasks -/

section Tasks

variable {program program' : Program} {σ : Naming} {m m' : Machine}

/-- A node tracks itself that is the same in both programs, together with the blocks written at
it. -/
theorem Outlook.tracks_here {W : Outlook} (names : program'.names = program.names) (fuel : Nat)
    {id : NodeId} (same : program'.nodes.node? id = program.nodes.node? id) (fixed : W.Fixes id)
    (literals : ∀ node, program.nodes.node? id = some node →
      W.KeepsLiterals program program' node.literals) :
    W.Tracks (Task.work program fuel (.node id)) (Task.work program' fuel (.node id)) := by
  rw [Task.work, Task.work, same]
  cases hnode : program.nodes.node? id with
  | none => exact .fail _
  | some node => exact tracks_node names fuel fixed (literals node hnode)

/-- The work of a task tracks that of the task under other names, where that of nodes does. -/
theorem Task.tracks_work (names : program'.names = program.names) (fuel : Nat) {task task' : Task}
    (corresponds : m.Corresponds σ m') (alike : (σ.outlook m).Alike task task')
    (fixed : ∀ root id, task = .program root id → (σ.outlook m).Fixes root)
    (node : ∀ id, task = .node id →
      (task.work program fuel m).Tracks (σ.outlook m) (task.work program' fuel m')) :
    (task.work program fuel m).Tracks (σ.outlook m) (task'.work program' fuel m') := by
  obtain rfl := alike.eq
  cases task with
  | node id => exact node id rfl
  | store site name value =>
    exact ⟨σ, .refl _, corresponds.assignLocal name fun τ hτ => (Task.store.inj (alike τ hτ)).2.2,
      fun τ hτ => congrArg Except.ok (Task.store.inj (alike τ hτ)).2.2⟩
  | program root id =>
    change Work.Tracks _ (Comp.runProgram program.names root id m)
      (Comp.runProgram program'.names root (σ.frame id) m')
    rw [names]
    exact Outlook.tracks_runProgram program.names (fixed root id rfl)
      (fun τ hτ => (Task.program.inj (alike τ hτ)).2) σ m m' (.refl _) corresponds
  | method callee id given block =>
    change Work.Tracks _ (Comp.runMethod program.names callee id given block m)
      (Comp.runMethod program'.names _ _ _ _ m')
    rw [names]
    exact Outlook.tracks_runMethod (fun τ hτ => (Task.method.inj (alike τ hτ)).2.1)
      (fun τ hτ => (Task.method.inj (alike τ hτ)).2.2.1) (fun τ hτ => (Task.method.inj (alike τ hτ)).2.2.2)
      program.names (fun τ hτ => (Task.method.inj (alike τ hτ)).1) σ m m' (.refl _) corresponds
  | closure proc id given block =>
    change Work.Tracks _ (Comp.runProc program.names fuel proc id given block m)
      (Comp.runProc program'.names fuel _ _ _ _ m')
    rw [names]
    exact Outlook.tracks_runProc (fun τ hτ => (Task.closure.inj (alike τ hτ)).2.1)
      (fun τ hτ => (Task.closure.inj (alike τ hτ)).2.2.1) (fun τ hτ => (Task.closure.inj (alike τ hτ)).2.2.2)
      program.names fuel (fun τ hτ => (Task.closure.inj (alike τ hτ)).1) σ m m' (.refl _) corresponds
  | loop block id =>
    change Work.Tracks _ (Comp.runLoop program.names fuel block id m)
      (Comp.runLoop program'.names fuel _ _ m')
    rw [names]
    exact Outlook.tracks_runLoop (fun τ hτ => (Task.loop.inj (alike τ hτ)).2) program.names fuel
      (fun τ hτ => (Task.loop.inj (alike τ hτ)).1) σ m m' (.refl _) corresponds

end Tasks

/-! ### Runs -/

/-- Two events are the same up to names, on machines that correspond. -/
def Event.Corresponds (σ : Naming) : Event → Event → Prop
  | enter task m, enter task' m' => m.Corresponds σ m' ∧ (σ.outlook m).Alike task task'
  | leave task ending m, leave task' ending' m' =>
    m.Corresponds σ m' ∧ (σ.outlook m).Alike task task' ∧ (σ.outlook m).Alike ending ending'
  | enter .., leave .. | leave .., enter .. => False

/-- The second event is the first one under other names, in all that code can get at. -/
def Event.SameUnder (σ : Naming) : Event → Event → Prop
  | enter task m, enter task' m' => task' = under σ task ∧ m.SameUnder σ m'
  | leave task ending m, leave task' ending' m' =>
    task' = under σ task ∧ ending' = under σ ending ∧ m.SameUnder σ m'
  | enter .., leave .. | leave .., enter .. => False

theorem Event.Corresponds.sameUnder {σ τ : Naming} {event event' : Event}
    (h : event.Corresponds σ event') (hτ : (σ.outlook event.machine).Allows τ) :
    event.SameUnder τ event' := by
  cases event with
  | enter task m =>
    cases event' with
    | enter task' m' => exact ⟨(h.2 τ hτ).symm, h.1.sameUnder hτ⟩
    | leave => exact h.elim
  | leave task ending m =>
    cases event' with
    | enter => exact h.elim
    | leave task' ending' m' =>
      exact ⟨(h.2.1 τ hτ).symm, (h.2.2 τ hτ).symm, h.1.sameUnder hτ⟩

/-- Some events are the same up to names, and their names were given for good. -/
def Outlook.SameEvents (W : Outlook) : List Event → List Event → Prop :=
  List.Forall₂ fun event event' => ∃ σ : Naming, W.Narrows (σ.outlook event.machine) ∧
    event.Corresponds σ event'

/-- Some events are the same up to names until a node is entered at which a condition fails. -/
def Outlook.Parts (Q : NodeId → Machine → Prop) (W : Outlook) (events events' : List Event) : Prop :=
  ∃ (W' : Outlook) (before before' : List Event) (id : NodeId) (m : Machine), W'.Narrows W ∧
    W'.SameEvents before before' ∧ ¬ Q id m ∧ before ++ [.enter (.node id) m] <+: events ∧
    before' <+: events'

/-- The events and the results of two runs are the same up to names, unless a condition fails at a
node. -/
inductive Outlook.SameRun {α : Type} [Named α] (Q : NodeId → Machine → Prop) (W : Outlook)
    (events events' : List Event) :
    Option (Ending α × Machine) → Option (Ending α × Machine) → Prop
  | stopped {W' : Outlook} (narrows : W'.Narrows W) (same : W'.SameEvents events events') :
    SameRun Q W events events' none none
  | ended {σ : Naming} {ending ending' : Ending α} {m m' : Machine}
    (narrows : (σ.outlook m).Narrows W) (corresponds : m.Corresponds σ m')
    (alike : (σ.outlook m).Alike ending ending')
    (same : (σ.outlook m).SameEvents events events') :
    SameRun Q W events events' (some (ending, m)) (some (ending', m'))
  | parted {result result' : Option (Ending α × Machine)} (parts : W.Parts Q events events') :
    SameRun Q W events events' result result'

namespace Outlook

variable {W W' : Outlook} {Q : NodeId → Machine → Prop} {events events' before before' : List Event}

theorem SameEvents.mono (h : W.SameEvents events events') (narrows : W'.Narrows W) :
    W'.SameEvents events events' :=
  h.imp fun _ _ ⟨σ, later, corresponds⟩ => ⟨σ, narrows.trans later, corresponds⟩

/-- One naming will do for all events. -/
theorem SameEvents.sameUnder (h : W.SameEvents events events') :
    List.Forall₂ (Event.SameUnder W.naming) events events' :=
  h.imp fun _ _ ⟨_, later, corresponds⟩ => corresponds.sameUnder later.allows

namespace Parts

/-- The events do not part where the condition holds. -/
theorem elim (h : W.Parts Q events events')
    (along : ∀ id m, .enter (.node id) m ∈ events → Q id m) : False := by
  obtain ⟨W', before, before', id, m, -, -, fails, hbefore, -⟩ := h
  exact fails (along id m (hbefore.subset (List.mem_append_right _ List.mem_cons_self)))

/-- The events are the same as long as the condition holds. -/
theorem take (h : W.Parts Q events events') : ∃ W' : Outlook, W'.Narrows W ∧
    ∀ n, (∀ id m, .enter (.node id) m ∈ events.take n → Q id m) →
      W'.SameEvents (events.take n) (events'.take n) := by
  obtain ⟨W', before, before', id, m, later, same, fails, hbefore, rest', rfl⟩ := h
  refine ⟨W', later, fun n along => ?_⟩
  have hn : n ≤ before.length := by
    refine Nat.le_of_not_lt fun hlt => fails (along id m ?_)
    have reached : before ++ [.enter (.node id) m] <+: events.take n :=
      List.prefix_take_iff.mpr ⟨hbefore, by rwa [List.length_append]⟩
    exact reached.subset (List.mem_append_right _ List.mem_cons_self)
  obtain ⟨rest, rfl⟩ := hbefore
  rw [List.append_assoc, List.take_append_of_le_length hn,
    List.take_append_of_le_length (same.length_eq ▸ hn)]
  exact List.forall₂_take n same

/-- Events that are the same come first. -/
theorem prepend (h : W'.Parts Q events events') (narrows : W'.Narrows W)
    (same : W'.SameEvents before before') : W.Parts Q (before ++ events) (before' ++ events') := by
  obtain ⟨W'', middle, middle', id, m, later, rest, fails, hmiddle, hmiddle'⟩ := h
  refine ⟨W'', before ++ middle, before' ++ middle', id, m, later.trans narrows,
    List.rel_append (same.mono later) rest, fails, ?_, (List.prefix_append_right_inj _).mpr hmiddle'⟩
  rw [List.append_assoc]
  exact (List.prefix_append_right_inj _).mpr hmiddle

/-- It does not matter what comes later. -/
theorem append (h : W.Parts Q events events') (rest rest' : List Event) :
    W.Parts Q (events ++ rest) (events' ++ rest') := by
  obtain ⟨W', before, before', id, m, later, same, fails, hbefore, hbefore'⟩ := h
  exact ⟨W', before, before', id, m, later, same, fails, hbefore.trans (List.prefix_append _ _),
    hbefore'.trans (List.prefix_append _ _)⟩

end Parts

/-- Events that are the same come first. -/
theorem SameRun.prepend {α : Type} [Named α] {result result' : Option (Ending α × Machine)}
    (h : W'.SameRun Q events events' result result') (narrows : W'.Narrows W)
    (same : W'.SameEvents before before') :
    W.SameRun Q (before ++ events) (before' ++ events') result result' := by
  cases h with
  | parted parts => exact .parted (parts.prepend narrows same)
  | stopped later rest =>
    exact .stopped (later.trans narrows) (List.rel_append (same.mono later) rest)
  | ended later corresponds alike rest =>
    exact .ended (later.trans narrows) corresponds alike (List.rel_append (same.mono later) rest)

end Outlook

/-- A task that ends is left. -/
theorem Outlook.SameRun.depart {W : Outlook} {Q : NodeId → Machine → Prop}
    {events events' : List Event} {result result' : Option (Ending Value × Machine)}
    (h : W.SameRun Q events events' result result') {task task' : Task}
    (alike : W.Alike task task') :
    W.SameRun Q (events ++ Program.departure task result)
      (events' ++ Program.departure task' result') result result' := by
  cases h with
  | parted parts => exact .parted (parts.append _ _)
  | stopped narrows same =>
    rw [Program.departure, Program.departure, List.append_nil, List.append_nil]
    exact .stopped narrows same
  | ended narrows corresponds endings same =>
    exact .ended narrows corresponds endings
      (List.rel_append same (.cons ⟨_, .refl _, corresponds, alike.mono narrows, endings⟩ .nil))

/-- Work ends in the same way when the tasks do that it asks for. -/
theorem Work.Tracks.run {α : Type} [Named α] {W : Outlook} {Q : NodeId → Machine → Prop}
    {perform perform' : Task → Eval Value} {record record' : Task → Machine → List Event}
    {w w' : Work α} (h : w.Tracks W w')
    (tasks : ∀ (σ : Naming) task m task' m', (∀ root id, task ≠ .program root id) →
      (σ.outlook m).Narrows W → m.Corresponds σ m' → (σ.outlook m).Alike task task' →
      (σ.outlook m).SameRun Q (record task m) (record' task' m') (perform task m)
        (perform' task' m')) :
    W.SameRun Q (w.events perform record) (w'.events perform' record') (w.run perform)
      (w'.run perform') := by
  induction w generalizing W w' with
  | done ending m =>
    cases w' with
    | done ending' m' =>
      obtain ⟨σ, later, corresponds, alike⟩ := h
      exact .ended later corresponds alike .nil
    | stuck | ask => exact h.elim
  | stuck =>
    cases w' with
    | stuck => exact .stopped (.refl W) .nil
    | done | ask => exact h.elim
  | ask task m resume ih =>
    cases w' with
    | done | stuck => exact h.elim
    | ask task' m' resume' =>
      obtain ⟨inner, σ, later, corresponds, alike, hresume⟩ := h
      have asked := tasks σ task m task' m' inner later corresponds alike
      rw [Work.events, Work.run, Work.events, Work.run]
      generalize perform task m = result at asked ⊢
      generalize perform' task' m' = result' at asked ⊢
      cases asked with
      | stopped narrows same =>
        rw [List.append_nil, List.append_nil]
        exact .stopped (narrows.trans later) same
      | ended narrows corresponds₁ alike₁ same =>
        -- the rest goes alike with the names that have been given by then
        have rest := ih _ _ (hresume _ _ _ _ _ narrows corresponds₁ alike₁)
          fun σ₂ task₂ m₂ task₂' m₂' inner₂ later₂ =>
            tasks σ₂ task₂ m₂ task₂' m₂' inner₂ (later₂.trans (narrows.trans later))
        exact rest.prepend (narrows.trans later) same
      | parted parts => exact .parted ((parts.append _ _).prepend later .nil)

/-- A naming of the same kind: scope roots stand in the same places, and both sides go on in the
same way to make closures and to take frame identities. -/
structure Naming.Like (σ base : Naming) : Prop where
  node : σ.node = base.node
  aligned : σ.aligned = base.aligned
  inStep : σ.inStep = base.inStep

theorem Naming.Like.narrow {σ τ base : Naming} {m m' : Machine} (h : σ.Like base)
    (narrows : (τ.outlook m').Narrows (σ.outlook m)) : τ.Like base where
  node := narrows.allows.node.trans h.node
  aligned := narrows.allows.aligned.trans h.aligned
  inStep := narrows.allows.inStep.trans h.inStep

/-- The nodes of two programs track each other under namings of some kind, where some condition
holds. -/
structure Program.Parallels (base : Naming) (Q : NodeId → Machine → Prop)
    (program program' : Program) : Prop where
  names : program'.names = program.names
  node : ∀ fuel id (σ : Naming) m m', σ.Like base → m.Corresponds σ m' → Q id m →
    (Task.work program fuel (.node id) m).Tracks (σ.outlook m)
      (Task.work program' fuel (.node id) m')

/-- Tasks that are the same up to names have the same events and end in the same way up to names, on
machines that correspond, until the condition fails. -/
theorem Program.Parallels.perform {base : Naming} {Q : NodeId → Machine → Prop}
    {program program' : Program} (parallels : program.Parallels base Q program') (fuel : Nat)
    {σ : Naming} (like : σ.Like base) {task task' : Task} {m m' : Machine}
    (corresponds : m.Corresponds σ m') (alike : (σ.outlook m).Alike task task')
    (fixed : ∀ root id, task = .program root id → base.node root = root) :
    (σ.outlook m).SameRun Q (program.record fuel task m) (program'.record fuel task' m')
      (program.perform fuel task m) (program'.perform fuel task' m') := by
  have entered : (σ.outlook m).SameEvents [.enter task m] [.enter task' m'] :=
    .cons ⟨σ, .refl _, corresponds, alike⟩ .nil
  induction fuel generalizing σ task task' m m' with
  | zero => exact .stopped (.refl _) entered
  | succ fuel ih =>
    by_cases holds : ∀ id, task = .node id → Q id m
    case neg =>
      obtain ⟨id, hid⟩ := not_forall.mp holds
      obtain ⟨rfl, fails⟩ := Classical.not_imp.mp hid
      exact .parted ⟨_, [], [], id, m, .refl _, .nil, fails, ⟨_, rfl⟩, List.nil_prefix⟩
    have tracked := Task.tracks_work parallels.names fuel corresponds alike
      (fun root id htask τ hτ =>
        (congrFun (hτ.node.trans like.node) root).trans (fixed root id htask))
      (fun id htask => by
        subst htask
        exact parallels.node fuel id σ m m' like corresponds (holds id rfl))
    have inner : (σ.outlook m).SameRun Q
        ((task.work program fuel m).events (program.perform fuel) (program.record fuel))
        ((task'.work program' fuel m').events (program'.perform fuel) (program'.record fuel))
        (program.perform (fuel + 1) task m) (program'.perform (fuel + 1) task' m') :=
      tracked.run fun σ₁ task₁ m₁ task₁' m₁' noProgram later corresponds₁ alike₁ =>
        ih (like.narrow later) corresponds₁ alike₁ (fun root id htask => absurd htask (noProgram root id))
          (.cons ⟨σ₁, .refl _, corresponds₁, alike₁⟩ .nil)
    exact (inner.depart alike).prepend (.refl _) entered

/-- A program parallels itself. -/
theorem Program.parallels_self (program : Program) :
    program.Parallels .same (fun _ _ => True) program where
  names := rfl
  node fuel id σ m m' like corresponds _ := by
    have fixed : ∀ id, (σ.outlook m).Fixes id := fun id τ hτ =>
      congrFun (hτ.node.trans like.node) id
    exact Outlook.tracks_here rfl fuel rfl (fixed id) (fun _ _ literal _ => ⟨fixed literal, rfl⟩) σ m m'
      (.refl _) corresponds

/-- Computations that track each other end in the same way in a program. -/
theorem Outlook.Tracks.run_self {α : Type} [Named α] {x x' : Comp α} {σ : Naming} {m m' : Machine}
    (h : (σ.outlook m).Tracks x x') (corresponds : m.Corresponds σ m') (like : σ.Like .same)
    (program : Program) (fuel : Nat) :
    (σ.outlook m).SameRun (fun _ _ => True)
      ((x m).events (program.perform fuel) (program.record fuel))
      ((x' m').events (program.perform fuel) (program.record fuel))
      ((x m).run (program.perform fuel)) ((x' m').run (program.perform fuel)) :=
  (h σ m m' (.refl _) corresponds).run fun _ _ _ _ _ noProgram later corresponds₁ alike =>
    program.parallels_self.perform fuel (like.narrow later) corresponds₁ alike
      fun root id htask => absurd htask (noProgram root id)

end ScriptSemantics
