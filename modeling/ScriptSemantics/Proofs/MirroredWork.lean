import ScriptSemantics.Proofs.Mirror

/-!
# Mirrored computations

Two computations on mirrored machines go alike when they ask for corresponding tasks and end in the
same way, as long as the tasks do.  One of them may be out of fuel earlier than the other one.
There is one rule for each way of putting computations together.

## Main Definitions

* `Slack` — which of two runs may be out of fuel while the other one is not
* `Mirroring.Asks`, `Mirroring.Ends` — corresponding tasks, corresponding ends
* `Work.Follows` — two pieces of work go alike
* `Mirroring.Pairs` — two computations go alike from mirrored machines

## Main Results

* `Mirroring.Pairs.bind`, `Mirroring.Pairs.attempt_bind`, `Mirroring.Pairs.bracket` — the rules
* `Mirroring.Pairs.by_fuel` — the rule for recursions on fuel
-/

namespace ScriptSemantics

/-- Only some closures occur in the value that an exit carries. -/
def Exit.Within (P : ProcId → Prop) : Exit → Prop
  | .returnTo _ v | .breakTo _ v | .next v => v.Within P
  | .error _ | .redo => True

/-- Which of two runs may be out of fuel while the other one is not. -/
structure Slack where
  first : Prop
  second : Prop

/-- Two amounts of fuel where a run with less of it may be out of it earlier. -/
structure Slack.Covers (slack : Slack) (fuel fuel' : Nat) : Prop where
  first : fuel < fuel' → slack.first
  second : fuel' < fuel → slack.second

/-- The same fuels are apart when both are used up by one. -/
theorem Slack.Covers.pred {slack : Slack} {fuel fuel' : Nat}
    (h : slack.Covers (fuel + 1) (fuel' + 1)) : slack.Covers fuel fuel' :=
  ⟨fun hlt => h.first (Nat.succ_lt_succ hlt), fun hlt => h.second (Nat.succ_lt_succ hlt)⟩

namespace Mirroring

variable {α β : Type}

/-- A value as wanted, or an exit in which only free closures occur. -/
def Proper (M : Mirroring) (good : α → Prop) : Ending α → Prop
  | .ok a => good a
  | .error e => e.Within M.Free

/-- Two runs end in the same way on machines that are mirrored again and have only grown. -/
structure Ends (M : Mirroring) (good : α → Prop) (m m' : Machine) (ending : Ending α) (m₁ : Machine)
    (ending' : Ending α) (m₁' : Machine) : Prop where
  same : ending' = ending
  proper : M.Proper good ending
  mirrors : M.Mirrors m₁ m₁'
  grows : m.Grows m₁
  grows' : m'.Grows m₁'

/-- Corresponding tasks on mirrored machines. -/
inductive Asks (M : Mirroring) : Task → Task → Machine → Machine → Prop
  | node {m m' : Machine} (id : NodeId) (inside : M.Inside m m') :
    Asks M (.node id) (.node (M.operand id)) m m'
  | store {m m' : Machine} (site site' : NodeId) (name : Name) {value : Value}
      (inside : M.Inside m m') (free : value.Within M.Free) :
    Asks M (.store site name value) (.store site' name value) m m'
  | method {m m' : Machine} (callee : Method) (id : FrameId) {given : CallArgs}
      {block : Option ProcId} (mirrors : M.Mirrors m m') (free : given.Within M.Free)
      (freeBlock : M.FreeBlock block) :
    Asks M (.method callee id given block)
      (.method (callee.relabel M.operand M.place) id given block) m m'
  | closure {m m' : Machine} {proc : ProcId} (id : FrameId) {given : CallArgs}
      {block : Option ProcId} (mirrors : M.Mirrors m m') (freeProc : M.Free proc)
      (free : given.Within M.Free) (freeBlock : M.FreeBlock block) :
    Asks M (.closure proc id given block) (.closure proc id given block) m m'
  | loop {m m' : Machine} {block : ProcId} (id : FrameId) (mirrors : M.Mirrors m m')
      (freeBlock : M.Free block) :
    Asks M (.loop block id) (.loop block id) m m'

end Mirroring

/-- Two pieces of work ask for corresponding tasks, and end as they should when the tasks end in the
same way.  Where a run is out of fuel, the slack has to allow it. -/
inductive Work.Follows {α : Type} (M : Mirroring) (slack : Slack)
    (post : Ending α → Machine → Ending α → Machine → Prop) : Work α → Work α → Prop
  | done {ending ending' : Ending α} {m m' : Machine} (h : post ending m ending' m') :
    Follows M slack post (.done ending m) (.done ending' m')
  | stuck : Follows M slack post .stuck .stuck
  | first (allowed : slack.first) (work' : Work α) : Follows M slack post .stuck work'
  | second (allowed : slack.second) (work : Work α) : Follows M slack post work .stuck
  | ask {task task' : Task} {m m' : Machine} {resume resume' : Ending Value → Machine → Work α}
      (asks : M.Asks task task' m m')
      (alike : ∀ ending m₁ ending' m₁', M.Ends (Value.Within M.Free) m m' ending m₁ ending' m₁' →
        Follows M slack post (resume ending m₁) (resume' ending' m₁')) :
    Follows M slack post (.ask task m resume) (.ask task' m' resume')

/-- Work that goes on with the ends of other work goes alike when both parts do. -/
theorem Work.Follows.andThen {α β : Type} {M : Mirroring} {slack : Slack}
    {post₁ : Ending α → Machine → Ending α → Machine → Prop}
    {post : Ending β → Machine → Ending β → Machine → Prop} {w w' : Work α}
    {next next' : Ending α → Machine → Work β} (h : Follows M slack post₁ w w')
    (hnext : ∀ ending m ending' m', post₁ ending m ending' m' →
      Follows M slack post (next ending m) (next' ending' m')) :
    Follows M slack post (w.andThen next) (w'.andThen next') := by
  induction h with
  | done h => exact hnext _ _ _ _ h
  | stuck => exact .stuck
  | first allowed => exact .first allowed _
  | second allowed => exact .second allowed _
  | ask asks _ ih => exact .ask asks ih

/-- Work that follows ends in what is asked, and so in anything weaker. -/
theorem Work.Follows.mono {α : Type} {M : Mirroring} {slack : Slack}
    {post post' : Ending α → Machine → Ending α → Machine → Prop} {w w' : Work α}
    (h : Follows M slack post w w')
    (weaker : ∀ ending m ending' m', post ending m ending' m' → post' ending m ending' m') :
    Follows M slack post' w w' := by
  induction h with
  | done h => exact .done (weaker _ _ _ _ h)
  | stuck => exact .stuck
  | first allowed => exact .first allowed _
  | second allowed => exact .second allowed _
  | ask asks _ ih => exact .ask asks ih

namespace Mirroring

variable {α β : Type} {M : Mirroring} {slack : Slack} {good : α → Prop} {good' : β → Prop}
  {m m' : Machine}

/-- Two computations go alike from machines that are mirrored with what they are in. -/
def Pairs (M : Mirroring) (slack : Slack) (good : α → Prop) (x x' : Comp α) : Prop :=
  ∀ m m', M.Inside m m' → (x m).Follows M slack (M.Ends good m m') (x' m')

namespace Ends

variable {ending ending' : Ending α} {m₁ m₁' m₂ m₂' : Machine}

/-- What ends in machines that are inside of the same is still inside of it. -/
theorem inside (h : M.Ends good m m' ending m₁ ending' m₁') (inside : M.Inside m m') :
    M.Inside m₁ m₁' :=
  inside.grow h.mirrors h.grows h.grows'

/-- Endings of two parts, one after the other, are endings of both. -/
theorem trans {ending₂ ending₂' : Ending β} (h : M.Ends good m m' ending m₁ ending' m₁')
    (h' : M.Ends good' m₁ m₁' ending₂ m₂ ending₂' m₂') :
    M.Ends good' m m' ending₂ m₂ ending₂' m₂' :=
  ⟨h'.same, h'.proper, h'.mirrors, h.grows.trans h'.grows, h.grows'.trans h'.grows'⟩

/-- Nothing was done. -/
theorem idle (mirrors : M.Mirrors m m') {ending : Ending α} (proper : M.Proper good ending) :
    M.Ends good m m' ending m ending m' :=
  ⟨rfl, proper, mirrors, .refl m, .refl m'⟩

end Ends

namespace Pairs

variable {x x' : Comp α}

/-! ### Single operations -/

theorem settle (ending : Ending α) (proper : M.Proper good ending) :
    M.Pairs slack good (Comp.settle ending) (Comp.settle ending) :=
  fun _ _ inside => .done (.idle inside.toMirrors proper)

theorem pure {a : α} (ha : good a) : M.Pairs slack good (pure a) (pure a) :=
  settle (.ok a) ha

/-- Two recursions on fuel go alike when one level of them does. -/
theorem by_fuel {ι : Type} {P : ι → Prop} {x y : Nat → ι → Comp α} {fuel fuel' : Nat}
    (covers : slack.Covers fuel fuel') (i : ι) (hi : P i)
    (zero : ∀ i, x 0 i = Comp.outOfFuel) (zero' : ∀ i, y 0 i = Comp.outOfFuel)
    (step : ∀ fuel fuel', (∀ i, P i → M.Pairs slack good (x fuel i) (y fuel' i)) →
      ∀ i, P i → M.Pairs slack good (x (fuel + 1) i) (y (fuel' + 1) i)) :
    M.Pairs slack good (x fuel i) (y fuel' i) := by
  induction fuel generalizing fuel' i with
  | zero =>
    intro m m' inside
    rw [zero]
    cases fuel' with
    | zero =>
      rw [zero']
      exact .stuck
    | succ fuel' => exact .first (covers.first (Nat.zero_lt_succ _)) _
  | succ fuel ih =>
    cases fuel' with
    | zero =>
      intro m m' inside
      rw [zero']
      exact .second (covers.second (Nat.zero_lt_succ _)) _
    | succ fuel' => exact step fuel fuel' (fun i hi => ih covers.pred i hi) i hi

theorem exit {e : Exit} (free : e.Within M.Free) :
    M.Pairs slack good (Comp.exit e) (Comp.exit e) :=
  settle (.error e) free

theorem fail (cause : ErrorCause) : M.Pairs slack good (Comp.fail cause) (Comp.fail cause) :=
  exit (e := .error { cause }) trivial

/-- A conversion goes alike with itself if it gives good values. -/
theorem ofExcept {result : Except ErrorCause α} (h : ∀ a, result = .ok a → good a) :
    M.Pairs slack good (Comp.ofExcept result) (Comp.ofExcept result) := by
  cases result with
  | ok a => exact pure (h a rfl)
  | error cause => exact fail cause

/-- An operation goes alike if it keeps mirrored machines mirrored and yields the same. -/
theorem modifyGet {f f' : Machine → α × Machine}
    (h : ∀ m m', M.Inside m m' → (f' m').1 = (f m).1 ∧ good (f m).1 ∧
      M.Mirrors (f m).2 (f' m').2 ∧ m.Grows (f m).2 ∧ m'.Grows (f' m').2) :
    M.Pairs slack good (Comp.modifyGet f) (Comp.modifyGet f') := by
  intro m m' inside
  obtain ⟨hvalue, hgood, mirrors, grows, grows'⟩ := h m m' inside
  exact .done ⟨congrArg Except.ok hvalue, hgood, mirrors, grows, grows'⟩

/-- An operation goes alike if it keeps mirrored machines mirrored. -/
theorem modify {f f' : Machine → Machine}
    (h : ∀ m m', M.Inside m m' → M.Mirrors (f m) (f' m') ∧ m.Grows (f m) ∧ m'.Grows (f' m')) :
    M.Pairs slack (fun _ => True) (Comp.modify f) (Comp.modify f') := by
  intro m m' inside
  obtain ⟨mirrors, grows, grows'⟩ := h m m' inside
  exact .done ⟨rfl, trivial, mirrors, grows, grows'⟩

theorem allocateFrame :
    M.Pairs slack (fun _ => True) Comp.allocateFrame Comp.allocateFrame :=
  modifyGet fun _ _ inside =>
    have ⟨same, mirrors⟩ := inside.allocateFrame
    have grows (m : Machine) : m.Grows m.allocateFrame.2 :=
      .keep (.refl _) rfl rfl (Nat.le_succ _) rfl
    ⟨same, trivial, mirrors, grows _, grows _⟩

/-- Corresponding tasks are performed. -/
theorem perform {task task' : Task} (asks : ∀ m m', M.Inside m m' → M.Asks task task' m m') :
    M.Pairs slack (Value.Within M.Free) (Comp.perform task) (Comp.perform task') :=
  fun m m' inside => .ask (asks m m' inside) fun _ _ _ _ => .done

/-- An operand goes alike with the one in its place. -/
theorem eval (id : NodeId) :
    M.Pairs slack (Value.Within M.Free) (Comp.eval id) (Comp.eval (M.operand id)) :=
  perform fun _ _ => .node id

theorem store (site site' : NodeId) (name : Name) {value : Value} (free : value.Within M.Free) :
    M.Pairs slack (Value.Within M.Free) (Comp.store site name value) (Comp.store site' name value) :=
  perform fun _ _ inside => .store site site' name inside free

/-! ### Sequences of operations -/

/-- Computations go alike one after the other, with good values in between. -/
theorem bind {f f' : α → Comp β} (hx : M.Pairs slack good x x')
    (hf : ∀ a, good a → M.Pairs slack good' (f a) (f' a)) :
    M.Pairs slack good' (x >>= f) (x' >>= f') := by
  intro m m' inside
  refine (hx m m' inside).andThen fun ending m₁ ending' m₁' ends => ?_
  obtain rfl := ends.same
  cases ending' with
  | error e => exact .done ⟨rfl, ends.proper, ends.mirrors, ends.grows, ends.grows'⟩
  | ok a =>
    exact (hf a ends.proper m₁ m₁' (ends.inside inside)).mono fun _ _ _ _ => ends.trans

/-- What was read may be told apart, as long as the computations go on alike. -/
theorem gets_bind {γ : Type} {f f' : Machine → γ} {k k' : γ → Comp α}
    (h : ∀ m m', M.Inside m m' →
      (k (f m) m).Follows M slack (M.Ends good m m') (k' (f' m') m')) :
    M.Pairs slack good (Comp.gets f >>= k) (Comp.gets f' >>= k') :=
  h

/-- What both machines agree on may be read. -/
theorem gets_bind_same {γ : Type} {f : Machine → γ} {k k' : γ → Comp α}
    (same : ∀ m m', M.Inside m m' → f m' = f m) (hk : ∀ a, M.Pairs slack good (k a) (k' a)) :
    M.Pairs slack good (Comp.gets f >>= k) (Comp.gets f >>= k') := by
  refine gets_bind fun m m' inside => ?_
  rw [same m m' inside]
  exact hk (f m) m m' inside

/-- What follows an attempt goes alike after the same ending. -/
theorem attempt_bind {f f' : Ending α → Comp β} (hx : M.Pairs slack good x x')
    (hf : ∀ ending : Ending α, M.Proper good ending → M.Pairs slack good' (f ending) (f' ending)) :
    M.Pairs slack good' (Comp.attempt x >>= f) (Comp.attempt x' >>= f') := by
  intro m m' inside
  have attempted : (Comp.attempt x m).Follows M slack (fun ending m₁ ending' m₁' =>
      ∃ inner, ending = .ok inner ∧ ending' = .ok inner ∧ M.Ends good m m' inner m₁ inner m₁')
      (Comp.attempt x' m') := by
    refine (hx m m' inside).andThen fun ending m₁ ending' m₁' ends => ?_
    obtain rfl := ends.same
    exact .done ⟨ending', rfl, rfl, ends⟩
  refine attempted.andThen ?_
  rintro ending m₁ ending' m₁' ⟨inner, rfl, rfl, ends⟩
  exact (hf inner ends.proper m₁ m₁' (ends.inside inside)).mono fun _ _ _ _ => ends.trans

/-- Something is done before and after, however a computation ends. -/
theorem bracket {before after before' after' : Machine → Machine} (hx : M.Pairs slack good x x')
    (enter : ∀ m m', M.Inside m m' → M.Inside (before m) (before' m'))
    (leave : ∀ m m', M.Mirrors m m' → M.Mirrors (after m) (after' m'))
    (grows : ∀ m m₁, (before m).Grows m₁ → m.Grows (after m₁))
    (grows' : ∀ m m₁, (before' m).Grows m₁ → m.Grows (after' m₁)) :
    M.Pairs slack good (Comp.bracket before after x) (Comp.bracket before' after' x') := by
  intro m m' inside
  refine (hx _ _ (enter m m' inside)).andThen fun ending m₁ ending' m₁' ends => .done ?_
  exact ⟨ends.same, ends.proper, leave _ _ ends.mirrors, grows _ _ ends.grows,
    grows' _ _ ends.grows'⟩

theorem inTransparentScope (hx : M.Pairs slack good x x') :
    M.Pairs slack good (Comp.inTransparentScope x) (Comp.inTransparentScope x') :=
  bracket hx (fun _ _ inside => inside.enterTransparent_left.enterTransparent_right)
    (fun _ _ mirrors => mirrors.leave) (fun _ _ => .leaveTransparent) fun _ _ => .leaveTransparent

/-- Both computations run inside of a counted loop. -/
theorem inLoop (hx : M.Pairs slack good x x') :
    M.Pairs slack good
      (Comp.bracket (·.mapCalls CallStack.beginLoop) (·.mapCalls CallStack.endLoop) x)
      (Comp.bracket (·.mapCalls CallStack.beginLoop) (·.mapCalls CallStack.endLoop) x') :=
  bracket hx (fun _ _ inside => inside.beginLoop) (fun _ _ mirrors => mirrors.mapCalls _)
    (fun _ _ => .endLoop) fun _ _ => .endLoop

end Pairs

/-! ### Activations -/

/-- A change of the ends that both runs make. -/
theorem follows_mapEnding {x x' : Comp α} {f f' : Machine → Ending α → Ending β}
    (hx : (x m).Follows M slack (M.Ends good m m') (x' m'))
    (hf : ∀ m₁ m₁' ending, M.Mirrors m₁ m₁' → M.Proper good ending →
      f' m₁' ending = f m₁ ending ∧ M.Proper good' (f m₁ ending)) :
    (Comp.mapEnding f x m).Follows M slack (M.Ends good' m m') (Comp.mapEnding f' x' m') := by
  refine hx.andThen fun ending m₁ ending' m₁' ends => ?_
  obtain rfl := ends.same
  obtain ⟨same, proper⟩ := hf m₁ m₁' ending' ends.mirrors ends.proper
  exact .done ⟨same, proper, ends.mirrors, ends.grows, ends.grows'⟩

/-- The frames that are recorded depend on the call stack only. -/
theorem recordFrames_congr (names : NameTable) (h : m'.calls = m.calls) (ending : Ending α) :
    Comp.recordFrames names m' ending = Comp.recordFrames names m ending := by
  rcases ending with e | a
  · cases e with
    | error error => rw [Comp.recordFrames, Comp.recordFrames, h]
    | _ => rfl
  · rfl

/-- Recording the frames keeps an ending proper. -/
theorem Proper.recordFrames {names : NameTable} {ending : Ending α} (h : M.Proper good ending)
    (m : Machine) : M.Proper good (Comp.recordFrames names m ending) := by
  rcases ending with e | a
  · cases e with
    | error => trivial
    | _ => exact h
  · exact h

/-- Both computations run in an activation with the same frame, whose block is free.  The machines
have to be mirrored, but they may be in different scopes. -/
theorem Mirrors.inFrame {x x' : Comp α} (mirrors : M.Mirrors m m') (names : NameTable) (frame : Frame)
    (block : M.FreeBlock frame.block) {parent parent' : Option ScopeId}
    (parents : Option.Rel (ScopeStore.Twin M.base M.base' m.env.store m'.env.store) parent parent')
    (hx : M.Pairs slack good x x') :
    (Comp.inFrame names frame parent x m).Follows M slack (M.Ends good m m')
      (Comp.inFrame names frame parent' x' m') := by
  rw [Comp.inFrame, Comp.inFrame, Comp.withFrame, Comp.withFrame, mirrors.calls]
  cases hpush : m.calls.push frame with
  | error cause => exact .done (.idle mirrors trivial)
  | ok calls =>
    have inside := mirrors.activate hpush block parents
    have recorded : (Comp.mapEnding (Comp.recordFrames names) x (m.activate calls parent)).Follows M
        slack (M.Ends good (m.activate calls parent) (m'.activate calls parent'))
        (Comp.mapEnding (Comp.recordFrames names) x' (m'.activate calls parent')) :=
      follows_mapEnding (hx _ _ inside) fun m₁ m₁' ending mirrors proper =>
        ⟨recordFrames_congr names mirrors.calls ending, proper.recordFrames m₁⟩
    refine recorded.andThen fun ending m₁ ending' m₁' ends => .done ?_
    exact ⟨ends.same, ends.proper, ends.mirrors.deactivate, .deactivate hpush ends.grows,
      .deactivate (mirrors.calls ▸ hpush) ends.grows'⟩

end Mirroring

end ScriptSemantics
