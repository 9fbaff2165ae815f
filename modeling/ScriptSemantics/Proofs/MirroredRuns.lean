import ScriptSemantics.Proofs.MirroredConstructs

/-!
# Mirrored runs

Programs whose nodes correspond run alike on mirrored machines.  In the second program an operand
may stand behind a node that only evaluates it in one more transparent scope.

## Main Definitions

* `Slack.Agree` — two results are the same, as far as both runs have enough fuel
* `Mirroring.Simulates` — one program does what another one does, up to additional scopes

## Main Results

* `Mirroring.Relates.follows_asks`, `Mirroring.Relates.follows_node` — the work of corresponding
  tasks goes alike
* `Mirroring.Simulates.perform` — corresponding tasks end in the same way on mirrored machines
-/

namespace ScriptSemantics

namespace Mirroring

variable {M : Mirroring} {slack : Slack} {program program' : Program} {m m' : Machine}
  {fuel fuel' : Nat} {id : FrameId} {ending : Ending Value}

/-! ### Catching exits -/

theorem Proper.catchReturn (h : M.Proper (Value.Within M.Free) ending) (id : FrameId) :
    M.Proper (Value.Within M.Free) (Comp.catchReturn id ending) := by
  unfold Comp.catchReturn
  split
  · split
    · exact h
    · exact h
  · exact h

theorem Proper.catchBreak (h : M.Proper (Value.Within M.Free) ending) (id : FrameId) :
    M.Proper (Value.Within M.Free) (Comp.catchBreak id ending) := by
  unfold Comp.catchBreak
  split
  · split
    · exact h
    · exact h
  · exact h

theorem Proper.catchClosure (h : M.Proper (Value.Within M.Free) ending) (closure : Closure)
    (id : FrameId) : M.Proper (Value.Within M.Free) (Comp.catchClosure closure id ending) := by
  unfold Comp.catchClosure
  split
  · exact (h.catchReturn id).catchBreak id
  · exact h.catchBreak id

theorem Proper.topEnding (h : M.Proper (Value.Within M.Free) ending) (id : FrameId) :
    M.Proper (Value.Within M.Free) (Comp.topEnding id ending) := by
  have caught := h.catchReturn id
  unfold Comp.topEnding
  split
  next heq =>
    rw [heq] at caught
    exact caught
  next => trivial

/-! ### Bodies -/

theorem pairs_bindParams {block : Option ProcId} (free : M.FreeBlock block) {plan : BindPlan}
    (within : ∀ planned ∈ plan, planned.binding.Within M.Free) :
    M.Pairs slack (fun _ => True) (Comp.bindParams block plan)
      (Comp.bindParams block (plan.relabel M.operand)) := by
  induction plan with
  | nil => exact .pure trivial
  | cons param rest ih =>
    obtain ⟨name, binding⟩ := param
    have received : M.Pairs slack (Value.Within M.Free) (Comp.binding block binding)
        (Comp.binding block (binding.relabel M.operand)) := by
      have hbinding := within _ List.mem_cons_self
      cases binding with
      | value value => exact .pure hbinding
      | fallback expr => exact .eval expr
      | block =>
        refine .pure ?_
        cases block with
        | none => exact Value.within_nil
        | some proc => exact Value.within_proc.mpr (free proc rfl)
    have defined : ∀ value : Value, value.Within M.Free →
        M.Pairs slack (fun _ => True) (Comp.defineParam name value) (Comp.defineParam name value) := by
      intro value hvalue
      rw [Comp.defineParam]
      split
      · exact .pure trivial
      · exact .modify fun m m' inside => ⟨(inside.define name hvalue).toMirrors,
          .keep (Environment.sameShape_define _ _) rfl rfl (Nat.le_refl _) rfl,
          .keep (Environment.sameShape_define _ _) rfl rfl (Nat.le_refl _) rfl⟩
    exact .bind received fun value hvalue => .bind (defined value hvalue) fun _ _ =>
      ih fun planned hplanned => within planned (List.mem_cons_of_mem _ hplanned)

/-- The code of a callable goes alike when what follows the parameters does. -/
theorem pairs_code (root : NodeId) {block : Option ProcId} (free : M.FreeBlock block)
    {plan : BindPlan} (within : ∀ planned ∈ plan, planned.binding.Within M.Free)
    {x x' : Comp Value} (hx : M.Pairs slack (Value.Within M.Free) x x') :
    M.Pairs slack (Value.Within M.Free)
      (Comp.modify (·.declareOwned root) >>= fun _ => Comp.bindParams block plan >>= fun _ => x)
      (Comp.modify (·.declareOwned (M.place root)) >>= fun _ =>
        Comp.bindParams block (plan.relabel M.operand) >>= fun _ => x') := by
  have declared : M.Pairs slack (fun _ => True) (Comp.modify (·.declareOwned root))
      (Comp.modify (·.declareOwned (M.place root))) :=
    .modify fun m m' inside => ⟨(inside.declareOwned root).toMirrors,
      .keep (Environment.sameShape_declareAll _ _) rfl rfl (Nat.le_refl _) rfl,
      .keep (Environment.sameShape_declareAll _ _) rfl rfl (Nat.le_refl _) rfl⟩
  exact .bind declared fun _ _ => .bind (pairs_bindParams free within) fun _ _ => hx

theorem pairs_runBody (covers : slack.Covers fuel fuel') (body : NodeId) :
    M.Pairs slack (Value.Within M.Free) (Comp.runBody body fuel)
      (Comp.runBody (M.operand body) fuel') := by
  refine .by_fuel (P := fun _ => True) (x := fun fuel body => Comp.runBody body fuel)
    (y := fun fuel body => Comp.runBody (M.operand body) fuel) covers body trivial
    (fun _ => rfl) (fun _ => rfl) fun fuel fuel' ih body _ => ?_
  refine .attempt_bind (.eval body) fun ending proper => ?_
  rcases ending with e | value
  · cases e with
    | redo => exact ih body trivial
    | next value => exact .pure proper
    | _ => exact .settle _ proper
  · exact .settle _ proper

theorem pairs_repeatBlock (covers : slack.Covers fuel fuel') {block : ProcId}
    (free : M.Free block) :
    M.Pairs slack (Value.Within M.Free) (Comp.repeatBlock block fuel)
      (Comp.repeatBlock block fuel') := by
  refine .by_fuel (x := fun fuel block => Comp.repeatBlock block fuel)
    (y := fun fuel block => Comp.repeatBlock block fuel) covers block free
    (fun _ => rfl) (fun _ => rfl) fun fuel fuel' ih block free => ?_
  refine .bind .allocateFrame fun id _ => ?_
  refine .bind (.perform fun _ _ inside => ?_) fun _ _ => ih block free
  exact .closure id inside.toMirrors free CallArgs.within_empty freeBlock_none

/-! ### Activations -/

/-- A method goes alike from mirrored machines, in whatever scope it is called. -/
theorem Mirrors.runMethod (mirrors : M.Mirrors m m') (names : NameTable) (callee : Method)
    (id : FrameId) {given : CallArgs} {block : Option ProcId} (freeArgs : given.Within M.Free)
    (free : M.FreeBlock block) :
    (Comp.runMethod names callee id given block m).Follows M slack
      (M.Ends (Value.Within M.Free) m m')
      (Comp.runMethod names (callee.relabel M.operand M.place) id given block m') := by
  have hplan := BindPlan.make_relabel (g := M.operand) names callee.params .strict given
  have within : ∀ plan, BindPlan.make names callee.params .strict given = .ok plan →
      ∀ planned ∈ plan, planned.binding.Within M.Free := fun _ => BindPlan.within_make freeArgs
  rw [Comp.runMethod, Comp.runMethod, Method.relabel, hplan]
  cases hmake : BindPlan.make names callee.params .strict given with
  | error cause => exact .done (.idle mirrors trivial)
  | ok plan =>
    refine follows_mapEnding ?_ fun m₁ m₁' ending _ proper =>
      ⟨rfl, (proper.catchReturn id).catchBreak id⟩
    exact mirrors.inFrame names { id, kind := .method, name := callee.name, block } free .none
      (pairs_code callee.root free (within plan hmake) (.eval callee.body))

theorem Mirrors.runClosure (mirrors : M.Mirrors m m') (covers : slack.Covers fuel fuel')
    (names : NameTable) {closure closure' : Closure} (id : FrameId) {given : CallArgs}
    {block : Option ProcId} (freeArgs : given.Within M.Free) (free : M.FreeBlock block)
    (same : closure' = { closure.relabel M.operand M.place with captured := closure'.captured })
    (closures : M.ClosureMirrors m.env.store m'.env.store closure closure') :
    (Comp.runClosure names fuel closure id given block m).Follows M slack
      (M.Ends (Value.Within M.Free) m m')
      (Comp.runClosure names fuel' closure' id given block m') := by
  have hframe : Comp.closureFrame closure' id = Comp.closureFrame closure id := by rw [same]; rfl
  have hcatch : Comp.catchClosure closure' id = Comp.catchClosure closure id := by rw [same]; rfl
  have hblock : (Comp.closureFrame closure id).block = closure.outerBlock := by
    rw [Comp.closureFrame]
    split <;> rfl
  have hlambda : closure'.isLambda = closure.isLambda := by rw [same]; rfl
  have hparams : closure'.params = closure.params.relabel M.operand := by rw [same]; rfl
  have hliteral : closure'.literal = M.place closure.literal := by rw [same]; rfl
  have hbody : closure'.body = M.operand closure.body := by rw [same]; rfl
  have hplan := BindPlan.make_relabel (g := M.operand) names closure.params
    (.ofLambda closure.isLambda) given
  have within : ∀ plan, BindPlan.make names closure.params (.ofLambda closure.isLambda) given =
      .ok plan → ∀ planned ∈ plan, planned.binding.Within M.Free :=
    fun _ => BindPlan.within_make freeArgs
  rw [Comp.runClosure, Comp.runClosure, hframe, hcatch, hlambda, hparams, hliteral, hbody, hplan]
  cases hmake : BindPlan.make names closure.params (.ofLambda closure.isLambda) given with
  | error cause => exact .done (.idle mirrors trivial)
  | ok plan =>
    refine follows_mapEnding ?_ fun m₁ m₁' ending _ proper => ⟨rfl, proper.catchClosure closure id⟩
    exact mirrors.inFrame names _ (by rw [hblock]; exact closures.outerBlock) (.some closures.captured)
      (pairs_code closure.literal free (within plan hmake) (pairs_runBody covers closure.body))

theorem Mirrors.runProc (mirrors : M.Mirrors m m') (covers : slack.Covers fuel fuel')
    (names : NameTable) {proc : ProcId} (id : FrameId) {given : CallArgs} {block : Option ProcId}
    (freeProc : M.Free proc) (freeArgs : given.Within M.Free) (free : M.FreeBlock block) :
    (Comp.runProc names fuel proc id given block m).Follows M slack
      (M.Ends (Value.Within M.Free) m m') (Comp.runProc names fuel' proc id given block m') := by
  rw [Comp.runProc, Comp.runProc, Comp.gets_bind, Comp.gets_bind]
  rcases mirrors.closure_cases proc with ⟨hnone, hnone'⟩ | ⟨closure, closure', hclosure, hclosure'⟩
  · rw [hnone, hnone']
    exact .done (.idle mirrors trivial)
  · rw [hclosure, hclosure']
    obtain ⟨same, closures⟩ := mirrors.closures proc closure closure' hclosure hclosure'
    exact mirrors.runClosure covers names id freeArgs free same (closures freeProc)

theorem Mirrors.runLoop (mirrors : M.Mirrors m m') (covers : slack.Covers fuel fuel')
    (names : NameTable) {block : ProcId} (id : FrameId) (free : M.Free block) :
    (Comp.runLoop names fuel block id m).Follows M slack (M.Ends (Value.Within M.Free) m m')
      (Comp.runLoop names fuel' block id m') := by
  refine follows_mapEnding ?_ fun m₁ m₁' ending _ proper => ⟨rfl, proper.catchBreak id⟩
  exact mirrors.inFrame names { id, kind := .builtin, name := .loop } freeBlock_none .none
    (pairs_repeatBlock covers free)

/-- A program goes alike from machines that are mirrored with their top-level scopes. -/
theorem Inside.runProgram (inside : M.Inside m m') (names : NameTable) {root : NodeId}
    (hroot : M.operand root = M.place root) (id : FrameId) :
    (Comp.runProgram names root id m).Follows M slack (M.Ends (Value.Within M.Free) m m')
      (Comp.runProgram names (M.place root) id m') := by
  rw [Comp.runProgram, Comp.runProgram, inside.calls]
  cases hpush : m.calls.push { id, kind := .top, name := .empty } with
  | error cause => exact .done (.idle inside.toMirrors trivial)
  | ok calls =>
    have pushed : M.Inside { m with calls } { m' with calls } := by
      refine { inside with calls := rfl, block := fun id hid => ?_ }
      have hcalls := CallStack.push_eq hpush
      rw [Machine.block?, Machine.frame?, CallStack.current?] at hid
      dsimp only at hid
      rw [hcalls] at hid
      cases hid
    have evaluated : (Comp.mapEnding
        (fun machine ending => Comp.recordFrames names machine (Comp.topEnding id ending))
        (Comp.eval root) ({ m with calls }.declareOwned root)).Follows M slack
        (M.Ends (Value.Within M.Free) ({ m with calls }.declareOwned root)
          ({ m' with calls }.declareOwned (M.place root)))
        (Comp.mapEnding
          (fun machine ending => Comp.recordFrames names machine (Comp.topEnding id ending))
          (Comp.eval (M.place root)) ({ m' with calls }.declareOwned (M.place root))) := by
      have run : M.Pairs slack (Value.Within M.Free) (Comp.eval root) (Comp.eval (M.place root)) :=
        hroot ▸ .eval root
      exact follows_mapEnding (run _ _ (pushed.declareOwned root))
        fun m₁ m₁' ending mirrors proper =>
          ⟨recordFrames_congr names mirrors.calls _, (proper.topEnding id).recordFrames m₁⟩
    refine evaluated.andThen fun ending m₁ ending' m₁' ends => .done ?_
    exact ⟨ends.same, ends.proper, ends.mirrors.mapCalls _, .leaveProgram hpush ends.grows,
      .leaveProgram (inside.calls ▸ hpush) ends.grows'⟩

/-! ### Tasks -/

/-- The work of corresponding nodes goes alike. -/
theorem Relates.follows_node (relates : M.Relates program program')
    (covers : slack.Covers fuel fuel') (id : NodeId) (inside : M.Inside m m') :
    (Task.work program fuel (.node id) m).Follows M slack (M.Ends (Value.Within M.Free) m m')
      (Task.work program' fuel' (.node (M.place id)) m') := by
  have hnode := relates.node id
  rw [Task.work, Task.work, hnode]
  cases hcase : program.nodes.node? id with
  | none => exact Pairs.fail _ m m' inside
  | some node => exact relates.pairs_node covers hcase m m' inside

/-- The work of other corresponding tasks goes alike. -/
theorem Relates.follows_asks (relates : M.Relates program program')
    (covers : slack.Covers fuel fuel') {task task' : Task} (asks : M.Asks task task' m m')
    (other : ∀ id, task ≠ .node id) :
    (task.work program fuel m).Follows M slack (M.Ends (Value.Within M.Free) m m')
      (task'.work program' fuel' m') := by
  have hnames := relates.names
  cases asks with
  | node id => exact absurd rfl (other id)
  | store site site' name inside free =>
    exact .done ⟨rfl, free, (inside.assignLocal name free).toMirrors,
      .keep (Environment.sameShape_assignLocal _ _) rfl rfl (Nat.le_refl _) rfl,
      .keep (Environment.sameShape_assignLocal _ _) rfl rfl (Nat.le_refl _) rfl⟩
  | method callee id mirrors free freeBlock =>
    rw [Task.work, Task.work, hnames]
    exact mirrors.runMethod program.names callee id free freeBlock
  | closure id mirrors freeProc free freeBlock =>
    rw [Task.work, Task.work, hnames]
    exact mirrors.runProc covers program.names id freeProc free freeBlock
  | loop id mirrors free =>
    rw [Task.work, Task.work, hnames]
    exact mirrors.runLoop covers program.names id free

end Mirroring

/-! ### Runs -/

/-- Two results are related, or one of them is missing where the slack allows it. -/
def Slack.Agree {α : Type} (slack : Slack) (post : Ending α → Machine → Ending α → Machine → Prop) :
    Option (Ending α × Machine) → Option (Ending α × Machine) → Prop
  | some (ending, m), some (ending', m') => post ending m ending' m'
  | none, some _ => slack.first
  | some _, none => slack.second
  | none, none => True

namespace Slack.Agree

variable {α : Type} {slack : Slack} {post : Ending α → Machine → Ending α → Machine → Prop}
  {result result' : Option (Ending α × Machine)}

theorem none_left (allowed : slack.first) : slack.Agree post none result' := by
  cases result' with
  | none => trivial
  | some => exact allowed

theorem none_right (allowed : slack.second) : slack.Agree post result none := by
  cases result with
  | none => trivial
  | some => exact allowed

theorem mono {post' : Ending α → Machine → Ending α → Machine → Prop}
    (h : slack.Agree post result result')
    (weaker : ∀ ending m ending' m', post ending m ending' m' → post' ending m ending' m') :
    slack.Agree post' result result' := by
  cases result with
  | none => cases result' <;> exact h
  | some =>
    cases result' with
    | none => exact h
    | some => exact weaker _ _ _ _ h

/-- Where the second run has enough fuel, it ends when the first one does. -/
theorem exists_right {ending : Ending α} {m : Machine}
    (h : slack.Agree post (some (ending, m)) result') (full : ¬slack.second) :
    ∃ ending' m', result' = some (ending', m') ∧ post ending m ending' m' := by
  cases result' with
  | none => exact absurd h full
  | some result' => exact ⟨result'.1, result'.2, rfl, h⟩

/-- Where the first run has enough fuel, it ends when the second one does. -/
theorem exists_left {ending' : Ending α} {m' : Machine}
    (h : slack.Agree post result (some (ending', m'))) (full : ¬slack.first) :
    ∃ ending m, result = some (ending, m) ∧ post ending m ending' m' := by
  cases result with
  | none => exact absurd h full
  | some result => exact ⟨result.1, result.2, rfl, h⟩

/-- Where both runs have enough fuel, both end or neither does. -/
theorem rel {R : Ending α × Machine → Ending α × Machine → Prop}
    (h : slack.Agree post result result') (full : ¬slack.first) (full' : ¬slack.second)
    (related : ∀ ending m ending' m', post ending m ending' m' → R (ending, m) (ending', m')) :
    Option.Rel R result result' := by
  cases result with
  | none =>
    cases result' with
    | none => exact .none
    | some => exact absurd h full
  | some =>
    cases result' with
    | none => exact absurd h full'
    | some => exact .some (related _ _ _ _ h)

/-- The machine that the second run leaves is changed. -/
theorem map_right {post' : Ending α → Machine → Ending α → Machine → Prop} {f : Machine → Machine}
    (h : slack.Agree post result result')
    (changed : ∀ ending m ending' m', post ending m ending' m' → post' ending m ending' (f m')) :
    slack.Agree post' result (result'.map fun result => (result.1, f result.2)) := by
  cases result with
  | none => cases result' <;> exact h
  | some =>
    cases result' with
    | none => exact h
    | some => exact changed _ _ _ _ h

end Slack.Agree

namespace Mirroring

variable {M : Mirroring} {slack : Slack} {program program' : Program} {m m' : Machine}
  {fuel fuel' stretch : Nat} {task task' : Task}

/-- Work that goes alike has results that agree when those of the tasks do that it asks for. -/
theorem agree_run {α : Type} {post : Ending α → Machine → Ending α → Machine → Prop}
    {w w' : Work α} {perform perform' : Task → Eval Value} (h : w.Follows M slack post w')
    (tasks : ∀ task task' m m', M.Asks task task' m m' →
      slack.Agree (M.Ends (Value.Within M.Free) m m') (perform task m) (perform' task' m')) :
    slack.Agree post (w.run perform) (w'.run perform') := by
  induction h with
  | done h => exact h
  | stuck => trivial
  | first allowed => exact .none_left allowed
  | second allowed => exact .none_right allowed
  | @ask task task' m m' resume resume' asks _ ih =>
    have asked := tasks task task' m m' asks
    rw [Work.run, Work.run]
    cases hperform : perform task m with
    | none =>
      cases hperform' : perform' task' m' with
      | none => trivial
      | some =>
        rw [hperform, hperform'] at asked
        exact .none_left asked
    | some =>
      cases hperform' : perform' task' m' with
      | none =>
        rw [hperform, hperform'] at asked
        exact .none_right asked
      | some =>
        rw [hperform, hperform'] at asked
        exact ih _ _ _ _ asked

/-- One program does what another one does: its nodes correspond, and an operand that is not in the
place of the node that it stands for evaluates that node in one more transparent scope.  The stretch
says how many levels of fuel the second program needs for one level of the first one. -/
structure Simulates (M : Mirroring) (stretch : Nat) (program program' : Program) : Prop
    extends M.Relates program program' where
  positive : 0 < stretch
  detour : ∀ id, M.operand id = M.place id ∨ 2 ≤ stretch ∧ ∀ fuel m,
    program'.perform (fuel + 1) (.node (M.operand id)) m =
      (Comp.inTransparentScope (Comp.eval (M.place id)) m).run (program'.perform fuel)

/-- A task that is performed in a transparent scope. -/
theorem run_inTransparentScope (task : Task) (perform : Task → Eval Value) (m : Machine) :
    (Comp.inTransparentScope (Comp.perform task) m).run perform =
      (perform task (m.mapEnv .enterTransparent)).map fun result =>
        (result.1, result.2.mapEnv .leave) := by
  cases h : perform task (m.mapEnv .enterTransparent) with
  | none => simp [Comp.inTransparentScope, Comp.bracket, Comp.perform, Work.run, h]
  | some => simp [Comp.inTransparentScope, Comp.bracket, Comp.perform, Work.run, h]

/-- Corresponding tasks end in the same way on mirrored machines. -/
theorem Simulates.perform (simulates : M.Simulates stretch program program')
    (first : fuel < fuel' → slack.first) (second : fuel' < stretch * fuel → slack.second)
    (asks : M.Asks task task' m m') :
    slack.Agree (M.Ends (Value.Within M.Free) m m') (program.perform fuel task m)
      (program'.perform fuel' task' m') := by
  induction fuel generalizing fuel' task task' m m' with
  | zero =>
    cases fuel' with
    | zero => trivial
    | succ fuel' => exact .none_left (first (Nat.zero_lt_succ _))
  | succ fuel ih =>
    have positive := simulates.positive
    rw [Nat.mul_succ] at second
    cases fuel' with
    | zero => exact .none_right (second (by omega))
    | succ fuel' =>
      have hle : fuel ≤ stretch * fuel := Nat.le_mul_of_pos_left fuel positive
      -- fuels may be apart as far as the slack allows
      have tasks : ∀ n, (fuel < n → slack.first) → (n < stretch * fuel → slack.second) →
          ∀ task task' m m', M.Asks task task' m m' →
          slack.Agree (M.Ends (Value.Within M.Free) m m') (program.perform fuel task m)
            (program'.perform n task' m') := fun _ h h' _ _ _ _ => ih h h'
      have covers : slack.Covers fuel fuel' :=
        ⟨fun hlt => first (by omega), fun hlt => second (by omega)⟩
      have direct := tasks fuel' covers.first fun hlt => second (by omega)
      -- only a node may be reached by a detour
      by_cases hnode : ∃ id, task = .node id
      · obtain ⟨id, rfl⟩ := hnode
        cases asks with
        | node _ inside =>
          rcases simulates.detour id with same | ⟨slow, detour⟩
          · rw [same]
            exact agree_run (simulates.follows_node covers id inside) direct
          · -- the second run goes through one more node, and through one more scope
            rw [detour, Comp.eval, run_inTransparentScope]
            cases fuel' with
            | zero => exact .none_right (second (by omega))
            | succ fuel' =>
              have covers' : slack.Covers fuel fuel' :=
                ⟨fun hlt => first (by omega), fun hlt => second (by omega)⟩
              have inner := agree_run
                (simulates.follows_node covers' id inside.enterTransparent_right)
                (tasks fuel' covers'.first fun hlt => second (by omega))
              rw [Program.perform, Program.perform]
              refine inner.map_right fun ending m₁ ending' m₁' ends => ?_
              exact ⟨ends.same, ends.proper, ends.mirrors.leave_right, ends.grows,
                .leaveTransparent ends.grows'⟩
      · rw [Program.perform, Program.perform]
        refine agree_run (simulates.follows_asks covers asks fun id h => hnode ⟨id, h⟩) direct

/-- Corresponding programs end in the same way on machines that are mirrored with their top-level
scopes. -/
theorem Simulates.perform_program (simulates : M.Simulates stretch program program')
    (first : fuel < fuel' → slack.first) (second : fuel' < stretch * fuel → slack.second)
    (inside : M.Inside m m') {root : NodeId} (hroot : M.operand root = M.place root) (id : FrameId) :
    slack.Agree (M.Ends (Value.Within M.Free) m m') (program.perform fuel (.program root id) m)
      (program'.perform fuel' (.program (M.place root) id) m') := by
  cases fuel with
  | zero =>
    cases fuel' with
    | zero => trivial
    | succ fuel' => exact .none_left (first (Nat.zero_lt_succ _))
  | succ fuel =>
    have positive := simulates.positive
    rw [Nat.mul_succ] at second
    cases fuel' with
    | zero => exact .none_right (second (by omega))
    | succ fuel' =>
      have work : (Comp.runProgram program.names root id m).Follows M slack
          (M.Ends (Value.Within M.Free) m m') (Comp.runProgram program.names (M.place root) id m') :=
        inside.runProgram program.names hroot id
      rw [Program.perform, Program.perform, Task.work, Task.work, simulates.names]
      exact agree_run work fun _ _ _ _ =>
        simulates.perform (fun hlt => first (by omega)) fun hlt => second (by omega)

end Mirroring

end ScriptSemantics
