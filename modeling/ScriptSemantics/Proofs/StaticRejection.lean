import ScriptSemantics.Proofs.Route
import ScriptSemantics.Proofs.WrittenCode

/-!
# Static rejection

A program is rejected before it runs if some callable in it has a parameter list that breaks the
rules, and only then.  A rejected program changes nothing, and no code with a bad parameter list is
ever run.

## Main Definitions

* `NodeTable.Breaks` — a callable that can be reached from a node has bad parameters

## Main Results

* `WalkStep.validate_of_visit` — a walk that succeeds has checked every callable that can be reached
* `WalkStep.breaks_of_visit` — a walk that fails has come to a callable with bad parameters
* `Program.rejection_is_exact` — which programs are rejected, to what effect, and what is run
  otherwise

## Design Notes

That a node can be reached says nothing about whether it is ever evaluated: dead code, fallbacks
that are not needed and cleanup parts are operands too.
-/

namespace ScriptSemantics

variable {table : NodeTable} {levels : Nat} {root id : NodeId} {w w' : Walk}

/-- A callable that can be reached from a node has parameters with this fault. -/
def NodeTable.Breaks (table : NodeTable) (root : NodeId) (fault : ParamError) : Prop :=
  ∃ id params body sees, table.Reaches root id ∧
    table.callable? id = some (params, body, sees) ∧ params.validate = .error fault

theorem NodeTable.validate_of_not_breaks (sound : ∀ fault, ¬ table.Breaks root fault)
    (hreach : table.Reaches root id) {params : ParamList} {body : NodeId} {sees : Bool}
    (hcallable : table.callable? id = some (params, body, sees)) : params.validate = .ok () := by
  cases hvalidate : params.validate with
  | ok => rfl
  | error fault => exact absurd ⟨_, _, _, _, hreach, hcallable, hvalidate⟩ (sound fault)

/-! ### Walks that succeed -/

namespace WalkStep

/-- A move that was made is among those that succeeded. -/
theorem exists_move_of_moves {step : NodeId → WalkStep} {list : List Move} {made : Move}
    (h : moves step list w = .ok w') (hmade : made ∈ list) :
    ∃ before after, move step made before = .ok after := by
  obtain ⟨first, rest, rfl⟩ := List.append_of_mem hmade
  obtain ⟨before, -, h⟩ := moves_append.mp h
  obtain ⟨after, h, -⟩ := moves_cons.mp h
  exact ⟨before, after, h⟩

/-- A walk that succeeds has come to every node that can be reached. -/
theorem exists_visit_of_reaches (h : visit table levels root w = .ok w')
    (hreach : table.Reaches root id) :
    ∃ below node before after, table.node? id = some node ∧
      visit table (below + 1) id before = .ok after := by
  have found : ∀ {levels id w w'}, visit table levels id w = .ok w' →
      ∃ below node, levels = below + 1 ∧ table.node? id = some node := by
    intro levels id w w' h
    cases levels with
    | zero => cases h
    | succ below =>
      cases hnode : table.node? id with
      | none =>
        rw [visit, hnode] at h
        cases h
      | some node => exact ⟨below, node, rfl, rfl⟩
  -- the moves of a node visit all of its operands, so the walk goes where the reach goes
  induction hreach with
  | refl =>
    obtain ⟨below, node, rfl, hnode⟩ := found h
    exact ⟨below, node, w, w', hnode, h⟩
  | @operand parent node child _ hnode hchild ih =>
    obtain ⟨below, other, before, after, hother, hvisit⟩ := ih
    obtain rfl : node = other := Option.some.inj (hnode.symm.trans hother)
    rw [visit_succ hnode] at hvisit
    obtain ⟨made, hmade, hvisited⟩ := List.mem_filterMap.mp
      ((node.visited_moves_perm parent).mem_iff.mpr hchild)
    obtain ⟨mid, last, hmove⟩ := exists_move_of_moves hvisit hmade
    cases made with
    | visit operand =>
      cases hvisited
      obtain ⟨further, inner, rfl, hinner⟩ := found hmove
      exact ⟨further, inner, mid, last, hinner, hmove⟩
    | _ => cases hvisited

/-- A walk that succeeds has checked every callable that can be reached. -/
theorem validate_of_visit (h : visit table levels root w = .ok w')
    (hreach : table.Reaches root id) {params : ParamList} {body : NodeId} {sees : Bool}
    (hcallable : table.callable? id = some (params, body, sees)) : params.validate = .ok () := by
  obtain ⟨below, node, before, after, hnode, hvisit⟩ := exists_visit_of_reaches h hreach
  rw [NodeTable.callable?, hnode] at hcallable
  exact (move_check.mp (checked_of_visit hnode hcallable hvisit)).1

/-! ### Walks that fail -/

/-- Moves without visits fail at parameters that break the rules. -/
theorem check_of_moves {list : List Move} (visits : ∀ id, .visit id ∉ list) {cause : ResolveError}
    (h : moves lost list w = .error cause) :
    ∃ params fault, .check params ∈ list ∧ params.validate = .error fault ∧
      cause = .invalidParams fault := by
  induction list generalizing w with
  | nil => cases h
  | cons first rest ih =>
    have later {mid : Walk} (hfirst : move lost first w = .ok mid) :
        ∃ params fault, .check params ∈ first :: rest ∧ params.validate = .error fault ∧
          cause = .invalidParams fault := by
      simp only [moves, hfirst] at h
      obtain ⟨params, fault, hmem, hfault⟩ :=
        ih (fun id hmem => visits id (List.mem_cons_of_mem _ hmem)) h
      exact ⟨params, fault, List.mem_cons_of_mem _ hmem, hfault⟩
    cases first with
    | visit id => exact absurd List.mem_cons_self (visits id)
    | check params =>
      cases hvalidate : params.validate with
      | ok => exact later (move_check.mpr ⟨hvalidate, rfl⟩)
      | error fault =>
        refine ⟨params, fault, List.mem_cons_self, hvalidate, ?_⟩
        simp only [moves, move, hvalidate] at h
        cases h
        rfl
    | _ => exact later rfl

theorem reaches_of_mem_subtree {other : NodeId} (h : other ∈ table.subtree levels id) :
    table.Reaches id other := by
  induction levels generalizing id with
  | zero => cases h
  | succ levels ih =>
    rw [NodeTable.subtree] at h
    rcases List.mem_cons.mp h with rfl | h
    · exact .refl
    · cases hnode : table.node? id with
      | none =>
        rw [hnode] at h
        cases h
      | some node =>
        rw [hnode] at h
        obtain ⟨child, hchild, h⟩ := List.mem_flatMap.mp h
        exact (NodeTable.Reaches.refl.operand hnode hchild).trans (ih h)

/-- A walk that fails has come to a callable with bad parameters. -/
theorem breaks_of_visit (founded : table.Founded) (hlevels : id.index < levels)
    (hid : id.index < table.size) {cause : ResolveError}
    (h : visit table levels id w = .error cause) :
    ∃ fault, table.Breaks id fault ∧ cause = .invalidParams fault := by
  -- operands come before their nodes, so a complete route has no visit left that could be lost
  rw [visit_eq_route] at h
  obtain ⟨params, fault, hcheck, hfault, rfl⟩ :=
    check_of_moves (table.visit_not_mem_route founded hlevels hid) h
  obtain ⟨other, hother, body, sees, hcallable⟩ := table.check_mem_route hcheck
  exact ⟨fault, ⟨other, params, body, sees, reaches_of_mem_subtree hother, hcallable, hfault⟩, rfl⟩

end WalkStep

/-! ### Resolution -/

theorem not_breaks_of_resolve {predeclared : List Name} {resolution : Resolution}
    (h : resolve table root predeclared = .ok resolution) (fault : ParamError) :
    ¬ table.Breaks root fault := by
  rintro ⟨id, params, body, sees, hreach, hcallable, hfault⟩
  cases hvisit : WalkStep.visit table (root.index + 1) root (.start root predeclared) with
  | error cause =>
    rw [resolve, hvisit] at h
    cases h
  | ok w =>
    rw [WalkStep.validate_of_visit hvisit hreach hcallable] at hfault
    cases hfault

/-- A tree in the table is rejected for nothing but the parameters of a callable in it. -/
theorem breaks_of_resolve (founded : table.Founded) (hroot : root.index < table.size)
    {predeclared : List Name} {cause : ResolveError}
    (h : resolve table root predeclared = .error cause) :
    ∃ fault, table.Breaks root fault ∧ cause = .invalidParams fault := by
  cases hvisit : WalkStep.visit table (root.index + 1) root (.start root predeclared) with
  | error cause' =>
    rw [resolve, hvisit] at h
    cases h
    exact WalkStep.breaks_of_visit founded (Nat.lt_succ_self _) hroot hvisit
  | ok w =>
    rw [resolve, hvisit] at h
    cases h

/-! ### Programs -/

namespace Program

variable {program : Program}

/-- A rejected program ends in an error and changes nothing. -/
theorem evaluateWith_of_breaks (founded : program.nodes.Founded)
    (hroot : root.index < program.nodes.size) {fault : ParamError}
    (h : program.nodes.Breaks root fault) (fuel : Nat) (m : Machine) :
    ∃ fault, program.nodes.Breaks root fault ∧ program.evaluateWith fuel root m =
      some (.error (.error
        { cause := .invalidProgram ("invalid parameter list: " ++ fault.message) }), m) := by
  rw [evaluateWith]
  cases hresolve : resolve program.nodes root m.env.topBindings.keys with
  | ok resolution => exact absurd h (not_breaks_of_resolve hresolve fault)
  | error cause =>
    obtain ⟨fault, hbreaks, rfl⟩ := breaks_of_resolve founded hroot hresolve
    exact ⟨fault, hbreaks, rfl⟩

/-- A program is rejected exactly if some callable in it has bad parameters; then it changes
nothing.  Otherwise, whenever a method or closure that was made of a callable in it is run, by
whatever program, its parameters are valid. -/
theorem rejection_is_exact (founded : program.nodes.Founded)
    (hroot : root.index < program.nodes.size) :
    (∀ predeclared, (∃ cause, resolve program.nodes root predeclared = .error cause) ↔
      ∃ fault, program.nodes.Breaks root fault) ∧
    ((∃ fault, program.nodes.Breaks root fault) → ∀ fuel m, ∃ fault,
      program.nodes.Breaks root fault ∧ program.evaluateWith fuel root m =
        some (.error (.error
          { cause := .invalidProgram ("invalid parameter list: " ++ fault.message) }), m)) ∧
    ((∀ fault, ¬ program.nodes.Breaks root fault) → ∀ m₀,
      m₀.RunsWritten program.nodes (fun _ => True) → ∀ fuel roots task m frame parent code,
        .enter task m ∈ program.session fuel roots m₀ → task.Opens m frame parent (some code) →
        program.nodes.Reaches root code.root → code.params.validate = .ok ()) := by
  refine ⟨fun predeclared => ⟨?_, ?_⟩, ?_, ?_⟩
  · rintro ⟨cause, h⟩
    obtain ⟨fault, hbreaks, -⟩ := breaks_of_resolve founded hroot h
    exact ⟨fault, hbreaks⟩
  · rintro ⟨fault, hbreaks⟩
    cases hresolve : resolve program.nodes root predeclared with
    | ok resolution => exact absurd hbreaks (not_breaks_of_resolve hresolve fault)
    | error cause => exact ⟨cause, rfl⟩
  · rintro ⟨fault, hbreaks⟩ fuel m
    exact evaluateWith_of_breaks founded hroot hbreaks fuel m
  · intro sound m₀ written fuel roots task m frame parent code hevent opens hreach
    obtain ⟨⟨sees, hcallable⟩, -⟩ := isWritten_of_enter (fun _ _ _ _ _ _ => trivial)
      (fun _ _ _ _ => trivial) written hevent opens
    exact NodeTable.validate_of_not_breaks sound hreach hcallable

/-- The programs `lambda { |a| nil }.call(true)` and `lambda { |a, a| nil } if false`. -/
def twins : Program where
  names := .initial
  nodes := ⟨#[.nil, .lambda [⟨⟨34⟩, .required⟩] ⟨0⟩, .bool true, .callValue ⟨1⟩ [.positional ⟨2⟩] none,
    .lambda [⟨⟨34⟩, .required⟩, ⟨⟨34⟩, .required⟩] ⟨0⟩, .bool false, .cond ⟨5⟩ ⟨4⟩ none]⟩

/-- The lambda in dead code has its program rejected, and the lambda that is called is valid. -/
theorem rejection_is_exact_twins :
    twins.nodes.Breaks ⟨6⟩ (.duplicateName ⟨34⟩) ∧
    (∃ fault, twins.nodes.Breaks ⟨6⟩ fault ∧
      twins.evaluateWith 9 ⟨6⟩ (.initial .unlimited []) = some (.error (.error
        { cause := .invalidProgram ("invalid parameter list: " ++ fault.message) }),
          .initial .unlimited [])) ∧
    (∀ fault, ¬ twins.nodes.Breaks ⟨3⟩ fault) ∧
    ∃ task m frame parent code,
      .enter task m ∈ twins.session 9 [⟨6⟩, ⟨3⟩] (.initial .unlimited []) ∧
      task.Opens m frame parent (some code) ∧ code.root = ⟨1⟩ ∧ code.params.validate = .ok () := by
  have dead : twins.nodes.Breaks ⟨6⟩ (.duplicateName ⟨34⟩) :=
    ⟨⟨4⟩, _, _, _, .operand .refl rfl (by decide), rfl, by decide⟩
  obtain ⟨-, rejected, -⟩ := @rejection_is_exact ⟨6⟩ twins (by decide +kernel) (by decide)
  obtain ⟨exact, -, valid⟩ := @rejection_is_exact ⟨3⟩ twins (by decide +kernel) (by decide)
  have sound : ∀ fault, ¬ twins.nodes.Breaks ⟨3⟩ fault := by
    intro fault hbreaks
    obtain ⟨cause, hcause⟩ := (exact []).mpr ⟨fault, hbreaks⟩
    have accepted : (resolve twins.nodes ⟨3⟩ []).isOk = true := by decide +kernel
    rw [hcause] at accepted
    cases accepted
  refine ⟨dead, rejected ⟨_, dead⟩ 9 _, sound, ?_⟩
  have run : ∃ event ∈ twins.session 9 [⟨6⟩, ⟨3⟩] (.initial .unlimited []),
      (match event with
      | .enter (.closure proc _ _ _) m => (m.closures.get? proc).map Closure.literal
      | _ => none) = some ⟨1⟩ := by decide +kernel
  obtain ⟨event, hevent, hread⟩ := run
  split at hread
  next proc id given block m =>
    obtain ⟨closure, found, hliteral⟩ := Option.map_eq_some_iff.mp hread
    have opens := Task.Opens.closure proc id given block found
    have hreach : twins.nodes.Reaches ⟨3⟩ closure.literal :=
      hliteral ▸ .operand .refl rfl (by decide)
    exact ⟨_, m, _, _, _, hevent, opens, hliteral,
      valid sound _ (.initial _ _) 9 _ _ m _ _ _ hevent opens hreach⟩
  next => cases hread

end Program

end ScriptSemantics
