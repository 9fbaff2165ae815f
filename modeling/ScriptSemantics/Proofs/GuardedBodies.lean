import ScriptSemantics.Proofs.Balance
import ScriptSemantics.Proofs.Spans

/-!
# Guarded bodies

What happens between the entry and the end of a node with rescue clauses and a cleanup part.  The
guarded part comes first: the body and then, depending on how it ended, the else part or one rescue
clause.  The cleanup part comes last, once, whatever the guarded part ended in.

## Main Definitions

* `Program.Guards` — the guarded part has these events and ends so
* `Program.Cleans` — the cleanup part has these events, and the node ends so
* `Program.Completion` — how the evaluation of the node goes on after its entry
* `Program.Tidy` — all nodes with a guarded body that are entered in some events are completed there

## Main Results

* `Program.cleanup_runs_once` — in a run that ends, every such node is completed, those in its
  guarded part before its own cleanup part

## Design Notes

The guarded part and the cleanup part run in a transparent scope each.  The scopes and frames before
the cleanup part are those at the entry; its own scope comes on top of them.
-/

namespace ScriptSemantics

namespace Program

variable (program : Program)

/-- A rescue clause runs for an error: its local, if it has one, receives the message, and its body
is evaluated. -/
inductive Handles (error : EvalError) (clause : RescueClause) (m : Machine) :
    List Event → Ending Value → Machine → Prop
  | plain {events ending m'} : clause.binding = none →
      program.Spans (.node clause.body) m events ending m' →
      Handles error clause m events ending m'
  | bound {name stored value m₁ events ending m'} : clause.binding = some name →
      program.Spans (.store clause.body name (.str error.message)) m stored (.ok value) m₁ →
      program.Spans (.node clause.body) m₁ events ending m' →
      Handles error clause m (stored ++ events) ending m'

/-- The guarded part: what the body ends in decides what else is evaluated, and what this ends in is
not looked at again. -/
inductive Guards (body : NodeId) (rescues : List RescueClause) (elseBranch : Option NodeId)
    (m : Machine) : List Event → Ending Value → Machine → Prop
  /-- The body has a value, and there is no else part. -/
  | value {events v m'} : program.Spans (.node body) m events (.ok v) m' → elseBranch = none →
      Guards body rescues elseBranch m events (.ok v) m'
  /-- The body has a value, and the else part follows. -/
  | elsePart {events v m₁ branch events' ending m'} :
      program.Spans (.node body) m events (.ok v) m₁ → elseBranch = some branch →
      program.Spans (.node branch) m₁ events' ending m' →
      Guards body rescues elseBranch m (events ++ events') ending m'
  /-- The body fails, and the first clause that takes the error follows. -/
  | rescued {events error m₁ clause events' ending m'} :
      program.Spans (.node body) m events (.error (.error error)) m₁ →
      rescues.find? (Comp.clauseMatches program.names error.cause) = some clause →
      program.Handles error clause m₁ events' ending m' →
      Guards body rescues elseBranch m (events ++ events') ending m'
  /-- The body fails, and no clause takes the error. -/
  | unrescued {events error m'} :
      program.Spans (.node body) m events (.error (.error error)) m' →
      rescues.find? (Comp.clauseMatches program.names error.cause) = none →
      Guards body rescues elseBranch m events (.error (.error error)) m'
  /-- The body ends in an exit that is no error. -/
  | passed {events exit m'} : program.Spans (.node body) m events (.error exit) m' →
      exit.isError = false → Guards body rescues elseBranch m events (.error exit) m'

/-- The cleanup part, evaluated once in a scope of its own: its value is dropped, and its exit
replaces what the guarded part ended in. -/
inductive Cleans (ending : Ending Value) (m : Machine) :
    Option NodeId → List Event → Ending Value → Machine → Prop
  | none : Cleans ending m none [] ending m
  | kept {id events v m'} :
      program.Spans (.node id) (m.mapEnv .enterTransparent) events (.ok v) m' →
      Cleans ending m (some id) events ending (m'.mapEnv .leave)
  | replaced {id events exit m'} :
      program.Spans (.node id) (m.mapEnv .enterTransparent) events (.error exit) m' →
      Cleans ending m (some id) events (.error exit) (m'.mapEnv .leave)

/-- How the evaluation of a node with a guarded body goes on after its entry. -/
structure Completion (id body : NodeId) (rescues : List RescueClause)
    (elseBranch ensure : Option NodeId) (start : Machine) (after : List Event) where
  /-- The events of the guarded part. -/
  guarded : List Event
  /-- What the guarded part ends in. -/
  ending : Ending Value
  inside : Machine
  /-- The events of the cleanup part. -/
  cleanup : List Event
  /-- What the node ends in. -/
  final : Ending Value
  left : Machine
  rest : List Event
  events_eq : after = guarded ++ cleanup ++ .leave (.node id) final left :: rest
  guards : program.Guards body rescues elseBranch (start.mapEnv .enterTransparent) guarded ending inside
  sameStacks : start.SameStacks (inside.mapEnv .leave)
  cleans : program.Cleans ending (inside.mapEnv .leave) ensure cleanup final left

/-- Every node with a guarded body that is entered in some events is completed in them. -/
def Tidy (events : List Event) : Prop :=
  ∀ before id start after body rescues elseBranch ensure,
    events = before ++ .enter (.node id) start :: after →
    program.nodes.node? id = some (.begin body rescues elseBranch ensure) →
    Nonempty (program.Completion id body rescues elseBranch ensure start after)

variable {program} {fuel : Nat} {m m' : Machine} {events : List Event} {ending : Ending Value}
  {body : NodeId} {rescues : List RescueClause} {elseBranch ensure : Option NodeId}

/-! ### The events of a guarded body -/

/-- The run of a clause handles the error. -/
theorem handles_of_ran {error : EvalError} {clause : RescueClause}
    (h : (Comp.runClause error clause m).Ran program fuel events ending m') :
    program.Handles error clause m events ending m' := by
  rw [Comp.runClause] at h
  cases hbinding : clause.binding with
  | some name =>
    rw [hbinding] at h
    obtain ⟨stored, value, m₁, others, rfl, hstore, hbody⟩ | ⟨e, rfl, hstore⟩ := Comp.ran_bind h
    · exact .bound hbinding (Comp.ran_perform hstore) (Comp.ran_perform hbody)
    · -- storing a local has no exits
      obtain ⟨_ | fuel, hperform, -⟩ := Comp.ran_perform hstore <;> cases hperform
  | none =>
    rw [hbinding] at h
    exact .plain hbinding (Comp.ran_perform h)

/-- The run of a guarded part is a body with the clause or the branch that follows it. -/
theorem guards_of_ran
    (h : (Comp.guarded program.names body rescues elseBranch m).Ran program fuel events ending m') :
    program.Guards body rescues elseBranch m events ending m' := by
  obtain ⟨own, between, m₁, others, rfl, hbody, hrest⟩ := Comp.ran_attempt h
  have spans := Comp.ran_perform hbody
  cases between with
  | ok v =>
    cases elseBranch with
    | some branch => exact .elsePart spans rfl (Comp.ran_perform hrest)
    | none =>
      obtain ⟨rfl, rfl, rfl⟩ := hrest.of_done
      exact .value ((List.append_nil own).symm ▸ spans) rfl
  | error exit =>
    cases exit with
    | error error =>
      dsimp only at hrest
      cases hclause : rescues.find? (Comp.clauseMatches program.names error.cause) with
      | some clause =>
        rw [hclause] at hrest
        exact .rescued spans hclause (handles_of_ran hrest)
      | none =>
        rw [hclause] at hrest
        obtain ⟨rfl, rfl, rfl⟩ := hrest.of_done
        exact .unrescued ((List.append_nil own).symm ▸ spans) hclause
    | returnTo | breakTo | next | redo =>
      obtain ⟨rfl, rfl, rfl⟩ := hrest.of_done
      exact .passed ((List.append_nil own).symm ▸ spans) rfl

/-- A node with a guarded body has the events of its guarded part and those of its cleanup part. -/
theorem guards_of_ran_begin
    (h : (Comp.begin program.names body rescues elseBranch ensure m).Ran program fuel events ending
      m') :
    ∃ guarded between inside cleanup, events = guarded ++ cleanup ∧
      program.Guards body rescues elseBranch (m.mapEnv .enterTransparent) guarded between inside ∧
      program.Cleans between (inside.mapEnv .leave) ensure cleanup ending m' := by
  obtain ⟨guarded, between, m₁, cleanup, rfl, hguarded, hrest⟩ := Comp.ran_attempt h
  obtain ⟨inside, hinside, rfl⟩ := Comp.ran_inTransparentScope hguarded
  refine ⟨guarded, between, inside, cleanup, rfl, guards_of_ran hinside, ?_⟩
  cases ensure with
  | none =>
    obtain ⟨rfl, rfl, rfl⟩ := hrest.of_done
    exact .none
  | some id =>
    obtain ⟨own, v, m₂, others, rfl, hscope, hdone⟩ | ⟨e, rfl, hscope⟩ := Comp.ran_bind hrest
    · obtain ⟨left, hleft, rfl⟩ := Comp.ran_inTransparentScope hscope
      obtain ⟨rfl, rfl, rfl⟩ := hdone.of_done
      exact .kept ((List.append_nil own).symm ▸ Comp.ran_perform hleft)
    · obtain ⟨left, hleft, rfl⟩ := Comp.ran_inTransparentScope hscope
      exact .replaced (Comp.ran_perform hleft)

/-! ### Stacks -/

theorem Spans.grows {id : NodeId} (h : program.Spans (.node id) m events ending m') : m.Grows m' := by
  obtain ⟨fuel, hperform, -⟩ := h
  exact grows_of_eval hperform

theorem Handles.grows {error : EvalError} {clause : RescueClause}
    (h : program.Handles error clause m events ending m') : m.Grows m' := by
  cases h with
  | plain _ hbody => exact hbody.grows
  | bound _ hstore hbody =>
    obtain ⟨fuel, hperform, -⟩ := hstore
    exact (grows_of_perform (.store _ _ _) trivial hperform).trans hbody.grows

theorem Guards.grows (h : program.Guards body rescues elseBranch m events ending m') :
    m.Grows m' := by
  cases h with
  | value hbody | unrescued hbody | passed hbody => exact hbody.grows
  | elsePart hbody _ hbranch => exact hbody.grows.trans hbranch.grows
  | rescued hbody _ hclause => exact hbody.grows.trans hclause.grows

/-! ### Completion -/

theorem Tidy.nil : program.Tidy [] := by
  intro before id start after body rescues elseBranch ensure h
  simp at h

theorem Tidy.append {xs ys : List Event} (hx : program.Tidy xs) (hy : program.Tidy ys) :
    program.Tidy (xs ++ ys) := by
  intro before id start after body rescues elseBranch ensure h hnode
  rcases List.append_eq_append_iff.mp h with ⟨others, hbefore, hys⟩ | ⟨others, hxs, hafter⟩
  · exact hy others id start after body rescues elseBranch ensure hys hnode
  · cases others with
    | nil => exact hy [] id start after body rescues elseBranch ensure hafter.symm hnode
    | cons event others =>
      obtain ⟨rfl, rfl⟩ := List.cons.inj hafter
      obtain ⟨c⟩ := hx before id start others body rescues elseBranch ensure hxs hnode
      have hevents : others ++ ys =
          c.guarded ++ c.cleanup ++ .leave (.node id) c.final c.left :: (c.rest ++ ys) := by
        have h := congrArg (· ++ ys) c.events_eq
        simpa using h
      exact ⟨{ c with rest := c.rest ++ ys, events_eq := hevents }⟩

theorem Tidy.leave (task : Task) (ending : Ending Value) (m : Machine) :
    program.Tidy [.leave task ending m] := by
  intro before id start after body rescues elseBranch ensure h
  cases before <;> simp at h

/-- Some work leaves the nodes completed that are entered in it when its tasks do. -/
theorem tidy_of_ran {α : Type} {w : Work α} {result : Ending α}
    (tasks : ∀ task m ending m', program.perform fuel task m = some (ending, m') →
      program.Tidy (program.record fuel task m))
    (h : w.Ran program fuel events result m') : program.Tidy events := by
  induction w generalizing events with
  | done result m =>
    obtain ⟨rfl, -, -⟩ := h.of_done
    exact .nil
  | stuck => cases h.run
  | ask task m resume ih =>
    obtain ⟨own, between, m₁, others, rfl, hperform, rfl, hresume⟩ := h.of_ask
    exact (tasks task m between m₁ hperform).append (ih between m₁ hresume)

/-- A task that ends leaves the nodes completed that are entered in it. -/
theorem tidy_of_perform {task : Task} (h : program.perform fuel task m = some (ending, m')) :
    program.Tidy (program.record fuel task m) := by
  induction fuel generalizing task m ending m' with
  | zero => cases h
  | succ fuel ih =>
    have ran : (task.work program fuel m).Ran program fuel
      ((task.work program fuel m).events (program.perform fuel) (program.record fuel)) ending m' :=
      ⟨h, rfl⟩
    have hrecord : program.record (fuel + 1) task m = .enter task m ::
        ((task.work program fuel m).events (program.perform fuel) (program.record fuel) ++
          [.leave task ending m']) := by
      rw [record, h]
      rfl
    have later := (tidy_of_ran (fun _ _ _ _ => ih) ran).append (.leave task ending m')
    rw [hrecord]
    intro before id start after body rescues elseBranch ensure hevents hnode
    cases before with
    | cons event before =>
      exact later before id start after body rescues elseBranch ensure (List.cons.inj hevents).2 hnode
    | nil =>
      -- the task is the node itself
      obtain ⟨hfirst, rfl⟩ := List.cons.inj hevents
      cases hfirst
      have hwork : (Task.node id).work program fuel m =
          Comp.begin program.names body rescues elseBranch ensure m := by
        simp only [Task.work, hnode, Comp.node]
      rw [hwork] at ran ⊢
      obtain ⟨guarded, between, inside, cleanup, hsplit, guards, cleans⟩ := guards_of_ran_begin ran
      exact ⟨{
        guarded, ending := between, inside, cleanup, final := ending, left := m', rest := []
        events_eq := by rw [hsplit]
        guards, cleans
        sameStacks := (Machine.Grows.leaveTransparent guards.grows).sameStacks }⟩

theorem Spans.tidy {task : Task} (h : program.Spans task m events ending m') :
    program.Tidy events := by
  obtain ⟨fuel, hperform, rfl⟩ := h
  exact tidy_of_perform hperform

theorem Handles.tidy {error : EvalError} {clause : RescueClause}
    (h : program.Handles error clause m events ending m') : program.Tidy events := by
  cases h with
  | plain _ hbody => exact hbody.tidy
  | bound _ hstore hbody => exact hstore.tidy.append hbody.tidy

theorem Guards.tidy (h : program.Guards body rescues elseBranch m events ending m') :
    program.Tidy events := by
  cases h with
  | value hbody | unrescued hbody | passed hbody => exact hbody.tidy
  | elsePart hbody _ hbranch => exact hbody.tidy.append hbranch.tidy
  | rescued hbody _ hclause => exact hbody.tidy.append hclause.tidy

/-- In a run that ends, every node with a guarded body that is entered is completed: its cleanup
part is evaluated once, after the guarded part and on the stacks of the entry; and the nodes with a
guarded body that are entered in its guarded part are completed in there, so innermost first. -/
theorem cleanup_runs_once {task : Task} (h : program.perform fuel task m = some (ending, m'))
    {i : Nat} {id : NodeId} {start : Machine}
    (entered : (program.record fuel task m)[i]? = some (.enter (.node id) start))
    (hnode : program.nodes.node? id = some (.begin body rescues elseBranch ensure)) :
    ∃ c : program.Completion id body rescues elseBranch ensure start
        ((program.record fuel task m).drop (i + 1)),
      program.Tidy c.guarded := by
  obtain ⟨hi, hevent⟩ := List.getElem?_eq_some_iff.mp entered
  have hevents := (List.take_append_drop i (program.record fuel task m)).symm
  rw [List.drop_eq_getElem_cons hi, hevent] at hevents
  obtain ⟨c⟩ := tidy_of_perform h _ id start _ body rescues elseBranch ensure hevents hnode
  exact ⟨c, c.guards.tidy⟩

/-- The program `def m; begin; begin; return 1; ensure; 2; end; ensure; 3; end; end; m`. -/
def returningThrough : Program where
  names := .initial
  nodes := ⟨#[.int 1, .returnWith (some ⟨0⟩), .int 2, .begin ⟨1⟩ [] none (some ⟨2⟩), .int 3,
    .begin ⟨3⟩ [] none (some ⟨4⟩), .define ⟨34⟩ [] ⟨5⟩, .call ⟨34⟩ [] none, .seq [⟨6⟩, ⟨7⟩]]⟩

/-- A `return` crosses two guarded bodies: each is completed, the inner one first. -/
theorem returning_cleans_up :
    let events := returningThrough.record 9 (.program ⟨8⟩ ⟨0⟩) (.initial .unlimited [])
    ∃ start, events[6]? = some (.enter (.node ⟨5⟩) start) ∧
      ∃ c : returningThrough.Completion ⟨5⟩ ⟨3⟩ [] none (some ⟨4⟩) start (events.drop 7),
        returningThrough.Tidy c.guarded := by
  intro events
  have run : ∃ ending m', returningThrough.perform 9 (.program ⟨8⟩ ⟨0⟩) (.initial .unlimited []) =
      some (ending, m') := ⟨_, _, rfl⟩
  obtain ⟨ending, m', run⟩ := run
  have entered : ∃ start, events[6]? = some (.enter (.node ⟨5⟩) start) := ⟨_, rfl⟩
  obtain ⟨start, entered⟩ := entered
  exact ⟨start, entered, cleanup_runs_once run entered rfl⟩

end Program

end ScriptSemantics
