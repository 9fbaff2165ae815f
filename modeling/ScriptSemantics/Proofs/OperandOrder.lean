import ScriptSemantics.Proofs.Succession
import ScriptSemantics.Proofs.Bindings
import Mathlib.Data.List.Chain

/-!
# The order of operands

The tasks that some work asks for itself, one after the other, and rules by which computations
evaluate their operands in a given order and hand on the bindings from one to the next.

## Main Definitions

* `Step`, `Program.steps` — the tasks that the work of a task asks for
* `Machine.SameBindings` — no scope binds anything else
* `Passes` — operands are evaluated in passes over an order
* `Work.Traverses` — some work evaluates its operands in such passes and changes no bindings itself

## Main Results

* `Work.Traverses.passes`, `Work.Traverses.handsOn` — what follows for the steps of a run

## Design Notes

A pass may leave operands out but never goes back.  Loops pass over their operands again; a new pass
begins after the last operand of the order, or after a `redo`.
-/

namespace ScriptSemantics

/-! ### Steps -/

/-- A task that some work asks for, the machine that it is performed on and what this results in. -/
structure Step where
  task : Task
  before : Machine
  result : Option (Ending Value × Machine)

/-- The node that a task evaluates as an operand. -/
def Task.operand? : Task → Option NodeId
  | node id => some id
  | store .. | program .. | method .. | closure .. | loop .. => none

namespace Step

/-- The operand that is evaluated in a step. -/
def operand? (step : Step) : Option NodeId :=
  step.task.operand?

/-- The step ends in a `redo`. -/
def EndsInRedo (step : Step) : Prop :=
  ∃ m, step.result = some (.error .redo, m)

end Step

namespace Work

variable {α : Type}

/-- The tasks that some work asks for, one after the other. -/
def steps (perform : Task → Eval Value) : Work α → List Step
  | done _ _ => []
  | stuck => []
  | ask task machine resume =>
    { task, before := machine, result := perform task machine } ::
      match perform task machine with
      | some (ending, machine) => steps perform (resume ending machine)
      | none => []

end Work

namespace Program

/-- The tasks that the work of a task asks for. -/
def steps (program : Program) (fuel : Nat) (task : Task) (m : Machine) : List Step :=
  (task.work program fuel m).steps (program.perform fuel)

end Program

/-! ### Bindings -/

namespace Machine

/-- No scope binds anything else. -/
def SameBindings (m m' : Machine) : Prop :=
  ∀ scope name, m'.env.store.binding? scope name = m.env.store.binding? scope name

variable {m m' m'' : Machine}

theorem SameBindings.refl (m : Machine) : m.SameBindings m :=
  fun _ _ => rfl

/-- Bindings that stay the same step by step stay the same. -/
theorem SameBindings.trans (h : m.SameBindings m') (h' : m'.SameBindings m'') :
    m.SameBindings m'' :=
  fun scope name => (h' scope name).trans (h scope name)

theorem SameBindings.of_env_eq (h : m'.env = m.env) : m.SameBindings m' := by
  intro scope name
  rw [h]

/-- A new scope binds nothing. -/
theorem sameBindings_enterTransparent (m : Machine) :
    m.SameBindings (m.mapEnv .enterTransparent) :=
  ScopeStore.binding?_add m.env.store _ _

/-- Leaving a scope keeps its bindings. -/
theorem sameBindings_leave (m : Machine) : m.SameBindings (m.mapEnv .leave) :=
  fun _ _ => rfl

end Machine

/-! ### Passes -/

/-- Whether the last step of a pass lets another pass over an order begin: it evaluated the last
operand, or it ended in a `redo`. -/
def Renews (order : List NodeId) (pass : List Step) : Prop :=
  ∃ step, pass.getLast? = some step ∧ (step.operand? = order.getLast? ∨ step.EndsInRedo)

/-- Whether a pass may be followed by another one depends on its last step. -/
theorem Renews.cons {order : List NodeId} {pass : List Step} (h : Renews order pass) (step : Step) :
    Renews order (step :: pass) := by
  obtain ⟨last, hlast, hends⟩ := h
  refine ⟨last, ?_, hends⟩
  rw [List.getLast?_cons, hlast]
  rfl

/-- Steps that evaluate operands in passes over an order, several ones if they may be renewed. -/
structure Passes (repeats : Bool) (order : List NodeId) (steps : List Step) where
  passes : List (List Step)
  flatten : passes.flatten = steps
  /-- In one pass, operands are evaluated in their order. -/
  ordered : ∀ pass ∈ passes, (pass.filterMap Step.operand?).Sublist order
  renewed : passes.IsChain fun pass _ => Renews order pass
  once : repeats = false → passes.length ≤ 1

/-- The bindings that a step leaves are those on which the next one is performed. -/
def Step.HandsOn (step next : Step) : Prop :=
  ∀ ending m, step.result = some (ending, m) → m.SameBindings next.before

/-- What is left of an order after a step: what comes after the operand in it, or, where passes are
renewed, all of it. -/
inductive Onward (renewed : Option (List NodeId)) (task : Task) (after : List NodeId)
    (ending : Ending Value) : List NodeId → Prop
  | on : Onward renewed task after ending after
  | again {order : List NodeId} : renewed = some order →
      task.operand? = order.getLast? ∨ ending = .error .redo →
      Onward renewed task after ending order

namespace Work

variable {α β : Type}

/-- With some operands of an order left, work evaluates operands in passes over the order and
changes no bindings itself. -/
def Traverses (renewed : Option (List NodeId)) : List NodeId → Machine → Work α → Prop
  | _, m₀, done _ m => m₀.SameBindings m
  | _, _, stuck => True
  | left, m₀, ask task m resume =>
    m₀.SameBindings m ∧ ∃ after, (task.operand?.toList ++ after).Sublist left ∧
      ∀ ending m', ∃ onward, Onward renewed task after ending onward ∧
        (resume ending m').Traverses renewed onward m'

variable {renewed : Option (List NodeId)} {left xs ys : List NodeId} {m₀ m₁ : Machine} {w : Work α}

/-- More operands may be left than are evaluated. -/
theorem Traverses.mono (h : w.Traverses renewed xs m₀) (sub : xs.Sublist ys) :
    w.Traverses renewed ys m₀ := by
  cases w with
  | done => exact h
  | stuck => trivial
  | ask task m resume =>
    obtain ⟨same, after, hafter, hresume⟩ := h
    exact ⟨same, after, hafter.trans sub, hresume⟩

/-- What was done before without changing bindings may be added in front. -/
theorem Traverses.after (h : w.Traverses renewed left m₁) (same : m₀.SameBindings m₁) :
    w.Traverses renewed left m₀ := by
  cases w with
  | done => exact same.trans h
  | stuck => trivial
  | ask task m resume => exact ⟨same.trans h.1, h.2⟩

/-- One piece of work after another: the operands of the second come later in the order. -/
theorem Traverses.andThen {next : Ending α → Machine → Work β} (h : w.Traverses none xs m₀)
    (hnext : ∀ ending m, (next ending m).Traverses none ys m) :
    (w.andThen next).Traverses none (xs ++ ys) m₀ := by
  induction w generalizing xs m₀ with
  | done ending m => exact ((hnext ending m).after h).mono (List.sublist_append_right xs ys)
  | stuck => trivial
  | ask task m resume ih =>
    obtain ⟨same, after, hafter, hresume⟩ := h
    refine ⟨same, after ++ ys, ?_, fun ending m' => ?_⟩
    · rw [← List.append_assoc]
      exact hafter.append_right ys
    · obtain ⟨onward, honward, htraverses⟩ := hresume ending m'
      cases honward with
      | on => exact ⟨after ++ ys, .on, ih ending m' htraverses⟩
      | again h => cases h

/-- What only ends some work adds no operands. -/
theorem Traverses.finish {next : Ending α → Machine → Work β} (h : w.Traverses renewed xs m₀)
    (hnext : ∀ ending m, ∃ ending' m', next ending m = done ending' m' ∧ m.SameBindings m') :
    (w.andThen next).Traverses renewed xs m₀ := by
  induction w generalizing xs m₀ with
  | done ending m =>
    obtain ⟨ending', m', heq, same⟩ := hnext ending m
    rw [done_andThen, heq]
    exact h.trans same
  | stuck => trivial
  | ask task m resume ih =>
    obtain ⟨same, after, hafter, hresume⟩ := h
    refine ⟨same, after, hafter, fun ending m' => ?_⟩
    obtain ⟨onward, honward, htraverses⟩ := hresume ending m'
    exact ⟨onward, honward, ih ending m' htraverses⟩

/-! ### Runs -/

variable {perform : Task → Eval Value}

/-- The operands of steps are those of each step, in order. -/
theorem operands_cons (step : Step) (steps : List Step) :
    (step :: steps).filterMap Step.operand? =
      step.operand?.toList ++ steps.filterMap Step.operand? := by
  rw [List.filterMap_cons]
  cases step.operand? <;> rfl

/-- The bindings are handed on from step to step. -/
theorem Traverses.handsOn (h : w.Traverses renewed left m₀) :
    (∀ step ∈ (w.steps perform).head?, m₀.SameBindings step.before) ∧
      (w.steps perform).IsChain Step.HandsOn := by
  induction w generalizing left m₀ with
  | done | stuck => exact ⟨by simp [steps], List.isChain_nil⟩
  | ask task m resume ih =>
    obtain ⟨same, after, hafter, hresume⟩ := h
    rw [steps]
    refine ⟨fun step hstep => ?_, ?_⟩
    · cases hstep
      exact same
    · cases hperform : perform task m with
      | none => exact List.isChain_singleton _
      | some result =>
        obtain ⟨ending, m'⟩ := result
        obtain ⟨onward, -, htraverses⟩ := hresume ending m'
        obtain ⟨hfirst, hrest⟩ := ih ending m' htraverses
        refine List.isChain_cons.mpr ⟨fun next hnext other m'' heq => ?_, hrest⟩
        cases heq
        exact hfirst next hnext

/-- The steps of work that follows what is left of an order: first a pass over what is left, then
passes over the order, if passes are renewed. -/
theorem Traverses.first_later {order : List NodeId} (h : w.Traverses renewed left m₀)
    (horder : ∀ other, renewed = some other → other = order) :
    ∃ first later, first ++ later.flatten = w.steps perform ∧
      (first.filterMap Step.operand?).Sublist left ∧
      (∀ pass ∈ later, (pass.filterMap Step.operand?).Sublist order) ∧
      (first :: later).IsChain (fun pass _ => Renews order pass) ∧
      (renewed = none → later = []) := by
  induction w generalizing left m₀ with
  | done | stuck =>
    exact ⟨[], [], rfl, List.nil_sublist _, nofun, List.isChain_singleton _, fun _ => rfl⟩
  | ask task m resume ih =>
    obtain ⟨-, after, hafter, hresume⟩ := h
    cases hperform : perform task m with
    | none =>
      refine ⟨[⟨task, m, none⟩], [], by simp [steps, hperform], ?_, nofun, List.isChain_singleton _,
        fun _ => rfl⟩
      rw [operands_cons]
      exact (List.Sublist.append_left (List.nil_sublist after) _).trans hafter
    | some result =>
      obtain ⟨ending, m'⟩ := result
      obtain ⟨onward, honward, htraverses⟩ := hresume ending m'
      obtain ⟨first, later, hsteps, hfirst, hlater, hchain, hnone⟩ := ih ending m' htraverses
      have hcons : (⟨task, m, some (ending, m')⟩ : Step) :: (first ++ later.flatten) =
          (ask task m resume).steps perform := by
        rw [hsteps, steps, hperform]
      -- the step goes on with the pass, or it ends the pass and a new one starts
      cases honward with
      | on =>
        refine ⟨⟨task, m, some (ending, m')⟩ :: first, later, hcons, ?_, hlater, ?_, hnone⟩
        · rw [operands_cons]
          exact (List.Sublist.append_left hfirst _).trans hafter
        · rw [List.isChain_cons] at hchain ⊢
          exact ⟨fun next hnext => (hchain.1 next hnext).cons _, hchain.2⟩
      | again hrenewed hends =>
        cases horder _ hrenewed
        refine ⟨[⟨task, m, some (ending, m')⟩], first :: later, hcons, ?_,
          List.forall_mem_cons.mpr ⟨hfirst, hlater⟩, ?_, fun hnot => ?_⟩
        · rw [operands_cons]
          exact (List.Sublist.append_left (List.nil_sublist after) _).trans hafter
        · refine List.isChain_cons.mpr ⟨fun _ _ => ⟨_, rfl, hends.imp_right ?_⟩, hchain⟩
          rintro rfl
          exact ⟨m', rfl⟩
        · rw [hnot] at hrenewed
          cases hrenewed

/-- The steps of work that follows an order evaluate operands in passes over it. -/
theorem Traverses.passes {repeats : Bool} {order : List NodeId}
    (h : w.Traverses (if repeats then some order else none) order m₀) :
    Nonempty (Passes repeats order (w.steps perform)) := by
  have horder : ∀ other, (if repeats then some order else none) = some other → other = order := by
    intro other hother
    split at hother
    · exact (Option.some.inj hother).symm
    · cases hother
  obtain ⟨first, later, hsteps, hfirst, hlater, hchain, hnone⟩ :=
    @Traverses.first_later _ _ _ _ _ perform order h horder
  refine ⟨first :: later, hsteps, List.forall_mem_cons.mpr ⟨hfirst, hlater⟩, hchain, fun hrepeats => ?_⟩
  have hlast : later = [] := hnone (by simp [hrepeats])
  simp [hlast]

end Work

/-! ### Computations -/

namespace Comp

variable {α β : Type} {xs ys : List NodeId} {x : Comp α}

/-- On every machine, a computation evaluates operands in this order, in one pass, and changes no
bindings itself. -/
def Traverses (xs : List NodeId) (x : Comp α) : Prop :=
  ∀ m, (x m).Traverses none xs m

theorem Traverses.mono (h : x.Traverses xs) (sub : xs.Sublist ys) : x.Traverses ys :=
  fun m => (h m).mono sub

/-- An ending evaluates nothing. -/
theorem Traverses.settle (ending : Ending α) : (settle ending).Traverses xs :=
  fun m => .refl m

theorem Traverses.pure (a : α) : (pure a : Comp α).Traverses xs :=
  .settle (.ok a)

theorem Traverses.fail (cause : ErrorCause) : (fail cause : Comp α).Traverses xs :=
  .settle _

theorem Traverses.ofExcept (result : Except ErrorCause α) : (ofExcept result).Traverses xs := by
  cases result with
  | ok a => exact .pure a
  | error cause => exact .fail cause

theorem Traverses.gets (f : Machine → α) : (gets f).Traverses xs :=
  fun m => .refl m

theorem Traverses.modifyGet {f : Machine → α × Machine} (h : ∀ m : Machine, m.SameBindings (f m).2) :
    (modifyGet f).Traverses xs :=
  h

theorem Traverses.modify {f : Machine → Machine} (h : ∀ m : Machine, m.SameBindings (f m)) :
    (modify f).Traverses xs :=
  h

theorem Traverses.allocateFrame : allocateFrame.Traverses xs :=
  .modifyGet fun _ => .of_env_eq rfl

/-- A task evaluates an operand if it is the evaluation of a node. -/
theorem Traverses.perform (task : Task) : (perform task).Traverses task.operand?.toList :=
  fun m => ⟨.refl m, [], by simp, fun _ m' => ⟨[], .on, .refl m'⟩⟩

theorem Traverses.eval (id : NodeId) : (eval id).Traverses [id] :=
  .perform (.node id)

theorem Traverses.store (site : NodeId) (name : Name) (value : Value) :
    (store site name value).Traverses [] :=
  .perform (.store site name value)

/-- The operands of a second computation come after those of the first one. -/
theorem Traverses.bind {f : α → Comp β} (hx : x.Traverses xs) (hf : ∀ a, (f a).Traverses ys) :
    (x >>= f).Traverses (xs ++ ys) := by
  refine fun m => (hx m).andThen fun ending m' => ?_
  cases ending with
  | ok a => exact hf a m'
  | error e => exact .refl m'

/-- First something without operands. -/
theorem Traverses.bind_silent {f : α → Comp β} (hx : x.Traverses [])
    (hf : ∀ a, (f a).Traverses ys) : (x >>= f).Traverses ys :=
  hx.bind hf

/-- Last something without operands. -/
theorem Traverses.bind_last {f : α → Comp β} (hx : x.Traverses xs)
    (hf : ∀ a, (f a).Traverses []) : (x >>= f).Traverses xs :=
  (hx.bind hf).mono (by simp)

/-- An operand is evaluated first. -/
theorem Traverses.eval_bind {f : Value → Comp β} (id : NodeId) (hf : ∀ v, (f v).Traverses ys) :
    (Comp.eval id >>= f).Traverses (id :: ys) :=
  (Traverses.eval id).bind hf

/-- The operands of what follows come later, however the first computation ends. -/
theorem Traverses.attempt_bind {f : Ending α → Comp β} (hx : x.Traverses xs)
    (hf : ∀ ending, (f ending).Traverses ys) : (attempt x >>= f).Traverses (xs ++ ys) := by
  intro m
  rw [Comp.attempt_bind]
  exact (hx m).andThen fun ending m' => hf ending m'

/-- What is changed around a computation changes no order. -/
theorem traverses_bracket {before after : Machine → Machine} {renewed : Option (List NodeId)}
    (hbefore : ∀ m : Machine, m.SameBindings (before m))
    (hafter : ∀ m : Machine, m.SameBindings (after m))
    (h : ∀ m, (x m).Traverses renewed xs m) (m : Machine) :
    (bracket before after x m).Traverses renewed xs m :=
  Work.Traverses.after ((h (before m)).finish fun ending m' => ⟨ending, after m', rfl, hafter m'⟩)
    (hbefore m)

theorem traverses_inTransparentScope {renewed : Option (List NodeId)}
    (h : ∀ m, (x m).Traverses renewed xs m) (m : Machine) :
    (inTransparentScope x m).Traverses renewed xs m :=
  traverses_bracket Machine.sameBindings_enterTransparent Machine.sameBindings_leave h m

end Comp

end ScriptSemantics
