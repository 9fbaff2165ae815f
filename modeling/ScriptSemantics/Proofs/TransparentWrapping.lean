import ScriptSemantics.Proofs.MovedPrograms

/-!
# Wrapping an expression changes nothing

An expression inside of `begin` and `end`, or in a conditional that is always taken, does what it
does on its own.  It runs in one more transparent scope, which binds nothing and which code cannot
tell from no scope at all, also when a closure keeps it.

## Main Definitions

* `Program.wrap` — the program in which an expression is wrapped
* `Wrapper.Alike` — two idle machines that code cannot tell apart

## Main Results

* `Wrapper.Alike.contents_eq`, `Wrapper.Alike.local?_eq` — alike machines bind the same
* `Program.wrapping_is_transparent` — the program with the wrapped expression resolves and runs
  alike

## Design Notes

The wrapper is one more level on the way down to the expression.  As the expression may stand on the
way to itself, by way of the methods that it calls, there may be one more level for each level, and
so the second run needs up to twice the fuel.
-/

namespace ScriptSemantics

/-- The program in which an expression is wrapped. -/
def Program.wrap (program : Program) (w : Wrapper) (e : NodeId) : Program :=
  { program with nodes := w.wrap e program.nodes }

/-- `begin` without clauses is a transparent scope. -/
theorem Comp.begin_plain (names : NameTable) (body : NodeId) :
    Comp.begin names body [] none none = Comp.inTransparentScope (Comp.eval body) := by
  funext m
  show Work.ask _ _ _ = Work.ask _ _ _
  congr 1
  funext ending machine
  rcases ending with exit | value
  · cases exit <;> rfl
  · rfl

namespace Wrapper

variable {w : Wrapper} {e : NodeId} {program : Program} {m m' : Machine}

/-- What the machines of the two programs may differ in: node ids, and transparent scopes. -/
def mirroring (w : Wrapper) (e : NodeId) : Mirroring where
  operand := w.operand e
  place := w.place e
  base := []
  base' := []
  barred := 0

/-- Two machines on which nothing runs, and which code cannot tell apart: the scopes that keep names
bind the same, the closures and methods are the same at their places, and the captured chains are
the same without the transparent scopes. -/
structure Alike (w : Wrapper) (e : NodeId) (m m' : Machine) : Prop extends
    (w.mirroring e).Inside m m' where
  idle : m.IsIdle
  idle' : m'.IsIdle
  top : m.env.store.isOwning m.env.top = true
  top' : m'.env.store.isOwning m'.env.top = true

/-! ### The wrapper at work -/

/-- What stands for the wrapped expression evaluates it in one more transparent scope. -/
theorem perform_operand (he : e.index < program.nodes.size) (fuel : Nat) (m : Machine) :
    (program.wrap w e).perform (fuel + 1) (.node (w.operand e e)) m =
      (Comp.inTransparentScope (Comp.eval e) m).run ((program.wrap w e).perform fuel) := by
  rw [operand_self, Program.perform, Task.work]
  cases w with
  | begin =>
    have hnode : (program.wrap .begin e).nodes.node? ⟨e.index + 1⟩ = some (.begin e [] none none) :=
      node?_added he (i := 0) (by decide)
    rw [show NodeId.mk (e.index + size .begin) = ⟨e.index + 1⟩ from rfl, hnode]
    show (Comp.begin _ e [] none none m).run _ = _
    rw [Comp.begin_plain]
  | cond =>
    have hnode : (program.wrap .cond e).nodes.node? ⟨e.index + 2⟩ =
        some (.cond ⟨e.index + 1⟩ e none) := node?_added he (i := 1) (by decide)
    have htest : (program.wrap .cond e).nodes.node? ⟨e.index + 1⟩ = some (.bool true) :=
      node?_added he (i := 0) (by decide)
    rw [show NodeId.mk (e.index + size .cond) = ⟨e.index + 2⟩ from rfl, hnode]
    show (Comp.cond ⟨e.index + 1⟩ e none m).run _ = _
    cases fuel with
    | zero => rfl
    | succ fuel =>
      have taken : (program.wrap .cond e).perform (fuel + 1) (.node ⟨e.index + 1⟩)
          (m.mapEnv .enterTransparent) = some (.ok (.bool true), m.mapEnv .enterTransparent) := by
        rw [Program.perform, Task.work, htest]
        rfl
      rw [Comp.cond, Comp.inTransparentScope, Comp.bracket]
      show Work.run _ (Work.ask _ _ _) = _
      rw [Work.run, taken]
      rfl

/-- The nodes with a wrapped expression do what the nodes of the program do. -/
theorem simulates_wrap (w : Wrapper) (he : e.index < program.nodes.size)
    (written : ∀ node ∈ program.nodes.nodes, node.literal? ≠ some e) :
    (w.mirroring e).Simulates 2 program (program.wrap w e) where
  names := rfl
  node id := node?_place he id
  literal id node block hnode hblock := by
    refine operand_of_ne ?_
    rintro rfl
    exact written node (Array.mem_of_getElem? hnode) hblock
  positive := by decide
  detour id := by
    by_cases hid : id = e
    · subst hid
      refine .inr ⟨Nat.le_refl _, fun fuel m => ?_⟩
      show _ = (Comp.inTransparentScope (Comp.eval (w.place id id)) m).run _
      rw [place_self]
      exact perform_operand he fuel m
    · exact .inl (operand_of_ne hid)

/-! ### Machines on which nothing runs -/

namespace Alike

theorem atRest (alike : w.Alike e m m') : Mirroring.AtRest (w.operand e) (w.place e) m m' :=
  { alike with }

theorem of_atRest (rest : Mirroring.AtRest (w.operand e) (w.place e) m m') : w.Alike e m m' :=
  { rest with }

/-- All scopes that keep names bind the same. -/
theorem contents_eq (alike : w.Alike e m m') : m'.env.store.contents = m.env.store.contents :=
  alike.atRest.contents_eq

/-- The host finds the same locals. -/
theorem local?_eq (alike : w.Alike e m m') (name : String) :
    (program.wrap w e).local? m' name = program.local? m name :=
  alike.atRest.local?_eq rfl name

/-- The programs end alike, as far as both have enough fuel. -/
theorem agree_evaluateWith (alike : w.Alike e m m') (founded : program.nodes.Founded)
    (he : e.index < program.nodes.size)
    (written : ∀ node ∈ program.nodes.nodes, node.literal? ≠ some e)
    {slack : Slack} {fuel fuel' : Nat} (first : fuel < fuel' → slack.first)
    (second : fuel' < 2 * fuel → slack.second) {root : NodeId} (hroot : root ≠ e) :
    slack.Agree (fun ending m ending' m' => ending' = ending ∧ w.Alike e m m')
      (program.evaluateWith fuel root m)
      ((program.wrap w e).evaluateWith fuel' (w.place e root) m') := by
  have agree := alike.atRest.agree_evaluateWith (w.place_injective e)
    (simulates_wrap w he written) (operand_of_ne hroot) (w.resolve_wrap founded he root) first second
  exact agree.mono fun _ _ _ _ ends => ⟨ends.1, of_atRest ends.2⟩

end Alike

/-- Before a program runs, there is nothing that the two programs could disagree about. -/
theorem alike_initial (w : Wrapper) (e : NodeId) (policy : DepthPolicy)
    (locals : List (Name × Value)) :
    w.Alike e (.initial policy locals) (.initial policy locals) :=
  .of_atRest (Mirroring.atRest_initial _ _ policy locals)

end Wrapper

namespace Program

/-- A program in which an expression is wrapped in `begin` or in a conditional that is always taken
is resolved in the same way, and it ends in the same way from machines that code cannot tell apart,
which it leaves as such; fresh machines are.  Their scopes bind the same, and a host finds the same
locals.  So does every node on its own, whatever runs.  The expression is neither the program itself
nor a block that is written at a call. -/
theorem wrapping_is_transparent (program : Program) (founded : program.nodes.Founded) (w : Wrapper)
    {e : NodeId} (he : e.index < program.nodes.size)
    (written : ∀ node ∈ program.nodes.nodes, node.literal? ≠ some e) :
    (∀ root predeclared, resolve (program.wrap w e).nodes (w.place e root) predeclared =
      (resolve program.nodes root predeclared).map (Resolution.relabel (w.place e))) ∧
    (∀ policy locals, w.Alike e (.initial policy locals) (.initial policy locals)) ∧
    (∀ m m', w.Alike e m m' → m'.env.store.contents = m.env.store.contents ∧
      ∀ name, (program.wrap w e).local? m' name = program.local? m name) ∧
    (∀ root m m', root ≠ e → w.Alike e m m' →
      RunsAlike (w.Alike e) (fun fuel => program.evaluateWith fuel root m)
        (fun fuel => (program.wrap w e).evaluateWith fuel (w.place e root) m')) ∧
    ∀ id m m', (w.mirroring e).Inside m m' →
      RunsAlike (w.mirroring e).Inside (fun fuel => program.perform fuel (.node id) m)
        (fun fuel => (program.wrap w e).perform fuel (.node (w.operand e id)) m') := by
  refine ⟨fun root predeclared => w.resolve_wrap founded he root predeclared,
    fun policy locals => w.alike_initial e policy locals,
    fun m m' alike => ⟨alike.contents_eq, alike.local?_eq⟩, fun root m m' hroot alike => ?_,
    fun id m m' inside => ?_⟩
  · exact .of_agree fun slack fuel fuel' first second =>
      alike.agree_evaluateWith founded he written first second hroot
  · refine .of_agree fun slack fuel fuel' first second => ?_
    have run := (Wrapper.simulates_wrap w he written).perform first second (.node id inside)
    exact run.mono fun ending m₁ ending' m₁' ends =>
      ⟨ends.same, inside.grow ends.mirrors ends.grows ends.grows'⟩

/-- The program `x = 1; f = lambda { x }; x = 2; f.()`, where `x` and `f` are the first names that
are not reserved. -/
def capturing : Program where
  names := .initial
  nodes := ⟨#[.int 1, .assign ⟨34⟩ [.plain ⟨0⟩], .ident ⟨34⟩, .lambda [] ⟨2⟩,
    .assign ⟨35⟩ [.plain ⟨3⟩], .int 2, .assign ⟨34⟩ [.plain ⟨5⟩], .ident ⟨35⟩,
    .callValue ⟨7⟩ [] none, .seq [⟨1⟩, ⟨4⟩, ⟨6⟩, ⟨8⟩]]⟩

/-- With `f = lambda { x }` inside of a conditional, the lambda captures the scope of the
conditional.  It sees the same `x`, and `f` is there after the conditional. -/
theorem capturing_is_transparent :
    capturing.nodes.Founded ∧ (∀ node ∈ capturing.nodes.nodes, node.literal? ≠ some ⟨4⟩) ∧
    ∃ m m', capturing.evaluateWith 8 ⟨9⟩ (.initial .testRun []) = some (.ok (.int 2), m) ∧
      (capturing.wrap .cond ⟨4⟩).evaluateWith 16 ⟨11⟩ (.initial .testRun []) =
        some (.ok (.int 2), m') ∧
      m'.env.store.contents = m.env.store.contents := by
  have founded : capturing.nodes.Founded := by decide
  have written : ∀ node ∈ capturing.nodes.nodes, node.literal? ≠ some ⟨4⟩ := by decide
  obtain ⟨-, initial, same, evaluate, -⟩ := capturing.wrapping_is_transparent founded .cond
    (e := ⟨4⟩) (by decide) written
  have runs := evaluate ⟨9⟩ _ _ (by decide) (initial .testRun [])
  have run : ∃ m, capturing.evaluateWith 8 ⟨9⟩ (.initial .testRun []) = some (.ok (.int 2), m) :=
    ⟨_, rfl⟩
  obtain ⟨m, hrun⟩ := run
  obtain ⟨m', hrun', alike⟩ := runs.forth 8 _ m hrun 16 (Nat.le_refl _)
  exact ⟨founded, written, m, m', hrun, hrun', (same m m' alike).1⟩

end Program

end ScriptSemantics
