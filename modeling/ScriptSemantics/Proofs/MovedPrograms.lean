import ScriptSemantics.Proofs.Balance
import ScriptSemantics.Proofs.MirroredRuns
import ScriptSemantics.Proofs.Wrapping

/-!
# Programs whose nodes have moved

A program and one in which its nodes are in other places are evaluated by a host on machines on
which nothing else runs.  Such machines bind the same, and an evaluation of the two programs leaves
machines of the same kind.

## Main Definitions

* `RunsAlike` — every end of one run is matched by the other one
* `Mirroring.moving` — machines differ in the places of nodes and in transparent scopes
* `Mirroring.AtRest` — two such machines on which nothing runs

## Main Results

* `Mirroring.AtRest.contents_eq`, `Mirroring.AtRest.topBindings_eq` — they bind the same
* `Mirroring.AtRest.agree_evaluateWith` — the two programs end alike on them
-/

namespace ScriptSemantics

/-! ### Runs that end alike -/

/-- Two runs end alike on related machines: whatever ends with some fuel ends in the second run with
twice as much, and whatever ends in the second run ends in the first one with the same fuel. -/
structure RunsAlike (R : Machine → Machine → Prop)
    (run run' : Nat → Option (Ending Value × Machine)) : Prop where
  forth : ∀ fuel ending m, run fuel = some (ending, m) → ∀ fuel', 2 * fuel ≤ fuel' →
    ∃ m', run' fuel' = some (ending, m') ∧ R m m'
  back : ∀ fuel' ending m', run' fuel' = some (ending, m') → ∀ fuel, fuel' ≤ fuel →
    ∃ m, run fuel = some (ending, m) ∧ R m m'

/-- Two runs end alike when they agree up to lack of fuel, whichever of them has too little. -/
theorem RunsAlike.of_agree {R : Machine → Machine → Prop}
    {run run' : Nat → Option (Ending Value × Machine)}
    (h : ∀ (slack : Slack) (fuel fuel' : Nat), (fuel < fuel' → slack.first) →
      (fuel' < 2 * fuel → slack.second) →
      slack.Agree (fun ending m ending' m' => ending' = ending ∧ R m m') (run fuel) (run' fuel')) :
    RunsAlike R run run' where
  forth fuel ending m hrun fuel' hle := by
    have agree := h ⟨True, False⟩ fuel fuel' (fun _ => trivial) fun hlt => absurd hlt (by omega)
    rw [hrun] at agree
    obtain ⟨_, m', hrun', rfl, related⟩ := agree.exists_right id
    exact ⟨m', hrun', related⟩
  back fuel' ending m' hrun' fuel hle := by
    have agree := h ⟨False, True⟩ fuel fuel' (fun hlt => absurd hlt (by omega)) fun _ => trivial
    rw [hrun'] at agree
    obtain ⟨_, m, hrun, rfl, related⟩ := agree.exists_left id
    exact ⟨m, hrun, related⟩

theorem RunsAlike.mono {R R' : Machine → Machine → Prop}
    {run run' : Nat → Option (Ending Value × Machine)} (h : RunsAlike R run run')
    (weaker : ∀ m m', R m m' → R' m m') : RunsAlike R' run run' where
  forth fuel ending m hrun fuel' hle :=
    have ⟨m', hrun', related⟩ := h.forth fuel ending m hrun fuel' hle
    ⟨m', hrun', weaker m m' related⟩
  back fuel' ending m' hrun' fuel hle :=
    have ⟨m, hrun, related⟩ := h.back fuel' ending m' hrun' fuel hle
    ⟨m, hrun, weaker m m' related⟩

/-- Runs that end in the same way with the same fuel may be put in front. -/
theorem RunsAlike.of_rel {R : Machine → Machine → Prop}
    {run mid run' : Nat → Option (Ending Value × Machine)}
    (same : ∀ fuel, Option.Rel (fun result result' => result'.1 = result.1 ∧ R result.2 result'.2)
      (run fuel) (mid fuel))
    (h : RunsAlike Eq mid run') : RunsAlike R run run' where
  forth fuel ending m hrun fuel' hle := by
    have hsame := same fuel
    rw [hrun] at hsame
    cases hmid : mid fuel with
    | none =>
      rw [hmid] at hsame
      cases hsame
    | some result =>
      obtain ⟨ending', m'⟩ := result
      rw [hmid] at hsame
      cases hsame with
      | some related =>
        obtain ⟨rfl, related⟩ := related
        obtain ⟨_, hrun', rfl⟩ := h.forth fuel _ _ hmid fuel' hle
        exact ⟨_, hrun', related⟩
  back fuel' ending m' hrun' fuel hle := by
    obtain ⟨mid', hmid, rfl⟩ := h.back fuel' ending m' hrun' fuel hle
    have hsame := same fuel
    rw [hmid] at hsame
    cases hrun : run fuel with
    | none =>
      rw [hrun] at hsame
      cases hsame
    | some result =>
      obtain ⟨ending', m⟩ := result
      rw [hrun] at hsame
      cases hsame with
      | some related =>
        obtain ⟨rfl, related⟩ := related
        exact ⟨m, rfl, related⟩

/-! ### Machines on which nothing runs -/

namespace Mirroring

/-- Nodes may be in other places, and chains may run through other transparent scopes. -/
def moving (operand place : NodeId → NodeId) : Mirroring where
  operand := operand
  place := place
  base := []
  base' := []
  barred := 0

/-- Two machines on which nothing runs, and which code cannot tell apart: the scopes that keep names
bind the same, the closures and methods are the same at their places, and the captured chains are
the same without the transparent scopes. -/
structure AtRest (operand place : NodeId → NodeId) (m m' : Machine) : Prop extends
    (moving operand place).Inside m m' where
  idle : m.IsIdle
  idle' : m'.IsIdle
  top : m.env.store.isOwning m.env.top = true
  top' : m'.env.store.isOwning m'.env.top = true

namespace AtRest

variable {operand place : NodeId → NodeId} {program program' : Program} {m m' : Machine}

/-- All scopes that keep names bind the same. -/
theorem contents_eq (rest : AtRest operand place m m') :
    m'.env.store.contents = m.env.store.contents :=
  List.ext_getElem? fun r => rest.store.contents r (Nat.zero_le r)

/-- The same locals are bound at the top level. -/
theorem topBindings_eq (rest : AtRest operand place m m') :
    m'.env.topBindings = m.env.topBindings := by
  have bindings : ∀ machine : Machine, machine.env.store.isOwning machine.env.top = true →
      some machine.env.topBindings =
        machine.env.store.contents[machine.env.store.rank machine.env.top]? := by
    intro machine howning
    obtain ⟨scope, -, hscope, -⟩ := ScopeStore.exists_scope_of_isOwning howning
    rw [ScopeStore.contents_rank howning, Environment.topBindings, hscope]
    rfl
  have hrank := rest.store.rank_owner_eq rest.scope
  rw [rest.idle.current, rest.idle'.current, ScopeStore.owner_of_isOwning rest.top,
    ScopeStore.owner_of_isOwning rest.top'] at hrank
  have hbindings := bindings m' rest.top'
  rw [hrank, rest.contents_eq, ← bindings m rest.top] at hbindings
  exact Option.some.inj hbindings

/-- The host finds the same locals. -/
theorem local?_eq (rest : AtRest operand place m m') (names : program'.names = program.names)
    (name : String) : program'.local? m' name = program.local? m name := by
  have same : ∀ name : Name, m'.env.store.lookup m'.env.top name =
      m.env.store.lookup m.env.top name := by
    intro name
    rw [← rest.idle.current, ← rest.idle'.current]
    exact rest.lookup_eq name
  rw [Program.local?, Program.local?, names]
  exact congrArg ((program.names.find? name).bind ·) (funext same)

/-- What a task leaves is alike again. -/
theorem grow (rest : AtRest operand place m m') {m₁ m₁' : Machine}
    (mirrors : (moving operand place).Mirrors m₁ m₁') (grows : m.Grows m₁) (grows' : m'.Grows m₁') :
    AtRest operand place m₁ m₁' where
  toInside := rest.toInside.grow mirrors grows grows'
  idle := grows.sameStacks.isIdle rest.idle
  idle' := grows'.sameStacks.isIdle rest.idle'
  top := by
    rw [grows.top, grows.scopes.isOwning (ScopeStore.isOwning_lt rest.top)]
    exact rest.top
  top' := by
    rw [grows'.top, grows'.scopes.isOwning (ScopeStore.isOwning_lt rest.top')]
    exact rest.top'

/-- Both machines bind a local of the host. -/
theorem define (rest : AtRest operand place m m') (name : Name) (value : Value) :
    AtRest operand place (m.mapEnv (·.define name value)) (m'.mapEnv (·.define name value)) :=
  rest.grow (rest.toInside.define name fun _ _ => Nat.zero_le _).toMirrors
    (.keep (Environment.sameShape_define _ _) rfl rfl (Nat.le_refl _) rfl)
    (.keep (Environment.sameShape_define _ _) rfl rfl (Nat.le_refl _) rfl)

/-- What was found for the programs replaces what was found before. -/
theorem resolved (rest : AtRest operand place m m') (injective : Function.Injective place)
    (resolution : Resolution) :
    AtRest operand place { m with resolution }
      { m' with resolution := resolution.relabel place } :=
  { rest with
    idle := ⟨rest.idle.entered, rest.idle.frames⟩
    idle' := ⟨rest.idle'.entered, rest.idle'.frames⟩
    owned := Resolution.ownedNames_relabel injective resolution
    unbound := Resolution.isUnbound_relabel injective resolution }

/-- Both machines take a frame identity. -/
theorem allocateFrame (rest : AtRest operand place m m') :
    AtRest operand place m.allocateFrame.2 m'.allocateFrame.2 :=
  rest.grow (Mirrors.allocateFrame rest.toMirrors).2
    (.keep (.refl _) rfl rfl (Nat.le_succ _) rfl) (.keep (.refl _) rfl rfl (Nat.le_succ _) rfl)

/-- The programs end alike, as far as both have enough fuel. -/
theorem agree_evaluateWith (rest : AtRest operand place m m') (injective : Function.Injective place)
    {stretch : Nat} (simulates : (moving operand place).Simulates stretch program program')
    {root : NodeId} (hroot : operand root = place root)
    (hresolve : ∀ predeclared, resolve program'.nodes (place root) predeclared =
      (resolve program.nodes root predeclared).map (Resolution.relabel place))
    {slack : Slack} {fuel fuel' : Nat} (first : fuel < fuel' → slack.first)
    (second : fuel' < stretch * fuel → slack.second) :
    slack.Agree (fun ending m ending' m' => ending' = ending ∧ AtRest operand place m m')
      (program.evaluateWith fuel root m) (program'.evaluateWith fuel' (place root) m') := by
  rw [Program.evaluateWith, Program.evaluateWith, rest.topBindings_eq, hresolve]
  cases resolve program.nodes root m.env.topBindings.keys with
  | error fault => exact ⟨rfl, rest⟩
  | ok resolution =>
    have prepared := (rest.resolved injective resolution).allocateFrame
    have run := simulates.perform_program first second prepared.toInside hroot m.allocateFrame.1
    have hid : m'.allocateFrame.1 = m.allocateFrame.1 := rest.toMirrors.allocateFrame.1
    show slack.Agree _ _ (program'.perform fuel' (.program (place root) m'.allocateFrame.1) _)
    rw [hid]
    refine run.mono fun ending m₁ ending' m₁' ends => ⟨ends.same, ?_⟩
    exact prepared.grow ends.mirrors ends.grows ends.grows'

end AtRest

/-- Before a program runs, there is nothing that the two programs could disagree about. -/
theorem atRest_initial (operand place : NodeId → NodeId) (policy : DepthPolicy)
    (locals : List (Name × Value)) :
    AtRest operand place (.initial policy locals) (.initial policy locals) := by
  have noParent : ∀ p : ScopeId, none = some p → (ScopeStore.mk #[]).Above [] p := nofun
  have empty : (ScopeStore.mk #[]).Over [] := ScopeStore.over_self ⟨#[]⟩
  have blank : ScopeStore.Alike [] [] ⟨#[]⟩ ⟨#[]⟩ :=
    { rests := empty, rests' := empty, level := rfl, length := rfl, contents := fun _ _ => rfl }
  have top := ScopeStore.above_added empty.floor .owning none
  have start : AtRest operand place (.initial policy []) (.initial policy []) := {
    store := blank.addOwning noParent noParent
    values := fun _ _ _ _ _ _ _ _ => Nat.zero_le _
    barred := Nat.zero_le _
    count := rfl
    closures := nofun
    methods := rfl
    calls := rfl
    owned := fun _ => rfl
    unbound := fun _ => rfl
    scope := ⟨top, top, rfl⟩
    block := freeBlock_none
    idle := ⟨rfl, rfl⟩
    idle' := ⟨rfl, rfl⟩
    top := rfl
    top' := rfl }
  have bound : ∀ (locals : List (Name × Value)) (m m' : Machine), AtRest operand place m m' →
      AtRest operand place
        (m.mapEnv fun env => locals.foldl (fun env pair => env.define pair.1 pair.2) env)
        (m'.mapEnv fun env => locals.foldl (fun env pair => env.define pair.1 pair.2) env) := by
    intro locals
    induction locals with
    | nil => exact fun _ _ rest => rest
    | cons first rest ih => exact fun m m' atRest => ih _ _ (atRest.define first.1 first.2)
  exact bound locals _ _ start

end Mirroring

end ScriptSemantics
