import ScriptSemantics.Proofs.MirroredRuns

/-!
# Methods are isolated from their callers

A method body starts in a scope without a parent, so it cannot reach the scopes that exist when the
method is called.  The only way to them would be a closure that was made before, and none reaches
the method when no block and no closure among the arguments is given.

## Main Definitions

* `Machine.SameButBindings` — two machines differ only in what their scopes bind
* `Machine.SameEffect` — two calls ended in the same way and did the same to the methods

## Main Results

* `Program.methods_are_isolated` — a call neither changes nor depends on what the scopes bind that
  existed before it
-/

namespace ScriptSemantics

namespace Machine

/-- Two machines differ only in what their scopes bind. -/
structure SameButBindings (m m' : Machine) : Prop where
  shape : m'.env.store.shape = m.env.store.shape
  entered : m'.env.entered = m.env.entered
  top : m'.env.top = m.env.top
  closures : m'.closures = m.closures
  methods : m'.methods = m.methods
  calls : m'.calls = m.calls
  resolution : m'.resolution = m.resolution

theorem SameButBindings.refl (m : Machine) : m.SameButBindings m :=
  ⟨rfl, rfl, rfl, rfl, rfl, rfl, rfl⟩

/-- Two calls ended in the same way and left the same methods and frames.  The closures that they
made are the same as well, and see the same locals. -/
structure SameEffect (m : Machine) (result result' : Ending Value × Machine) : Prop where
  ending : result'.1 = result.1
  methods : result'.2.methods = result.2.methods
  calls : result'.2.calls = result.2.calls
  closures : ∀ id closure closure', result.2.closures.get? id = some closure →
    result'.2.closures.get? id = some closure' →
    closure' = { closure with captured := closure'.captured }
  sight : ∀ id closure closure', m.closures.get? id = none →
    result.2.closures.get? id = some closure → result'.2.closures.get? id = some closure' →
    ∀ name, result'.2.env.store.lookup closure'.captured name =
      result.2.env.store.lookup closure.captured name

end Machine

namespace Mirroring

/-- The same program runs on two machines, and what the machines have now is out of reach. -/
def isolation (m m' : Machine) : Mirroring where
  operand := id
  place := id
  base := m.env.store.scopes.toList
  base' := m'.env.store.scopes.toList
  barred := m.closures.closures.size

variable {m m' : Machine}

theorem relabel_isolation (m m' : Machine) (method : Method) :
    method.relabel (isolation m m').operand (isolation m m').place = method :=
  method.relabel_id

theorem relabelClosure_isolation (m m' : Machine) (closure : Closure) :
    closure.relabel (isolation m m').operand (isolation m m').place = closure :=
  closure.relabel_id

theorem simulates_isolation (m m' : Machine) (program : Program) :
    (isolation m m').Simulates 1 program program where
  names := rfl
  node place := by
    show program.nodes.node? place = (program.nodes.node? place).map (Node.relabel id)
    cases program.nodes.node? place with
    | none => rfl
    | some node => rw [Option.map_some, Node.relabel_id]
  literal _ _ _ _ _ := rfl
  positive := Nat.one_pos
  detour _ := .inl rfl

/-- Machines that differ only in what their scopes bind mirror each other. -/
theorem mirrors_isolation (h : m.SameButBindings m') : (isolation m m').Mirrors m m' := by
  have level : ScopeStore.owning m'.env.store.scopes.toList =
      ScopeStore.owning m.env.store.scopes.toList := by
    have counted : ∀ store : ScopeStore, ScopeStore.owning store.scopes.toList =
        store.shape.countP (·.1 == .owning) := by
      intro store
      rw [ScopeStore.shape, List.countP_map]
      rfl
    rw [counted, counted, h.shape]
  -- no owning scope lies above the level, so there is nothing to compare
  have beyond : ∀ (store : ScopeStore) (r : Nat), ScopeStore.owning store.scopes.toList ≤ r →
      store.contents[r]? = none := by
    intro store r hr
    rw [List.getElem?_eq_none_iff, ScopeStore.length_contents]
    exact hr
  refine {
    store := {
      rests := ScopeStore.over_self _
      rests' := ScopeStore.over_self _
      level := level
      length := by rw [ScopeStore.length_contents, ScopeStore.length_contents, level]
      contents := fun r hr => ?_ }
    values := fun r bindings hr hbindings => ?_
    barred := Nat.le_refl _
    count := by rw [h.closures]
    closures := fun proc closure closure' hclosure hclosure' => ?_
    methods := ?_
    calls := h.calls
    owned := fun root => by rw [h.resolution]; rfl
    unbound := fun id => by rw [h.resolution]; rfl }
  · rw [beyond _ r hr, beyond _ r (level ▸ hr)]
  · rw [beyond _ r hr] at hbindings
    cases hbindings
  · rw [h.closures, hclosure] at hclosure'
    cases hclosure'
    refine ⟨?_, fun free => ?_⟩
    · rw [relabelClosure_isolation]
    · -- every closure that is known now is barred
      have hlt := (Array.getElem?_eq_some_iff.mp hclosure).1
      exact absurd free (Nat.not_le.mpr hlt)
  · simp [relabel_isolation, h.methods]

/-- What ends in the same way with this out of reach had the same effect. -/
theorem Ends.sameEffect {ending ending' : Ending Value} {m₁ m₁' : Machine}
    (h : (isolation m m').Ends (Value.Within (isolation m m').Free) m m' ending m₁ ending' m₁') :
    m.SameEffect (ending, m₁) (ending', m₁') where
  ending := h.same
  methods := by
    have methods := h.mirrors.methods
    simpa [relabel_isolation] using methods
  calls := h.mirrors.calls
  closures id closure closure' hclosure hclosure' := by
    have same := (h.mirrors.closures id closure closure' hclosure hclosure').1
    rwa [relabelClosure_isolation] at same
  sight id closure closure' fresh hclosure hclosure' name := by
    have free : (isolation m m').Free id := Array.getElem?_eq_none_iff.mp fresh
    have captured := ((h.mirrors.closures id closure closure' hclosure hclosure').2 free).captured
    exact h.mirrors.store.lookup_eq captured name

end Mirroring

namespace Program

/-- A call of a method without a block and without closures among the arguments ends alike on
machines that differ only in what their scopes bind. -/
theorem agree_method (program : Program) (fuel : Nat) (callee : Method) (id : FrameId)
    {given : CallArgs} (plain : given.procs = []) {m m' : Machine} (h : m.SameButBindings m') :
    (Slack.mk False False).Agree
      ((Mirroring.isolation m m').Ends (Value.Within (Mirroring.isolation m m').Free) m m')
      (program.perform fuel (.method callee id given none) m)
      (program.perform fuel (.method callee id given none) m') := by
  have free : given.Within (Mirroring.isolation m m').Free := by
    rw [CallArgs.within_iff, plain]
    exact nofun
  have asks : (Mirroring.isolation m m').Asks (.method callee id given none)
      (.method (callee.relabel (Mirroring.isolation m m').operand (Mirroring.isolation m m').place) id
        given none) m m' :=
    .method callee id (Mirroring.mirrors_isolation h) free Mirroring.freeBlock_none
  rw [Mirroring.relabel_isolation] at asks
  exact (Mirroring.simulates_isolation m m' program).perform (fun hlt => absurd hlt (lt_irrefl _))
    (fun hlt => absurd hlt (by omega)) asks

/-- A call of a method without a block and without closures among the arguments, however it ends,
leaves all scopes that existed before it as they were.  On machines that differ only in what these
scopes bind, it ends on both or on neither, in the same way and with the same methods. -/
theorem methods_are_isolated (program : Program) (fuel : Nat) (m : Machine) (callee : Method)
    (id : FrameId) (given : CallArgs) (plain : given.procs = []) :
    (∀ ending m₁, program.perform fuel (.method callee id given none) m = some (ending, m₁) →
      ∀ s : ScopeId, s.index < m.env.store.size → m₁.env.store.scope? s = m.env.store.scope? s) ∧
    ∀ m', m.SameButBindings m' →
      Option.Rel m.SameEffect (program.perform fuel (.method callee id given none) m)
        (program.perform fuel (.method callee id given none) m') := by
  constructor
  · intro ending m₁ hperform s hs
    have agree := program.agree_method fuel callee id plain (.refl m)
    rw [hperform] at agree
    have floor : m.env.store.scopes.toList <+: m₁.env.store.scopes.toList :=
      agree.mirrors.store.rests.floor
    obtain ⟨made, hmade⟩ := floor
    have hlength : s.index < m.env.store.scopes.toList.length := by
      rw [Array.length_toList]
      exact hs
    rw [ScopeStore.scope?, ScopeStore.scope?, ← Array.getElem?_toList, ← Array.getElem?_toList, ← hmade,
      List.getElem?_append_left hlength]
  · intro m' h
    have agree := program.agree_method fuel callee id plain h
    exact agree.rel not_false not_false fun _ _ _ _ ends => ends.sameEffect

/-- The definition `def put(a); x = a; end`, where `x`, `a` and `put` are the first names that are
not reserved. -/
def shadowing : Program where
  names := .initial
  nodes := ⟨#[.ident ⟨35⟩, .assign ⟨34⟩ [.plain ⟨0⟩], .define ⟨36⟩ [⟨⟨35⟩, .required⟩] ⟨1⟩]⟩

/-- The method that it defines. -/
def shadowingMethod : Method where
  name := ⟨36⟩
  params := [⟨⟨35⟩, .required⟩]
  body := ⟨1⟩
  root := ⟨2⟩

/-- Called where `x` is 1, the method assigns an `x` of its own; called where `x` is 2, it does the
same. -/
theorem shadowing_is_isolated :
    ∃ m₁ m₁',
      shadowing.perform 3 (.method shadowingMethod ⟨0⟩ { positional := [.int 7] } none)
          (.initial .testRun [(⟨34⟩, .int 1)]) = some (.ok (.int 7), m₁) ∧
        (m₁.env.store.scope? ⟨0⟩).map (·.bindings) = some [(⟨34⟩, .int 1)] ∧
        shadowing.perform 3 (.method shadowingMethod ⟨0⟩ { positional := [.int 7] } none)
          (.initial .testRun [(⟨34⟩, .int 2)]) = some (.ok (.int 7), m₁') ∧
        m₁'.methods = m₁.methods := by
  obtain ⟨unchanged, alike⟩ := shadowing.methods_are_isolated 3
    (.initial .testRun [(⟨34⟩, .int 1)]) shadowingMethod ⟨0⟩ { positional := [.int 7] } rfl
  have run : ∃ m₁, shadowing.perform 3
      (.method shadowingMethod ⟨0⟩ { positional := [.int 7] } none)
      (.initial .testRun [(⟨34⟩, .int 1)]) = some (.ok (.int 7), m₁) := ⟨_, rfl⟩
  obtain ⟨m₁, hrun⟩ := run
  have unchanged := unchanged _ m₁ hrun ⟨0⟩ (by decide)
  have alike := alike (.initial .testRun [(⟨34⟩, .int 2)]) ⟨rfl, rfl, rfl, rfl, rfl, rfl, rfl⟩
  rw [hrun] at alike
  generalize shadowing.perform 3 _ (.initial .testRun [(⟨34⟩, .int 2)]) = result at alike
  cases alike with
  | @some _ result' same =>
    obtain ⟨ending, m₁'⟩ := result'
    obtain rfl : ending = .ok (.int 7) := same.ending
    exact ⟨m₁, m₁', hrun, by rw [unchanged]; rfl, rfl, same.methods⟩

end Program

end ScriptSemantics
