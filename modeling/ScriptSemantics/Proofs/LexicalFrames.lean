import ScriptSemantics.Proofs.Sessions

/-!
# Return and yield are lexical

Where a `return` goes and which block a `yield` runs depends on where the code was written, not on
who called it.

## Main Definitions

* `Ledger.of` — the ledger after a list of events
* `Environment.ownScopes` — the scopes of the live frames, innermost first
* `Frame.IsLexical` — the fields of a frame agree with the scope chain

## Main Results

* `Program.frames_are_lexical` — for every live frame at every moment of every session
-/

namespace ScriptSemantics

/-- The ledger after a list of events. -/
def Ledger.of (events : List Event) : Ledger :=
  Ledger.regime.contract.observe .blank events

/-- The scopes of the live frames, innermost first. -/
def Environment.ownScopes (env : Environment) : List ScopeId :=
  env.entered.filter env.store.isOwning ++ [env.top]

/-- The frame belongs to the activation that its scope was made for.  Unless it is a builtin, its
`return` goes to the innermost method or lambda around the scope, and its `yield` runs the block
that was passed to the innermost method around the scope.  The frame of a program is the target of
its own `return`. -/
structure Frame.IsLexical (ledger : Ledger) (store : ScopeStore) (scope : ScopeId) (frame : Frame) :
    Prop where
  activation : ∃ a, ledger scope = some a ∧ a.kind = frame.kind ∧ a.id = frame.id
  returnTarget : frame.kind ≠ .builtin → frame.returnTarget =
    if frame.kind = .top then some frame.id else ledger.home store scope
  block : frame.kind ≠ .builtin → frame.block = ledger.block store scope

namespace Ledger

variable {ledger : Ledger} {store : ScopeStore} {top scope : ScopeId} {frame : Frame}

theorem Fits.isLexical (h : ledger.Fits store top scope frame) :
    frame.IsLexical ledger store scope where
  activation := h.activation
  returnTarget hkind := by
    have hhome := h.home
    rw [Frame.returnTarget, ← hhome, Frame.homeForLiterals]
    cases hcase : frame.kind with
    | builtin => exact absurd hcase hkind
    | _ => rfl
  block _ := h.block

/-- The frames on the stack belong to the owning scopes that are active, in the same order. -/
theorem Layers.fits_getElem? {entered : List ScopeId} {frames : List Frame}
    (h : ledger.Layers store top entered frames) {k : Nat} (hk : frames[k]? = some frame) :
    ∃ scope, (entered.filter store.isOwning ++ [top])[k]? = some scope ∧
      ledger.Fits store top scope frame := by
  induction h generalizing k with
  | program fits kind =>
    cases k with
    | zero =>
      cases hk
      exact ⟨top, rfl, fits⟩
    | succ k => cases hk
  | @transparent s _ _ shape rest ih =>
    have howning : store.isOwning s = false := by rw [ScopeStore.isOwning_eq, shape]; rfl
    rw [List.filter_cons, howning]
    exact ih hk
  | owning fits kind rest ih =>
    rw [List.filter_cons, fits.owning]
    cases k with
    | zero =>
      cases hk
      exact ⟨_, rfl, fits⟩
    | succ k => exact ih hk

/-- At every event either no frame is on the stack or the machine is between two operations. -/
theorem ready_of_allows {g : Ledger} {event : Event}
    (h : (regime : Regime Ledger).contract.Allows g event) :
    event.machine.calls.frames = [] ∨ Ready g event.machine := by
  cases event with
  | enter task m =>
    cases task with
    | node | store => exact .inr h
    | program root id => exact .inl h.frames
    | method | closure | loop => exact .inr h.1
  | leave task ending m =>
    obtain ⟨g₀, m₀, hpre, hpost⟩ := h
    cases task with
    | node | store => exact .inr (Ready.step hpre hpost.1)
    | program root id => exact .inl hpost.1.frames
    | method | closure | loop => exact .inr (Ready.step hpre.1 hpost.1)

end Ledger

/-- At every moment of every session, every live frame has a scope of its own, and its fields agree
with what the scope chain and the calls made so far say. -/
theorem Program.frames_are_lexical (program : Program) (fuel : Nat) (roots : List NodeId)
    (policy : DepthPolicy) (locals : List (Name × Value)) {i : Nat} {event : Event}
    (hevent : (program.session fuel roots (.initial policy locals))[i]? = some event) {k : Nat}
    {frame : Frame} (hframe : event.machine.calls.frames[k]? = some frame) :
    ∃ scope, event.machine.env.ownScopes[k]? = some scope ∧
      frame.IsLexical (.of ((program.session fuel roots (.initial policy locals)).take i))
        event.machine.env.store scope := by
  have idle := Ledger.idle_initial policy locals
  have admits := Ledger.admits_session program fuel idle roots
  rcases Ledger.ready_of_allows (admits.allows hevent) with hframes | ready
  · rw [hframes] at hframe
    cases hframe
  · obtain ⟨scope, hscope, fits⟩ := ready.layers.fits_getElem? hframe
    exact ⟨scope, hscope, fits.isLexical⟩

/-- The program `def m; yield; end; def n; m { 1 }; end; n`. -/
def Program.yielding : Program where
  names := .initial
  nodes := ⟨#[.yield [], .define ⟨34⟩ [] ⟨0⟩, .int 1, .block [] ⟨2⟩,
    .call ⟨34⟩ [] (some (.literal ⟨3⟩)), .define ⟨35⟩ [] ⟨4⟩, .call ⟨35⟩ [] none,
    .seq [⟨1⟩, ⟨5⟩, ⟨6⟩]]⟩

/-- The block that `n` passes to `m` has the activation of `n` as the target of its `return`. -/
theorem Program.yielding_is_lexical :
    ∃ event frame scope,
      (yielding.session 12 [⟨7⟩] (.initial .unlimited []))[12]? = some event ∧
      event.machine.calls.frames[0]? = some frame ∧ frame.kind = .block ∧
      frame.returnTarget = some ⟨1⟩ ∧ event.machine.env.ownScopes[0]? = some scope ∧
      frame.IsLexical (.of ((yielding.session 12 [⟨7⟩] (.initial .unlimited [])).take 12))
        event.machine.env.store scope := by
  have run : ((yielding.session 12 [⟨7⟩] (.initial .unlimited []))[12]?.bind fun event =>
      event.machine.calls.frames[0]?).map (fun frame => (frame.kind, frame.returnTarget)) =
      some (.block, some ⟨1⟩) := by decide +kernel
  obtain ⟨frame, hframe, hfields⟩ := Option.map_eq_some_iff.mp run
  obtain ⟨event, hevent, hframe⟩ := Option.bind_eq_some_iff.mp hframe
  obtain ⟨hkind, htarget⟩ := Prod.mk.inj hfields
  obtain ⟨scope, hscope, hlexical⟩ :=
    yielding.frames_are_lexical 12 [⟨7⟩] .unlimited [] hevent hframe
  exact ⟨event, frame, scope, hevent, hframe, hkind, htarget, hscope, hlexical⟩
end ScriptSemantics
