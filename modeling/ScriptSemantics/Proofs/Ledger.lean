import ScriptSemantics.Proofs.Regime
import ScriptSemantics.Proofs.Scopes

/-!
# The ledger of activations

Frames know by their fields where a `return` goes and which block `yield` runs.  The ledger knows
nothing of these fields: it says for which activation each owning scope was made, as seen from
outside, and the scope chain then says what lies around an activation.

## Main Definitions

* `Activation`, `Ledger` — the activation that each owning scope was made for
* `Ledger.note` — what is written down when a task is entered
* `Ledger.enclosing?` — the innermost activation of some kind around a scope
* `Ledger.home`, `Ledger.block` — the method or lambda around a scope, and the block of the method
* `Ledger.Accurate` — closures and identities agree with the ledger
* `Ledger.Layers` — frames and active scopes agree with each other and with the ledger
-/

namespace ScriptSemantics

/-- The activation that an owning scope was made for. -/
structure Activation where
  kind : FrameKind
  id : FrameId
  /-- The scope root whose code runs; the looping builtin has none. -/
  root : Option NodeId := none
  /-- The block that was passed to the call. -/
  block : Option ProcId := none

namespace Activation

/-- Methods and lambdas are what a `return` leaves. -/
def isHome (activation : Activation) : Bool :=
  activation.kind == .method || activation.kind == .lambda

/-- Methods are what a `yield` looks for. -/
def isMethod (activation : Activation) : Bool :=
  activation.kind == .method

end Activation

/-- The activation that each owning scope was made for. -/
abbrev Ledger := ScopeId → Option Activation

namespace Ledger

/-- The ledger before anything has run. -/
def blank : Ledger := fun _ => none

/-- Write down the activation of a scope. -/
def set (ledger : Ledger) (scope : ScopeId) (activation : Activation) : Ledger :=
  fun s => if s = scope then some activation else ledger s

/-- What is written down when a task is entered.  A program runs in the top-level scope, every other
activation in a scope that is about to be made. -/
def note (ledger : Ledger) (task : Task) (m : Machine) : Ledger :=
  match task with
  | .node _ | .store .. => ledger
  | .program root id => ledger.set m.env.top { kind := .top, id, root := some root }
  | .method callee id _ block =>
    ledger.set ⟨m.env.store.size⟩ { kind := .method, id, root := some callee.root, block }
  | .closure proc id _ block =>
    match m.closures.get? proc with
    | some closure =>
      ledger.set ⟨m.env.store.size⟩
        { kind := if closure.isLambda then .lambda else .block, id
          root := some closure.literal, block }
    | none => ledger
  | .loop _ id => ledger.set ⟨m.env.store.size⟩ { kind := .builtin, id }

/-! ### What lies around a scope -/

/-- The activations of a scope and its ancestors, innermost first. -/
def lexical (ledger : Ledger) (store : ScopeStore) (scope : ScopeId) : List Activation :=
  (store.owners scope).filterMap ledger

/-- The innermost activation of some kind around a scope. -/
def enclosing? (ledger : Ledger) (store : ScopeStore) (p : Activation → Bool) (scope : ScopeId) :
    Option Activation :=
  (ledger.lexical store scope).find? p

/-- The identity of the innermost method or lambda around a scope. -/
def home (ledger : Ledger) (store : ScopeStore) (scope : ScopeId) : Option FrameId :=
  (ledger.enclosing? store Activation.isHome scope).map (·.id)

/-- The block that was passed to the innermost method around a scope. -/
def block (ledger : Ledger) (store : ScopeStore) (scope : ScopeId) : Option ProcId :=
  (ledger.enclosing? store Activation.isMethod scope).bind (·.block)

/-! ### Agreement with the machine -/

/-- The identities in the ledger are distinct and were given out, and closures were made where the
ledger says. -/
structure Accurate (ledger : Ledger) (m : Machine) : Prop where
  founded : m.env.store.Founded
  top : m.env.store.isOwning m.env.top = true
  topParent : m.env.store.parent? m.env.top = none
  topKind : ∀ a, ledger m.env.top = some a → a.kind = .top
  bounded : ∀ s a, m.env.store.isOwning s = true → ledger s = some a → a.id.index < m.calls.nextId
  distinct : ∀ s s' a a', m.env.store.isOwning s = true → m.env.store.isOwning s' = true →
    ledger s = some a → ledger s' = some a' → a.id = a'.id → s = s'
  captured : ∀ proc c, m.closures.get? proc = some c → c.captured.index < m.env.store.size
  home : ∀ proc c, m.closures.get? proc = some c → c.home = ledger.home m.env.store c.captured
  block : ∀ proc c, m.closures.get? proc = some c →
    c.outerBlock = ledger.block m.env.store c.captured
  tagBounded : ∀ proc c tag, m.closures.get? proc = some c → c.breakTag = some tag →
    tag.index < m.calls.nextId
  tagNotTop : ∀ proc c tag a, m.closures.get? proc = some c → c.breakTag = some tag →
    ledger m.env.top = some a → a.id ≠ tag

/-- A frame agrees with the activation that its scope was made for, and its fields with what lies
around the scope. -/
structure Fits (ledger : Ledger) (store : ScopeStore) (top scope : ScopeId) (frame : Frame) :
    Prop where
  activation : ∃ a, ledger scope = some a ∧ a.kind = frame.kind ∧ a.id = frame.id
  owning : store.isOwning scope = true
  home : frame.homeForLiterals = ledger.home store scope
  block : frame.block = ledger.block store scope
  tagNotTop : ∀ tag a, frame.breakTag = some tag → ledger top = some a → a.id ≠ tag

/-- Active scopes and frames agree: every owning scope has a frame, transparent scopes lie inside
the scope before them. -/
inductive Layers (ledger : Ledger) (store : ScopeStore) (top : ScopeId) :
    List ScopeId → List Frame → Prop
  | program {frame : Frame} (fits : ledger.Fits store top top frame) (kind : frame.kind = .top) :
    Layers ledger store top [] [frame]
  | transparent {scope : ScopeId} {entered : List ScopeId} {frames : List Frame}
      (shape : store.shape[scope.index]? = some (.transparent, some (entered.headD top)))
      (rest : Layers ledger store top entered frames) :
    Layers ledger store top (scope :: entered) frames
  | owning {scope : ScopeId} {entered : List ScopeId} {frame : Frame} {frames : List Frame}
      (fits : ledger.Fits store top scope frame) (kind : frame.kind ≠ .top)
      (rest : Layers ledger store top entered frames) :
    Layers ledger store top (scope :: entered) (frame :: frames)

/-! ### Reading the chain -/

section Chain

variable {ledger ledger' : Ledger} {store store' : ScopeStore} {scope : ScopeId}
  {p : Activation → Bool}

theorem lexical_eq (founded : store.Founded) (scope : ScopeId) :
    ledger.lexical store scope =
      (if store.isOwning scope then (ledger scope).toList else []) ++
        match store.parent? scope with
        | some parent => ledger.lexical store parent
        | none => [] := by
  rw [lexical, ScopeStore.owners_eq founded, List.filterMap_append]
  congr 1
  · cases store.isOwning scope <;> cases hscope : ledger scope <;> simp [hscope]
  · cases store.parent? scope <;> rfl

theorem enclosing?_owning (founded : store.Founded) {a : Activation}
    (owning : store.isOwning scope = true) (noted : ledger scope = some a) :
    ledger.enclosing? store p scope =
      if p a then some a else (store.parent? scope).bind (ledger.enclosing? store p) := by
  rw [enclosing?, lexical_eq founded, owning, noted]
  cases store.parent? scope <;> cases hp : p a <;> simp [hp, enclosing?]

theorem enclosing?_transparent (founded : store.Founded) {parent : ScopeId}
    (shape : store.shape[scope.index]? = some (.transparent, some parent)) :
    ledger.enclosing? store p scope = ledger.enclosing? store p parent := by
  have howning : store.isOwning scope = false := by rw [ScopeStore.isOwning_eq, shape]; rfl
  have hparent : store.parent? scope = some parent := by rw [ScopeStore.parent?_eq, shape]; rfl
  rw [enclosing?, lexical_eq founded, howning, hparent]
  rfl

theorem of_enclosing? {a : Activation} (h : ledger.enclosing? store p scope = some a) :
    p a = true ∧ ∃ s, store.isOwning s = true ∧ ledger s = some a := by
  obtain ⟨s, hs, hnoted⟩ := List.mem_filterMap.mp (List.mem_of_find?_eq_some h)
  exact ⟨List.find?_some h, s, ScopeStore.isOwning_of_mem_owners hs, hnoted⟩

/-- Activations that are not looked for may be noted differently. -/
theorem enclosing?_congr (scopes : store.Extends store') (founded : store.Founded)
    (hscope : scope.index < store.size)
    (agree : ∀ s, store.isOwning s = true → ledger' s = ledger s ∨
      (∀ a, ledger s = some a → p a = false) ∧ ∀ a, ledger' s = some a → p a = false) :
    ledger'.enclosing? store' p scope = ledger.enclosing? store p scope := by
  have find : ∀ scopes : List ScopeId, (∀ s ∈ scopes, store.isOwning s = true) →
      (scopes.filterMap ledger').find? p = (scopes.filterMap ledger).find? p := by
    intro scopes
    induction scopes with
    | nil => exact fun _ => rfl
    | cons s rest ih =>
      intro howning
      have hrest := ih fun t ht => howning t (List.mem_cons_of_mem _ ht)
      rcases agree s (howning s List.mem_cons_self) with heq | ⟨hold, hnew⟩
      · cases hs : ledger s with
        | none => simpa [heq, hs] using hrest
        | some a => cases hp : p a <;> simp [heq, hs, hp, hrest]
      · cases hs : ledger s <;> cases hs' : ledger' s <;>
          simp_all
  rw [enclosing?, enclosing?, lexical, lexical, scopes.owners founded hscope]
  exact find _ fun s hs => ScopeStore.isOwning_of_mem_owners hs

end Chain

end Ledger

end ScriptSemantics
