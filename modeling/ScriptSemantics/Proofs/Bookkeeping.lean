import ScriptSemantics.Proofs.Ledger
import ScriptSemantics.Proofs.Stack

/-!
# Keeping the ledger

The ledger stays accurate when scopes and closures are added, and frames stay in step with the
active scopes.

## Main Results

* `Ledger.Accurate.extend` — at most one owning scope is added, and it is noted with a new identity
* `Ledger.Accurate.addClosure`, `Ledger.Accurate.startProgram` — a closure is made, a program starts
* `Ledger.Layers.current` — the innermost frame agrees with what lies around the current scope
* `Ledger.Layers.extend` — layers survive the addition of scopes
-/

namespace ScriptSemantics.Ledger

variable {ledger ledger' : Ledger} {m m' : Machine} {store store' : ScopeStore}

/-- Two ledgers agree on the scopes of a store. -/
def AgreeOn (store : ScopeStore) (ledger ledger' : Ledger) : Prop :=
  ∀ s : ScopeId, s.index < store.size → ledger' s = ledger s

theorem AgreeOn.refl (store : ScopeStore) (ledger : Ledger) : AgreeOn store ledger ledger :=
  fun _ _ => rfl

theorem AgreeOn.owning (h : AgreeOn store ledger ledger') {s : ScopeId}
    (hs : store.isOwning s = true) : ledger' s = ledger s :=
  h s (ScopeStore.isOwning_lt hs)

theorem agreeOn_set (store : ScopeStore) (ledger : Ledger) (a : Activation) :
    AgreeOn store ledger (ledger.set ⟨store.size⟩ a) := by
  intro s hs
  rw [set, if_neg]
  rintro rfl
  exact Nat.lt_irrefl _ hs

@[simp]
theorem set_self (ledger : Ledger) (s : ScopeId) (a : Activation) : ledger.set s a s = some a :=
  if_pos rfl

/-! ### What lies around a scope -/

section Around

variable {scope : ScopeId} (scopes : store.Extends store') (founded : store.Founded)
  (agree : AgreeOn store ledger ledger') (hscope : scope.index < store.size)

include scopes founded agree hscope

theorem home_extend : ledger'.home store' scope = ledger.home store scope := by
  rw [home, home, enclosing?_congr scopes founded hscope fun s hs => .inl (agree.owning hs)]

theorem block_extend : ledger'.block store' scope = ledger.block store scope := by
  rw [block, block, enclosing?_congr scopes founded hscope fun s hs => .inl (agree.owning hs)]

end Around

/-! ### Accuracy -/

namespace Accurate

/-- Scopes are added, at most one of them an owning one, and it is noted with a new identity. -/
theorem extend (h : ledger.Accurate m) (scopes : m.env.store.Extends m'.env.store)
    (founded : m'.env.store.Founded) (top : m'.env.top = m.env.top)
    (closures : m'.closures = m.closures) (nextId : m.calls.nextId ≤ m'.calls.nextId)
    (agree : AgreeOn m.env.store ledger ledger')
    (added : ∀ s a, m.env.store.size ≤ s.index → m'.env.store.isOwning s = true →
      ledger' s = some a → s = ⟨m.env.store.size⟩ ∧ a.id.index < m'.calls.nextId ∧
        ∀ s' a', m.env.store.isOwning s' = true → ledger s' = some a' → a'.id ≠ a.id) :
    ledger'.Accurate m' := by
  have old : ∀ s a, s.index < m.env.store.size → m'.env.store.isOwning s = true →
      ledger' s = some a → m.env.store.isOwning s = true ∧ ledger s = some a := by
    intro s a hs howning hnoted
    exact ⟨scopes.isOwning hs ▸ howning, agree s hs ▸ hnoted⟩
  have htop := ScopeStore.isOwning_lt h.top
  have hcaptured := h.captured
  exact {
    founded := founded
    top := by
      rw [top, scopes.isOwning htop]
      exact h.top
    topParent := by
      rw [top, scopes.parent? htop]
      exact h.topParent
    topKind := by
      rw [top, agree _ htop]
      exact h.topKind
    bounded := fun s a howning hnoted => by
      by_cases hs : s.index < m.env.store.size
      · obtain ⟨howning, hnoted⟩ := old s a hs howning hnoted
        exact Nat.lt_of_lt_of_le (h.bounded s a howning hnoted) nextId
      · exact (added s a (Nat.le_of_not_lt hs) howning hnoted).2.1
    -- identities of new scopes are new, and there is only one new owning scope
    distinct := fun s s' a a' howning howning' hnoted hnoted' hid => by
      by_cases hs : s.index < m.env.store.size <;> by_cases hs' : s'.index < m.env.store.size
      · obtain ⟨ho, hn⟩ := old s a hs howning hnoted
        obtain ⟨ho', hn'⟩ := old s' a' hs' howning' hnoted'
        exact h.distinct s s' a a' ho ho' hn hn' hid
      · obtain ⟨ho, hn⟩ := old s a hs howning hnoted
        have hnew := added s' a' (Nat.le_of_not_lt hs') howning' hnoted'
        exact absurd hid (hnew.2.2 s a ho hn)
      · obtain ⟨ho', hn'⟩ := old s' a' hs' howning' hnoted'
        have hnew := added s a (Nat.le_of_not_lt hs) howning hnoted
        exact absurd hid.symm (hnew.2.2 s' a' ho' hn')
      · have hnew := added s a (Nat.le_of_not_lt hs) howning hnoted
        have hnew' := added s' a' (Nat.le_of_not_lt hs') howning' hnoted'
        exact hnew.1.trans hnew'.1.symm
    captured := fun proc c hc =>
      Nat.lt_of_lt_of_le (hcaptured proc c (closures ▸ hc)) scopes.size_le
    home := fun proc c hc => by
      rw [home_extend scopes h.founded agree (hcaptured proc c (closures ▸ hc))]
      exact h.home proc c (closures ▸ hc)
    block := fun proc c hc => by
      rw [block_extend scopes h.founded agree (hcaptured proc c (closures ▸ hc))]
      exact h.block proc c (closures ▸ hc)
    tagBounded := fun proc c tag hc htag =>
      Nat.lt_of_lt_of_le (h.tagBounded proc c tag (closures ▸ hc) htag) nextId
    tagNotTop := fun proc c tag a hc htag hnoted => by
      rw [top, agree _ htop] at hnoted
      exact h.tagNotTop proc c tag a (closures ▸ hc) htag hnoted }

/-- No owning scope is added. -/
theorem keep (h : ledger.Accurate m) (scopes : m'.env.store.shape = m.env.store.shape)
    (top : m'.env.top = m.env.top) (closures : m'.closures = m.closures)
    (nextId : m.calls.nextId ≤ m'.calls.nextId) (agree : AgreeOn m.env.store ledger ledger') :
    ledger'.Accurate m' := by
  refine h.extend (.of_shape_eq scopes) (h.founded.of_shape_eq scopes) top closures nextId agree ?_
  intro s a hs howning
  have hlt := ScopeStore.isOwning_lt howning
  rw [ScopeStore.size_of_shape_eq scopes] at hlt
  omega

/-- A closure is made in a scope with what lies around it. -/
theorem addClosure (h : ledger.Accurate m) {c : Closure}
    (captured : c.captured.index < m.env.store.size)
    (home : c.home = ledger.home m.env.store c.captured)
    (block : c.outerBlock = ledger.block m.env.store c.captured)
    (tagBounded : ∀ tag, c.breakTag = some tag → tag.index < m.calls.nextId)
    (tagNotTop : ∀ tag a, c.breakTag = some tag → ledger m.env.top = some a → a.id ≠ tag) :
    ledger.Accurate { m with closures := (m.closures.add c).2 } := by
  exact { h with
    captured := fun proc c' hc' => by
      rcases m.closures.get?_add_cases hc' with hc' | ⟨-, rfl⟩
      · exact h.captured proc c' hc'
      · exact captured
    home := fun proc c' hc' => by
      rcases m.closures.get?_add_cases hc' with hc' | ⟨-, rfl⟩
      · exact h.home proc c' hc'
      · exact home
    block := fun proc c' hc' => by
      rcases m.closures.get?_add_cases hc' with hc' | ⟨-, rfl⟩
      · exact h.block proc c' hc'
      · exact block
    tagBounded := fun proc c' tag hc' => by
      rcases m.closures.get?_add_cases hc' with hc' | ⟨-, rfl⟩
      · exact h.tagBounded proc c' tag hc'
      · exact tagBounded tag
    tagNotTop := fun proc c' tag a hc' => by
      rcases m.closures.get?_add_cases hc' with hc' | ⟨-, rfl⟩
      · exact h.tagNotTop proc c' tag a hc'
      · exact tagNotTop tag a }

section StartProgram

variable {id : FrameId} {root : NodeId}

/-- The note of a program is about the top-level scope only. -/
theorem of_note_program {s : ScopeId} {a : Activation}
    (h : ledger.note (.program root id) m s = some a) :
    (s = m.env.top ∧ a.id = id ∧ a.kind = .top) ∨ ledger s = some a := by
  rw [note, set] at h
  split at h
  next heq =>
    cases h
    exact .inl ⟨heq, rfl, rfl⟩
  next => exact .inr h

/-- The note replaces one activation of a program by another, so a search for activations of another
kind goes on as before. -/
theorem enclosing?_note_program (h : ledger.Accurate m) {p : Activation → Bool}
    (hp : ∀ a : Activation, a.kind = .top → p a = false) {scope : ScopeId}
    (hscope : scope.index < m.env.store.size) :
    (ledger.note (.program root id) m).enclosing? m.env.store p scope =
      ledger.enclosing? m.env.store p scope := by
  refine enclosing?_congr (.refl _) h.founded hscope fun s hs => ?_
  by_cases htop : s = m.env.top
  · subst htop
    refine .inr ⟨fun a ha => hp a (h.topKind a ha), fun a ha => ?_⟩
    rw [note, set_self] at ha
    cases ha
    exact hp _ rfl
  · exact .inl (if_neg htop)

/-- A program starts in the top-level scope, under a new identity. -/
theorem startProgram (h : ledger.Accurate m) (lt : id.index < m.calls.nextId)
    (fresh : ∀ s a, m.env.store.isOwning s = true → ledger s = some a → a.id ≠ id)
    (tags : ∀ proc c, m.closures.get? proc = some c → c.breakTag ≠ some id) :
    (ledger.note (.program root id) m).Accurate m where
  founded := h.founded
  top := h.top
  topParent := h.topParent
  topKind a ha := by
    rw [note, set_self] at ha
    cases ha
    rfl
  bounded s a hs ha := by
    rcases of_note_program ha with ⟨-, hid, -⟩ | ha
    · exact hid ▸ lt
    · exact h.bounded s a hs ha
  distinct s s' a a' hs hs' ha ha' hid := by
    rcases of_note_program ha with ⟨rfl, haid, -⟩ | ha <;>
      rcases of_note_program ha' with ⟨rfl, ha'id, -⟩ | ha'
    · rfl
    · exact absurd (hid.symm.trans haid) (fresh s' a' hs' ha')
    · exact absurd (hid.trans ha'id) (fresh s a hs ha)
    · exact h.distinct s s' a a' hs hs' ha ha' hid
  captured := h.captured
  -- an activation of a program is neither that of a method nor that of a lambda
  home proc c hc := by
    rw [Ledger.home, h.enclosing?_note_program (by simp_all [Activation.isHome])
      (h.captured proc c hc)]
    exact h.home proc c hc
  block proc c hc := by
    rw [Ledger.block, h.enclosing?_note_program (by simp_all [Activation.isMethod])
      (h.captured proc c hc)]
    exact h.block proc c hc
  tagBounded := h.tagBounded
  tagNotTop proc c tag a hc htag ha := by
    rw [note, set_self] at ha
    cases ha
    rintro rfl
    exact tags proc c hc htag

end StartProgram

end Accurate

/-! ### Layers -/

theorem Fits.extend {top scope : ScopeId} {frame : Frame} (h : ledger.Fits store top scope frame)
    (scopes : store.Extends store') (founded : store.Founded) (agree : AgreeOn store ledger ledger')
    (htop : top.index < store.size) : ledger'.Fits store' top scope frame := by
  have hscope := ScopeStore.isOwning_lt h.owning
  refine ⟨?_, ?_, ?_, ?_, ?_⟩
  · rw [agree scope hscope]
    exact h.activation
  · rw [scopes.isOwning hscope]
    exact h.owning
  · rw [home_extend scopes founded agree hscope]
    exact h.home
  · rw [block_extend scopes founded agree hscope]
    exact h.block
  · rw [agree top htop]
    exact h.tagNotTop

namespace Layers

variable {top : ScopeId} {entered : List ScopeId} {frames : List Frame}

theorem extend (h : ledger.Layers store top entered frames) (scopes : store.Extends store')
    (founded : store.Founded) (agree : AgreeOn store ledger ledger')
    (htop : top.index < store.size) : ledger'.Layers store' top entered frames := by
  induction h with
  | program fits kind => exact .program (fits.extend scopes founded agree htop) kind
  | transparent shape rest ih =>
    refine .transparent ?_ ih
    have hlt := (List.getElem?_eq_some_iff.mp shape).1
    rw [scopes.shape_getElem? (ScopeStore.length_shape store ▸ hlt)]
    exact shape
  | owning fits kind rest ih => exact .owning (fits.extend scopes founded agree htop) kind ih

/-- The innermost frame agrees with what lies around the current scope. -/
theorem current (h : ledger.Layers store top entered frames) (founded : store.Founded) :
    ∃ frame rest, frames = frame :: rest ∧
      frame.homeForLiterals = ledger.home store (entered.headD top) ∧
      frame.block = ledger.block store (entered.headD top) := by
  induction h with
  | program fits kind => exact ⟨_, [], rfl, fits.home, fits.block⟩
  | transparent shape rest ih =>
    obtain ⟨frame, others, rfl, hhome, hblock⟩ := ih
    refine ⟨frame, others, rfl, ?_, ?_⟩
    · rw [hhome, List.headD_cons, home, home, enclosing?_transparent founded shape]
    · rw [hblock, List.headD_cons, block, block, enclosing?_transparent founded shape]
  | owning fits kind rest ih => exact ⟨_, _, rfl, fits.home, fits.block⟩

/-- Every frame was pushed for an activation in the ledger; only that of the program has the
top-level scope. -/
theorem fits_of_mem (h : ledger.Layers store top entered frames) {frame : Frame}
    (hmem : frame ∈ frames) :
    ∃ scope, ledger.Fits store top scope frame ∧ (frame.kind = .top → scope = top) := by
  induction h with
  | program fits kind =>
    cases List.mem_singleton.mp hmem
    exact ⟨top, fits, fun _ => rfl⟩
  | transparent shape rest ih => exact ih hmem
  | owning fits kind rest ih =>
    rcases List.mem_cons.mp hmem with rfl | hmem
    · exact ⟨_, fits, fun h => absurd h kind⟩
    · exact ih hmem

/-- How many loops run in the innermost frame does not matter. -/
theorem setLoopDepth {frame : Frame} {rest : List Frame}
    (h : ledger.Layers store top entered (frame :: rest)) (depth : Nat) :
    ledger.Layers store top entered ({ frame with loopDepth := depth } :: rest) := by
  generalize hframes : frame :: rest = frames at h
  induction h with
  | program fits kind =>
    cases hframes
    exact .program ⟨fits.activation, fits.owning, fits.home, fits.block, fits.tagNotTop⟩ kind
  | transparent shape _ ih => exact .transparent shape (ih hframes)
  | owning fits kind rest ih =>
    cases hframes
    exact .owning ⟨fits.activation, fits.owning, fits.home, fits.block, fits.tagNotTop⟩ kind rest

theorem current_lt (h : ledger.Layers store top entered frames) (htop : top.index < store.size) :
    (entered.headD top).index < store.size := by
  cases h with
  | program => exact htop
  | transparent shape rest =>
    exact ScopeStore.length_shape store ▸ (List.getElem?_eq_some_iff.mp shape).1
  | owning fits kind rest => exact ScopeStore.isOwning_lt fits.owning

end Layers

end ScriptSemantics.Ledger
