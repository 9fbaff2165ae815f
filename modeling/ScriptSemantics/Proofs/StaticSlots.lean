import ScriptSemantics.Proofs.AssocKeys
import ScriptSemantics.Proofs.LexicalFrames
import ScriptSemantics.Proofs.SlotLaws

/-!
# Slots are static

Which slot an access to a local goes to is known before the program runs: it is the activation,
around the current scope, of a scope root that the walk of the resolver selects.  The scope root is
the innermost one that declares the name at this point of the walk or has a parameter of this name,
which may be declared only later.

## Main Definitions

* `Event.Accesses` — an event is an access to a local
* `Machine.UsesSlot` — what a machine reads and stores as a local is in some scope
* `Pending` — a parameter that is not declared yet hides a declaration

## Main Results

* `Program.slots_are_static` — for every access of a run
-/

namespace ScriptSemantics

/-! ### Accesses -/

/-- The state of the walk of the resolver on its arrival at a node, for a program that is run on a
machine. -/
def Program.arrival? (program : Program) (root : NodeId) (m : Machine) (id : NodeId) :
    Option Walk :=
  (WalkStep.arrivals program.nodes (root.index + 1) root
    (.start root m.env.topBindings.keys)).get? id

/-- An event is an access to a local: the node at which the walk selects its slot, the name, and
whether the walk declares the name there. -/
inductive Event.Accesses (program : Program) : Event → NodeId → Name → Bool → Prop
  /-- A read that is not flagged. -/
  | read {id : NodeId} {name : Name} {m : Machine} (node : program.nodes.node? id = some (.ident name))
    (bound : m.resolution.isUnbound id = false) : Accesses program (.enter (.node id) m) id name false
  /-- The read with which an assignment of an operator's result begins. -/
  | update {id expr : NodeId} {name : Name} {op : BinaryOp} {m : Machine}
    (node : program.nodes.node? id = some (.opAssign name op expr)) :
    Accesses program (.enter (.node id) m) id name true
  /-- An assignment, or the message of an error for a rescue clause. -/
  | store {site : NodeId} {name : Name} {value : Value} {m : Machine} :
    Accesses program (.enter (.store site name value) m) site name true

/-- The scope roots that the walk is inside of at an access. -/
def Walk.scopesAt (w : Walk) (name : Name) (declares : Bool) : List OpenScope :=
  if declares then (w.declare name).scopes else w.scopes

/-- The machine reads and stores a local in a scope. -/
structure Machine.UsesSlot (m : Machine) (name : Name) (slot : ScopeId) : Prop where
  bound : m.env.store.binds slot name = true
  read : m.env.lookup name = m.env.store.binding? slot name
  write : ∀ value, m.env.assignLocal name value =
    { m.env with store := m.env.store.define slot name value }

theorem Machine.UsesSlot.of_binder? {m : Machine} {name : Name} {slot : ScopeId}
    (h : m.env.store.binder? m.env.current name = some slot) : m.UsesSlot name slot where
  bound := ScopeStore.binds_of_binder? h
  read := by
    rw [Environment.lookup, ScopeStore.lookup_eq, h]
    rfl
  write _ := Environment.assignLocal_eq h

/-! ### Parameters that are not declared yet -/

/-- Inside of the scope root that declares a name, as far as names are seen, there is one with a
parameter of this name that is not declared yet. -/
def Pending (table : NodeTable) : List OpenScope → Name → Prop
  | [], _ => False
  | scope :: rest, name => name ∉ scope.declared ∧
    (name ∈ table.paramNames scope.root ∨ scope.seesEnclosing = true ∧ Pending table rest name)

theorem declarer?_mem {scopes : List OpenScope} {name : Name} {root : NodeId}
    (h : declarer? scopes name = some root) : root ∈ scopes.map OpenScope.root := by
  induction scopes with
  | nil => cases h
  | cons scope rest ih =>
    rw [declarer?_cons] at h
    split at h
    · cases h
      exact List.mem_cons_self
    · split at h
      · exact List.mem_cons_of_mem _ (ih h)
      · cases h

/-- The scope root that declares a visible name is its holder unless a parameter is pending. -/
theorem declarer?_eq_holder?_iff {table : NodeTable} {scopes : List OpenScope} {name : Name}
    (distinct : (scopes.map OpenScope.root).Nodup) (hvisible : visibleIn scopes name = true) :
    declarer? scopes name = holder? table scopes name ↔ ¬ Pending table scopes name := by
  induction scopes with
  | nil => cases hvisible
  | cons scope rest ih =>
    rw [List.map_cons, List.nodup_cons] at distinct
    rw [declarer?_cons, holder?_cons, Pending]
    by_cases hdeclared : name ∈ scope.declared
    · simp [hdeclared]
    · have hcontains : scope.declared.contains name = false := by simpa using hdeclared
      rw [visibleIn, hcontains, Bool.false_or, Bool.and_eq_true] at hvisible
      by_cases hparam : name ∈ table.paramNames scope.root
      · have hne : declarer? rest name ≠ some scope.root :=
          fun h => distinct.1 (declarer?_mem h)
        simpa [hdeclared, hparam, hvisible.1] using hne
      · have hrest := ih distinct.2 hvisible.2
        simpa [hdeclared, hparam, hvisible.1] using hrest

/-! ### The run of a program -/

/-- What is observed depends on the notes alone. -/
theorem Contract.observe_congr {γ : Type} {C D : Contract γ} (h : C.note = D.note) (g : γ)
    (events : List Event) : C.observe g events = D.observe g events := by
  induction events generalizing g with
  | nil => rfl
  | cons event rest ih =>
    cases event with
    | enter task m => rw [observe, observe, h, ih]
    | leave => exact ih g

/-- The resolver is told the names that the top-level scope binds. -/
theorem Environment.mem_keys_topBindings {env : Environment} {name : Name} :
    name ∈ env.topBindings.keys ↔ env.store.binds env.top name = true := by
  rw [Assoc.mem_keys_iff, topBindings, ScopeStore.binds, ScopeStore.binding?]
  cases env.store.scope? env.top <;> rfl

namespace Slots

variable {program : Program} {root : NodeId} {res : Resolution} {policy : DepthPolicy}
  {locals : List (Name × Value)}

theorem seenRoots_start (root : NodeId) (names : List Name) :
    (Walk.start root names).scopes ≠ [] ∧ seenRoots (Walk.start root names).scopes = [root] := by
  obtain ⟨declared, hstart, -⟩ := Walk.exists_start root names
  rw [hstart]
  exact ⟨List.cons_ne_nil _ _, rfl⟩

/-- The locals of the host are owned by the root of the program. -/
theorem owned_of_bound {m : Machine}
    (resolved : resolve program.nodes root m.env.topBindings.keys = .ok res)
    (tree : program.nodes.IsTree root) (hroot : program.nodes.callable? root = none) {name : Name}
    (h : m.env.store.binds m.env.top name = true) : name ∈ res.ownedNames root := by
  obtain ⟨declared, hstart, hnames⟩ := Walk.exists_start root m.env.topBindings.keys
  have settled := (stands_start resolved tree hroot).settled
  rw [hstart] at settled
  exact settled.1.owned name ((hnames name).mpr (Environment.mem_keys_topBindings.mpr h))

/-- Before its first program, a machine has no scope but the top-level scope. -/
theorem eq_top_of_initial {s : ScopeId}
    (hlt : s.index < (Machine.initial policy locals).env.store.size) :
    s = (Machine.initial policy locals).env.top := by
  have same := Ledger.sameShape_initial policy locals
  rw [← ScopeStore.length_shape, same.shape] at hlt
  have hzero : s.index = 0 := Nat.lt_one_iff.mp hlt
  have htop : (Machine.initial policy locals).env.top = ⟨0⟩ := same.top
  rw [htop]
  cases s
  exact congrArg ScopeId.mk hzero

/-- Before its first program, a machine is fresh. -/
theorem fresh_initial
    (resolved : resolve program.nodes root (Machine.initial policy locals).env.topBindings.keys =
      .ok res)
    (tree : program.nodes.IsTree root) (hroot : program.nodes.callable? root = none) :
    Fresh res root { (Machine.initial policy locals) with resolution := res }.allocateFrame.2 where
  resolution := rfl
  closures _ := rfl
  methods _ := rfl
  scopes s hs := by
    have hlt : s.index < (Machine.initial policy locals).env.store.size := hs
    exact eq_top_of_initial hlt
  bound _ _ h := owned_of_bound resolved tree hroot h

/-- What is observed is what the ledger says. -/
theorem observe_eq {entries : Assoc NodeId Walk} (events : List Event) :
    (regime program res entries root).contract.observe Ledger.blank events = Ledger.of events :=
  Contract.observe_congr (C := (regime program res entries root).contract)
    (D := (Ledger.regime : Regime Ledger).contract) rfl Ledger.blank events

/-- The conditions for the walk over a program. -/
abbrev regimeOf (program : Program) (root : NodeId) (keys : List Name) (res : Resolution) :
    Regime Ledger :=
  regime program res
    (WalkStep.arrivals program.nodes (root.index + 1) root (.start root keys)) root

theorem lawful_regimeOf {keys : List Name} (resolved : resolve program.nodes root keys = .ok res)
    (tree : program.nodes.IsTree root) (hroot : program.nodes.callable? root = none) :
    (regimeOf program root keys res).Lawful program := by
  obtain ⟨hscopes, hroots⟩ := seenRoots_start root keys
  exact lawful ⟨_, _, stands_start resolved tree hroot, hscopes, hroots⟩

/-- The conditions hold at every event of the first program on a machine. -/
theorem admits_evaluation
    (resolved : resolve program.nodes root (Machine.initial policy locals).env.topBindings.keys =
      .ok res)
    (tree : program.nodes.IsTree root) (hroot : program.nodes.callable? root = none) (fuel : Nat) :
    (regimeOf program root (Machine.initial policy locals).env.topBindings.keys res).contract.Admits
      Ledger.blank (program.evaluation fuel root (.initial policy locals)) := by
  rw [Program.evaluation, resolved]
  refine (lawful_regimeOf resolved tree hroot).kept.admits_record (.program root _) ?_
  exact ⟨(Ledger.idle_initial policy locals).start res, rfl, fresh_initial resolved tree hroot⟩

/-! ### A program that is a single callable -/

/-- The evaluation of a callable makes a closure or a method and does nothing else. -/
theorem enter_of_record_callable (hcallable : (program.nodes.callable? root).isSome = true)
    {fuel : Nat} {m m' : Machine} {task : Task}
    (h : .enter task m' ∈ program.record fuel (.node root) m) : task = .node root := by
  cases fuel with
  | zero =>
    cases List.mem_singleton.mp h
    rfl
  | succ fuel =>
    obtain ⟨callable, hcallable⟩ := Option.isSome_iff_exists.mp hcallable
    obtain ⟨node, hnode, hcode⟩ := Option.bind_eq_some_iff.mp hcallable
    rw [Program.record_succ, Task.work, hnode] at h
    rcases List.mem_cons.mp h with h | h
    · cases h
      rfl
    · cases node with
      | define | block | lambda =>
        cases List.mem_singleton.mp h
      | _ => cases hcode

theorem enter_of_evaluation_callable (hcallable : (program.nodes.callable? root).isSome = true)
    {fuel : Nat} {m m' : Machine} {task : Task}
    (h : .enter task m' ∈ program.evaluation fuel root m) :
    task = .node root ∨ ∃ id, task = .program root id := by
  rw [Program.evaluation] at h
  split at h
  next => cases h
  next resolution _ =>
    cases fuel with
    | zero =>
      cases List.mem_singleton.mp h
      exact .inr ⟨_, rfl⟩
    | succ fuel =>
      change _ ∈ program.record (fuel + 1) (.program root _) _ at h
      rw [Program.record_succ, Task.work, Comp.runProgram] at h
      rcases List.mem_cons.mp h with h | h
      · cases h
        exact .inr ⟨_, rfl⟩
      · split at h
        next => cases List.mem_singleton.mp h
        next calls _ =>
          change _ ∈ (Work.ask (.node root) _ fun ending m' =>
            .done (Comp.recordFrames program.names m' (Comp.topEnding _ ending))
              (m'.mapCalls .pop)).rest program fuel (.program root _) at h
          rw [Work.rest_ask] at h
          rcases List.mem_append.mp h with h | h
          · exact .inl (enter_of_record_callable hcallable h)
          · split at h
            next => simp [Work.rest, Work.events, Work.run, Program.departure] at h
            next => cases h

theorem not_accesses_of_callable (hcallable : (program.nodes.callable? root).isSome = true)
    {fuel : Nat} {m : Machine} {event : Event} (hevent : event ∈ program.evaluation fuel root m)
    {site : NodeId} {name : Name} {declares : Bool} : ¬ event.Accesses program site name declares := by
  have codeless : ∀ {node : Node}, program.nodes.node? root = some node →
      node.callable?.isSome = true := by
    intro node hnode
    rwa [NodeTable.callable?, hnode] at hcallable
  intro access
  cases access with
  | read hnode =>
    rcases enter_of_evaluation_callable hcallable hevent with h | ⟨id, h⟩
    · cases h
      cases codeless hnode
    · cases h
  | update hnode =>
    rcases enter_of_evaluation_callable hcallable hevent with h | ⟨id, h⟩
    · cases h
      cases codeless hnode
    · cases h
  | store =>
    rcases enter_of_evaluation_callable hcallable hevent with h | ⟨id, h⟩ <;> cases h

/-! ### Accesses in a run -/

variable {entries : Assoc NodeId Walk} {g : Ledger} {m : Machine} {name : Name}
  {scopes : List OpenScope}

/-- An access goes to the slot of the holder, and this is the slot of the scope root that declares
the name just if no parameter is pending. -/
theorem usesSlot_of_visible (agreement : Scoped program res entries g m)
    (settled : Settled program.nodes res scopes) (distinct : (scopes.map OpenScope.root).Nodup)
    (hne : name.isEmpty = false) (hvisible : visibleIn scopes name = true)
    (faces : g.Faces m.env.store m.env.current (seenRoots scopes)) :
    ∃ slot, (holder? program.nodes scopes name).bind (g.slot? m.env.store m.env.current) =
        some slot ∧ m.UsesSlot name slot ∧
      ((declarer? scopes name).bind (g.slot? m.env.store m.env.current) = some slot ↔
        ¬ Pending program.nodes scopes name) := by
  obtain ⟨holder, slot, hholder, hslot, hbinder⟩ :=
    agreement.binder?_of_visible settled distinct hne hvisible faces
  refine ⟨slot, ?_, .of_binder? hbinder, ?_⟩
  · rw [hholder]
    exact hslot
  · rw [← declarer?_eq_holder?_iff distinct hvisible, hholder]
    constructor
    · intro h
      obtain ⟨declarer, hdeclarer, hslot'⟩ := Option.bind_eq_some_iff.mp h
      have hroot := Ledger.root?_of_slot? hslot
      have hroot' := Ledger.root?_of_slot? hslot'
      rw [hdeclarer, ← hroot', hroot]
    · intro h
      rw [h]
      exact hslot

/-- Where the walk declares the name, an access goes to the slot of the holder. -/
theorem usesSlot_of_sited (agreement : Scoped program res entries g m) {site : NodeId} {w : Walk}
    (sited : Sited program.nodes res entries site name w) (hscopes : w.scopes ≠ [])
    (faces : g.Faces m.env.store m.env.current (seenRoots w.scopes)) (hne : name.isEmpty = false) :
    ∃ slot, (holder? program.nodes (w.scopesAt name true) name).bind
        (g.slot? m.env.store m.env.current) = some slot ∧ m.UsesSlot name slot ∧
      ((declarer? (w.scopesAt name true) name).bind (g.slot? m.env.store m.env.current) =
        some slot ↔ ¬ Pending program.nodes (w.scopesAt name true) name) := by
  have grown : OpenScope.Grown [] w.scopes (w.scopesAt name true) :=
    (Walk.Grows.declare w name).scopes
  refine usesSlot_of_visible agreement sited.settled ?_ hne (visible_declare w hne hscopes) ?_
  · rw [grown.roots_eq]
    exact sited.distinct
  · rw [grown.seenRoots_eq]
    exact faces

end Slots

/-- Whenever a program that is a tree, as the first one on its machine, reads a local that is not
flagged or stores a local: the walk of the resolver has come to the node, the access goes to the
activation around the current scope of the scope root that holds the name at this point of the walk,
and this is the activation of the innermost scope root that declares the name just if no parameter
of this name that is not declared yet lies in between. -/
theorem Program.slots_are_static (program : Program) (fuel : Nat) (root : NodeId)
    (policy : DepthPolicy) (locals : List (Name × Value)) (tree : program.nodes.IsTree root)
    {i : Nat} {event : Event}
    (hevent : (program.evaluation fuel root (.initial policy locals))[i]? = some event)
    {site : NodeId} {name : Name} {declares : Bool}
    (access : event.Accesses program site name declares) (hne : name.isEmpty = false) :
    ∃ w slot, program.arrival? root (.initial policy locals) site = some w ∧
      (holder? program.nodes (w.scopesAt name declares) name).bind
        ((Ledger.of ((program.evaluation fuel root (.initial policy locals)).take i)).slot?
          event.machine.env.store event.machine.env.current) = some slot ∧
      event.machine.UsesSlot name slot ∧
      ((declarer? (w.scopesAt name declares) name).bind
        ((Ledger.of ((program.evaluation fuel root (.initial policy locals)).take i)).slot?
          event.machine.env.store event.machine.env.current) = some slot ↔
        ¬ Pending program.nodes (w.scopesAt name declares) name) := by
  cases resolved : resolve program.nodes root
      (Machine.initial policy locals).env.topBindings.keys with
  | error fault =>
    rw [evaluation, resolved] at hevent
    cases hevent
  | ok res =>
    cases hcallable : program.nodes.callable? root with
    | some callable =>
      exact absurd access (Slots.not_accesses_of_callable (by rw [hcallable]; rfl)
        (List.mem_of_getElem? hevent))
    | none =>
      have start := stands_start resolved tree hcallable
      have allows := (Slots.admits_evaluation resolved tree hcallable fuel).allows hevent
      rw [Slots.observe_eq] at allows
      -- the walk of a tree comes to a node once, so its arrival is the one on the list
      have arrives : ∀ {id : NodeId} {w : Walk}, (id, w) ∈ WalkStep.arrivals program.nodes
          (root.index + 1) root (.start root (Machine.initial policy locals).env.topBindings.keys) →
          program.arrival? root (.initial policy locals) id = some w := by
        intro id w hmem
        obtain ⟨w', hvisit, -⟩ := start.ends
        exact Assoc.get?_of_mem ((WalkStep.keys_arrivals_perm hvisit).nodup_iff.mpr tree) hmem
      -- a read is served where the walk sees its name, a store where it has been declared
      cases access with
      | read hnode bound =>
        obtain ⟨-, agreement, levels, w, stands, -, faces⟩ := allows
        have hvisible := stands.visible_of_read hnode (agreement.resolution ▸ bound)
        obtain ⟨slot, hslot⟩ := Slots.usesSlot_of_visible agreement stands.settled stands.distinct
          hne hvisible faces
        exact ⟨w, slot, arrives stands.mem_entries, hslot⟩
      | update hnode =>
        obtain ⟨-, agreement, placed⟩ := allows
        obtain ⟨w, sited, hscopes, faces⟩ := placed.target hnode List.mem_cons_self
        obtain ⟨slot, hslot⟩ := Slots.usesSlot_of_sited agreement sited hscopes faces hne
        exact ⟨w, slot, arrives sited.mem_entries, hslot⟩
      | store =>
        obtain ⟨-, agreement, w, sited, hscopes, faces⟩ := allows
        obtain ⟨slot, hslot⟩ := Slots.usesSlot_of_sited agreement sited hscopes faces hne
        exact ⟨w, slot, arrives sited.mem_entries, hslot⟩

/-- The program `a = 5; lambda { |b = a, a = 1| b }.call`. -/
def Program.pending : Program where
  names := .initial
  nodes := ⟨#[.int 5, .assign ⟨34⟩ [.plain ⟨0⟩], .ident ⟨34⟩, .int 1, .ident ⟨35⟩,
    .lambda [⟨⟨35⟩, .optional ⟨2⟩⟩, ⟨⟨34⟩, .optional ⟨3⟩⟩] ⟨4⟩, .callValue ⟨5⟩ [] none,
    .seq [⟨1⟩, ⟨6⟩]]⟩

/-- The read of the first parameter goes to the slot of the lambda, which declares it. -/
theorem Program.pending_slots_are_static :
    ∃ m w slot, (pending.evaluation 12 ⟨7⟩ (.initial .unlimited []))[16]? =
        some (.enter (.node ⟨4⟩) m) ∧
      pending.nodes.node? ⟨4⟩ = some (.ident ⟨35⟩) ∧ m.resolution.isUnbound ⟨4⟩ = false ∧
      pending.arrival? ⟨7⟩ (.initial .unlimited []) ⟨4⟩ = some w ∧
      (holder? pending.nodes (w.scopesAt ⟨35⟩ false) ⟨35⟩).bind
        ((Ledger.of ((pending.evaluation 12 ⟨7⟩ (.initial .unlimited [])).take 16)).slot?
          m.env.store m.env.current) = some slot ∧ m.UsesSlot ⟨35⟩ slot := by
  have run : ((pending.evaluation 12 ⟨7⟩ (.initial .unlimited []))[16]?.bind fun event =>
      match event with
      | .enter (.node id) m => some (id, m.resolution.isUnbound id)
      | _ => none) = some (⟨4⟩, false) := by decide +kernel
  obtain ⟨event, hevent, hread⟩ := Option.bind_eq_some_iff.mp run
  split at hread
  next id m =>
    obtain ⟨rfl, hbound⟩ := Prod.mk.inj (Option.some.inj hread)
    obtain ⟨w, slot, harrival, hslot, huses, -⟩ := pending.slots_are_static 12 ⟨7⟩ .unlimited []
      (by decide +kernel) hevent (.read rfl hbound) rfl
    exact ⟨m, w, slot, hevent, rfl, hbound, harrival, hslot, huses⟩
  next => cases hread

/-- A fallback that reads the name of a later parameter does not go to the slot of the program,
which is the one that declares the name. -/
theorem Program.pending_hides_declaration :
    pending.nodes.IsTree ⟨7⟩ ∧
    ∃ m w, (pending.evaluation 12 ⟨7⟩ (.initial .unlimited []))[12]? =
        some (.enter (.node ⟨2⟩) m) ∧
      pending.nodes.node? ⟨2⟩ = some (.ident ⟨34⟩) ∧ m.resolution.isUnbound ⟨2⟩ = false ∧
      pending.arrival? ⟨7⟩ (.initial .unlimited []) ⟨2⟩ = some w ∧
      (declarer? (w.scopesAt ⟨34⟩ false) ⟨34⟩).bind
        ((Ledger.of ((pending.evaluation 12 ⟨7⟩ (.initial .unlimited [])).take 12)).slot?
          m.env.store m.env.current) = some ⟨0⟩ ∧ ¬ m.UsesSlot ⟨34⟩ ⟨0⟩ := by
  refine ⟨by decide +kernel, ?_⟩
  have run : ((pending.evaluation 12 ⟨7⟩ (.initial .unlimited []))[12]?.bind fun event =>
      match event with
      | .enter (.node id) m => some (id, m.resolution.isUnbound id,
          (pending.arrival? ⟨7⟩ (.initial .unlimited []) id).map fun w =>
            (declarer? (w.scopesAt ⟨34⟩ false) ⟨34⟩).bind
              ((Ledger.of ((pending.evaluation 12 ⟨7⟩ (.initial .unlimited [])).take 12)).slot?
                m.env.store m.env.current),
          (m.env.lookup ⟨34⟩).map Value.isTruthy,
          (m.env.store.binding? ⟨0⟩ ⟨34⟩).map Value.isTruthy)
      | _ => none) = some (⟨2⟩, false, some (some ⟨0⟩), some false, some true) := by
    decide +kernel
  obtain ⟨event, hevent, hread⟩ := Option.bind_eq_some_iff.mp run
  split at hread
  next id m =>
    simp only [Option.some.injEq, Prod.mk.injEq] at hread
    obtain ⟨rfl, hbound, harrival, hread, hslot⟩ := hread
    obtain ⟨w, harrival, hdeclarer⟩ := Option.map_eq_some_iff.mp harrival
    refine ⟨m, w, hevent, rfl, hbound, harrival, hdeclarer, fun uses => ?_⟩
    rw [uses.read, hslot] at hread
    cases hread
  next => cases hread

end ScriptSemantics
