import ScriptSemantics.Proofs.StaticSlots

/-!
# Flags decide reads

Whether a read of a name finds a local does not depend on the path that a run takes.  A read that
the walk of the resolver did not flag finds one whenever it is executed, and a read that is flagged
never looks for one, whatever is bound around it.

## Main Definitions

* `Program.nonlocal` — what a name stands for that is no local

## Main Results

* `Program.perform_bound_read`, `Program.perform_free_read` — what the two kinds of reads do
* `Program.flags_decide_reads` — which kind an executed read is

## Design Notes

A name that is visible to the walk is owned by some scope root around it, and every activation binds
the names that its scope root owns as soon as it begins.
-/

namespace ScriptSemantics

section Agreement

variable {program : Program} {table : NodeTable} {res : Resolution} {entries : Assoc NodeId Walk}
  {g : Ledger} {m : Machine} {scope : ScopeId} {scopes : List OpenScope} {name : Name}

/-- A visible name is owned by a scope root in sight. -/
theorem Settled.owner_of_visible (h : Settled table res scopes)
    (hvisible : visibleIn scopes name = true) :
    ∃ root ∈ seenRoots scopes, name ∈ res.ownedNames root := by
  induction scopes with
  | nil => cases hvisible
  | cons first rest ih =>
    obtain ⟨hfirst, hrest⟩ := h
    rw [visibleIn, Bool.or_eq_true, Bool.and_eq_true] at hvisible
    rw [seenRoots]
    rcases hvisible with hdeclared | ⟨hsees, hvisible⟩
    · exact ⟨first.root, List.mem_cons_self, hfirst.owned name (List.contains_iff_mem.mp hdeclared)⟩
    · obtain ⟨root, hroot, howned⟩ := ih hrest hvisible
      rw [hsees]
      exact ⟨root, List.mem_cons_of_mem _ hroot, howned⟩

/-- A name that a scope root in sight owns is bound there. -/
theorem Scoped.lookup_of_owned (h : Scoped program res entries g m)
    (faces : g.Faces m.env.store scope (seenRoots scopes)) {root : NodeId}
    (hroot : root ∈ seenRoots scopes) (howned : name ∈ res.ownedNames root) :
    ∃ value, m.env.store.lookup scope name = some value := by
  have hmem : some root ∈ (m.env.store.owners scope).map g.root? := by
    rw [show (m.env.store.owners scope).map g.root? = (seenRoots scopes).map some from faces]
    exact List.mem_map_of_mem hroot
  obtain ⟨s, hs, hsroot⟩ := List.mem_map.mp hmem
  have hbinds := h.bound s root (ScopeStore.isOwning_of_mem_owners hs) hsroot name howned
  rw [← Option.isSome_iff_exists, ScopeStore.lookup, List.findSome?_isSome_iff]
  exact ⟨s, List.mem_of_mem_filter hs, hbinds⟩

end Agreement

namespace Program

variable {program : Program} {id : NodeId} {name : Name} {m : Machine}

/-- A read that finds a local yields its value and does nothing else. -/
theorem perform_bound_read (hnode : program.nodes.node? id = some (.ident name)) {value : Value}
    (hread : m.read? id name = some value) (fuel : Nat) :
    program.perform (fuel + 1) (.node id) m = some (.ok value, m) := by
  rw [perform, Task.work, hnode]
  change ((Comp.ident program.names id name) m).run _ = _
  rw [Comp.ident, Comp.gets_bind, hread]
  rfl

/-- What a name stands for that is no local: a call of the method of this name without arguments,
else the question whether there is a block if this is its name, else nothing. -/
def nonlocal (program : Program) (fuel : Nat) (name : Name) : Eval Value := fun m =>
  match m.methods.get? name with
  | some callee =>
    program.perform fuel (.method callee m.allocateFrame.1 {} none) m.allocateFrame.2
  | none =>
    if name = .blockGiven then some (.ok (.bool m.block?.isSome), m.allocateFrame.2)
    else some (.error (.error { cause := .undefinedVariable (program.names.lookup name) }), m)

/-- A read that finds no local asks what else the name stands for. -/
theorem perform_free_read (hnode : program.nodes.node? id = some (.ident name))
    (hread : m.read? id name = none) (fuel : Nat) :
    program.perform (fuel + 1) (.node id) m = program.nonlocal fuel name m := by
  rw [perform, Task.work, hnode]
  change ((Comp.ident program.names id name) m).run _ = _
  rw [Comp.ident, Comp.gets_bind, hread]
  dsimp only
  rw [Comp.gets_bind, Assoc.contains, nonlocal]
  cases hmethod : m.methods.get? name with
  | some callee =>
    rw [if_pos (.inl rfl)]
    change (Comp.dispatch program.names name m.allocateFrame.1 {} none m.allocateFrame.2).run _ = _
    rw [Comp.dispatch, Comp.gets_bind,
      show m.allocateFrame.2.methods.get? name = some callee from hmethod]
    change (Work.ask _ _ _).run _ = _
    rw [Work.run]
    dsimp only
    cases program.perform fuel (.method callee m.allocateFrame.1 {} none) m.allocateFrame.2 <;> rfl
  | none =>
    by_cases hname : name = .blockGiven
    · rw [if_pos (.inr hname)]
      change (Comp.dispatch program.names name m.allocateFrame.1 {} none m.allocateFrame.2).run _ = _
      rw [Comp.dispatch, Comp.gets_bind,
        show m.allocateFrame.2.methods.get? name = none from hmethod]
      dsimp only
      rw [Comp.builtin, if_pos hname, if_pos hname]
      rfl
    · rw [if_neg (by simpa using hname)]
      dsimp only
      rw [if_neg hname]
      rfl

/-- Whenever a program that is a tree, as the first one on its machine, executes a read: if the walk
of the resolver did not flag it, it finds a local and yields its value, and neither fails nor calls
anything; if the walk flagged it, it is a call without arguments or fails, whatever is bound. -/
theorem flags_decide_reads (program : Program) (fuel : Nat) (root : NodeId) (policy : DepthPolicy)
    (locals : List (Name × Value)) (tree : program.nodes.IsTree root) {id : NodeId} {name : Name}
    {m : Machine}
    (executed : .enter (.node id) m ∈ program.evaluation fuel root (.initial policy locals))
    (hnode : program.nodes.node? id = some (.ident name)) :
    ∃ res, resolve program.nodes root (Machine.initial policy locals).env.topBindings.keys = .ok res ∧
      (res.isUnbound id = false → ∃ value, m.env.lookup name = some value ∧
        ∀ fuel, program.perform (fuel + 1) (.node id) m = some (.ok value, m)) ∧
      (res.isUnbound id = true → ∀ fuel,
        program.perform (fuel + 1) (.node id) m = program.nonlocal fuel name m) := by
  cases resolved : resolve program.nodes root
      (Machine.initial policy locals).env.topBindings.keys with
  | error fault =>
    rw [evaluation, resolved] at executed
    cases executed
  | ok res =>
    refine ⟨res, rfl, ?_⟩
    cases hcallable : program.nodes.callable? root with
    | some callable =>
      -- a program that is a callable only makes the callable
      rcases Slots.enter_of_evaluation_callable (by rw [hcallable]; rfl) executed with h | ⟨_, h⟩
      · cases h
        rw [NodeTable.callable?, hnode] at hcallable
        cases hcallable
      · cases h
    | none =>
      obtain ⟨i, hi⟩ := List.mem_iff_getElem?.mp executed
      have allows := (Slots.admits_evaluation resolved tree hcallable fuel).allows hi
      rw [Slots.observe_eq] at allows
      obtain ⟨-, agreement, levels, w, stands, -, faces⟩ := allows
      have hflag : m.resolution.isUnbound id = res.isUnbound id := by rw [agreement.resolution]
      refine ⟨fun hbound => ?_, fun hunbound => perform_free_read hnode ?_⟩
      -- an unflagged read is visible to the walk, so a scope root around it owns the name
      · obtain ⟨other, hother, howned⟩ :=
          stands.settled.owner_of_visible (stands.visible_of_read hnode hbound)
        obtain ⟨value, hvalue⟩ := agreement.lookup_of_owned faces hother howned
        refine ⟨value, hvalue, perform_bound_read hnode ?_⟩
        rw [Machine.read?, hflag, hbound]
        exact hvalue
      · rw [Machine.read?, hflag, hunbound]
        rfl

/-- The program `def x; 7; end; i = 0; while i < 2; i += 1; y = x; x = 1; end`. -/
def rereading : Program where
  names := .initial
  nodes := ⟨#[.int 7, .define ⟨34⟩ [] ⟨0⟩, .int 0, .assign ⟨35⟩ [.plain ⟨2⟩], .ident ⟨35⟩, .int 2,
    .binary .lt ⟨4⟩ ⟨5⟩, .int 1, .opAssign ⟨35⟩ .add ⟨7⟩, .ident ⟨34⟩, .assign ⟨36⟩ [.plain ⟨9⟩],
    .int 1, .assign ⟨34⟩ [.plain ⟨11⟩], .seq [⟨8⟩, ⟨10⟩, ⟨12⟩], .loop .whileTrue ⟨6⟩ ⟨13⟩ false,
    .seq [⟨1⟩, ⟨3⟩, ⟨14⟩]]⟩

/-- In the second round `x` is bound to 1, but the read of it is flagged and still calls the method;
the read of `i` finds the local. -/
theorem rereading_flags_decide :
    ∃ res m m',
      resolve rereading.nodes ⟨15⟩ (Machine.initial .unlimited []).env.topBindings.keys = .ok res ∧
      .enter (.node ⟨9⟩) m ∈ rereading.evaluation 20 ⟨15⟩ (.initial .unlimited []) ∧
      res.isUnbound ⟨9⟩ = true ∧ (m.env.lookup ⟨34⟩).map Value.typeName = some "Integer" ∧
      (∀ fuel, rereading.perform (fuel + 1) (.node ⟨9⟩) m = rereading.nonlocal fuel ⟨34⟩ m) ∧
      .enter (.node ⟨4⟩) m' ∈ rereading.evaluation 20 ⟨15⟩ (.initial .unlimited []) ∧
      res.isUnbound ⟨4⟩ = false ∧ ∃ value, m'.env.lookup ⟨35⟩ = some value := by
  have tree : rereading.nodes.IsTree ⟨15⟩ := by decide +kernel
  -- the event is found by a search that can be evaluated
  have entered : ∀ (id : NodeId) (name : Name),
      ((rereading.evaluation 20 ⟨15⟩ (.initial .unlimited [])).any fun event =>
        match event with
        | .enter (.node other) m =>
          decide (other = id ∧ (m.env.lookup name).map Value.typeName = some "Integer")
        | _ => false) = true →
      ∃ m, .enter (.node id) m ∈ rereading.evaluation 20 ⟨15⟩ (.initial .unlimited []) ∧
        (m.env.lookup name).map Value.typeName = some "Integer" := by
    intro id name h
    obtain ⟨event, hmem, hevent⟩ := List.any_eq_true.mp h
    split at hevent
    next other m =>
      obtain ⟨rfl, htype⟩ := of_decide_eq_true hevent
      exact ⟨m, hmem, htype⟩
    next => cases hevent
  have flags : (resolve rereading.nodes ⟨15⟩
      (Machine.initial .unlimited []).env.topBindings.keys).toOption.map
        (fun res => (res.isUnbound ⟨9⟩, res.isUnbound ⟨4⟩)) = some (true, false) := by decide +kernel
  obtain ⟨m, hm, htype⟩ := entered ⟨9⟩ ⟨34⟩ (by decide +kernel)
  obtain ⟨m', hm', -⟩ := entered ⟨4⟩ ⟨35⟩ (by decide +kernel)
  obtain ⟨res, hres, -, hflagged⟩ := rereading.flags_decide_reads 20 ⟨15⟩ .unlimited [] tree hm rfl
  obtain ⟨res', hres', hfree, -⟩ := rereading.flags_decide_reads 20 ⟨15⟩ .unlimited [] tree hm' rfl
  obtain rfl : res = res' := Except.ok.inj (hres.symm.trans hres')
  rw [hres] at flags
  obtain ⟨hunbound, hbound⟩ := Prod.mk.inj (Option.some.inj flags)
  obtain ⟨value, hvalue, -⟩ := hfree hbound
  exact ⟨res, m, m', hres, hm, hunbound, htype, hflagged hunbound, hm', hbound, value, hvalue⟩

end Program

end ScriptSemantics
