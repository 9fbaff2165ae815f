import ScriptSemantics.Proofs.ParamGrouping

/-!
# Filled slots

What each parameter of a list receives, read off from the slots that planning fills.  Every position
is in one group at most, so a slot can be found where it was filled.

## Main Definitions

* `BindPlan.entries` — the parameters of a list with what a plan gives them
* `BindPlan.emptySlots` — the slots of positional parameters for which no argument is left

## Main Results

* `BindPlan.map_fst_positionalSlots` — all positional groups have their slots
* `BindPlan.get?_filledSlots` — a slot that is filled holds what it was filled with
* `BindPlan.positionalSlots_lone` — where two parameters or more can share arguments, a lone
  argument goes to the first required parameter, or else to the first optional one
-/

namespace ScriptSemantics

/-! ### Groups and roles -/

namespace ParamGroups

open ParamList

variable {params : ParamList} {i : Nat}

theorem roleAt?_rest (h : (ofParams params).rest = some i) : params.roleAt? i = some .rest :=
  roleAt?_of_eq_some rfl (fun groups param i => (single_add groups param i).1) h

theorem roleAt?_keywordRest (h : (ofParams params).keywordRest = some i) :
    params.roleAt? i = some .keywordRest :=
  roleAt?_of_eq_some rfl (fun groups param i => (single_add groups param i).2.1) h

theorem roleAt?_block (h : (ofParams params).block = some i) : params.roleAt? i = some .block :=
  roleAt?_of_eq_some rfl (fun groups param i => (single_add groups param i).2.2) h

theorem mem_required_ofParams (params : ParamList) (i : Nat) :
    i ∈ (ofParams params).leading ++ (ofParams params).trailing ↔
      params.roleAt? i = some .required := by
  rw [List.mem_append, (mem_leading_trailing_ofParams params i).1,
    (mem_leading_trailing_ofParams params i).2, ← and_or_left]
  exact and_iff_left (by cases params.hasMiddleBefore i <;> simp)

/-- Where one argument goes to one parameter, a positional parameter other than a rest one
stands. -/
theorem exists_role_of_mem (h : i ∈ (ofParams params).leading ++ (ofParams params).trailing ++
      (ofParams params).optional.map Prod.fst) :
    ∃ role, params.roleAt? i = some role ∧ role.isPositional = true ∧ role ≠ .rest := by
  rcases List.mem_append.mp h with h | h
  · exact ⟨_, (mem_required_ofParams params i).mp h, rfl, by simp⟩
  · obtain ⟨⟨i, expr⟩, hoptional, rfl⟩ := List.mem_map.mp h
    exact ⟨_, (mem_optional_ofParams params i expr).mp hoptional, rfl, by simp⟩

end ParamGroups

/-! ### Slots by position -/

namespace BindPlan

variable {groups : ParamGroups} {values : List Value}

/-- All positional groups have their slots, if there are enough arguments for the required ones. -/
theorem map_fst_positionalSlots
    (enough : groups.leading.length + groups.trailing.length ≤ values.length) :
    (positionalSlots groups values).map Prod.fst =
      groups.leading ++ groups.trailing ++ groups.optional.map Prod.fst ++ groups.rest.toList := by
  simp only [positionalSlots, List.map_append, map_fst_optionalSlots]
  rw [List.map_fst_zip (by simp; omega), List.map_fst_zip (by simp; omega)]
  cases groups.rest <;> rfl

/-- What positional parameters receive are arguments, apart from what a rest parameter receives. -/
theorem mem_of_mem_positionalSlots {i : Nat} {value : Value}
    (h : (i, .value value) ∈ positionalSlots groups values) :
    value ∈ values ∨ groups.rest = some i := by
  have zipped {positions : List Nat} {part : List Value}
      (h : (i, .value value) ∈ positions.zip (part.map Binding.value)) : value ∈ part := by
    obtain ⟨other, hother, heq⟩ := List.mem_map.mp (List.of_mem_zip h).2
    cases heq
    exact hother
  have shared : ∀ (optional : List (Nat × NodeId)) (part : List Value),
      (i, .value value) ∈ optionalSlots optional part → value ∈ part := by
    intro optional part h
    fun_induction optionalSlots optional part with
    | case1 => cases h
    | case2 j expr rest first part ih =>
      rcases List.mem_cons.mp h with heq | h
      · cases heq
        exact List.mem_cons_self
      · exact List.mem_cons_of_mem _ (ih h)
    | case3 j expr rest ih =>
      rcases List.mem_cons.mp h with heq | h
      · cases heq
      · cases ih h
  simp only [positionalSlots, List.mem_append] at h
  rcases h with ((h | h) | h) | h
  · exact .inl (zipped h)
  · exact .inl (List.mem_of_mem_drop (zipped h))
  · exact .inl (List.mem_of_mem_drop (List.mem_of_mem_take (shared _ _ h)))
  · obtain ⟨j, hj, heq⟩ := Option.map_eq_some_iff.mp (Option.mem_toList.mp h)
    cases heq
    exact .inr hj

/-- A slot that is filled holds what it was filled with. -/
theorem get?_filledSlots {names : NameTable} {params : ParamList} {mode : BindMode}
    {keywords : Keywords} {byKeyword : Slots}
    (hkeywords : keywordSlots names (ParamGroups.ofParams params) mode keywords = .ok byKeyword)
    {i : Nat} {binding : Binding}
    (h : (i, binding) ∈ filledSlots (ParamGroups.ofParams params) values byKeyword) :
    Assoc.get? (filledSlots (ParamGroups.ofParams params) values byKeyword) i = some binding :=
  Assoc.get?_of_mem
    ((ParamGroups.nodup_positions params).sublist (map_fst_filledSlots hkeywords values)) h

/-- The slot of a position in a positional group is the one that was filled for it. -/
theorem exists_mem_positionalSlots
    (enough : groups.leading.length + groups.trailing.length ≤ values.length) {i : Nat}
    (h : i ∈ groups.leading ++ groups.trailing ++ groups.optional.map Prod.fst ++
      groups.rest.toList) :
    ∃ binding, (i, binding) ∈ positionalSlots groups values := by
  rw [← map_fst_positionalSlots enough] at h
  obtain ⟨⟨_, binding⟩, hslot, rfl⟩ := List.mem_map.mp h
  exact ⟨binding, hslot⟩

/-- A slot at the position of a positional parameter was filled with positional arguments. -/
theorem mem_positionalSlots_of_mem {names : NameTable} {params : ParamList} {mode : BindMode}
    {keywords : Keywords} {byKeyword : Slots}
    (hkeywords : keywordSlots names (ParamGroups.ofParams params) mode keywords = .ok byKeyword)
    {i : Nat} {role : ParamRole} (hrole : params.roleAt? i = some role)
    (hpositional : role.isPositional = true) {binding : Binding}
    (h : (i, binding) ∈ filledSlots (ParamGroups.ofParams params) values byKeyword) :
    (i, binding) ∈ positionalSlots (ParamGroups.ofParams params) values := by
  have other {role' : ParamRole} (hrole' : params.roleAt? i = some role')
      (hother : role'.isPositional = false) : False := by
    rw [hrole] at hrole'
    cases hrole'
    rw [hpositional] at hother
    cases hother
  rcases List.mem_append.mp h with h | h
  · rcases List.mem_append.mp h with h | h
    · exact h
    · have hmem := (map_fst_keywordSlots hkeywords).subset (List.mem_map_of_mem h)
      rcases List.mem_append.mp hmem with hmem | hmem
      · obtain ⟨⟨j, param⟩, hparam, rfl⟩ := List.mem_map.mp hmem
        obtain ⟨hparam, hnamed⟩ := (ParamGroups.mem_keywords_ofParams params j param).mp hparam
        refine (other (Option.map_eq_some_iff.mpr ⟨param, hparam, rfl⟩) ?_).elim
        cases hcase : param.role <;> rw [hcase] at hnamed <;> first | rfl | cases hnamed
      · exact (other (ParamGroups.roleAt?_keywordRest (Option.mem_toList.mp hmem)) rfl).elim
  · obtain ⟨j, hblock, heq⟩ := Option.map_eq_some_iff.mp (Option.mem_toList.mp h)
    cases heq
    exact (other (ParamGroups.roleAt?_block hblock) rfl).elim

/-! ### Slots without an argument -/

/-- The slots of positional parameters for which no argument is left: required parameters receive
nil, optional ones fall back, and a rest parameter receives an empty array. -/
def emptySlots (required : List Nat) (optional : List (Nat × NodeId)) (rest : Option Nat) : Slots :=
  required.map (·, .value .nil) ++ optional.map (fun (i, expr) => (i, .fallback expr)) ++
    (rest.map (·, .value (.array []))).toList

theorem optionalSlots_nil (optional : List (Nat × NodeId)) :
    optionalSlots optional [] = optional.map fun (i, expr) => (i, .fallback expr) := by
  induction optional with
  | nil => rfl
  | cons param rest ih => rw [optionalSlots, ih, List.map_cons]

/-- With an argument for each required parameter there is none for the others. -/
theorem positionalSlots_of_length_eq
    (exact : values.length = groups.leading.length + groups.trailing.length) :
    positionalSlots groups values = (groups.leading ++ groups.trailing).zip (values.map .value) ++
      emptySlots [] groups.optional groups.rest := by
  have none : values.length - groups.leading.length - groups.trailing.length = 0 := by omega
  have required : (groups.leading ++ groups.trailing).zip (values.map Binding.value) =
      groups.leading.zip (values.map .value) ++
        groups.trailing.zip ((values.drop groups.leading.length).map .value) := by
    have enough : groups.leading.length ≤ values.length := by omega
    conv_lhs => rw [← List.take_append_drop groups.leading.length (values.map Binding.value)]
    rw [List.zip_append (by simp [enough]), ← List.map_drop,
      @List.zip_eq_zip_take_min _ _ groups.leading (values.map Binding.value), List.length_map,
      Nat.min_eq_left enough, List.take_length]
  simp only [positionalSlots, none, List.take_zero, Nat.add_zero, List.drop_nil, optionalSlots_nil,
    required, emptySlots, List.map_nil, List.nil_append, List.append_assoc]

/-- Where two parameters or more can share arguments, a lone argument, filled up with nil for the
required parameters, goes to the first required parameter, or else to the first optional one. -/
theorem positionalSlots_lone (value : Value) (several : 2 ≤ groups.positionalSlots) :
    ∃ first required optional,
      positionalSlots groups
          (value :: .replicate (groups.leading.length + groups.trailing.length - 1) .nil) =
        (first, .value value) :: emptySlots required optional groups.rest ∧
      groups.leading ++ groups.trailing ++ groups.optional.map Prod.fst =
        first :: required ++ optional.map Prod.fst ∧
      required ⊆ groups.leading ++ groups.trailing ∧ optional ⊆ groups.optional := by
  have length := @List.length_append _ groups.leading groups.trailing
  cases hrequired : groups.leading ++ groups.trailing with
  | cons first required =>
    rw [hrequired, List.length_cons] at length
    refine ⟨first, required, groups.optional, ?_, rfl, List.subset_cons_self _ _,
      List.Subset.refl _⟩
    have others : required.zip (List.replicate required.length (Binding.value .nil)) =
        required.map (·, .value .nil) := List.ext_getElem (by simp) (by simp)
    rw [positionalSlots_of_length_eq (by simp; omega), hrequired, ← length, Nat.add_sub_cancel,
      List.map_cons, List.zip_cons_cons, List.map_replicate, List.cons_append, others]
    simp only [emptySlots, List.map_nil, List.nil_append, List.append_assoc]
  | nil =>
    obtain ⟨hleading, htrailing⟩ := List.append_eq_nil_iff.mp hrequired
    cases hoptional : groups.optional with
    | nil =>
      rw [ParamGroups.positionalSlots, hleading, htrailing, hoptional] at several
      cases hrest : groups.rest <;> simp [hrest] at several
    | cons first optional =>
      refine ⟨first.1, [], optional, ?_, by simp, List.nil_subset _, List.subset_cons_self _ _⟩
      simp [positionalSlots, emptySlots, hleading, htrailing, hoptional, optionalSlots,
        optionalSlots_nil]

/-! ### Entries -/

/-- The parameters of a list, markers left out, each with what a plan gives it, in declared
order. -/
def entries (params : ParamList) (plan : BindPlan) : List (Param × Binding) :=
  ((params.filter (·.role ≠ .noKeywords)).zip plan).map fun (param, planned) =>
    (param, planned.binding)

theorem entries_ofSlots (params : ParamList) (slots : Slots) :
    entries params (ofSlots params slots) =
      (params.zipIdx.filter (·.1.role ≠ .noKeywords)).map fun (param, i) =>
        (param, (Assoc.get? slots i).getD (.value .nil)) := by
  rw [entries, ofSlots, filter_eq_map_fst, List.zip_map', List.map_map]
  rfl

/-- Plans that are read off from different slots give every parameter what is in its slot. -/
theorem getD_of_ofSlots_eq {params : ParamList} {slots slots' : Slots}
    (h : ofSlots params slots = ofSlots params slots') {i : Nat} {role : ParamRole}
    (hrole : params.roleAt? i = some role) (hmarker : role ≠ .noKeywords) :
    (Assoc.get? slots i).getD (.value .nil) = (Assoc.get? slots' i).getD (.value .nil) := by
  obtain ⟨param, hparam, rfl⟩ := Option.map_eq_some_iff.mp hrole
  have hmem : (param, i) ∈ params.zipIdx.filter (·.1.role ≠ .noKeywords) :=
    List.mem_filter.mpr ⟨List.mk_mem_zipIdx_iff_getElem?.mpr hparam, decide_eq_true hmarker⟩
  exact congrArg PlannedParam.binding (List.map_inj_left.mp h _ hmem)

end BindPlan

end ScriptSemantics
