import ScriptSemantics.Proofs.FilledSlots

/-!
# Lenient binding

A lenient call binds what a strict one binds, and more.  The two differ only where a lone array is
spread over several parameters, and an array is spread by one level only.

## Main Definitions

* `ParamList.slotCount` — the number of positional parameters, all rest parameters counting as one
* `ParamList.Spreads` — a lenient call spreads a lone array
* `BindPlan.HoldsAlone` — one positional parameter receives a value, and the others no argument

## Main Results

* `BindPlan.lenient_extends_strict` — the plan of a strict call is that of the lenient call, unless
  a lone array is spread
* `BindPlan.spread_unwraps_once` — an array is spread by one level, and not at all over fewer than
  two parameters

## Design Notes

The parameter list need not be valid, apart from what is said of fewer than two parameters.
-/

namespace ScriptSemantics

/-! ### Spreading -/

namespace ParamList

/-- The number of positional parameters, all rest parameters counting as one. -/
def slotCount (params : ParamList) : Nat :=
  params.countP (fun param => param.role.isPositional && param.role ≠ .rest) +
    if params.hasRest then 1 else 0

/-- A lenient call spreads a lone array over the positional parameters. -/
structure Spreads (params : ParamList) (args : CallArgs) : Prop where
  several : 2 ≤ params.slotCount
  lone : ∃ items, params.folded args = [.array items]

/-- The keywords of a call are not made into a positional argument. -/
def KeepsKeywords (params : ParamList) (keywords : Keywords) : Prop :=
  keywords = [] ∨ params.mentionsKeywords = true

end ParamList

namespace ParamGroups

/-- What single parameters add to a number, a list adds as often as such parameters occur in it. -/
theorem count_addAll {count : ParamGroups → Nat} {counts : Param → Bool}
    (hadd : ∀ groups param i,
      count (add groups param i) = count groups + if counts param then 1 else 0)
    (groups : ParamGroups) (params : List Param) (start : Nat) :
    count (groups.addAll params start) = count groups + params.countP counts := by
  induction params generalizing groups start with
  | nil => simp [addAll]
  | cons param rest ih =>
    rw [addAll_cons, ih, hadd, List.countP_cons]
    omega

/-- The groups count the positional parameters. -/
theorem positionalSlots_ofParams (params : ParamList) :
    (ofParams params).positionalSlots = params.slotCount := by
  have single := @count_addAll
    (fun groups => groups.leading.length + groups.optional.length + groups.trailing.length)
    (fun param => param.role.isPositional && param.role ≠ .rest)
    (fun groups param i => by
      cases hrole : param.role with
      | required =>
        simp only [add, hrole]
        split <;> simp [ParamRole.isPositional] <;> omega
      | optional => simp [add, hrole, ParamRole.isPositional]; omega
      | _ => simp [add, hrole, ParamRole.isPositional])
    {} params 0
  have rest := @any_addAll {} params 0 (·.rest.isSome) (·.role = .rest) fun groups param i => by
    rw [(single_add groups param i).1]
    by_cases hrole : param.role = .rest <;> simp [hrole]
  rw [← ofParams_eq] at single rest
  rw [positionalSlots, ParamList.slotCount, single, rest, ParamList.hasRest]
  simp

end ParamGroups

namespace BindPlan

variable {names : NameTable} {params : ParamList} {args : CallArgs} {plan : BindPlan}

theorem autoSplat_lenient_array (params : ParamList) (items : List Value) :
    autoSplat (ParamGroups.ofParams params) .lenient [.array items] =
      if 2 ≤ params.slotCount then items else [.array items] := by
  rw [← ParamGroups.positionalSlots_ofParams]
  rfl

theorem autoSplat_of_ne (groups : ParamGroups) {values : List Value}
    (other : ∀ items, values ≠ [.array items]) : autoSplat groups .lenient values = values := by
  unfold autoSplat
  split
  next items _ => exact absurd rfl (other items)
  next => rfl

/-- Without a lone array, or with fewer than two parameters, nothing is spread. -/
theorem autoSplat_of_not_spreads (h : ¬ params.Spreads args) :
    autoSplat (ParamGroups.ofParams params) .lenient (params.folded args) = params.folded args := by
  by_cases lone : ∃ items, params.folded args = [.array items]
  · obtain ⟨items, hitems⟩ := lone
    rw [hitems, autoSplat_lenient_array, if_neg fun several => h ⟨several, items, hitems⟩]
  · exact autoSplat_of_ne _ fun items hitems => lone ⟨items, hitems⟩

/-! ### Strict and lenient calls -/

/-- Where nothing is too much, arguments are only filled up. -/
theorem fitArity_lenient_of_le {arity : Arity} {given : List Value}
    (h : ∀ most, arity.max? = some most → given.length ≤ most) :
    fitArity arity .lenient given =
      .ok (given ++ .replicate (arity.required - given.length) .nil) := by
  rw [fitArity]
  cases hmost : arity.max? with
  | none => rfl
  | some most =>
    dsimp only
    rw [List.take_of_length_le (h most hmost)]

/-- Arguments whose number is accepted need not be made to fit. -/
theorem fitArity_lenient_of_strict {arity : Arity} {given positional : List Value}
    (h : fitArity arity .strict given = .ok positional) :
    positional = given ∧ arity.required ≤ given.length ∧
      fitArity arity .lenient given = .ok given := by
  rw [fitArity] at h
  split at h <;> cases h
  next accepted =>
    rw [Arity.accepts, Bool.and_eq_true, decide_eq_true_eq] at accepted
    obtain ⟨least, most⟩ := accepted
    refine ⟨rfl, least, ?_⟩
    rw [fitArity_lenient_of_le, Nat.sub_eq_zero_of_le least, List.replicate_zero, List.append_nil]
    intro max hmax
    rw [hmax] at most
    exact of_decide_eq_true most

/-- Keywords that pass the checks are shared out as they are without them. -/
theorem keywordSlots_lenient_of_strict {groups : ParamGroups} {keywords : Keywords} {slots : Slots}
    (h : keywordSlots names groups .strict keywords = .ok slots) :
    keywordSlots names groups .lenient keywords = .ok slots := by
  unfold keywordSlots at h ⊢
  split at h
  next refuses =>
    split at h <;> cases h
    simp [refuses]
  next accepts =>
    rw [if_neg accepts]
    dsimp only at h ⊢
    split at h
    · cases h
    · rw [if_neg (by simp)]
      split at h
      next => exact h
      next =>
        split at h <;> cases h
        simp

/-- The items of an array are smaller than the array, and no filling up makes the array one of
them. -/
theorem array_not_mem_of_fitArity {arity : Arity} {items positional : List Value}
    (h : fitArity arity .lenient items = .ok positional) : .array items ∉ positional := by
  rw [fitArity] at h
  cases h
  rw [List.mem_append, List.mem_replicate, not_or]
  refine ⟨fun hmem => ?_, fun hmem => by cases hmem.2⟩
  have inside : .array items ∈ items := by
    split at hmem
    · exact List.mem_of_mem_take hmem
    · exact hmem
  have smaller := List.sizeOf_lt_of_mem inside
  rw [Value.array.sizeOf_spec] at smaller
  omega

/-- Where nothing is spread, what a strict call binds, a lenient call binds in the same way. -/
theorem make_lenient_of_strict (h : make names params .strict args = .ok plan)
    (whole : ¬ params.Spreads args) : make names params .lenient args = .ok plan := by
  obtain ⟨positional, byKeyword, hfit, hkeywords, hplan⟩ := make_eq_ok_iff.mp h
  rw [autoSplat_strict] at hfit
  obtain ⟨rfl, -, hlenient⟩ := fitArity_lenient_of_strict hfit
  refine make_eq_ok_iff.mpr ⟨_, byKeyword, ?_, keywordSlots_lenient_of_strict hkeywords, hplan⟩
  rw [autoSplat_of_not_spreads whole, hlenient]

/-- What is spread is bound differently: the parameter that receives the array in a strict call
receives an element of it, nil or its fallback. -/
theorem make_lenient_ne_of_spreads (h : make names params .strict args = .ok plan)
    (spreads : params.Spreads args) : make names params .lenient args ≠ .ok plan := by
  intro hlenient
  obtain ⟨several, items, hitems⟩ := spreads
  obtain ⟨positional, byKeyword, hfit, hkeywords, rfl⟩ := make_eq_ok_iff.mp h
  obtain ⟨positional', byKeyword', hfit', hkeywords', heq⟩ := make_eq_ok_iff.mp hlenient
  rw [autoSplat_strict] at hfit
  obtain ⟨rfl, least, -⟩ := fitArity_lenient_of_strict hfit
  rw [hitems, autoSplat_lenient_array, if_pos several] at hfit'
  have enough := required_le_of_fitArity hfit'
  have several := ParamGroups.positionalSlots_ofParams params ▸ several
  obtain ⟨first, required, optional, hslots, hfirst, -, -⟩ :=
    positionalSlots_lone (.array items) several
  have one : (ParamGroups.ofParams params).leading.length +
      (ParamGroups.ofParams params).trailing.length - 1 = 0 := by
    rw [hitems] at least
    exact Nat.sub_eq_zero_of_le least
  rw [one, List.replicate_zero] at hslots
  -- the array is in the slot of the first parameter after a strict call
  have strict : Assoc.get? (filledSlots (ParamGroups.ofParams params) (params.folded args) byKeyword)
      first = some (.value (.array items)) := by
    refine get?_filledSlots hkeywords ?_
    simp [filledSlots, hitems, hslots]
  have hmem : first ∈ (ParamGroups.ofParams params).leading ++
      (ParamGroups.ofParams params).trailing ++
        (ParamGroups.ofParams params).optional.map Prod.fst := by
    rw [hfirst]
    exact List.mem_cons_self
  obtain ⟨role, hrole, positional, notRest⟩ := ParamGroups.exists_role_of_mem hmem
  obtain ⟨binding, hbinding⟩ := exists_mem_positionalSlots enough (List.mem_append_left _ hmem)
  have lenient := get?_filledSlots hkeywords'
    (List.mem_append_left _ (List.mem_append_left byKeyword' hbinding))
  -- after a lenient call it would be too, but there the slot was filled with its items
  have same := getD_of_ofSlots_eq heq hrole (by rintro rfl; cases positional)
  rw [lenient, strict] at same
  obtain rfl : binding = .value (.array items) := same
  rcases mem_of_mem_positionalSlots hbinding with hmem | hrest
  · exact array_not_mem_of_fitArity hfit' hmem
  · exact notRest (Option.some.inj (hrole.symm.trans (ParamGroups.roleAt?_rest hrest)))

/-- What a strict call binds, a lenient call binds in the same way, unless it spreads a lone array;
and then it does not. -/
theorem lenient_extends_strict (names : NameTable) (params : ParamList) (args : CallArgs)
    (plan : BindPlan) (h : make names params .strict args = .ok plan) :
    make names params .lenient args = .ok plan ↔ ¬ params.Spreads args :=
  ⟨fun hlenient spreads => make_lenient_ne_of_spreads h spreads hlenient, make_lenient_of_strict h⟩

/-- A lone array that a strict call gives to the required parameter, and that a lenient call
spreads. -/
theorem lenient_extends_strict_array :
    let params : ParamList := [⟨⟨34⟩, .required⟩, ⟨⟨35⟩, .rest⟩]
    let args : CallArgs := { positional := [.array [.int 1, .int 2]] }
    let plan : BindPlan :=
      [⟨⟨34⟩, .value (.array [.int 1, .int 2])⟩, ⟨⟨35⟩, .value (.array [])⟩]
    make .initial params .strict args = .ok plan ∧ params.Spreads args ∧
      make .initial params .lenient args ≠ .ok plan := by
  intro params args plan
  have spreads : params.Spreads args := ⟨by decide, _, rfl⟩
  exact ⟨rfl, spreads,
    fun h => (lenient_extends_strict .initial params args plan rfl).mp h spreads⟩

end BindPlan

/-! ### One level -/

/-- What a positional parameter receives when no argument is left for it. -/
inductive ParamRole.Unfilled : ParamRole → Binding → Prop
  | required : Unfilled .required (.value .nil)
  | optional (expr : NodeId) : Unfilled (.optional expr) (.fallback expr)
  | rest : Unfilled .rest (.value (.array []))
  /-- A rest parameter before the last one. -/
  | overridden : Unfilled .rest (.value .nil)

namespace BindPlan

/-- One positional parameter, which is no rest parameter, receives a value, and no argument is left
for the others. -/
def HoldsAlone (params : ParamList) (plan : BindPlan) (value : Value) : Prop :=
  ∃ before param after,
    positionalEntries params plan = before ++ (param, .value value) :: after ∧ param.role ≠ .rest ∧
      ∀ entry ∈ before ++ after, entry.1.role.Unfilled entry.2

variable {names : NameTable} {params : ParamList} {args : CallArgs} {plan : BindPlan} {value : Value}

theorem unfilled_of_mem_emptySlots {required : List Nat} {optional : List (Nat × NodeId)}
    (hrequired : required ⊆
      (ParamGroups.ofParams params).leading ++ (ParamGroups.ofParams params).trailing)
    (hoptional : optional ⊆ (ParamGroups.ofParams params).optional) {i : Nat} {binding : Binding}
    (h : (i, binding) ∈ emptySlots required optional (ParamGroups.ofParams params).rest)
    {role : ParamRole} (hrole : params.roleAt? i = some role) : role.Unfilled binding := by
  have same {role' : ParamRole} (hrole' : params.roleAt? i = some role') : role' = role :=
    Option.some.inj (hrole'.symm.trans hrole)
  simp only [emptySlots, List.mem_append] at h
  rcases h with (h | h) | h
  · obtain ⟨j, hj, heq⟩ := List.mem_map.mp h
    cases heq
    exact same ((ParamGroups.mem_required_ofParams params _).mp (hrequired hj)) ▸ .required
  · obtain ⟨⟨j, expr⟩, hj, heq⟩ := List.mem_map.mp h
    cases heq
    exact same ((ParamGroups.mem_optional_ofParams params _ expr).mp (hoptional hj)) ▸ .optional expr
  · obtain ⟨j, hj, heq⟩ := Option.map_eq_some_iff.mp (Option.mem_toList.mp h)
    cases heq
    exact same (ParamGroups.roleAt?_rest hj) ▸ .rest

/-- A lone argument is filled up with nil for the other required parameters. -/
theorem fitArity_lone {groups : ParamGroups} (several : 2 ≤ groups.positionalSlots) (value : Value) :
    fitArity groups.arity .lenient [value] =
      .ok (value :: .replicate (groups.leading.length + groups.trailing.length - 1) .nil) := by
  refine fitArity_lenient_of_le fun most hmost => ?_
  rw [Arity.max?, ParamGroups.arity] at hmost
  rw [ParamGroups.positionalSlots] at several
  cases hrest : groups.rest <;> simp [hrest] at several hmost ⊢
  omega

/-- A positional parameter is unfilled if its slot is, or if it has no slot. -/
theorem unfilled_getD {mode : BindMode} {keywords : Keywords} {byKeyword : Slots}
    {values : List Value}
    (hkeywords : keywordSlots names (ParamGroups.ofParams params) mode keywords = .ok byKeyword)
    (enough : (ParamGroups.ofParams params).leading.length +
      (ParamGroups.ofParams params).trailing.length ≤ values.length) {i : Nat} {role : ParamRole}
    (hrole : params.roleAt? i = some role) (hpositional : role.isPositional = true)
    (h : ∀ binding, (i, binding) ∈ positionalSlots (ParamGroups.ofParams params) values →
      role.Unfilled binding) :
    role.Unfilled ((Assoc.get? (filledSlots (ParamGroups.ofParams params) values byKeyword) i).getD
      (.value .nil)) := by
  cases hget : Assoc.get? (filledSlots (ParamGroups.ofParams params) values byKeyword) i with
  | some binding =>
    exact h _ (mem_positionalSlots_of_mem hkeywords hrole hpositional (Assoc.mem_of_get? hget))
  | none =>
    -- only a rest parameter can be in no group
    have absent : i ∉ (ParamGroups.ofParams params).leading ++
        (ParamGroups.ofParams params).trailing ++
          (ParamGroups.ofParams params).optional.map Prod.fst ++
            (ParamGroups.ofParams params).rest.toList := by
      intro hmem
      obtain ⟨binding, hbinding⟩ := exists_mem_positionalSlots enough hmem
      have hfilled := get?_filledSlots hkeywords
        (List.mem_append_left _ (List.mem_append_left byKeyword hbinding))
      rw [hget] at hfilled
      cases hfilled
    rw [List.mem_append, List.mem_append, not_or, not_or] at absent
    cases role with
    | rest => exact .overridden
    | required => exact absurd ((ParamGroups.mem_required_ofParams params i).mpr hrole) absent.1.1
    | optional expr =>
      have hmem := (ParamGroups.mem_optional_ofParams params i expr).mpr hrole
      exact absurd (List.mem_map_of_mem hmem) absent.1.2
    | _ => cases hpositional

/-- Apart from a listed parameter, no listed parameter stands at its position. -/
theorem index_ne_of_split {listed : Param × Nat → Bool} {before after : List (Param × Nat)}
    {param : Param} {i : Nat} (hsplit : params.zipIdx.filter listed = before ++ (param, i) :: after)
    {other : Param × Nat} (hother : other ∈ before ++ after) : other.2 ≠ i := by
  have positions : ((before ++ (param, i) :: after).map Prod.snd).Nodup := by
    rw [← hsplit]
    refine List.Nodup.sublist (List.filter_sublist.map _) ?_
    rw [List.zipIdx_map_snd]
    exact List.nodup_range'
  rw [List.map_append, List.map_cons, List.nodup_middle, ← List.map_append] at positions
  rintro rfl
  exact (List.nodup_cons.mp positions).1 (List.mem_map.mpr ⟨other, hother, rfl⟩)

/-- Where two parameters or more share a single value, one of them receives it as it is. -/
theorem holdsAlone_make (h : make names params .lenient args = .ok plan)
    (several : 2 ≤ params.slotCount)
    (lone : autoSplat (ParamGroups.ofParams params) .lenient (params.folded args) = [value]) :
    HoldsAlone params plan value := by
  obtain ⟨positional, byKeyword, hfit, hkeywords, rfl⟩ := make_eq_ok_iff.mp h
  have several := ParamGroups.positionalSlots_ofParams params ▸ several
  have enough := required_le_of_fitArity hfit
  rw [lone, fitArity_lone several, Except.ok.injEq] at hfit
  obtain ⟨first, required, optional, hslots, hfirst, hrequired, hoptional⟩ :=
    positionalSlots_lone value several
  rw [hfit] at hslots
  obtain ⟨role, hrole, hpositional, notRest⟩ := ParamGroups.exists_role_of_mem
    (by rw [hfirst]; exact List.mem_cons_self : first ∈ _ ++ _)
  obtain ⟨param, hparam, rfl⟩ := Option.map_eq_some_iff.mp hrole
  have hmem : (param, first) ∈ params.zipIdx.filter (·.1.role.isPositional) :=
    List.mem_filter.mpr ⟨List.mk_mem_zipIdx_iff_getElem?.mpr hparam, hpositional⟩
  obtain ⟨before, after, hsplit⟩ := List.append_of_mem hmem
  have hvalue := get?_filledSlots hkeywords (List.mem_append_left _ (List.mem_append_left byKeyword
    (hslots ▸ List.mem_cons_self : (first, .value value) ∈ _)))
  have hentries := positionalEntries_ofSlots params
    (filledSlots (ParamGroups.ofParams params) positional byKeyword)
  simp only [hsplit, List.map_append, List.map_cons, hvalue, Option.getD_some] at hentries
  refine ⟨_, param, _, hentries, notRest, fun entry hentry => ?_⟩
  rw [← List.map_append] at hentry
  obtain ⟨⟨other, i⟩, hother, rfl⟩ := List.mem_map.mp hentry
  have hmem : (other, i) ∈ params.zipIdx.filter (·.1.role.isPositional) := by
    rw [hsplit]
    exact List.mem_append.mpr ((List.mem_append.mp hother).imp_right (List.mem_cons_of_mem _))
  obtain ⟨hindex, hpositional⟩ := List.mem_filter.mp hmem
  have hrole : params.roleAt? i = some other.role :=
    Option.map_eq_some_iff.mpr ⟨other, List.mk_mem_zipIdx_iff_getElem?.mp hindex, rfl⟩
  -- the other parameters stand at other positions, and the slots of those are empty
  refine unfilled_getD hkeywords enough hrole hpositional fun binding hbinding => ?_
  rw [hslots] at hbinding
  rcases List.mem_cons.mp hbinding with heq | hempty
  · exact absurd (Prod.mk.inj heq).1 (index_ne_of_split hsplit hother)
  · exact unfilled_of_mem_emptySlots hrequired hoptional hempty hrole

end BindPlan

/-! ### Arrays that are not spread -/

namespace ParamLayout

variable (layout : ParamLayout)

/-- A layout with fewer than two positional parameters has none, or a single required, optional or
rest parameter. -/
theorem cases_of_few (few : layout.params.positionalCount < 2) :
    layout.trailing = [] ∧
      ((layout.leading = [] ∧ layout.optional = [] ∧ layout.rest = none) ∨
        (∃ name, layout.leading = [name] ∧ layout.optional = [] ∧ layout.rest = none) ∨
        (∃ param, layout.leading = [] ∧ layout.optional = [param] ∧ layout.rest = none) ∨
        ∃ name, layout.leading = [] ∧ layout.optional = [] ∧ layout.rest = some name) := by
  rw [positionalCount_params] at few
  have trailing : layout.trailing = [] := by
    by_contra h
    have some := List.length_pos_iff.mpr h
    by_cases hoptional : layout.optional = []
    · have hrest := Option.ne_none_iff_exists'.mp fun hrest => h (layout.trailing_follows hoptional hrest)
      obtain ⟨name, hrest⟩ := hrest
      simp only [hrest, Option.toList_some, List.length_singleton] at few
      omega
    · have := List.length_pos_iff.mpr hoptional
      omega
  -- what is left are the first parameters of the three other groups, at most one in all
  refine ⟨trailing, ?_⟩
  cases hleading : layout.leading with
  | nil =>
    cases hoptional : layout.optional with
    | nil => cases layout.rest <;> simp
    | cons param others =>
      rw [hoptional, List.length_cons] at few
      obtain rfl : others = [] := List.length_eq_zero_iff.mp (by omega)
      have hrest : layout.rest = none := by
        cases hrest : layout.rest <;> simp [hrest] at few ⊢
        omega
      simp [hrest]
  | cons name others =>
    rw [hleading, List.length_cons] at few
    obtain rfl : others = [] := List.length_eq_zero_iff.mp (by omega)
    have hoptional : layout.optional = [] := List.length_eq_zero_iff.mp (by omega)
    have hrest : layout.rest = none := by
      cases hrest : layout.rest <;> simp [hrest] at few ⊢
      omega
    simp [hoptional, hrest]

/-- With fewer than two positional parameters a lone argument is what the one parameter receives, or
the only element of a rest parameter. -/
theorem zip_bindings_of_few (few : layout.params.positionalCount < 2) (value : Value) :
    layout.positional.zip (layout.bindings (layout.params.fitted [value])) =
      layout.positional.map fun param =>
        (param, .value (if param.role = .rest then .array [value] else value)) := by
  rw [ParamList.fitted, requiredCount_params, hasRest_params, positionalCount_params, positional,
    bindings, middle, middleLength]
  obtain ⟨ht, h | ⟨name, h⟩ | ⟨param, h⟩ | ⟨name, h⟩⟩ := layout.cases_of_few few <;>
    simp [ht, h]

end ParamLayout

namespace BindPlan

variable {names : NameTable} {params : ParamList} {keywords : Keywords}

theorem folded_of_keepsKeywords (kept : params.KeepsKeywords keywords) (given : List Value) :
    params.folded { positional := given, keywords } = given := by
  rcases kept with rfl | mentions
  · simp [ParamList.folded]
  · simp [ParamList.folded, mentions]

theorem foldKeywords_of_keepsKeywords (kept : params.KeepsKeywords keywords) (given : List Value) :
    foldKeywords (ParamGroups.ofParams params) { positional := given, keywords } =
      { positional := given, keywords } := by
  rcases kept with rfl | mentions
  · simp [foldKeywords]
  · exact foldKeywords_of_mentions mentions _

/-- Calls with the same keywords whose arguments are made to fit in the same way have the same
plan. -/
theorem make_congr (kept : params.KeepsKeywords keywords) {mode : BindMode} {given given' : List Value}
    (h : fitArity (ParamGroups.ofParams params).arity mode
        (autoSplat (ParamGroups.ofParams params) mode given) =
      fitArity (ParamGroups.ofParams params).arity mode
        (autoSplat (ParamGroups.ofParams params) mode given')) :
    make names params mode { positional := given, keywords } =
      make names params mode { positional := given', keywords } := by
  simp only [make, foldKeywords_of_keepsKeywords kept, h]

/-- Over two parameters or more a lone array is spread, and its elements are not looked into. -/
theorem make_array_of_several (kept : params.KeepsKeywords keywords) (several : 2 ≤ params.slotCount)
    {items : List Value} (flat : ∀ inner, items ≠ [.array inner]) :
    make names params .lenient { positional := [.array items], keywords } =
      make names params .lenient { positional := items, keywords } := by
  refine make_congr kept ?_
  rw [autoSplat_lenient_array, if_pos several, autoSplat_of_ne _ flat]

/-- A lone array is not spread over fewer than two parameters. -/
theorem positionalEntries_of_few (valid : params.validate = .ok ())
    (kept : params.KeepsKeywords keywords) (few : params.slotCount < 2) {items : List Value}
    {plan : BindPlan}
    (h : make names params .lenient { positional := [.array items], keywords } = .ok plan) :
    positionalEntries params plan = (params.filter (·.role.isPositional)).map fun param =>
      (param, .value (if param.role = .rest then .array [.array items] else .array items)) := by
  obtain ⟨layout, rfl⟩ := ParamList.exists_layout valid
  obtain ⟨positional, byKeyword, hfit, -, rfl⟩ := make_eq_ok_iff.mp h
  rw [folded_of_keepsKeywords kept, autoSplat_lenient_array, if_neg (Nat.not_le_of_lt few),
    layout.fitArity_lenient_groups] at hfit
  cases hfit
  rw [← ParamGroups.positionalSlots_ofParams, layout.positionalSlots_groups] at few
  rw [filledSlots, List.append_assoc,
    ParamLayout.positionalEntries_params (layout.accepts_fitted _).1, layout.zip_bindings_of_few few,
    layout.filter_isPositional_params]

/-- Where there is no positional parameter, positional arguments are dropped. -/
theorem make_of_none (kept : params.KeepsKeywords keywords) (none : params.slotCount = 0)
    (given : List Value) :
    make names params .lenient { positional := given, keywords } =
      make names params .lenient { keywords } := by
  rw [← ParamGroups.positionalSlots_ofParams, ParamGroups.positionalSlots] at none
  have rest : (ParamGroups.ofParams params).rest.isSome = false := by
    cases hrest : (ParamGroups.ofParams params).rest <;> simp [hrest] at none ⊢
  have arity : (ParamGroups.ofParams params).arity = { required := 0, optional := 0, rest := false } := by
    rw [ParamGroups.arity, rest]
    congr 1 <;> omega
  refine make_congr kept ?_
  simp [fitArity, arity, Arity.max?]

/-- An array is spread by one level over two positional parameters or more; and over fewer ones it
is not spread. -/
theorem spread_unwraps_once (names : NameTable) (params : ParamList) (keywords : Keywords)
    (kept : params.KeepsKeywords keywords) :
    (2 ≤ params.slotCount →
      (∀ items, (∀ inner, items ≠ [.array inner]) → ∃ plan,
        make names params .lenient { positional := [.array items], keywords } = .ok plan ∧
        make names params .lenient { positional := items, keywords } = .ok plan) ∧
      ∀ inner, ∃ plan,
        make names params .lenient { positional := [.array [.array inner]], keywords } = .ok plan ∧
        HoldsAlone params plan (.array inner)) ∧
    (params.validate = .ok () → params.slotCount < 2 → ∀ items, ∃ plan,
      make names params .lenient { positional := [.array items], keywords } = .ok plan ∧
      (positionalEntries params plan = (params.filter (·.role.isPositional)).map fun param =>
        (param, .value (if param.role = .rest then .array [.array items] else .array items))) ∧
      (params.slotCount = 0 → make names params .lenient { keywords } = .ok plan)) := by
  have total := exists_make_lenient names params
  refine ⟨fun several => ⟨fun items flat => ?_, fun inner => ?_⟩, fun valid few items => ?_⟩
  · obtain ⟨plan, hplan⟩ := total { positional := items, keywords }
    exact ⟨plan, (make_array_of_several kept several flat).trans hplan, hplan⟩
  · obtain ⟨plan, hplan⟩ := total { positional := [.array [.array inner]], keywords }
    refine ⟨plan, hplan, holdsAlone_make hplan several ?_⟩
    rw [folded_of_keepsKeywords kept, autoSplat_lenient_array, if_pos several]
  · obtain ⟨plan, hplan⟩ := total { positional := [.array items], keywords }
    exact ⟨plan, hplan, positionalEntries_of_few valid kept few hplan,
      fun none => (make_of_none kept none _).symm.trans hplan⟩

/-- A nested array in a call with a keyword: the inner array goes to the required parameter. -/
theorem spread_unwraps_once_nested :
    let params : ParamList := [⟨⟨34⟩, .optional ⟨0⟩⟩, ⟨⟨35⟩, .required⟩, ⟨⟨36⟩, .keyword⟩]
    let args : CallArgs :=
      { positional := [.array [.array [.int 1, .int 2]]], keywords := [(⟨36⟩, .int 3)] }
    let plan : BindPlan :=
      [⟨⟨34⟩, .fallback ⟨0⟩⟩, ⟨⟨35⟩, .value (.array [.int 1, .int 2])⟩, ⟨⟨36⟩, .value (.int 3)⟩]
    params.KeepsKeywords args.keywords ∧ 2 ≤ params.slotCount ∧
      make .initial params .lenient args = .ok plan ∧
      HoldsAlone params plan (.array [.int 1, .int 2]) := by
  intro params args plan
  have kept : params.KeepsKeywords args.keywords := .inr rfl
  have several : 2 ≤ params.slotCount := by decide
  obtain ⟨other, hother, alone⟩ :=
    ((spread_unwraps_once .initial params args.keywords kept).1 several).2 [.int 1, .int 2]
  have made : make .initial params .lenient args = .ok plan := by
    dsimp only [params, args, plan]
    rfl
  obtain rfl : other = plan := Except.ok.inj (hother.symm.trans made)
  exact ⟨kept, several, made, alone⟩

end BindPlan

end ScriptSemantics
