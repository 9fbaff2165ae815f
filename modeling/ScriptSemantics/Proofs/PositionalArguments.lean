import ScriptSemantics.Proofs.AssocKeys
import ScriptSemantics.Proofs.ParamLayout
import Mathlib.Data.List.Forall2

/-!
# Positional arguments

A bind plan gives the positional arguments of a call to the positional parameters in the order in
which they were given.

## Main Definitions

* `ParamList.effective` — the positional arguments that a list makes of a call
* `ParamRole.Takes` — the arguments that one parameter with what it receives stands for
* `BindPlan.positionalEntries` — the positional parameters with what they receive, in order
* `BindPlan.Conveys` — the entries of a plan stand for a list of arguments
* `ParamLayout.bindings` — what the positional parameters of a layout receive, in order

## Main Results

* `ParamLayout.effective_of_fitArity` — the arguments that are shared out are the effective ones
* `ParamLayout.perm_positionalSlots` — the slots, in whatever order they are filled, are the
  bindings
* `BindPlan.conveys_effective` — a plan for a valid list conveys exactly the effective arguments
-/

namespace ScriptSemantics

/-! ### Effective arguments -/

namespace ParamList

/-- The number of required positional parameters. -/
def requiredCount (params : ParamList) : Nat :=
  params.countP (·.role = .required)

/-- The number of positional parameters, a rest parameter counting as one. -/
def positionalCount (params : ParamList) : Nat :=
  params.countP (·.role.isPositional)

/-- Whether there is a rest parameter. -/
def hasRest (params : ParamList) : Bool :=
  params.any (·.role = .rest)

/-- The positional arguments of a call, with keywords as one more argument where no parameter is
about keywords. -/
def folded (params : ParamList) (args : CallArgs) : List Value :=
  if params.mentionsKeywords || args.keywords.isEmpty then args.positional
  else args.positional ++ [.hashOfKeywords args.keywords]

/-- The elements of a lone array, where several parameters can share them. -/
def spread (params : ParamList) : List Value → List Value
  | [.array items] => if 2 ≤ params.positionalCount then items else [.array items]
  | values => values

/-- As many of some arguments as there is room for, filled up with nil. -/
def fitted (params : ParamList) (values : List Value) : List Value :=
  let kept := if params.hasRest then values else values.take params.positionalCount
  kept ++ List.replicate (params.requiredCount - kept.length) .nil

/-- The positional arguments that a parameter list makes of the arguments of a call. -/
def effective (params : ParamList) (mode : BindMode) (args : CallArgs) : List Value :=
  match mode with
  | .strict => params.folded args
  | .lenient => params.fitted (params.spread (params.folded args))

end ParamList

/-! ### What a plan conveys -/

/-- The positional arguments that the entry of a parameter stands for: those of a rest parameter are
the elements of its array, and a parameter that falls back, on its own fallback, stands for none. -/
inductive ParamRole.Takes : ParamRole → Binding → List Value → Prop
  | required (value : Value) : Takes .required (.value value) [value]
  | optional (expr : NodeId) (value : Value) : Takes (.optional expr) (.value value) [value]
  | fallback (expr : NodeId) : Takes (.optional expr) (.fallback expr) []
  | rest (items : List Value) : Takes .rest (.value (.array items)) items

namespace BindPlan

/-- The positional parameters of a list, each with what a plan gives it, in declared order. -/
def positionalEntries (params : ParamList) (plan : BindPlan) : List (Param × Binding) :=
  (((params.filter (·.role ≠ .noKeywords)).zip plan).filter (·.1.role.isPositional)).map
    fun (param, planned) => (param, planned.binding)

/-- Read in order, the entries stand for a list of arguments. -/
def Reads (entries : List (Param × Binding)) (values : List Value) : Prop :=
  ∃ parts : List (List Value),
    List.Forall₂ (fun entry part => entry.1.role.Takes entry.2 part) entries parts ∧
      parts.flatten = values

/-- The positional entries of a plan, read in declared order, stand for a list of arguments.  Only
the last optional parameters fall back, and only when the rest parameter receives nothing. -/
structure Conveys (params : ParamList) (plan : BindPlan) (values : List Value) : Prop where
  named : plan.map (·.name) = (params.filter (·.role ≠ .noKeywords)).map (·.name)
  complete : (positionalEntries params plan).map Prod.fst = params.filter (·.role.isPositional)
  reads : Reads (positionalEntries params plan) values
  last : (positionalEntries params plan).Pairwise fun entry later =>
    (∃ expr, entry.2 = .fallback expr) →
      ∀ expr, later.1.role = .optional expr → later.2 = .fallback expr
  restEmpty : (∃ entry ∈ positionalEntries params plan, ∃ expr, entry.2 = .fallback expr) →
    ∀ entry ∈ positionalEntries params plan, entry.1.role = .rest → entry.2 = .value (.array [])

end BindPlan

/-! ### Counts -/

namespace ParamLayout

variable (layout : ParamLayout)

/-- The positional parameters of a list are those of its layout. -/
theorem filter_isPositional_params :
    layout.params.filter (·.role.isPositional) = layout.positional := by
  have others : layout.others.filter (·.role.isPositional) = [] := by
    simpa [List.filter_eq_nil_iff] using layout.others_not_positional
  have positional : layout.positional.filter (·.role.isPositional) = layout.positional := by
    refine List.filter_eq_self.mpr fun param hparam => ?_
    simp only [ParamLayout.positional, List.mem_append, List.mem_map] at hparam
    rcases hparam with ((⟨_, _, rfl⟩ | ⟨_, _, rfl⟩) | ⟨_, _, rfl⟩) | ⟨_, _, rfl⟩ <;> rfl
  rw [params, List.filter_append, positional, others, List.append_nil]

/-- The number of positional parameters, by their kinds. -/
theorem length_positional :
    layout.positional.length = layout.leading.length + layout.optional.length +
      layout.rest.toList.length + layout.trailing.length := by
  simp only [positional, List.length_append, List.length_map]

theorem positionalCount_params :
    layout.params.positionalCount = layout.leading.length + layout.optional.length +
      layout.rest.toList.length + layout.trailing.length := by
  rw [ParamList.positionalCount, List.countP_eq_length_filter, filter_isPositional_params,
    length_positional]

/-- A role that is positional is counted among the positional parameters. -/
theorem countP_params {p : ParamRole → Bool} (h : ∀ role, p role = true → role.isPositional = true) :
    layout.params.countP (fun param => p param.role) =
      layout.positional.countP fun param => p param.role := by
  have others : layout.others.countP (fun param => p param.role) = 0 := by
    rw [List.countP_eq_zero]
    intro param hparam hp
    have := layout.others_not_positional param hparam
    rw [h _ hp] at this
    cases this
  rw [params, List.countP_append, others, Nat.add_zero]

/-- Only leading and trailing parameters require an argument. -/
theorem requiredCount_params :
    layout.params.requiredCount = layout.leading.length + layout.trailing.length := by
  have h := @countP_params layout (fun role => role = .required) (by rintro _ h; simp_all; rfl)
  rw [ParamList.requiredCount, h]
  simp [positional, List.countP_append, List.countP_map, Function.comp_def]

theorem hasRest_params : layout.params.hasRest = layout.rest.isSome := by
  have hrest : layout.params.hasRest = layout.positional.any (·.role = .rest) := by
    have others : layout.others.any (·.role = .rest) = false := by
      rw [List.any_eq_false]
      intro param hparam hrole
      have := layout.others_not_positional param hparam
      rw [of_decide_eq_true hrole] at this
      cases this
    rw [ParamList.hasRest, params, List.any_append, others, Bool.or_false]
  rw [hrest]
  cases h : layout.rest <;> simp [positional, h]

end ParamLayout

/-! ### Effective arguments of a plan -/

/-- Folding the keywords leaves the positional arguments that the list asks for. -/
theorem BindPlan.positional_foldKeywords (params : ParamList) (args : CallArgs) :
    (foldKeywords (ParamGroups.ofParams params) args).positional = params.folded args := by
  rw [foldKeywords, ParamGroups.takesKeywords_ofParams, ParamList.folded]
  split <;> rfl

/-- Where some parameter is about keywords, these stay keywords. -/
theorem BindPlan.foldKeywords_of_mentions {params : ParamList} (h : params.mentionsKeywords = true)
    (args : CallArgs) : foldKeywords (ParamGroups.ofParams params) args = args := by
  rw [foldKeywords, ParamGroups.takesKeywords_ofParams, h]
  rfl

/-- A strict call spreads nothing. -/
theorem BindPlan.autoSplat_strict (groups : ParamGroups) (values : List Value) :
    autoSplat groups .strict values = values := by
  unfold autoSplat
  rfl

namespace ParamLayout

variable (layout : ParamLayout)

/-- The accepted numbers of positional arguments of a list with a layout. -/
theorem arity_groups : (ParamGroups.ofParams layout.params).arity =
    { required := layout.params.requiredCount
      optional := layout.optional.length
      rest := layout.params.hasRest } := by
  have same := layout.groups
  rw [ParamGroups.arity, same.leading, same.optional, same.rest, same.trailing,
    requiredCount_params, hasRest_params]
  simp

/-- There is a slot for each positional parameter. -/
theorem positionalSlots_groups :
    (ParamGroups.ofParams layout.params).positionalSlots = layout.params.positionalCount := by
  have same := layout.groups
  rw [ParamGroups.positionalSlots, same.leading, same.optional, same.rest, same.trailing,
    positionalCount_params]
  cases layout.rest <;> simp
  omega

/-- Without a rest parameter, there are the required and the optional ones. -/
theorem positionalCount_of_not_rest (h : layout.params.hasRest = false) :
    layout.params.positionalCount = layout.params.requiredCount + layout.optional.length := by
  rw [hasRest_params, Option.isSome_eq_false_iff, Option.isNone_iff_eq_none] at h
  rw [positionalCount_params, requiredCount_params, h, Option.toList_none, List.length_nil]
  omega

/-- A lone array is spread as the list of parameters says. -/
theorem autoSplat_groups (values : List Value) :
    BindPlan.autoSplat (ParamGroups.ofParams layout.params) .lenient values =
      layout.params.spread values := by
  rw [BindPlan.autoSplat.eq_def, ParamList.spread.eq_def, positionalSlots_groups]
  split
  next items _ => rfl
  next hother =>
    split
    next items => exact absurd rfl (hother items rfl)
    next => rfl

/-- A lenient call pads or cuts the arguments to fit the list. -/
theorem fitArity_lenient_groups (values : List Value) :
    BindPlan.fitArity (ParamGroups.ofParams layout.params).arity .lenient values =
      .ok (layout.params.fitted values) := by
  have most : (ParamGroups.ofParams layout.params).arity.max? =
      if layout.params.hasRest then none else some layout.params.positionalCount := by
    rw [arity_groups, Arity.max?]
    split
    · rfl
    next hrest => rw [layout.positionalCount_of_not_rest (by simpa using hrest)]
  simp only [BindPlan.fitArity, most, ParamList.fitted]
  rw [arity_groups]
  cases layout.params.hasRest <;> rfl

/-- The number of fitted arguments is accepted. -/
theorem accepts_fitted (values : List Value) :
    layout.params.requiredCount ≤ (layout.params.fitted values).length ∧
      (layout.params.hasRest = false →
        (layout.params.fitted values).length ≤ layout.params.positionalCount) := by
  rw [ParamList.fitted]
  cases hrest : layout.params.hasRest
  · have := layout.positionalCount_of_not_rest hrest
    simp
    omega
  · simp
    omega

/-- The arguments that fit the arity are the effective ones, and their number is accepted. -/
theorem effective_of_fitArity {mode : BindMode} {args : CallArgs} {values : List Value}
    (h : BindPlan.fitArity (ParamGroups.ofParams layout.params).arity mode
      (BindPlan.autoSplat (ParamGroups.ofParams layout.params) mode
        (BindPlan.foldKeywords (ParamGroups.ofParams layout.params) args).positional) = .ok values) :
    values = layout.params.effective mode args ∧ layout.params.requiredCount ≤ values.length ∧
      (layout.params.hasRest = false → values.length ≤ layout.params.positionalCount) := by
  rw [BindPlan.positional_foldKeywords] at h
  cases mode with
  | strict =>
    rw [BindPlan.autoSplat_strict, BindPlan.fitArity] at h
    split at h
    next accepted =>
      cases h
      rw [arity_groups, Arity.accepts, Arity.max?, Bool.and_eq_true, decide_eq_true_eq] at accepted
      refine ⟨rfl, accepted.1, fun hrest => ?_⟩
      rw [layout.positionalCount_of_not_rest hrest]
      simpa [hrest] using accepted.2
    next => cases h
  | lenient =>
    rw [autoSplat_groups, fitArity_lenient_groups] at h
    cases h
    exact ⟨rfl, layout.accepts_fitted _⟩

end ParamLayout

/-! ### Slots -/

/-- Optional parameters share out values: the first ones take them, the others fall back. -/
theorem BindPlan.optionalSlots_zip (positions : List Nat) (exprs : List NodeId)
    (values : List Value) (h : positions.length = exprs.length) :
    optionalSlots (positions.zip exprs) values =
      positions.zip ((values.take exprs.length).map .value ++
        (exprs.drop values.length).map .fallback) := by
  induction positions generalizing exprs values with
  | nil => rfl
  | cons i rest ih =>
    cases exprs with
    | nil => cases h
    | cons expr exprs =>
      have hlength : rest.length = exprs.length := Nat.succ.inj h
      cases values with
      | nil => simpa [optionalSlots] using ih exprs [] hlength
      | cons value values => simpa [optionalSlots] using ih exprs values hlength

namespace ParamLayout

variable (layout : ParamLayout) (values : List Value)

/-- The number of arguments between those of the leading and those of the trailing parameters. -/
def middleLength : Nat :=
  values.length - layout.leading.length - layout.trailing.length

/-- The arguments between those of the leading and those of the trailing parameters. -/
def middle : List Value :=
  (values.drop layout.leading.length).take (layout.middleLength values)

/-- What the positional parameters receive, in order. -/
def bindings : List Binding :=
  (values.take layout.leading.length).map .value ++
    ((layout.middle values).take layout.optional.length).map .value ++
    ((layout.optional.map Prod.snd).drop (layout.middle values).length).map .fallback ++
    layout.rest.toList.map
      (fun _ => .value (.array ((layout.middle values).drop layout.optional.length))) ++
    (values.drop (layout.leading.length + layout.middleLength values)).map .value

variable {layout values}

/-- The arguments between the required ones. -/
theorem length_middle (enough : layout.params.requiredCount ≤ values.length) :
    (layout.middle values).length = layout.middleLength values := by
  rw [requiredCount_params] at enough
  rw [middle, List.length_take, List.length_drop, middleLength]
  omega

/-- As many arguments are kept back as there are trailing parameters. -/
theorem length_trailing (enough : layout.params.requiredCount ≤ values.length) :
    (values.drop (layout.leading.length + layout.middleLength values)).length =
      layout.trailing.length := by
  rw [requiredCount_params] at enough
  rw [List.length_drop, middleLength]
  omega

/-- Every positional parameter receives something. -/
theorem length_bindings (enough : layout.params.requiredCount ≤ values.length) :
    (layout.bindings values).length = layout.positional.length := by
  have htrailing := length_trailing enough
  rw [requiredCount_params] at enough
  rw [length_positional, bindings]
  simp only [List.length_append, List.length_map, htrailing, List.length_take, List.length_drop]
  omega

/-- The slots of the positional parameters are what these receive, by position. -/
theorem perm_positionalSlots (enough : layout.params.requiredCount ≤ values.length) :
    List.Perm
      (BindPlan.positionalSlots (ParamGroups.ofParams layout.params) values)
      ((List.range' 0 layout.positional.length).zip (layout.bindings values)) := by
  have same := layout.groups
  have htrailing := length_trailing enough
  rw [requiredCount_params] at enough
  -- only the first values go to the leading parameters
  have leading : (List.range' 0 layout.leading.length).zip (values.map Binding.value) =
      (List.range' 0 layout.leading.length).zip
        ((values.take layout.leading.length).map Binding.value) := by
    conv_lhs => rw [← List.take_append_drop layout.leading.length values, List.map_append,
      ← List.append_nil (List.range' 0 _)]
    rw [List.zip_append (by simp; omega), List.zip_nil_left, List.append_nil]
  have optional := BindPlan.optionalSlots_zip
    (List.range' layout.leading.length layout.optional.length) (layout.optional.map Prod.snd)
    (layout.middle values) (by simp)
  -- the positions run through leading, optional, rest and trailing parameters
  have positions : List.range' 0 layout.positional.length =
      List.range' 0 layout.leading.length ++
        List.range' layout.leading.length layout.optional.length ++
        List.range' (layout.leading.length + layout.optional.length) layout.rest.toList.length ++
        List.range' (layout.leading.length + layout.optional.length + layout.rest.toList.length)
          layout.trailing.length := by
    rw [length_positional, ← List.range'_append_1, ← List.range'_append_1, ← List.range'_append_1]
    simp only [Nat.zero_add]
  rw [BindPlan.positionalSlots, same.leading, same.optional, same.rest, same.trailing]
  simp only [List.length_range', List.length_zip, List.length_map, Nat.min_self]
  change List.Perm (List.zip _ _ ++ List.zip _ _ ++ BindPlan.optionalSlots _ (layout.middle values) ++
    (Option.map (fun i => (i, Binding.value
      (.array ((layout.middle values).drop layout.optional.length))))
        (Option.map (fun _ => layout.leading.length + layout.optional.length) layout.rest)).toList) _
  have rest : (Option.map (fun i => (i, Binding.value
      (.array ((layout.middle values).drop layout.optional.length))))
        (Option.map (fun _ => layout.leading.length + layout.optional.length) layout.rest)).toList =
      (List.range' (layout.leading.length + layout.optional.length) layout.rest.toList.length).zip
        (layout.rest.toList.map fun _ =>
          .value (.array ((layout.middle values).drop layout.optional.length))) := by
    cases layout.rest <;> rfl
  -- the plan comes to trailing parameters before optional ones, hence a permutation
  rw [leading, optional, rest, positions, bindings, List.append_assoc (List.map _ _) (List.map _ _),
    List.zip_append, List.zip_append, List.zip_append]
  · simp only [List.length_map, List.append_assoc]
    refine List.Perm.append_left _ ?_
    rw [← List.append_assoc (List.zip _ (List.map _ _ ++ _))]
    exact List.perm_append_comm
  all_goals
    simp only [List.length_append, List.length_map, List.length_range', List.length_take,
      List.length_drop]
    omega

/-- The slot of a positional parameter holds what it receives. -/
theorem get?_positionalSlots (enough : layout.params.requiredCount ≤ values.length)
    (others : Slots) {i : Nat} {binding : Binding}
    (h : (layout.bindings values)[i]? = some binding) :
    Assoc.get? (BindPlan.positionalSlots (ParamGroups.ofParams layout.params) values ++ others) i =
      some binding := by
  have hperm := perm_positionalSlots enough
  have hlength := length_bindings enough
  have hkeys : ((List.range' 0 layout.positional.length).zip (layout.bindings values)).map Prod.fst =
      List.range' 0 layout.positional.length :=
    List.map_fst_zip (by simp [hlength])
  refine Assoc.get?_append (Assoc.get?_of_mem ?_ (hperm.mem_iff.mpr ?_))
  · refine (hperm.map Prod.fst).nodup_iff.mpr ?_
    rw [hkeys]
    exact List.nodup_range'
  · obtain ⟨hi, hbinding⟩ := List.getElem?_eq_some_iff.mp h
    refine List.mem_iff_getElem.mpr ⟨i, by simp [← hlength, hi], ?_⟩
    rw [List.getElem_zip, List.getElem_range', hbinding]
    simp

end ParamLayout

/-! ### Entries -/

namespace BindPlan

/-- The entries of a plan stand for the parameters other than the marker, in their order. -/
theorem filter_eq_map_fst (params : ParamList) :
    params.filter (·.role ≠ .noKeywords) =
      (params.zipIdx.filter (·.1.role ≠ .noKeywords)).map Prod.fst := by
  conv_lhs => rw [← List.zipIdx_map_fst 0 params, List.filter_map]
  rfl

/-- A plan names the parameters in their order. -/
theorem names_ofSlots (params : ParamList) (slots : Slots) :
    (ofSlots params slots).map (·.name) =
      (params.filter (·.role ≠ .noKeywords)).map (·.name) := by
  rw [filter_eq_map_fst, ofSlots, List.map_map, List.map_map]
  rfl

/-- The positional entries of a plan that is read off from slots. -/
theorem positionalEntries_ofSlots (params : ParamList) (slots : Slots) :
    positionalEntries params (ofSlots params slots) =
      (params.zipIdx.filter (·.1.role.isPositional)).map fun (param, i) =>
        (param, (Assoc.get? slots i).getD (.value .nil)) := by
  have positional : ∀ role : ParamRole,
      (role.isPositional && decide (role ≠ .noKeywords)) = role.isPositional := by
    intro role
    cases role <;> rfl
  rw [positionalEntries, ofSlots, filter_eq_map_fst, List.zip_map', List.filter_map, List.map_map,
    List.filter_filter]
  simp only [Function.comp_def, positional]

end BindPlan

namespace ParamLayout

/-- The positional entries of a plan for a list with a layout. -/
theorem positionalEntries_params {layout : ParamLayout} {values : List Value}
    (enough : layout.params.requiredCount ≤ values.length) (others : Slots) :
    BindPlan.positionalEntries layout.params (BindPlan.ofSlots layout.params
      (BindPlan.positionalSlots (ParamGroups.ofParams layout.params) values ++ others)) =
      layout.positional.zip (layout.bindings values) := by
  have hlength := length_bindings enough
  have hfilter : (List.zipIdx layout.params).filter (·.1.role.isPositional) =
      layout.positional.zipIdx := by
    have hpositional : layout.positional.zipIdx.filter (·.1.role.isPositional) =
        layout.positional.zipIdx := by
      refine List.filter_eq_self.mpr fun pair hpair => ?_
      have hmem := (List.mem_zipIdx' hpair).2 ▸ List.getElem_mem _
      rw [← filter_isPositional_params] at hmem
      exact (List.mem_filter.mp hmem).2
    have hothers : (layout.others.zipIdx (0 + layout.positional.length)).filter
        (·.1.role.isPositional) = [] := by
      refine List.filter_eq_nil_iff.mpr fun pair hpair => ?_
      rw [layout.others_not_positional pair.1 (List.fst_mem_of_mem_zipIdx hpair)]
      exact Bool.false_ne_true
    rw [params, List.zipIdx_append, List.filter_append, hpositional, hothers, List.append_nil]
  rw [BindPlan.positionalEntries_ofSlots, hfilter]
  refine List.ext_getElem (by simp [hlength]) fun i hi hi' => ?_
  have hbinding : i < (layout.bindings values).length := by
    rw [List.length_zip] at hi'
    omega
  have hslot := get?_positionalSlots enough others (List.getElem?_eq_getElem hbinding)
  simp [hslot]

/-- The positional entries by the part of the layout that they belong to. -/
theorem positional_zip_bindings {layout : ParamLayout} {values : List Value}
    (enough : layout.params.requiredCount ≤ values.length) :
    layout.positional.zip (layout.bindings values) =
      (layout.leading.map (⟨·, .required⟩)).zip ((values.take layout.leading.length).map .value) ++
      ((layout.optional.take (layout.middle values).length).map
        fun (name, e) => (⟨name, .optional e⟩ : Param)).zip
          (((layout.middle values).take layout.optional.length).map .value) ++
      ((layout.optional.drop (layout.middle values).length).map
        fun (name, e) => (⟨name, .optional e⟩, .fallback e)) ++
      (layout.rest.toList.map fun name =>
        (⟨name, .rest⟩, .value (.array ((layout.middle values).drop layout.optional.length)))) ++
      (layout.trailing.map (⟨·, .required⟩)).zip
        ((values.drop (layout.leading.length + layout.middleLength values)).map .value) := by
  have htrailing := length_trailing enough
  rw [requiredCount_params] at enough
  have optional : layout.optional.map (fun (name, e) => (⟨name, .optional e⟩ : Param)) =
      (layout.optional.take (layout.middle values).length).map (fun (name, e) => ⟨name, .optional e⟩) ++
        (layout.optional.drop (layout.middle values).length).map
          fun (name, e) => ⟨name, .optional e⟩ := by
    rw [← List.map_append, List.take_append_drop]
  rw [positional, bindings, optional, ← List.append_assoc (List.map _ layout.leading),
    List.zip_append, List.zip_append, List.zip_append, List.zip_append]
  · rw [← List.map_drop, List.map_map, List.zip_map', List.zip_map']
    rfl
  all_goals
    simp only [List.length_append, List.length_map, List.length_take, List.length_drop]
    omega

end ParamLayout

namespace BindPlan

/-- Parameters that read one stretch of the arguments after the other read both. -/
theorem Reads.append {xs ys : List (Param × Binding)} {values values' : List Value}
    (hx : Reads xs values) (hy : Reads ys values') : Reads (xs ++ ys) (values ++ values') := by
  obtain ⟨parts, hparts, rfl⟩ := hx
  obtain ⟨parts', hparts', rfl⟩ := hy
  exact ⟨parts ++ parts', List.rel_append hparts hparts', List.flatten_append⟩

/-- Parameters that take one argument each read as many arguments as there are. -/
theorem reads_values (params : List Param) (values : List Value)
    (takes : ∀ param ∈ params, ∀ value, param.role.Takes (.value value) [value])
    (h : params.length = values.length) : Reads (params.zip (values.map .value)) values := by
  induction params generalizing values with
  | nil =>
    cases List.length_eq_zero_iff.mp h.symm
    exact ⟨[], .nil, rfl⟩
  | cons param rest ih =>
    cases values with
    | nil => cases h
    | cons value values =>
      obtain ⟨first, others⟩ := List.forall_mem_cons.mp takes
      exact @Reads.append [(param, .value value)] _ _ _ ⟨[[value]], .cons (first value) .nil, rfl⟩
        (ih values others (Nat.succ.inj h))

/-- Optional parameters that fall back read nothing. -/
theorem reads_fallbacks (optional : List (Name × NodeId)) :
    Reads (optional.map fun (name, e) => (⟨name, .optional e⟩, .fallback e)) [] := by
  refine ⟨optional.map fun _ => [], ?_, by simp⟩
  rw [List.forall₂_map_left_iff, List.forall₂_map_right_iff]
  exact List.forall₂_same.mpr fun (_, e) _ => .fallback e

/-- A parameter that is paired with an argument has this argument as its binding. -/
theorem value_of_mem_zip {params : List Param} {values : List Value} {entry : Param × Binding}
    (h : entry ∈ params.zip (values.map .value)) :
    entry.1 ∈ params ∧ ∃ value, entry.2 = .value value := by
  obtain ⟨hparam, hbinding⟩ := List.of_mem_zip h
  obtain ⟨value, -, hvalue⟩ := List.mem_map.mp hbinding
  exact ⟨hparam, value, hvalue.symm⟩

/-- Entries that fall back stand after all entries that do not, apart from those of parameters that
never do. -/
theorem last_of_append {xs ys : List (Param × Binding)}
    (hx : ∀ entry ∈ xs, ∀ expr, entry.2 ≠ .fallback expr)
    (hy : ∀ entry ∈ ys, ∀ expr, entry.1.role = .optional expr → entry.2 = .fallback expr) :
    (xs ++ ys).Pairwise fun entry later => (∃ expr, entry.2 = .fallback expr) →
      ∀ expr, later.1.role = .optional expr → later.2 = .fallback expr := by
  refine List.pairwise_append.mpr ⟨?_, ?_, fun entry hentry later hlater _ => hy later hlater⟩
  · exact List.pairwise_of_forall_mem_list fun entry hentry _ _ ⟨expr, hexpr⟩ =>
      absurd hexpr (hx entry hentry expr)
  · exact List.pairwise_of_forall_mem_list fun _ _ later hlater _ => hy later hlater

end BindPlan

namespace ParamLayout

variable {layout : ParamLayout} {values : List Value}

/-- The positional arguments are shared out over the positional parameters in order. -/
theorem reads_bindings (enough : layout.params.requiredCount ≤ values.length)
    (bounded : layout.params.hasRest = false → values.length ≤ layout.params.positionalCount) :
    BindPlan.Reads (layout.positional.zip (layout.bindings values)) values := by
  have hmiddle := length_middle enough
  have htrailing := length_trailing enough
  have required : ∀ names : List Name, ∀ param ∈ names.map (⟨·, .required⟩ : Name → Param),
      ∀ value, param.role.Takes (.value value) [value] := by
    rintro names param hparam value
    obtain ⟨name, -, rfl⟩ := List.mem_map.mp hparam
    exact .required value
  -- each kind of parameters reads a stretch of the arguments
  have leading := BindPlan.reads_values _ (values.take layout.leading.length)
    (required layout.leading) (by rw [requiredCount_params] at enough; simp; omega)
  have optional := BindPlan.reads_values
    ((layout.optional.take (layout.middle values).length).map fun (name, e) => ⟨name, .optional e⟩)
    ((layout.middle values).take layout.optional.length)
    (fun param hparam value => by
      obtain ⟨⟨name, e⟩, -, rfl⟩ := List.mem_map.mp hparam
      exact .optional e value)
    (by simp [Nat.min_comm])
  have trailing := BindPlan.reads_values _
    (values.drop (layout.leading.length + layout.middleLength values))
    (required layout.trailing) (by rw [htrailing]; simp)
  have rest : BindPlan.Reads (layout.rest.toList.map fun name =>
      ((⟨name, .rest⟩, .value (.array ((layout.middle values).drop layout.optional.length))) :
        Param × Binding)) ((layout.middle values).drop layout.optional.length) := by
    cases hrest : layout.rest with
    | some name => exact ⟨[_], .cons (.rest _) .nil, by simp⟩
    | none =>
      -- without a rest parameter, the optional ones leave nothing over
      have noRest : layout.params.hasRest = false := by rw [hasRest_params, hrest]; rfl
      have hbound := bounded noRest
      rw [layout.positionalCount_of_not_rest noRest, requiredCount_params] at hbound
      have short : (layout.middle values).drop layout.optional.length = [] := by
        rw [List.drop_eq_nil_iff, hmiddle, middleLength]
        omega
      exact ⟨[], .nil, short.symm⟩
  have all := (((leading.append optional).append (BindPlan.reads_fallbacks
    (layout.optional.drop (layout.middle values).length))).append rest).append trailing
  rw [positional_zip_bindings enough]
  convert all using 1
  rw [List.append_nil, List.append_assoc (List.take _ values), List.take_append_drop, middle,
    ← List.drop_drop, List.append_assoc, List.take_append_drop, List.take_append_drop]

/-- Only the last optional parameters fall back. -/
theorem last_bindings (enough : layout.params.requiredCount ≤ values.length) :
    (layout.positional.zip (layout.bindings values)).Pairwise fun entry later =>
      (∃ expr, entry.2 = .fallback expr) →
        ∀ expr, later.1.role = .optional expr → later.2 = .fallback expr := by
  rw [positional_zip_bindings enough, List.append_assoc, List.append_assoc]
  refine BindPlan.last_of_append (fun entry hentry expr h => ?_) (fun entry hentry expr h => ?_)
  · have hvalue : ∃ value, entry.2 = .value value := by
      rcases List.mem_append.mp hentry with hentry | hentry
      · exact (BindPlan.value_of_mem_zip hentry).2
      · exact (BindPlan.value_of_mem_zip hentry).2
    obtain ⟨value, hvalue⟩ := hvalue
    rw [hvalue] at h
    cases h
  · rcases List.mem_append.mp hentry with hentry | hentry
    · obtain ⟨_, -, rfl⟩ := List.mem_map.mp hentry
      cases h
      rfl
    · rcases List.mem_append.mp hentry with hentry | hentry
      · obtain ⟨_, -, rfl⟩ := List.mem_map.mp hentry
        cases h
      · obtain ⟨_, -, hparam⟩ := List.mem_map.mp (BindPlan.value_of_mem_zip hentry).1
        rw [← hparam] at h
        cases h

/-- A positional parameter other than the rest parameter receives a value, or falls back when too
little is left for all optional ones; the rest parameter receives what these leave. -/
theorem binding_cases (enough : layout.params.requiredCount ≤ values.length)
    {entry : Param × Binding} (h : entry ∈ layout.positional.zip (layout.bindings values)) :
    (entry.1.role ≠ .rest ∧ ∃ value, entry.2 = .value value) ∨
      (entry.1.role ≠ .rest ∧ (layout.middle values).length < layout.optional.length) ∨
      entry.2 = .value (.array ((layout.middle values).drop layout.optional.length)) := by
  rw [positional_zip_bindings enough] at h
  simp only [List.mem_append] at h
  rcases h with (((h | h) | h) | h) | h
  · obtain ⟨hparam, hvalue⟩ := BindPlan.value_of_mem_zip h
    obtain ⟨_, -, hparam⟩ := List.mem_map.mp hparam
    exact .inl ⟨hparam ▸ nofun, hvalue⟩
  · obtain ⟨hparam, hvalue⟩ := BindPlan.value_of_mem_zip h
    obtain ⟨_, -, hparam⟩ := List.mem_map.mp hparam
    exact .inl ⟨hparam ▸ nofun, hvalue⟩
  · obtain ⟨pair, hpair, rfl⟩ := List.mem_map.mp h
    have hlength := List.length_pos_of_mem hpair
    rw [List.length_drop] at hlength
    exact .inr (.inl ⟨nofun, by omega⟩)
  · obtain ⟨_, -, rfl⟩ := List.mem_map.mp h
    exact .inr (.inr rfl)
  · obtain ⟨hparam, hvalue⟩ := BindPlan.value_of_mem_zip h
    obtain ⟨_, -, hparam⟩ := List.mem_map.mp hparam
    exact .inl ⟨hparam ▸ nofun, hvalue⟩

/-- An optional parameter falls back only when nothing is left for a rest parameter. -/
theorem restEmpty_bindings (enough : layout.params.requiredCount ≤ values.length)
    (fallsBack : ∃ entry ∈ layout.positional.zip (layout.bindings values),
      ∃ expr, entry.2 = .fallback expr) :
    ∀ entry ∈ layout.positional.zip (layout.bindings values), entry.1.role = .rest →
      entry.2 = .value (.array []) := by
  have short : (layout.middle values).length < layout.optional.length := by
    obtain ⟨entry, hentry, expr, hexpr⟩ := fallsBack
    rcases binding_cases enough hentry with ⟨-, value, hvalue⟩ | ⟨-, short⟩ | hrest
    · cases hvalue.symm.trans hexpr
    · exact short
    · cases hrest.symm.trans hexpr
  intro entry hentry hrole
  rcases binding_cases enough hentry with ⟨hother, -⟩ | ⟨hother, -⟩ | hrest
  · exact absurd hrole hother
  · exact absurd hrole hother
  · rw [hrest, List.drop_eq_nil_of_le (Nat.le_of_lt short)]

end ParamLayout

namespace BindPlan

/-- A plan for a valid list conveys exactly the effective arguments. -/
theorem conveys_effective {names : NameTable} {params : ParamList} {mode : BindMode}
    {args : CallArgs} {plan : BindPlan} (valid : params.validate = .ok ())
    (planned : BindPlan.make names params mode args = .ok plan) :
    Conveys params plan (params.effective mode args) := by
  obtain ⟨layout, rfl⟩ := ParamList.exists_layout valid
  simp only [make, bind, Except.bind, pure, Except.pure] at planned
  split at planned
  · cases planned
  next values hvalues =>
    obtain ⟨heffective, enough, bounded⟩ := layout.effective_of_fitArity hvalues
    rw [← heffective]
    split at planned
    · cases planned
    next byKeyword _ =>
      cases planned
      rw [List.append_assoc]
      have entries := ParamLayout.positionalEntries_params enough
        (byKeyword ++ ((ParamGroups.ofParams layout.params).block.map fun i => (i, .block)).toList)
      have hlength := ParamLayout.length_bindings enough
      refine ⟨names_ofSlots _ _, ?_, ?_, ?_, ?_⟩ <;> rw [entries]
      · rw [layout.filter_isPositional_params, List.map_fst_zip (Nat.le_of_eq hlength.symm)]
      · exact ParamLayout.reads_bindings enough bounded
      · exact ParamLayout.last_bindings enough
      · exact ParamLayout.restEmpty_bindings enough

/-- A lone array of two elements goes to the first and to the last parameter. -/
theorem conveys_effective_spread :
    let params : ParamList :=
      [⟨⟨40⟩, .required⟩, ⟨⟨41⟩, .optional ⟨0⟩⟩, ⟨⟨42⟩, .rest⟩, ⟨⟨43⟩, .required⟩]
    let args : CallArgs := { positional := [.array [.int 1, .int 2]] }
    let plan : BindPlan :=
      [⟨⟨40⟩, .value (.int 1)⟩, ⟨⟨41⟩, .fallback ⟨0⟩⟩, ⟨⟨42⟩, .value (.array [])⟩,
        ⟨⟨43⟩, .value (.int 2)⟩]
    params.validate = .ok () ∧ make .initial params .lenient args = .ok plan ∧
      Conveys params plan [.int 1, .int 2] :=
  ⟨rfl, rfl, @conveys_effective .initial _ .lenient { positional := [.array [.int 1, .int 2]] } _
    rfl rfl⟩

end BindPlan

end ScriptSemantics
