import ScriptSemantics.Proofs.FilledSlots

/-!
# Keyword arguments

Keyword parameters take the given keywords of their names, and a keyword rest parameter takes the
others.  No keyword has a part in what positional parameters receive.

## Main Definitions

* `Param.takes` — what a keyword parameter receives from given keywords
* `BindPlan.PartitionsKeywords` — a plan shares out the keywords of a call

## Main Results

* `BindPlan.slots_shareKeywords` — every keyword parameter receives what it takes, whatever others
  before it took
* `BindPlan.keywordSlots_eq_ok_iff` — when keywords are shared out, and into which slots
* `BindPlan.keywords_are_partitioned` — every plan for a list with keyword parameters shares out the
  keywords
-/

namespace ScriptSemantics

/-! ### Taking keywords -/

theorem ParamList.requiredKeywords_subset {params : ParamList} :
    params.requiredKeywords ⊆ params.keywordNames := by
  refine List.map_subset _ fun param hparam => ?_
  obtain ⟨hmem, hrole⟩ := List.mem_filter.mp hparam
  rw [decide_eq_true_eq] at hrole
  exact List.mem_filter.mpr ⟨hmem, by rw [hrole]; rfl⟩

/-- What a keyword parameter receives: the value of its keyword, or else its fallback or nil. -/
def Param.takes (param : Param) (keywords : Keywords) : Binding :=
  match keywords.get? param.name with
  | some value => .value value
  | none =>
    match param.role.fallback? with
    | some expr => .fallback expr
    | none => .value .nil

theorem Param.takes_congr {param : Param} {keywords keywords' : Keywords}
    (h : keywords.get? param.name = keywords'.get? param.name) :
    param.takes keywords = param.takes keywords' := by
  rw [takes, takes, h]

namespace BindPlan

/-- Keyword parameters of different names receive what they take from the keywords at the start. -/
theorem KeywordShare.slots_takeAll {share : KeywordShare} (nodup : share.remaining.keys.Nodup)
    {list : List (Nat × Param)} (distinct : (list.map (·.2.name)).Nodup) :
    (share.takeAll list).slots =
      share.slots ++ list.map fun (i, param) => (i, param.takes share.remaining) := by
  induction list generalizing share with
  | nil => simp [takeAll]
  | cons pair rest ih =>
    obtain ⟨i, param⟩ := pair
    obtain ⟨hfresh, hdistinct⟩ := List.nodup_cons.mp distinct
    have first : (share.take i param).slots = share.slots ++ [(i, param.takes share.remaining)] := by
      rw [take, Param.takes]
      cases share.remaining.get? param.name with
      | some value => rfl
      | none => cases param.role.fallback? <;> rfl
    have hkeys := keys_remaining_take nodup i param
    have others : (rest.map fun (j, other) => (j, other.takes (share.take i param).remaining)) =
        rest.map fun (j, other) => (j, other.takes share.remaining) := by
      -- what the first parameter took has another name than what the others look for
      refine List.map_congr_left fun slot hslot => congrArg _ (Param.takes_congr ?_)
      have hne : slot.2.name ≠ param.name := fun heq =>
        hfresh (List.mem_map.mpr ⟨slot, hslot, heq⟩)
      rw [remaining_take nodup]
      exact @Assoc.get?_filter _ _ _ _ _ (decide <| · ≠ param.name) (decide_eq_true hne)
    calc ((share.take i param).takeAll rest).slots
      _ = (share.take i param).slots ++
            rest.map fun (j, other) => (j, other.takes (share.take i param).remaining) :=
          ih (hkeys ▸ nodup.filter _) hdistinct
      _ = share.slots ++ ((i, param) :: rest).map fun (j, other) =>
            (j, other.takes share.remaining) := by
          rw [first, others, List.append_assoc, List.map_cons]
          rfl

variable {names : NameTable} {params : ParamList} {mode : BindMode} {args : CallArgs}
  {plan : BindPlan}

/-- Every keyword parameter receives what it takes, whatever others before it took. -/
theorem slots_shareKeywords (distinct : params.keywordNames.Nodup) (givenOnce : args.GivenOnce) :
    (shareKeywords (ParamGroups.ofParams params) args.keywords).slots =
      (ParamGroups.ofParams params).keywords.map fun (i, param) =>
        (i, param.takes args.keywords) :=
  @KeywordShare.slots_takeAll { remaining := args.keywords } givenOnce
    (ParamGroups.ofParams params).keywords (map_name_keywords params ▸ distinct)

/-- The slots that keywords fill, if nothing is missing or left over: those of the keyword
parameters and that of a keyword rest parameter. -/
def slotsOfShare (groups : ParamGroups) (share : KeywordShare) : Slots :=
  share.slots ++
    (groups.keywordRest.map fun i => (i, .value (.hashOfKeywords share.remaining))).toList

/-- Keywords are shared out unless a strict call misses some or has some left over. -/
theorem keywordSlots_eq_ok_iff {groups : ParamGroups} (accepts : groups.noKeywords = false)
    {keywords : Keywords} {slots : Slots} :
    keywordSlots names groups mode keywords = .ok slots ↔
      (mode = .strict → (shareKeywords groups keywords).missing = [] ∧
        (groups.keywordRest = none → (shareKeywords groups keywords).remaining = [])) ∧
      slotsOfShare groups (shareKeywords groups keywords) = slots := by
  rw [keywordSlots, if_neg (by simp [accepts]), slotsOfShare]
  cases mode with
  | lenient => cases groups.keywordRest <;> simp
  | strict =>
    by_cases missing : (shareKeywords groups keywords).missing = []
    · cases groups.keywordRest with
      | some i => simp [missing]
      | none =>
        by_cases remaining : (shareKeywords groups keywords).remaining = [] <;>
          simp [missing, remaining]
    · simp [missing]

/-! ### Shared keywords -/

/-- A plan shares out the keywords of a call: every keyword parameter receives its keyword, and a
keyword rest parameter receives the others, in the order in which they are given. -/
structure PartitionsKeywords (names : NameTable) (params : ParamList) (mode : BindMode)
    (args : CallArgs) (plan : BindPlan) : Prop where
  complete : (entries params plan).map Prod.fst = params
  given : ∀ entry ∈ entries params plan, entry.1.role.isNamedKeyword = true →
    ∀ value, args.keywords.get? entry.1.name = some value → entry.2 = .value value
  fallsBack : ∀ entry ∈ entries params plan, ∀ expr, entry.1.role = .keywordOptional expr →
    entry.1.name ∉ args.keywords.keys → entry.2 = .fallback expr
  absent : ∀ entry ∈ entries params plan, entry.1.role = .keyword →
    entry.1.name ∉ args.keywords.keys → mode = .lenient ∧ entry.2 = .value .nil
  remainder : ∀ entry ∈ entries params plan, entry.1.role = .keywordRest →
    entry.2 = .value (.hash ((args.keywords.filter (·.1 ∉ params.keywordNames)).map
      fun (name, value) => (.symbol name, value)))
  /-- Without a keyword rest parameter, keywords of other names are errors of strict calls. -/
  known : params.hasKeywordRest = false → mode = .strict →
    ∀ name ∈ args.keywords.keys, name ∈ params.keywordNames
  /-- Without a keyword rest parameter, keywords of other names are dropped. -/
  dropped : params.hasKeywordRest = false →
    make names params mode
      { args with keywords := args.keywords.filter (·.1 ∈ params.keywordNames) } = .ok plan
  /-- Positional parameters receive the same whatever keywords there are. -/
  positional : ∀ keywords plan', make names params mode { args with keywords } = .ok plan' →
    positionalEntries params plan' = positionalEntries params plan
  /-- Without keywords, only a strict call that requires some has no plan. -/
  withoutKeywords : (∃ plan', make names params mode { args with keywords := [] } = .ok plan') ∨
    mode = .strict ∧ params.requiredKeywords ≠ [] ∧
      make names params mode { args with keywords := [] } =
        .error (.missingKeywords (params.requiredKeywords.map names.lookup))

/-! ### Entries of keyword parameters -/

theorem exists_index_of_mem_entries {slots : Slots} {entry : Param × Binding}
    (h : entry ∈ entries params (ofSlots params slots)) :
    ∃ i, params[i]? = some entry.1 ∧ entry.2 = (Assoc.get? slots i).getD (.value .nil) := by
  rw [entries_ofSlots] at h
  obtain ⟨⟨param, i⟩, hmem, rfl⟩ := List.mem_map.mp h
  exact ⟨i, List.mk_mem_zipIdx_iff_getElem?.mp (List.mem_filter.mp hmem).1, rfl⟩

section Shared

variable (distinct : params.keywordNames.Nodup) (givenOnce : args.GivenOnce)
  {values : List Value} {byKeyword : Slots}
  (hkeywords : keywordSlots names (ParamGroups.ofParams params) mode args.keywords = .ok byKeyword)
  (shared : slotsOfShare (ParamGroups.ofParams params)
    (shareKeywords (ParamGroups.ofParams params) args.keywords) = byKeyword)
  {entry : Param × Binding}
  (hentry : entry ∈ entries params
    (ofSlots params (filledSlots (ParamGroups.ofParams params) values byKeyword)))

include distinct givenOnce hkeywords shared hentry

/-- A keyword parameter receives what it takes. -/
theorem entry_eq_takes (hnamed : entry.1.role.isNamedKeyword = true) :
    entry.2 = entry.1.takes args.keywords := by
  obtain ⟨i, hparam, hbinding⟩ := exists_index_of_mem_entries hentry
  have hgroup := (ParamGroups.mem_keywords_ofParams params i entry.1).mpr ⟨hparam, hnamed⟩
  have hslot : (i, entry.1.takes args.keywords) ∈ byKeyword := by
    rw [← shared, slotsOfShare, slots_shareKeywords distinct givenOnce]
    exact List.mem_append_left _ (List.mem_map.mpr ⟨_, hgroup, rfl⟩)
  rw [hbinding, get?_filledSlots hkeywords
    (List.mem_append_left _ (List.mem_append_right _ hslot))]
  rfl

/-- A keyword rest parameter of a valid list receives the keywords that name no parameter. -/
theorem entry_eq_remainder (valid : params.validate = .ok ())
    (hrole : entry.1.role = .keywordRest) :
    entry.2 = .value (.hashOfKeywords (args.keywords.filter (·.1 ∉ params.keywordNames))) := by
  obtain ⟨i, hparam, hbinding⟩ := exists_index_of_mem_entries hentry
  have sorts := ParamGroups.sorts_ofParams (ParamList.grammatical_of_valid valid)
  have hgroup := (sorts.keywordRest i).mpr (Option.map_eq_some_iff.mpr ⟨entry.1, hparam, hrole⟩)
  have hslot : (i, .value (.hashOfKeywords
      (args.keywords.filter (·.1 ∉ params.keywordNames)))) ∈ byKeyword := by
    rw [← shared, slotsOfShare, remaining_shareKeywords distinct givenOnce, hgroup]
    exact List.mem_append_right _ List.mem_cons_self
  rw [hbinding, get?_filledSlots hkeywords
    (List.mem_append_left _ (List.mem_append_right _ hslot))]
  rfl

end Shared

/-! ### Calls with other keywords -/

/-- Where some parameter is about keywords, a plan is made of the positional arguments and of the
keywords apart. -/
theorem make_eq_ok_iff_of_mentions (mentions : params.mentionsKeywords = true) :
    make names params mode args = .ok plan ↔ ∃ positional byKeyword,
      fitArity (ParamGroups.ofParams params).arity mode
        (autoSplat (ParamGroups.ofParams params) mode args.positional) = .ok positional ∧
      keywordSlots names (ParamGroups.ofParams params) mode args.keywords = .ok byKeyword ∧
      ofSlots params (filledSlots (ParamGroups.ofParams params) positional byKeyword) = plan := by
  rw [make_eq_ok_iff, foldKeywords_of_mentions mentions, ParamList.folded, mentions]
  rfl

/-- In a valid list, positional parameters come before the slots for keywords. -/
theorem positionalEntries_filledSlots (valid : params.validate = .ok ())
    (mentions : params.mentionsKeywords = true) {given positional : List Value}
    (hfit : fitArity (ParamGroups.ofParams params).arity mode
      (autoSplat (ParamGroups.ofParams params) mode given) = .ok positional)
    (byKeyword byKeyword' : Slots) :
    positionalEntries params
        (ofSlots params (filledSlots (ParamGroups.ofParams params) positional byKeyword)) =
      positionalEntries params
        (ofSlots params (filledSlots (ParamGroups.ofParams params) positional byKeyword')) := by
  obtain ⟨layout, rfl⟩ := ParamList.exists_layout valid
  have enough : layout.params.requiredCount ≤ positional.length := by
    refine (@ParamLayout.effective_of_fitArity layout mode { positional := given } _ ?_).2.1
    rwa [foldKeywords_of_mentions mentions]
  rw [filledSlots, filledSlots, List.append_assoc, List.append_assoc,
    ParamLayout.positionalEntries_params enough, ParamLayout.positionalEntries_params enough]

theorem keywordRest_eq_none (h : params.hasKeywordRest = false) :
    (ParamGroups.ofParams params).keywordRest = none := by
  have hrest : (ParamGroups.ofParams params).keywordRest.isSome = params.hasKeywordRest :=
    ParamGroups.keywordRest_addAll {} params 0
  rwa [h, Option.isSome_eq_false_iff, Option.isNone_iff_eq_none] at hrest

/-- Without a keyword rest parameter, keywords that name no parameter have no effect on a call that
is bound. -/
theorem keywordSlots_knownKeywords (distinct : params.keywordNames.Nodup)
    (givenOnce : args.GivenOnce) (accepts : (ParamGroups.ofParams params).noKeywords = false)
    (noRest : params.hasKeywordRest = false) {byKeyword : Slots}
    (h : keywordSlots names (ParamGroups.ofParams params) mode args.keywords = .ok byKeyword) :
    keywordSlots names (ParamGroups.ofParams params) mode
      (args.keywords.filter (·.1 ∈ params.keywordNames)) = .ok byKeyword := by
  obtain ⟨fits, rfl⟩ := (keywordSlots_eq_ok_iff accepts).mp h
  have hkeys := Assoc.keys_filter args.keywords (decide <| · ∈ params.keywordNames)
  have givenOnce' : CallArgs.GivenOnce
      { args with keywords := args.keywords.filter (·.1 ∈ params.keywordNames) } := by
    rw [CallArgs.GivenOnce, hkeys]
    exact givenOnce.filter _
  have sameTakes : ((ParamGroups.ofParams params).keywords.map fun (i, param) =>
      (i, param.takes (args.keywords.filter (·.1 ∈ params.keywordNames)))) =
      (ParamGroups.ofParams params).keywords.map fun (i, param) =>
        (i, param.takes args.keywords) := by
    refine List.map_congr_left fun slot hslot => congrArg _ (Param.takes_congr ?_)
    have hname : slot.2.name ∈ params.keywordNames := by
      rw [← map_name_keywords]
      exact List.mem_map.mpr ⟨slot, hslot, rfl⟩
    exact @Assoc.get?_filter _ _ _ _ _ (decide <| · ∈ params.keywordNames) (decide_eq_true hname)
  refine (keywordSlots_eq_ok_iff accepts).mpr ⟨fun strict => ⟨?_, fun _ => ?_⟩, ?_⟩
  -- required keywords name parameters, so those that are given are still given
  · have missing := (fits strict).1
    rw [missing_shareKeywords distinct givenOnce, ParamList.missingKeywords,
      List.filter_eq_nil_iff] at missing
    refine (missing_shareKeywords distinct givenOnce').trans (List.filter_eq_nil_iff.mpr ?_)
    intro name hname
    rw [decide_eq_true_eq, not_not, hkeys]
    exact List.mem_filter.mpr ⟨by simpa using missing name hname,
      decide_eq_true (ParamList.requiredKeywords_subset hname)⟩
  · refine (remaining_shareKeywords distinct givenOnce').trans ?_
    simp
  · have slots := slots_shareKeywords distinct givenOnce'
    rw [slotsOfShare, slotsOfShare, slots, slots_shareKeywords distinct givenOnce, sameTakes,
      keywordRest_eq_none noRest]
    rfl

/-- A call without keywords has no plan only if it is strict and some keyword is required. -/
theorem make_withoutKeywords (distinct : params.keywordNames.Nodup)
    (mentions : params.mentionsKeywords = true)
    (accepts : (ParamGroups.ofParams params).noKeywords = false) {given positional : List Value}
    (hfit : fitArity (ParamGroups.ofParams params).arity mode
      (autoSplat (ParamGroups.ofParams params) mode given) = .ok positional) :
    (∃ plan, make names params mode { positional := given } = .ok plan) ∨
      mode = .strict ∧ params.requiredKeywords ≠ [] ∧
        make names params mode { positional := given } =
          .error (.missingKeywords (params.requiredKeywords.map names.lookup)) := by
  have missing : (shareKeywords (ParamGroups.ofParams params) []).missing =
      params.requiredKeywords := by
    have h := @missing_shareKeywords params {} distinct CallArgs.givenOnce_empty
    rwa [ParamList.missingKeywords, List.filter_eq_self.mpr (by simp [Assoc.keys])] at h
  have remaining : (shareKeywords (ParamGroups.ofParams params) []).remaining = [] :=
    @remaining_shareKeywords params {} distinct CallArgs.givenOnce_empty
  by_cases complete : mode = .strict → params.requiredKeywords = []
  · refine .inl ⟨_, (make_eq_ok_iff_of_mentions mentions).mpr ⟨positional, _, hfit,
      (keywordSlots_eq_ok_iff accepts).mpr ⟨fun strict => ⟨?_, fun _ => remaining⟩, rfl⟩, rfl⟩⟩
    rw [missing, complete strict]
  · obtain ⟨rfl, required⟩ := Classical.not_imp.mp complete
    refine .inr ⟨rfl, required, ?_⟩
    simp only [make, foldKeywords_of_mentions mentions, hfit, keywordSlots, accepts, missing, bind,
      Except.bind]
    simp [required]

/-- A plan for a valid list with keyword parameters, which does not refuse keywords, shares out the
keywords of the call. -/
theorem keywords_are_partitioned (names : NameTable) {params : ParamList} {mode : BindMode}
    {args : CallArgs} {plan : BindPlan} (valid : params.validate = .ok ())
    (named : ∀ param ∈ params, param.role.isNamedKeyword = true → param.name.isEmpty = false)
    (mentions : params.mentionsKeywords = true) (accepts : params.refusesKeywords = false)
    (givenOnce : args.GivenOnce) (h : make names params mode args = .ok plan) :
    PartitionsKeywords names params mode args plan := by
  have distinct := ParamList.nodup_keywordNames valid named
  have accepting : (ParamGroups.ofParams params).noKeywords = false :=
    (ParamGroups.noKeywords_addAll {} params 0).trans accepts
  -- the keywords are bound just if the checks of the mode find nothing
  obtain ⟨positional, byKeyword, hfit, hkeywords, rfl⟩ :=
    (make_eq_ok_iff_of_mentions mentions).mp h
  obtain ⟨fits, shared⟩ := (keywordSlots_eq_ok_iff accepting).mp hkeywords
  rw [missing_shareKeywords distinct givenOnce, remaining_shareKeywords distinct givenOnce] at fits
  -- an entry for a named keyword has what its parameter takes
  have takes := @entry_eq_takes names params mode args distinct givenOnce positional byKeyword
    hkeywords shared
  constructor
  case complete =>
    rw [entries_ofSlots, List.map_map]
    refine (filter_eq_map_fst params).symm.trans (List.filter_eq_self.mpr fun param hparam => ?_)
    have hmarker := List.any_eq_false.mp accepts param hparam
    simpa using hmarker
  case given =>
    intro entry hentry hnamed value hvalue
    rw [takes hentry hnamed, Param.takes, hvalue]
  case fallsBack =>
    intro entry hentry expr hrole hfresh
    rw [takes hentry (by rw [hrole]; rfl), Param.takes, Assoc.get?_eq_none_iff.mpr hfresh, hrole]
    rfl
  case absent =>
    intro entry hentry hrole hfresh
    refine ⟨?_, ?_⟩
    · cases hmode : mode with
      | lenient => rfl
      | strict =>
        obtain ⟨i, hparam, -⟩ := exists_index_of_mem_entries hentry
        have hrequired : entry.1.name ∈ params.requiredKeywords := List.mem_map.mpr
          ⟨_, List.mem_filter.mpr ⟨List.mem_of_getElem? hparam, decide_eq_true hrole⟩, rfl⟩
        have missing := List.filter_eq_nil_iff.mp (fits hmode).1 _ hrequired
        exact absurd (decide_eq_true hfresh) missing
    · rw [takes hentry (by rw [hrole]; rfl), Param.takes, Assoc.get?_eq_none_iff.mpr hfresh, hrole]
      rfl
  case remainder =>
    intro entry hentry hrole
    exact entry_eq_remainder distinct givenOnce hkeywords shared hentry valid hrole
  case known =>
    intro noRest strict name hname
    obtain ⟨value, hvalue⟩ := Option.isSome_iff_exists.mp (Assoc.mem_keys_iff.mp hname)
    have none := (fits strict).2 (keywordRest_eq_none noRest)
    rw [List.filter_eq_nil_iff] at none
    simpa using none _ (Assoc.mem_of_get? hvalue)
  case dropped =>
    intro noRest
    exact (make_eq_ok_iff_of_mentions mentions).mpr ⟨positional, byKeyword, hfit,
      keywordSlots_knownKeywords distinct givenOnce accepting noRest hkeywords, rfl⟩
  case positional =>
    intro keywords plan' h'
    -- keywords are not folded here, so both calls have the same arguments to fit
    obtain ⟨positional', byKeyword', hfit', -, rfl⟩ := (make_eq_ok_iff_of_mentions mentions).mp h'
    cases Except.ok.inj (hfit.symm.trans hfit')
    exact positionalEntries_filledSlots valid mentions hfit _ _
  case withoutKeywords => exact make_withoutKeywords distinct mentions accepting hfit

/-- A strict call with its keywords out of order and two of other names around them. -/
theorem keywords_are_partitioned_mixed :
    let params : ParamList :=
      [⟨⟨34⟩, .required⟩, ⟨⟨35⟩, .keyword⟩, ⟨⟨36⟩, .keywordOptional ⟨0⟩⟩,
        ⟨⟨37⟩, .keywordOptional ⟨1⟩⟩, ⟨⟨38⟩, .keywordRest⟩]
    let args : CallArgs :=
      { positional := [.int 1]
        keywords := [(⟨40⟩, .int 2), (⟨36⟩, .int 3), (⟨39⟩, .int 4), (⟨35⟩, .int 5)] }
    let plan : BindPlan :=
      [⟨⟨34⟩, .value (.int 1)⟩, ⟨⟨35⟩, .value (.int 5)⟩, ⟨⟨36⟩, .value (.int 3)⟩,
        ⟨⟨37⟩, .fallback ⟨1⟩⟩,
        ⟨⟨38⟩, .value (.hash [(.symbol ⟨40⟩, .int 2), (.symbol ⟨39⟩, .int 4)])⟩]
    params.validate = .ok () ∧ args.GivenOnce ∧ make .initial params .strict args = .ok plan ∧
      PartitionsKeywords .initial params .strict args plan := by
  intro params args plan
  have valid : params.validate = .ok () := rfl
  have givenOnce : args.GivenOnce := by unfold CallArgs.GivenOnce; decide
  have made : make .initial params .strict args = .ok plan := by
    dsimp only [params, args, plan]
    rfl
  exact ⟨valid, givenOnce, made,
    keywords_are_partitioned .initial valid (by decide) rfl rfl givenOnce made⟩

end BindPlan

end ScriptSemantics
