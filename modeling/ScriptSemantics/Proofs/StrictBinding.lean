import ScriptSemantics.Proofs.PositionalArguments

/-!
# Strict binding

A strict call is accepted when the number of its positional arguments fits, the required keywords
are given, and there are no keywords that are refused or unknown.  Otherwise the first of these
checks that fails gives the error.

## Main Definitions

* `ParamList.Accepts` — a call is well formed for a parameter list
* `ParamList.FirstFault` — the error of the first check that fails
* `ParamList.Overlooks` — a required keyword is missing, but the list refuses keywords

## Main Results

* `BindPlan.missing_shareKeywords`, `BindPlan.remaining_shareKeywords` — which keywords are missing
  and which are left over
* `BindPlan.strict_binding_is_exact` — a strict call is bound exactly when it is well formed, and
  else fails with its first fault, apart from what is overlooked

## Design Notes

A list that refuses keywords may declare keyword parameters too.  Nothing is then given to these,
and binding does not ask whether one of them is required.
-/

namespace ScriptSemantics

/-! ### Keyword arguments -/

namespace CallArgs

/-- Each keyword is given once.  What adds arguments keeps it so. -/
def GivenOnce (args : CallArgs) : Prop :=
  args.keywords.keys.Nodup

variable {args next : CallArgs}

/-- A call without arguments gives no keyword twice. -/
theorem givenOnce_empty : ({} : CallArgs).GivenOnce := List.nodup_nil

theorem GivenOnce.push (h : args.GivenOnce) (value : Value) : (args.push value).GivenOnce := h

/-- A splat gives no keywords. -/
theorem GivenOnce.pushSpread (h : args.GivenOnce) {value : Value}
    (hnext : args.pushSpread value = .ok next) : next.GivenOnce := by
  simp only [CallArgs.pushSpread, bind, Except.bind, pure, Except.pure] at hnext
  split at hnext <;> cases hnext
  exact h

/-- A keyword that is given again replaces the earlier one. -/
theorem GivenOnce.pushKeyword (h : args.GivenOnce) (name : Name) (value : Value) :
    (args.pushKeyword name value).GivenOnce :=
  Assoc.nodup_keys_put h name value

/-- Keywords of a double splat replace the earlier ones. -/
theorem GivenOnce.mergeKeywords (h : args.GivenOnce) {value : Value}
    (hnext : args.mergeKeywords value = .ok next) : next.GivenOnce := by
  simp only [CallArgs.mergeKeywords, bind, Except.bind, pure, Except.pure] at hnext
  split at hnext <;> cases hnext
  exact Assoc.nodup_keys_putAll h _

end CallArgs

/-! ### Well-formed calls -/

/-- Whether a parameter with this role takes the keyword of its name. -/
def ParamRole.isNamedKeyword : ParamRole → Bool
  | .keyword | .keywordOptional _ => true
  | _ => false

namespace ParamList

/-- The number of optional positional parameters. -/
def optionalCount (params : ParamList) : Nat :=
  params.countP (·.role matches .optional _)

/-- The accepted numbers of positional arguments. -/
def arity (params : ParamList) : Arity where
  required := params.requiredCount
  optional := params.optionalCount
  rest := params.hasRest

/-- The names of all keyword parameters. -/
def keywordNames (params : ParamList) : List Name :=
  (params.filter (·.role.isNamedKeyword)).map (·.name)

/-- The names of the keyword parameters that have no fallback, in the order of their declaration. -/
def requiredKeywords (params : ParamList) : List Name :=
  (params.filter (·.role = .keyword)).map (·.name)

/-- Whether all remaining keywords are taken. -/
def hasKeywordRest (params : ParamList) : Bool :=
  params.any (·.role = .keywordRest)

/-- Whether the list says that it takes no keywords. -/
def refusesKeywords (params : ParamList) : Bool :=
  params.any (·.role = .noKeywords)

variable (params : ParamList) (args : CallArgs)

/-- The number of positional arguments; keywords count as one more argument where no parameter is
about keywords. -/
def givenCount : Nat :=
  args.positional.length + if params.mentionsKeywords || args.keywords.isEmpty then 0 else 1

/-- The number of positional arguments lies between the bounds. -/
def CountFits : Prop :=
  params.requiredCount ≤ params.givenCount args ∧
    (params.hasRest = false → params.givenCount args ≤ params.requiredCount + params.optionalCount)

/-- Keywords are given to a list that refuses them. -/
def Refuses : Prop :=
  params.refusesKeywords = true ∧ args.keywords ≠ []

/-- The required keywords that are not given, in the order of their declaration. -/
def missingKeywords : List Name :=
  params.requiredKeywords.filter (· ∉ args.keywords.keys)

/-- The given keywords that name no parameter, in the order in which they are given; none where all
keywords are taken, or become a positional argument. -/
def unknownKeywords : List Name :=
  if params.mentionsKeywords && !params.hasKeywordRest then
    args.keywords.keys.filter (· ∉ params.keywordNames)
  else []

/-- The call is well formed. -/
structure Accepts : Prop where
  count : params.CountFits args
  notRefused : params.refusesKeywords = true → args.keywords = []
  required : ∀ name ∈ params.requiredKeywords, name ∈ args.keywords.keys
  known : params.mentionsKeywords = true → params.hasKeywordRest = false →
    ∀ name ∈ args.keywords.keys, name ∈ params.keywordNames

/-- The error of the first check that the call fails. -/
inductive FirstFault (names : NameTable) : ErrorCause → Prop
  | count : ¬ params.CountFits args →
      FirstFault names (.arityMismatch (params.givenCount args) params.arity)
  | refused : params.CountFits args → params.Refuses args →
      FirstFault names .noKeywordsAccepted
  | missing : params.CountFits args → ¬ params.Refuses args → params.missingKeywords args ≠ [] →
      FirstFault names (.missingKeywords ((params.missingKeywords args).map names.lookup))
  | unknown : params.CountFits args → ¬ params.Refuses args → params.missingKeywords args = [] →
      params.unknownKeywords args ≠ [] →
      FirstFault names (.unknownKeywords ((params.unknownKeywords args).map names.lookup))

/-- Required keywords are missing, but the list refuses keywords and none is given. -/
structure Overlooks : Prop where
  count : params.CountFits args
  refuses : params.refusesKeywords = true
  noneGiven : args.keywords = []
  missing : params.requiredKeywords ≠ []

instance : Decidable (params.CountFits args) :=
  inferInstanceAs (Decidable (_ ∧ (_ → _)))

variable {params args}

/-- A list accepts arguments when none of the four checks fails. -/
theorem accepts_iff : params.Accepts args ↔ params.CountFits args ∧ ¬ params.Refuses args ∧
    params.missingKeywords args = [] ∧ params.unknownKeywords args = [] := by
  have refused : ¬ params.Refuses args ↔ (params.refusesKeywords = true → args.keywords = []) := by
    simp [Refuses]
  have missing : params.missingKeywords args = [] ↔
      ∀ name ∈ params.requiredKeywords, name ∈ args.keywords.keys := by
    simp [missingKeywords, List.filter_eq_nil_iff]
  have unknown : params.unknownKeywords args = [] ↔ (params.mentionsKeywords = true →
      params.hasKeywordRest = false → ∀ name ∈ args.keywords.keys, name ∈ params.keywordNames) := by
    rw [unknownKeywords]
    split
    next h => simp_all [List.filter_eq_nil_iff]
    next h => simp_all
  rw [refused, missing, unknown]
  exact ⟨fun h => ⟨h.count, h.notRefused, h.required, h.known⟩,
    fun ⟨count, notRefused, required, known⟩ => ⟨count, notRefused, required, known⟩⟩

/-- Where no parameter is about keywords, only the number of positional arguments counts. -/
theorem accepts_of_not_mentions (h : params.mentionsKeywords = false) (count : params.CountFits args) :
    params.Accepts args := by
  have other {role : ParamRole} (hrole : role.isKeyword = true) :
      ∀ param ∈ params, ¬ decide (param.role = role) = true := by
    intro param hparam heq
    obtain rfl := of_decide_eq_true heq
    exact absurd hrole (List.any_eq_false.mp h param hparam)
  have refuses : params.refusesKeywords = false := List.any_eq_false.mpr (other rfl)
  have required : params.requiredKeywords = [] := by
    rw [requiredKeywords, List.map_eq_nil_iff, List.filter_eq_nil_iff]
    exact other rfl
  exact ⟨count, by simp [refuses], by simp [required], by simp [h]⟩

variable {names : NameTable} {fault fault' : ErrorCause}

/-- Each fault is a check that fails. -/
theorem FirstFault.not_accepts (h : params.FirstFault args names fault) : ¬ params.Accepts args := by
  rw [accepts_iff]
  rintro ⟨count, notRefused, required, known⟩
  cases h with
  | count h => exact h count
  | refused _ h => exact notRefused h
  | missing _ _ h => exact h required
  | unknown _ _ _ h => exact h known

/-- There is only one first fault. -/
theorem FirstFault.unique (h : params.FirstFault args names fault)
    (h' : params.FirstFault args names fault') : fault = fault' := by
  cases h <;> cases h' <;> first | rfl | contradiction

end ParamList

/-! ### Names of valid lists -/

namespace ParamList

variable {scan next : Scan} {param : Param} {params : List Param}

/-- A name may be met once, unless it is empty. -/
theorem Scan.names_step {final : Bool} (h : scan.step param final = .ok next) :
    (param.name.isEmpty = false → param.name ∉ scan.names) ∧
      next.names = if param.name.isEmpty then scan.names else param.name :: scan.names := by
  rw [step] at h
  dsimp only at h
  split at h
  · cases h
  next hfresh =>
    split at h
    · cases h
    · refine ⟨fun hname => by simpa [hname] using hfresh, ?_⟩
      generalize hnamed : (if (!param.name.isEmpty) = true then _ else scan : Scan) = named at h
      have names : named.names = if param.name.isEmpty then scan.names else param.name :: scan.names := by
        rw [← hnamed]
        cases param.name.isEmpty <;> rfl
      rw [← names]
      cases hrole : param.role <;> rw [hrole] at h <;> dsimp only at h
      case required | keyword | keywordOptional => cases h; rfl
      case rest =>
        split at h
        · cases h
        · split at h <;> cases h
          rfl
      case optional | keywordRest | noKeywords | block =>
        split at h <;> cases h
        rfl

/-- The names of a list are those of its parameters that have one. -/
theorem boundNames_cons (param : Param) (params : List Param) :
    boundNames (param :: params) =
      if param.name.isEmpty then boundNames params else param.name :: boundNames params := by
  simp only [boundNames, List.filter_cons]
  cases param.name.isEmpty <;> rfl

/-- A scan goes on with names that it has not met, each of them once. -/
theorem nodup_boundNames_of_scan (h : validateFrom scan params = .ok ()) :
    (boundNames params).Nodup ∧ ∀ name ∈ boundNames params, name ∉ scan.names := by
  induction params generalizing scan with
  | nil => exact ⟨List.nodup_nil, nofun⟩
  | cons first rest ih =>
    obtain ⟨next, hstep, hrest⟩ := validateFrom_cons h
    obtain ⟨hfresh, hnames⟩ := Scan.names_step hstep
    obtain ⟨nodup, others⟩ := ih hrest
    rw [boundNames_cons]
    rw [hnames] at others
    split
    next hempty => exact ⟨nodup, by simpa [hempty] using others⟩
    next hname =>
      rw [if_neg hname] at others
      simp only [List.mem_cons, not_or] at others
      refine ⟨List.nodup_cons.mpr ⟨fun hmem => (others _ hmem).1 rfl, nodup⟩, ?_⟩
      refine List.forall_mem_cons.mpr ⟨hfresh (Bool.not_eq_true _ ▸ hname), fun name hmem => ?_⟩
      exact (others name hmem).2

/-- The keyword parameters of a valid list have different names, if none of them is anonymous. -/
theorem nodup_keywordNames {params : ParamList} (valid : params.validate = .ok ())
    (named : ∀ param ∈ params, param.role.isNamedKeyword = true → param.name.isEmpty = false) :
    params.keywordNames.Nodup := by
  refine (nodup_boundNames_of_scan valid).1.sublist (List.Sublist.map _ ?_)
  have both : params.filter (·.role.isNamedKeyword) =
      (params.filter (!·.name.isEmpty)).filter (·.role.isNamedKeyword) := by
    rw [List.filter_filter]
    refine List.filter_congr fun param hparam => ?_
    cases hrole : param.role.isNamedKeyword with
    | false => rfl
    | true => simp [named param hparam hrole]
  rw [both]
  exact List.filter_sublist

end ParamList

/-! ### Groups for keywords -/

namespace ParamGroups

variable (groups : ParamGroups) (params : List Param) (start : Nat)

/-- Named keyword parameters are grouped in the order of the list. -/
theorem keywords_addAll : (groups.addAll params start).keywords.map Prod.snd =
    groups.keywords.map Prod.snd ++ params.filter (·.role.isNamedKeyword) := by
  induction params generalizing groups start with
  | nil => simp [addAll]
  | cons param rest ih =>
    have hadd : (groups.add param start).keywords.map Prod.snd =
        groups.keywords.map Prod.snd ++ [param].filter (·.role.isNamedKeyword) := by
      cases hrole : param.role <;> simp [add, hrole, ParamRole.isNamedKeyword]
      split <;> rfl
    rw [addAll_cons, ih, hadd, List.append_assoc, ← List.filter_append]
    rfl

/-- A flag that single parameters set is set by a list when some parameter in it does. -/
theorem any_addAll {flag : ParamGroups → Bool} {sets : Param → Bool}
    (hadd : ∀ groups param i, flag (add groups param i) = (flag groups || sets param)) :
    flag (groups.addAll params start) = (flag groups || params.any sets) := by
  induction params generalizing groups start with
  | nil => simp [addAll]
  | cons param rest ih => rw [addAll_cons, ih, hadd, List.any_cons, Bool.or_assoc]

/-- The flag for **nil is set by the parameter that says so. -/
theorem noKeywords_addAll : (groups.addAll params start).noKeywords =
    (groups.noKeywords || params.any (·.role = .noKeywords)) := by
  refine any_addAll groups params start fun groups param i => ?_
  cases hrole : param.role <;> simp [add, hrole]
  split <;> rfl

/-- The place of the double rest is set by the parameter that says so. -/
theorem keywordRest_addAll : (groups.addAll params start).keywordRest.isSome =
    (groups.keywordRest.isSome || params.any (·.role = .keywordRest)) := by
  refine @any_addAll groups params start (·.keywordRest.isSome) _ fun groups param i => ?_
  cases hrole : param.role <;> simp [add, hrole]
  split <;> rfl

end ParamGroups

/-! ### Sharing out keywords -/

namespace BindPlan

namespace KeywordShare

/-- Whether a parameter has no fallback and finds no keyword. -/
def lacks (share : KeywordShare) (param : Param) : Bool :=
  param.role.fallback?.isNone && decide (param.name ∉ share.remaining.keys)

/-- Give several keyword parameters their arguments. -/
def takeAll (share : KeywordShare) (list : List (Nat × Param)) : KeywordShare :=
  list.foldl (fun share (i, param) => share.take i param) share

variable {share : KeywordShare} (nodup : share.remaining.keys.Nodup)

/-- A required keyword parameter that is not given is reported as missing. -/
theorem missing_take (share : KeywordShare) (i : Nat) (param : Param) :
    (share.take i param).missing =
      share.missing ++ ([param].filter share.lacks).map (·.name) := by
  unfold take
  split
  next value hget =>
    have hmem : param.name ∈ share.remaining.keys := Assoc.mem_keys_iff.mpr (by rw [hget]; rfl)
    simp [lacks, hmem]
  next hnone =>
    have habsent := Assoc.get?_eq_none_iff.mp hnone
    split
    next expr hrole => simp [lacks, hrole]
    next hrole => simp [lacks, hrole, habsent]

include nodup

/-- What a keyword parameter takes no longer remains. -/
theorem remaining_take (i : Nat) (param : Param) :
    (share.take i param).remaining = share.remaining.filter (·.1 ≠ param.name) := by
  unfold take
  split
  · exact Assoc.erase_eq_filter nodup param.name
  next hnone =>
    have absent : share.remaining.filter (·.1 ≠ param.name) = share.remaining := by
      refine List.filter_eq_self.mpr fun pair hpair => decide_eq_true ?_
      intro heq
      exact Assoc.get?_eq_none_iff.mp hnone (heq ▸ List.mem_map_of_mem hpair)
    rw [absent]
    split <;> rfl

/-- The keywords that remain are the others. -/
theorem keys_remaining_take (i : Nat) (param : Param) :
    (share.take i param).remaining.keys = share.remaining.keys.filter (· ≠ param.name) := by
  rw [remaining_take nodup]
  exact Assoc.keys_filter _ (decide <| · ≠ param.name)

/-- What one parameter takes, one of another name does not lack. -/
theorem lacks_take {param other : Param} (hne : other.name ≠ param.name) (i : Nat) :
    (share.take i param).lacks other = share.lacks other := by
  simp [lacks, keys_remaining_take nodup, hne]

/-- Keyword parameters of different names: those that lack their keyword are missed, and what none
of them takes is left over. -/
theorem takeAll_spec {list : List (Nat × Param)} (distinct : (list.map (·.2.name)).Nodup) :
    (share.takeAll list).missing =
        share.missing ++ ((list.map Prod.snd).filter share.lacks).map (·.name) ∧
      (share.takeAll list).remaining =
        share.remaining.filter (·.1 ∉ list.map (·.2.name)) := by
  induction list generalizing share with
  | nil => simp [takeAll]
  | cons pair rest ih =>
    obtain ⟨i, param⟩ := pair
    rw [List.map_cons] at distinct ⊢
    obtain ⟨hfresh, hdistinct⟩ := List.nodup_cons.mp distinct
    have hkeys := keys_remaining_take nodup i param
    obtain ⟨hmissing, hremaining⟩ := @ih (share.take i param) (hkeys ▸ nodup.filter _) hdistinct
    -- what the first parameter takes is no keyword of a later one
    have later : (rest.map Prod.snd).filter (share.take i param).lacks =
        (rest.map Prod.snd).filter share.lacks := by
      refine List.filter_congr fun other hother => lacks_take nodup ?_ i
      obtain ⟨pair, hpair, rfl⟩ := List.mem_map.mp hother
      intro heq
      exact hfresh (List.mem_map.mpr ⟨pair, hpair, heq⟩)
    constructor
    · calc ((share.take i param).takeAll rest).missing
        _ = share.missing ++ ([param].filter share.lacks).map (·.name) ++
              ((rest.map Prod.snd).filter share.lacks).map (·.name) := by
            rw [hmissing, missing_take, later]
        _ = share.missing ++ ((param :: rest.map Prod.snd).filter share.lacks).map (·.name) := by
            rw [List.append_assoc, ← List.map_append, ← List.filter_append]
            rfl
    · calc ((share.take i param).takeAll rest).remaining
        _ = (share.remaining.filter (·.1 ≠ param.name)).filter
              (·.1 ∉ rest.map (·.2.name)) := by rw [hremaining, remaining_take nodup]
        _ = share.remaining.filter (·.1 ∉ param.name :: rest.map (·.2.name)) := by
            rw [List.filter_filter]
            refine List.filter_congr fun keyword _ => ?_
            simp only [List.mem_cons, not_or, Bool.decide_and, Bool.and_comm, ne_eq]

end KeywordShare

variable {params : ParamList} {args : CallArgs}

/-- The keyword parameters of a list are those with a role for a named keyword. -/
theorem keywords_ofParams (params : ParamList) :
    (ParamGroups.ofParams params).keywords.map Prod.snd =
      params.filter (·.role.isNamedKeyword) :=
  ParamGroups.keywords_addAll {} params 0

/-- Their names are the keyword names of the list. -/
theorem map_name_keywords (params : ParamList) :
    (ParamGroups.ofParams params).keywords.map (·.2.name) = params.keywordNames := by
  rw [ParamList.keywordNames, ← keywords_ofParams, List.map_map]
  rfl

/-- Which keywords are missing: the required ones that are not given. -/
theorem missing_shareKeywords (distinct : params.keywordNames.Nodup) (givenOnce : args.GivenOnce) :
    (shareKeywords (ParamGroups.ofParams params) args.keywords).missing =
      params.missingKeywords args := by
  have h := (@KeywordShare.takeAll_spec { remaining := args.keywords } givenOnce
    (ParamGroups.ofParams params).keywords (map_name_keywords params ▸ distinct)).1
  rw [keywords_ofParams, List.nil_append, List.filter_filter] at h
  rw [shareKeywords, ← KeywordShare.takeAll, h, ParamList.missingKeywords,
    ParamList.requiredKeywords, List.filter_map, List.filter_filter]
  refine congrArg _ (List.filter_congr fun param _ => ?_)
  cases hrole : param.role <;>
    simp [KeywordShare.lacks, hrole, ParamRole.isNamedKeyword, ParamRole.fallback?]

/-- Which keywords are left over: the given ones that name no parameter. -/
theorem remaining_shareKeywords (distinct : params.keywordNames.Nodup)
    (givenOnce : args.GivenOnce) :
    (shareKeywords (ParamGroups.ofParams params) args.keywords).remaining =
      args.keywords.filter (·.1 ∉ params.keywordNames) := by
  have h := (@KeywordShare.takeAll_spec { remaining := args.keywords } givenOnce
    (ParamGroups.ofParams params).keywords (map_name_keywords params ▸ distinct)).2
  rw [map_name_keywords] at h
  exact h

/-- The keywords that are left over are the unknown ones. -/
theorem keys_remaining_shareKeywords (distinct : params.keywordNames.Nodup)
    (givenOnce : args.GivenOnce) :
    (shareKeywords (ParamGroups.ofParams params) args.keywords).remaining.keys =
      args.keywords.keys.filter (· ∉ params.keywordNames) := by
  rw [remaining_shareKeywords distinct givenOnce]
  exact Assoc.keys_filter _ (decide <| · ∉ params.keywordNames)

/-! ### Strict calls -/

/-- The bounds on positional arguments count required, optional and rest parameters. -/
theorem arity_ofParams (valid : params.validate = .ok ()) :
    (ParamGroups.ofParams params).arity = params.arity := by
  obtain ⟨layout, rfl⟩ := ParamList.exists_layout valid
  have optional : layout.params.optionalCount = layout.optional.length := by
    rw [ParamList.optionalCount,
      @ParamLayout.countP_params layout (· matches .optional _)
        (by rintro (_ | _) <;> simp_all [ParamRole.isPositional])]
    simp [ParamLayout.positional, List.countP_append, List.countP_map, Function.comp_def]
  rw [layout.arity_groups, ParamList.arity, optional]

/-- Folded keywords count as one positional argument. -/
theorem length_folded (params : ParamList) (args : CallArgs) :
    (params.folded args).length = params.givenCount args := by
  unfold ParamList.folded ParamList.givenCount
  split <;> simp

/-- The bounds on the number of arguments are kept exactly when the count fits. -/
theorem accepts_givenCount : params.arity.accepts (params.givenCount args) = true ↔
    params.CountFits args := by
  rw [Arity.accepts, Bool.and_eq_true, decide_eq_true_eq, ParamList.CountFits, Arity.max?,
    ParamList.arity]
  cases params.hasRest <;> simp

/-- The check on the number of positional arguments. -/
theorem fitArity_strict (valid : params.validate = .ok ()) (args : CallArgs) :
    fitArity (ParamGroups.ofParams params).arity .strict
      (autoSplat (ParamGroups.ofParams params) .strict
        (foldKeywords (ParamGroups.ofParams params) args).positional) =
      if params.CountFits args then .ok (params.folded args)
      else .error (.arityMismatch (params.givenCount args) params.arity) := by
  rw [positional_foldKeywords, autoSplat_strict, arity_ofParams valid, fitArity]
  simp only [length_folded, accepts_givenCount]

/-- Without parameters for keywords there is nothing to check. -/
theorem keywordSlots_of_not_mentions (h : params.mentionsKeywords = false) (names : NameTable)
    (args : CallArgs) :
    keywordSlots names (ParamGroups.ofParams params) .strict
      (foldKeywords (ParamGroups.ofParams params) args).keywords = .ok [] := by
  have htakes := (ParamGroups.takesKeywords_ofParams params).trans h
  have hfolded : (foldKeywords (ParamGroups.ofParams params) args).keywords = [] := by
    rw [foldKeywords, htakes, Bool.false_or]
    split
    next hempty => simpa using hempty
    next => rfl
  simp only [ParamGroups.takesKeywords, Bool.or_eq_false_iff, Bool.not_eq_false',
    List.isEmpty_iff, Option.isSome_eq_false_iff, Option.isNone_iff_eq_none] at htakes
  obtain ⟨⟨hkeywords, hrest⟩, hno⟩ := htakes
  simp [keywordSlots, hfolded, shareKeywords, hkeywords, hrest, hno]

/-- The checks on keywords, where some parameter is about them: a list that refuses keywords asks
for none. -/
theorem keywordSlots_strict (distinct : params.keywordNames.Nodup) (givenOnce : args.GivenOnce)
    (mentions : params.mentionsKeywords = true) (names : NameTable) :
    match keywordSlots names (ParamGroups.ofParams params) .strict
      (foldKeywords (ParamGroups.ofParams params) args).keywords with
    | .ok _ => ¬ params.Refuses args ∧ (params.refusesKeywords = true ∨
        params.missingKeywords args = [] ∧ params.unknownKeywords args = [])
    | .error fault => (params.Refuses args ∧ fault = .noKeywordsAccepted) ∨
        params.refusesKeywords = false ∧ (
          (params.missingKeywords args ≠ [] ∧
            fault = .missingKeywords ((params.missingKeywords args).map names.lookup)) ∨
          (params.missingKeywords args = [] ∧ params.unknownKeywords args ≠ [] ∧
            fault = .unknownKeywords ((params.unknownKeywords args).map names.lookup))) := by
  have hrefuses : (ParamGroups.ofParams params).noKeywords = params.refusesKeywords :=
    ParamGroups.noKeywords_addAll {} params 0
  have hrest : (ParamGroups.ofParams params).keywordRest.isSome = params.hasKeywordRest :=
    ParamGroups.keywordRest_addAll {} params 0
  have hmissing := missing_shareKeywords distinct givenOnce
  have hremaining := keys_remaining_shareKeywords distinct givenOnce
  -- the checks are made in this order: refused, missing, unknown
  rw [foldKeywords_of_mentions mentions, keywordSlots, hrefuses]
  cases refuses : params.refusesKeywords with
  | true =>
    cases hgiven : args.keywords with
    | nil => simp [ParamList.Refuses, hgiven]
    | cons keyword rest => simp [ParamList.Refuses, refuses, hgiven]
  | false =>
    have notRefused : ¬ params.Refuses args := by simp [ParamList.Refuses, refuses]
    simp only [Bool.false_eq_true, if_false, hmissing, decide_true, Bool.true_and]
    by_cases missing : params.missingKeywords args = []
    · cases rest : (ParamGroups.ofParams params).keywordRest with
      | some i =>
        have unknown : params.unknownKeywords args = [] := by
          simp [ParamList.unknownKeywords, ← hrest, rest]
        simp [missing, unknown, notRefused]
      | none =>
        have unknown : (shareKeywords (ParamGroups.ofParams params) args.keywords).remaining.keys =
            params.unknownKeywords args := by
          simp [hremaining, ParamList.unknownKeywords, mentions, ← hrest, rest]
        by_cases hempty : (shareKeywords (ParamGroups.ofParams params) args.keywords).remaining = []
        · have none : params.unknownKeywords args = [] := by
            rw [← unknown, hempty]
            rfl
          simp [missing, hempty, none, notRefused]
        · have some : params.unknownKeywords args ≠ [] := by
            rw [← unknown]
            simpa [Assoc.keys] using hempty
          simp [missing, hempty, some, unknown]
    · simp [missing]

/-- The outcome of a strict call. -/
theorem make_strict (valid : params.validate = .ok ()) (distinct : params.keywordNames.Nodup)
    (givenOnce : args.GivenOnce) (names : NameTable) :
    match make names params .strict args with
    | .ok _ => params.Accepts args ∨ params.Overlooks args
    | .error fault => params.FirstFault args names fault ∧ ¬ params.Overlooks args := by
  simp only [make, fitArity_strict valid, bind, Except.bind, pure, Except.pure]
  by_cases count : params.CountFits args
  · simp only [if_pos count]
    cases mentions : params.mentionsKeywords with
    | false =>
      simp only [keywordSlots_of_not_mentions mentions]
      exact .inl (ParamList.accepts_of_not_mentions mentions count)
    | true =>
      have checked := keywordSlots_strict distinct givenOnce mentions names
      split at checked
      next slots hslots =>
        simp only [hslots]
        obtain ⟨notRefused, keywords⟩ := checked
        -- without a fault all checks are passed, or the refusal of keywords hides a missing one
        by_cases accepted : params.missingKeywords args = [] ∧ params.unknownKeywords args = []
        · exact .inl (ParamList.accepts_iff.mpr ⟨count, notRefused, accepted⟩)
        · have refuses := keywords.resolve_right accepted
          have noneGiven : args.keywords = [] := by
            by_contra given
            exact notRefused ⟨refuses, given⟩
          refine .inr ⟨count, refuses, noneGiven, fun required => accepted ⟨?_, ?_⟩⟩
          · rw [ParamList.missingKeywords, required]
            rfl
          · rw [ParamList.unknownKeywords, noneGiven]
            split <;> rfl
      next fault hfault =>
        simp only [hfault]
        -- the faults come in the order of the checks
        rcases checked with ⟨refused, rfl⟩ | ⟨refuses, checked⟩
        · exact ⟨.refused count refused, fun h => refused.2 h.noneGiven⟩
        · have notRefused : ¬ params.Refuses args := by simp [ParamList.Refuses, refuses]
          have seen : ¬ params.Overlooks args := fun h => absurd h.refuses (by simp [refuses])
          rcases checked with ⟨missing, rfl⟩ | ⟨missing, unknown, rfl⟩
          · exact ⟨.missing count notRefused missing, seen⟩
          · exact ⟨.unknown count notRefused missing unknown, seen⟩
  · simp only [if_neg count]
    exact ⟨.count count, fun h => count h.count⟩

/-- A strict call to a valid list is bound exactly when it is well formed, and else fails with its
first fault, apart from calls without keywords to a list that refuses keywords but requires some:
these are bound. -/
theorem strict_binding_is_exact (names : NameTable) {params : ParamList} {args : CallArgs}
    (valid : params.validate = .ok ())
    (named : ∀ param ∈ params, param.role.isNamedKeyword = true → param.name.isEmpty = false)
    (givenOnce : args.GivenOnce) :
    ((∃ plan, make names params .strict args = .ok plan) ↔
      params.Accepts args ∨ params.Overlooks args) ∧
    ∀ fault, make names params .strict args = .error fault ↔
      params.FirstFault args names fault ∧ ¬ params.Overlooks args := by
  have outcome := make_strict valid (ParamList.nodup_keywordNames valid named) givenOnce names
  split at outcome
  next plan hplan =>
    rw [hplan]
    refine ⟨iff_of_true ⟨plan, rfl⟩ outcome, fun fault => iff_of_false nofun ?_⟩
    rintro ⟨first, seen⟩
    exact first.not_accepts (outcome.resolve_right seen)
  next fault hfault =>
    rw [hfault]
    obtain ⟨first, seen⟩ := outcome
    refine ⟨iff_of_false nofun ?_, fun other => ?_⟩
    · rintro (accepted | overlooked)
      · exact first.not_accepts accepted
      · exact seen overlooked
    · constructor
      · intro h
        cases h
        exact ⟨first, seen⟩
      · rintro ⟨first', -⟩
        exact congrArg _ (first.unique first')

/-- A call that gives its required keyword and two unknown ones, which the error lists as given. -/
theorem strict_binding_is_exact_unknown :
    let names : NameTable := ⟨NameTable.initial.strings ++ #["a", "b", "y", "z"]⟩
    let params : ParamList :=
      [⟨⟨34⟩, .keyword⟩, ⟨⟨35⟩, .keywordOptional ⟨0⟩⟩]
    let args := ((({} : CallArgs).pushKeyword ⟨37⟩ (.int 1)).pushKeyword ⟨34⟩ (.int 2)).pushKeyword
      ⟨36⟩ (.int 3)
    params.validate = .ok () ∧ args.GivenOnce ∧
      make names params .strict args = .error (.unknownKeywords ["z", "y"]) ∧
      params.FirstFault args names (.unknownKeywords ["z", "y"]) := by
  intro names params args
  have givenOnce : args.GivenOnce :=
    ((CallArgs.givenOnce_empty.pushKeyword _ _).pushKeyword _ _).pushKeyword _ _
  have exact := @strict_binding_is_exact names params args rfl (by decide) givenOnce
  exact ⟨rfl, givenOnce, rfl, ((exact.2 _).mp rfl).1⟩

/-- A required keyword is overlooked where the list refuses keywords: its parameter receives nil. -/
theorem strict_binding_overlooks :
    let params : ParamList := [⟨⟨34⟩, .keyword⟩, ⟨.empty, .noKeywords⟩]
    params.validate = .ok () ∧
      (∀ param ∈ params, param.role.isNamedKeyword = true → param.name.isEmpty = false) ∧
      CallArgs.GivenOnce {} ∧ ¬ params.Accepts {} ∧
      make .initial params .strict {} = .ok [⟨⟨34⟩, .value .nil⟩] := by
  refine ⟨rfl, by decide, CallArgs.givenOnce_empty, fun h => ?_, rfl⟩
  exact absurd (h.required ⟨34⟩ (by decide)) (by decide)

end BindPlan

end ScriptSemantics
