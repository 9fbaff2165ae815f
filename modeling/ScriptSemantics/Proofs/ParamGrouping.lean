import ScriptSemantics.Proofs.CheckedPlanning
import ScriptSemantics.Proofs.ParamGrammar
import Mathlib.Data.List.Induction

/-!
# Grouping parameters

Planning works with the positions of the parameters, grouped by what fills them.  On a grammatical
list the groups hold every position once, part after part; the marker that refuses keywords is a
flag instead.

## Main Definitions

* `ParamList.roleAt?`, `ParamList.hasMiddleBefore` — what stands at a position, and before it
* `ParamGroups.Sorts` — the groups hold the positions of a list, in the order of its parts

## Main Results

* `ParamGroups.mem_leading_trailing_ofParams` — which required parameters are leading
* `ParamGroups.sorts_ofParams` — the groups of a grammatical list are sorted
* `ParamList.validation_is_exact` — validation accepts the grammar, and there the groups are sorted
-/

namespace ScriptSemantics

/-! ### The group of a position -/

/-- Whether required parameters after one with this role are trailing. -/
def ParamRole.isMiddle : ParamRole → Bool
  | .optional _ | .rest => true
  | _ => false

namespace ParamList

/-- The role of the parameter at a position. -/
def roleAt? (params : ParamList) (i : Nat) : Option ParamRole :=
  params[i]?.map (·.role)

/-- Whether an optional or rest parameter stands before a position. -/
def hasMiddleBefore (params : ParamList) (i : Nat) : Bool :=
  (params.take i).any (·.role.isMiddle)

variable (params : ParamList) (param : Param)

theorem roleAt?_concat (i : Nat) : roleAt? (params ++ [param]) i =
    if i = params.length then some param.role else params.roleAt? i := by
  rw [roleAt?, roleAt?]
  grind

theorem roleAt?_length : params.roleAt? params.length = none := by
  rw [roleAt?, List.getElem?_eq_none (Nat.le_refl _), Option.map_none]

variable {params}

theorem lt_of_roleAt? {i : Nat} {role : ParamRole} (h : params.roleAt? i = some role) :
    i < params.length := by
  obtain ⟨param, hparam, -⟩ := Option.map_eq_some_iff.mp h
  exact (List.getElem?_eq_some_iff.mp hparam).1

theorem hasMiddleBefore_concat {i : Nat} (h : i ≤ params.length) :
    hasMiddleBefore (params ++ [param]) i = params.hasMiddleBefore i := by
  rw [hasMiddleBefore, List.take_append_of_le_length h, hasMiddleBefore]

theorem hasMiddleBefore_length :
    params.hasMiddleBefore params.length = params.any (·.role.isMiddle) := by
  rw [hasMiddleBefore, List.take_length]

end ParamList

namespace ParamGroups

open ParamList

/-- The positional groups, one after the other. -/
def positional (groups : ParamGroups) : List Nat :=
  groups.leading ++ groups.optional.map Prod.fst ++ groups.rest.toList ++ groups.trailing

/-- The groups that are not positional. -/
def others (groups : ParamGroups) : List Nat :=
  groups.keywords.map Prod.fst ++ groups.keywordRest.toList ++ groups.block.toList

/-- The groups hold every position of a list once, in the order of the parts. -/
structure Sorts (groups : ParamGroups) (params : ParamList) : Prop where
  leading : ∀ i, i ∈ groups.leading ↔
    params.roleAt? i = some .required ∧ params.hasMiddleBefore i = false
  optional : ∀ i expr, (i, expr) ∈ groups.optional ↔ params.roleAt? i = some (.optional expr)
  rest : ∀ i, groups.rest = some i ↔ params.roleAt? i = some .rest
  trailing : ∀ i, i ∈ groups.trailing ↔
    params.roleAt? i = some .required ∧ params.hasMiddleBefore i = true
  keywords : ∀ i param, (i, param) ∈ groups.keywords ↔
    params[i]? = some param ∧ param.role.isNamedKeyword = true
  keywordRest : ∀ i, groups.keywordRest = some i ↔ params.roleAt? i = some .keywordRest
  block : ∀ i, groups.block = some i ↔ params.roleAt? i = some .block
  /-- The marker that refuses keywords sets its flag and is in no group. -/
  noKeywords : groups.noKeywords = true ↔ ∃ i, params.roleAt? i = some .noKeywords
  once : ∀ i < params.length,
    groups.positions.count i = if params.roleAt? i = some .noKeywords then 0 else 1
  /-- Leading before optional before rest before trailing. -/
  ordered : groups.positional.Pairwise (· < ·)
  last : ∀ i ∈ groups.positional, ∀ j ∈ groups.others, i < j

theorem ofParams_concat (params : ParamList) (param : Param) :
    ofParams (params ++ [param]) = (ofParams params).add param params.length := by
  rw [ofParams_eq, addAll_append, Nat.zero_add]
  rfl

/-- A group to which some parameters are added in order lists these. -/
theorem mem_ofParams {α : Type} {group : ParamGroups → List α} {item? : Param → Nat → Option α}
    (empty : group {} = [])
    (hadd : ∀ groups param i, group (add groups param i) = group groups ++ (item? param i).toList)
    (params : ParamList) (entry : α) :
    entry ∈ group (ofParams params) ↔
      ∃ i param, params[i]? = some param ∧ item? param i = some entry := by
  induction params using List.reverseRecOn with
  | nil => simp [ofParams, empty]
  | append_singleton params param ih =>
    rw [ofParams_concat, hadd, List.mem_append, ih]
    constructor
    · rintro (⟨i, other, hother, hentry⟩ | hentry)
      · exact ⟨i, other, by grind, hentry⟩
      · exact ⟨params.length, param, List.getElem?_concat_length, Option.mem_toList.mp hentry⟩
    · rintro ⟨i, other, hother, hentry⟩
      by_cases hi : i = params.length
      · subst hi
        rw [List.getElem?_concat_length, Option.some.injEq] at hother
        subst hother
        exact .inr (Option.mem_toList.mpr hentry)
      · exact .inl ⟨i, other, by grind, hentry⟩

/-- A group of one position has a parameter with the role of the group there. -/
theorem roleAt?_of_eq_some {group : ParamGroups → Option Nat} {role : ParamRole}
    (empty : group {} = none)
    (hadd : ∀ groups param i,
      group (add groups param i) = if param.role = role then some i else group groups)
    {params : ParamList} {i : Nat} (h : group (ofParams params) = some i) :
    params.roleAt? i = some role := by
  induction params using List.reverseRecOn with
  | nil =>
    rw [show ofParams [] = {} from rfl, empty] at h
    cases h
  | append_singleton params param ih =>
    rw [ofParams_concat, hadd] at h
    rw [roleAt?_concat]
    split at h
    next hrole =>
      cases h
      rw [if_pos rfl, hrole]
    next => rw [if_neg (Nat.ne_of_lt (lt_of_roleAt? (ih h))), ih h]

/-- Of several parameters that set a group the last one counts. -/
theorem eq_some_ofParams {group : ParamGroups → Option Nat} {role : ParamRole}
    (empty : group {} = none)
    (hadd : ∀ groups param i,
      group (add groups param i) = if param.role = role then some i else group groups)
    {params : ParamList}
    (once : ∀ i j, params.roleAt? i = some role → params.roleAt? j = some role → i = j) (i : Nat) :
    group (ofParams params) = some i ↔ params.roleAt? i = some role := by
  refine ⟨roleAt?_of_eq_some empty hadd, fun h => ?_⟩
  induction params using List.reverseRecOn with
  | nil => cases h
  | append_singleton params param ih =>
    rw [ofParams_concat, hadd]
    simp only [roleAt?_concat] at once h
    by_cases hrole : param.role = role
    · rw [if_pos hrole]
      exact congrArg some (once _ _ (by rw [if_pos rfl, hrole]) h)
    · have others {j : Nat} (hj : roleAt? params j = some role) :
          (if j = params.length then some param.role else roleAt? params j) = some role := by
        rw [if_neg (Nat.ne_of_lt (lt_of_roleAt? hj)), hj]
      rw [if_neg hrole]
      refine ih (fun i j hi hj => once i j (others hi) (others hj)) ?_
      split at h
      · exact absurd (Option.some.inj h) hrole
      · exact h

/-- Whether a required parameter would be trailing now. -/
def hasMiddle (groups : ParamGroups) : Bool :=
  groups.rest.isSome || !groups.optional.isEmpty

theorem hasMiddle_ofParams (params : ParamList) :
    (ofParams params).hasMiddle = params.any (·.role.isMiddle) := by
  have hadd (groups : ParamGroups) (param : Param) (i : Nat) :
      (groups.add param i).hasMiddle = (groups.hasMiddle || param.role.isMiddle) := by
    cases hrole : param.role <;> simp [hasMiddle, add, hrole, ParamRole.isMiddle]
    split <;> rfl
  exact (any_addAll {} params 0 hadd).trans (Bool.false_or _)

theorem mem_leading_trailing_add (groups : ParamGroups) (param : Param) (i j : Nat) :
    (j ∈ (groups.add param i).leading ↔
      j ∈ groups.leading ∨ (j = i ∧ param.role = .required ∧ groups.hasMiddle = false)) ∧
    (j ∈ (groups.add param i).trailing ↔
      j ∈ groups.trailing ∨ (j = i ∧ param.role = .required ∧ groups.hasMiddle = true)) := by
  cases hrole : param.role with
  | required =>
    have hmiddle : groups.hasMiddle = (groups.rest.isSome || !groups.optional.isEmpty) := rfl
    simp only [add, hrole, ← hmiddle]
    cases groups.hasMiddle <;> simp
  | _ => simp [add, hrole]

/-- Required parameters are leading or trailing, as no middle parameter or one stands before. -/
theorem mem_leading_trailing_ofParams (params : ParamList) (i : Nat) :
    (i ∈ (ofParams params).leading ↔
      params.roleAt? i = some .required ∧ params.hasMiddleBefore i = false) ∧
    (i ∈ (ofParams params).trailing ↔
      params.roleAt? i = some .required ∧ params.hasMiddleBefore i = true) := by
  induction params using List.reverseRecOn with
  | nil => simp [ofParams, roleAt?]
  | append_singleton params param ih =>
    rw [ofParams_concat, roleAt?_concat, (mem_leading_trailing_add ..).1,
      (mem_leading_trailing_add ..).2, ih.1, ih.2, hasMiddle_ofParams]
    by_cases hi : i = params.length
    · subst hi
      rw [if_pos rfl, roleAt?_length, hasMiddleBefore_concat _ (Nat.le_refl _),
        hasMiddleBefore_length]
      simp
    · rw [if_neg hi]
      have before : roleAt? params i = some .required →
          hasMiddleBefore (params ++ [param]) i = hasMiddleBefore params i := fun h =>
        hasMiddleBefore_concat _ (Nat.le_of_lt (lt_of_roleAt? h))
      grind

end ParamGroups

/-! ### Sorted groups -/

/-- Whether a list has at most one parameter with this role. -/
def ParamRole.isSingle : ParamRole → Bool
  | .rest | .keywordRest | .noKeywords | .block => true
  | _ => false

theorem ParamSyntax.countP_role (parts : ParamSyntax) {role : ParamRole} (h : role.isSingle = true) :
    parts.params.countP (·.role = role) ≤ 1 := by
  have keywords : parts.keywords.countP (·.role = role) ≤
      if role.isKeywordRemainder then 1 else 0 := by
    split
    next hremainder =>
      refine Nat.le_trans (List.countP_mono_left fun param _ heq => ?_) parts.one_remainder
      rw [of_decide_eq_true heq, hremainder]
    next hremainder =>
      rw [Nat.le_zero, List.countP_eq_zero]
      intro param hparam heq
      have hkeyword := parts.keywords_only param hparam
      rw [of_decide_eq_true heq] at hkeyword
      cases role <;> contradiction
  have rest : parts.rest.toList.length ≤ 1 := by cases parts.rest <;> simp
  have block : parts.block.toList.length ≤ 1 := by cases parts.block <;> simp
  rw [ParamSyntax.params, ParamSyntax.positional]
  simp only [List.countP_append, List.countP_map]
  cases role <;> try contradiction
  all_goals
    simp only [ParamRole.isKeywordRemainder, Bool.false_eq_true, if_true, if_false] at keywords
    simp [Function.comp_def]
    omega

/-- Two members of a list that counts one such member at most are the same. -/
theorem index_unique_of_countP {α : Type} {p : α → Bool} {l : List α} (once : l.countP p ≤ 1)
    {i j : Nat} {a b : α} (hi : l[i]? = some a) (ha : p a = true) (hj : l[j]? = some b)
    (hb : p b = true) : i = j := by
  induction l generalizing i j with
  | nil => cases hi
  | cons x rest ih =>
    have others {k : Nat} {c : α} (hk : rest[k]? = some c) (hc : p c = true)
        (hx : p x = true) : False := by
      rw [List.countP_cons_of_pos hx] at once
      have := List.countP_pos_iff.mpr ⟨c, List.mem_of_getElem? hk, hc⟩
      omega
    cases i <;> cases j
    · rfl
    · cases hi
      exact (others hj hb ha).elim
    · cases hj
      exact (others hi ha hb).elim
    · have onceAfter := Nat.le_trans (List.Sublist.countP_le (List.sublist_cons_self x rest)) once
      exact congrArg _ (ih onceAfter hi hj)

namespace ParamList

theorem Grammatical.once {params : ParamList} (h : params.Grammatical) {role : ParamRole}
    (hsingle : role.isSingle = true) (i j : Nat) (hi : params.roleAt? i = some role)
    (hj : params.roleAt? j = some role) : i = j := by
  obtain ⟨⟨parts, rfl⟩, -⟩ := h
  obtain ⟨param, hparam, hrole⟩ := Option.map_eq_some_iff.mp hi
  obtain ⟨param', hparam', hrole'⟩ := Option.map_eq_some_iff.mp hj
  exact index_unique_of_countP (parts.countP_role hsingle) hparam (decide_eq_true hrole) hparam'
    (decide_eq_true hrole')

end ParamList

namespace ParamGroups

open ParamList

variable {params : ParamList}

theorem mem_optional_ofParams (params : ParamList) (i : Nat) (expr : NodeId) :
    (i, expr) ∈ (ofParams params).optional ↔ params.roleAt? i = some (.optional expr) := by
  have hadd (groups : ParamGroups) (param : Param) (i : Nat) : (groups.add param i).optional =
      groups.optional ++
        ((if param.role.isPositional then param.role.fallback? else none).map (i, ·)).toList := by
    cases hrole : param.role <;> simp [add, hrole, ParamRole.isPositional, ParamRole.fallback?]
    split <;> rfl
  have isOptional (role : ParamRole) :
      role.isPositional = true ∧ role.fallback? = some expr ↔ role = .optional expr := by
    cases role <;> simp [ParamRole.isPositional, ParamRole.fallback?]
  rw [mem_ofParams rfl hadd, roleAt?, Option.map_eq_some_iff]
  simp [isOptional]

theorem mem_keywords_ofParams (params : ParamList) (i : Nat) (param : Param) :
    (i, param) ∈ (ofParams params).keywords ↔
      params[i]? = some param ∧ param.role.isNamedKeyword = true := by
  have hadd (groups : ParamGroups) (param : Param) (i : Nat) : (groups.add param i).keywords =
      groups.keywords ++ (if param.role.isNamedKeyword then some (i, param) else none).toList := by
    cases hrole : param.role <;> simp [add, hrole, ParamRole.isNamedKeyword]
    split <;> rfl
  rw [mem_ofParams rfl hadd]
  constructor
  · rintro ⟨j, param, hparam, hentry⟩
    split at hentry <;> cases hentry
    exact ⟨hparam, by assumption⟩
  · rintro ⟨hparam, hrole⟩
    exact ⟨i, param, hparam, if_pos hrole⟩

theorem single_add (groups : ParamGroups) (param : Param) (i : Nat) :
    (groups.add param i).rest = (if param.role = .rest then some i else groups.rest) ∧
    (groups.add param i).keywordRest =
      (if param.role = .keywordRest then some i else groups.keywordRest) ∧
    (groups.add param i).block = (if param.role = .block then some i else groups.block) := by
  cases hrole : param.role <;> simp [add, hrole]
  split <;> exact ⟨rfl, rfl, rfl⟩

theorem noKeywords_ofParams (params : ParamList) :
    (ofParams params).noKeywords = true ↔ ∃ i, params.roleAt? i = some .noKeywords := by
  rw [ofParams_eq, noKeywords_addAll, Bool.false_or, List.any_eq_true]
  constructor
  · rintro ⟨param, hmem, hrole⟩
    obtain ⟨i, hi⟩ := List.mem_iff_getElem?.mp hmem
    exact ⟨i, Option.map_eq_some_iff.mpr ⟨param, hi, of_decide_eq_true hrole⟩⟩
  · rintro ⟨i, hi⟩
    obtain ⟨param, hparam, hrole⟩ := Option.map_eq_some_iff.mp hi
    exact ⟨param, List.mem_of_getElem? hparam, decide_eq_true hrole⟩

/-- The positional groups, one after the other, are the first positions. -/
theorem positional_ofParams (layout : ParamLayout) :
    (ofParams layout.params).positional = List.range layout.positional.length := by
  have groups := layout.groups
  rw [positional, groups.leading, groups.optional, groups.rest, groups.trailing, List.map_fst_zip,
    ParamLayout.positional]
  · have rest : (layout.rest.map fun _ => layout.leading.length + layout.optional.length).toList =
        List.range' (layout.leading.length + layout.optional.length) layout.rest.toList.length := by
      cases layout.rest <;> rfl
    rw [rest, List.range_eq_range']
    simp only [List.length_append, List.length_map, ← List.range'_append_1, Nat.zero_add,
      Nat.add_assoc, List.append_assoc]
  · simp

theorem le_of_not_positional (layout : ParamLayout) {i : Nat} {role : ParamRole}
    (h : layout.params.roleAt? i = some role) (hrole : role.isPositional = false) :
    layout.positional.length ≤ i := by
  have all : ∀ param ∈ layout.positional, param.role.isPositional = true := by
    intro param hparam
    simp only [ParamLayout.positional, List.mem_append, List.mem_map] at hparam
    obtain ((⟨_, _, rfl⟩ | ⟨_, _, rfl⟩) | ⟨_, _, rfl⟩) | ⟨_, _, rfl⟩ := hparam <;> rfl
  obtain ⟨param, hparam, rfl⟩ := Option.map_eq_some_iff.mp h
  by_contra hlt
  rw [ParamLayout.params, List.getElem?_append_left (Nat.lt_of_not_le hlt)] at hparam
  rw [all param (List.mem_of_getElem? hparam)] at hrole
  cases hrole

/-- A position is in a group unless the marker stands there. -/
theorem count_positions (members : ∀ i, i ∈ (ofParams params).positions ↔
      ∃ role, params.roleAt? i = some role ∧ role ≠ .noKeywords) {i : Nat} (h : i < params.length) :
    (ofParams params).positions.count i = if params.roleAt? i = some .noKeywords then 0 else 1 := by
  have hrole : params.roleAt? i = some params[i].role := by
    rw [roleAt?, List.getElem?_eq_getElem h, Option.map_some]
  split
  next hmarker =>
    rw [List.count_eq_zero, members]
    rintro ⟨role, heq, hne⟩
    rw [hmarker] at heq
    exact hne (Option.some.inj heq).symm
  next hmarker =>
    have hmem := (members i).mpr ⟨_, hrole, fun heq => hmarker (heq ▸ hrole)⟩
    exact List.count_eq_one_of_mem (nodup_positions params) hmem

/-- The groups of a grammatical list are sorted. -/
theorem sorts_ofParams (h : params.Grammatical) : (ofParams params).Sorts params := by
  have leading := fun i => (mem_leading_trailing_ofParams params i).1
  have trailing := fun i => (mem_leading_trailing_ofParams params i).2
  have optional := mem_optional_ofParams params
  have keywords := mem_keywords_ofParams params
  have rest :=
    eq_some_ofParams rfl (fun groups param i => (single_add groups param i).1) (h.once rfl)
  have keywordRest :=
    eq_some_ofParams rfl (fun groups param i => (single_add groups param i).2.1) (h.once rfl)
  have block :=
    eq_some_ofParams rfl (fun groups param i => (single_add groups param i).2.2) (h.once rfl)
  have named (i : Nat) : i ∈ (ofParams params).keywords.map Prod.fst ↔
      ∃ role, params.roleAt? i = some role ∧ role.isNamedKeyword = true := by
    simp [keywords, roleAt?]
  have others (i : Nat) (hi : i ∈ (ofParams params).others) :
      ∃ role, params.roleAt? i = some role ∧ role.isPositional = false := by
    simp only [ParamGroups.others, List.mem_append, Option.mem_toList, named,
      keywordRest, block] at hi
    obtain (⟨role, hrole, hnamed⟩ | hrole) | hrole := hi
    · exact ⟨role, hrole, by cases role <;> first | rfl | contradiction⟩
    · exact ⟨_, hrole, rfl⟩
    · exact ⟨_, hrole, rfl⟩
  have members (i : Nat) : i ∈ (ofParams params).positions ↔
      ∃ role, params.roleAt? i = some role ∧ role ≠ .noKeywords := by
    simp only [positions, List.mem_append, Option.mem_toList, List.mem_map,
      Prod.exists, exists_and_right, exists_eq_right, leading, trailing, optional, rest, named,
      keywordRest, block]
    cases params.roleAt? i with
    | none => simp
    | some role => cases role <;> simp [ParamRole.isNamedKeyword]
  -- laid out by role, the positional parameters come first
  obtain ⟨layout, rfl⟩ := exists_layout (valid_of_grammatical h)
  refine ⟨leading, optional, rest, trailing, keywords, keywordRest, block, noKeywords_ofParams _,
    fun i => count_positions members, ?_, ?_⟩
  · rw [positional_ofParams]
    exact List.pairwise_lt_range
  · intro i hi j hj
    rw [positional_ofParams, List.mem_range] at hi
    obtain ⟨role, hrole, hpositional⟩ := others j hj
    exact Nat.lt_of_lt_of_le hi (le_of_not_positional layout hrole hpositional)

end ParamGroups

namespace ParamList

/-- Validation accepts exactly the grammatical lists, and the groups of these are sorted. -/
theorem validation_is_exact (params : ParamList) :
    (params.validate = .ok () ↔ params.Grammatical) ∧
      (params.Grammatical → (ParamGroups.ofParams params).Sorts params) :=
  ⟨⟨grammatical_of_valid, valid_of_grammatical⟩, ParamGroups.sorts_ofParams⟩

/-- A list with every part.  The marker stands between keyword parameters, and the block last. -/
theorem validation_is_exact_all_parts :
    let params : ParamList :=
      [⟨⟨34⟩, .required⟩, ⟨⟨35⟩, .optional ⟨0⟩⟩, ⟨.empty, .rest⟩, ⟨⟨36⟩, .required⟩,
        ⟨⟨37⟩, .keyword⟩, ⟨.empty, .noKeywords⟩, ⟨⟨38⟩, .keywordOptional ⟨1⟩⟩, ⟨⟨39⟩, .block⟩]
    params.Grammatical ∧ (ParamGroups.ofParams params).Sorts params ∧
      (ParamGroups.ofParams params).positions.count 5 = 0 ∧
      (ParamGroups.ofParams params).positions.count 7 = 1 := by
  intro params
  have exact := validation_is_exact params
  have grammatical : params.Grammatical := exact.1.mp rfl
  exact ⟨grammatical, exact.2 grammatical, by decide, by decide⟩

end ParamList

end ScriptSemantics
