import ScriptSemantics.Binding
import ScriptSemantics.Proofs.AssocKeys

/-!
# Bind plans

What a bind plan is made of: the names of the parameters it was made for, and their own fallbacks.

## Main Results

* `BindPlan.drawnFrom_make` — a plan binds names of parameters only, and falls back on expressions
  of the parameter list only
-/

namespace ScriptSemantics

theorem ParamList.mem_fallbacks {params : ParamList} {param : Param} {expr : NodeId}
    (hmem : param ∈ params) (hrole : param.role.fallback? = some expr) :
    expr ∈ params.fallbacks :=
  List.mem_filterMap.mpr ⟨param, hmem, hrole⟩

namespace ParamGroups

/-- The fallbacks and parameters that occur in the groups of a list come from the list. -/
structure DrawnFrom (params : ParamList) (groups : ParamGroups) : Prop where
  optional : ∀ i expr, (i, expr) ∈ groups.optional → expr ∈ params.fallbacks
  keywords : ∀ i param, (i, param) ∈ groups.keywords → param ∈ params

theorem DrawnFrom.add {params : ParamList} {groups : ParamGroups} {param : Param} {i : Nat}
    (h : groups.DrawnFrom params) (hmem : param ∈ params) :
    (groups.add param i).DrawnFrom params := by
  have hkeywords : ∀ j param', (j, param') ∈ groups.keywords ++ [(i, param)] → param' ∈ params := by
    intro j param' hj
    rcases List.mem_append.mp hj with hj | hj
    · exact h.keywords j param' hj
    · cases List.mem_singleton.mp hj
      exact hmem
  cases hrole : param.role with
  | optional fallback =>
    simp only [ParamGroups.add, hrole]
    refine ⟨fun j expr hj => ?_, h.keywords⟩
    rcases List.mem_append.mp hj with hj | hj
    · exact h.optional j expr hj
    · cases List.mem_singleton.mp hj
      exact ParamList.mem_fallbacks hmem (by rw [hrole]; rfl)
  | keyword | keywordOptional fallback =>
    simp only [ParamGroups.add, hrole]
    exact ⟨h.optional, hkeywords⟩
  | required =>
    simp only [ParamGroups.add, hrole]
    split <;> exact ⟨h.optional, h.keywords⟩
  | rest | keywordRest | noKeywords | block =>
    simp only [ParamGroups.add, hrole]
    exact ⟨h.optional, h.keywords⟩

theorem drawnFrom_ofParams (params : ParamList) : (ofParams params).DrawnFrom params := by
  unfold ofParams
  refine List.foldlRecOn params.zipIdx _ ⟨by simp, by simp⟩ fun groups h pair hpair => ?_
  exact h.add ((List.mem_zipIdx' hpair).2 ▸ List.getElem_mem _)

end ParamGroups

namespace BindPlan

section Slots

variable {P : Binding → Prop} (value : ∀ v, P (.value v))

include value

theorem forall_optionalSlots {optional : List (Nat × NodeId)}
    (fallback : ∀ i expr, (i, expr) ∈ optional → P (.fallback expr)) (values : List Value) :
    ∀ slot ∈ optionalSlots optional values, P slot.2 := by
  fun_induction optionalSlots optional values with
  | case1 => exact nofun
  | case2 i expr rest first values ih =>
    refine List.forall_mem_cons.mpr ⟨value first, ih fun i expr hmem => ?_⟩
    exact fallback i expr (List.mem_cons_of_mem _ hmem)
  | case3 i expr rest ih =>
    refine List.forall_mem_cons.mpr ⟨fallback i expr List.mem_cons_self, ih fun i expr hmem => ?_⟩
    exact fallback i expr (List.mem_cons_of_mem _ hmem)

theorem forall_zip_values (positions : List Nat) (values : List Value) :
    ∀ slot ∈ positions.zip (values.map .value), P slot.2 := by
  intro slot hslot
  obtain ⟨v, -, hv⟩ := List.mem_map.mp (List.of_mem_zip hslot).2
  rw [← hv]
  exact value v

/-- Slots of positional parameters hold values, or the fallbacks of optional parameters. -/
theorem forall_positionalSlots {groups : ParamGroups}
    (fallback : ∀ i expr, (i, expr) ∈ groups.optional → P (.fallback expr))
    (positional : List Value) : ∀ slot ∈ positionalSlots groups positional, P slot.2 := by
  have zipped := forall_zip_values value
  refine List.forall_mem_append.mpr ⟨List.forall_mem_append.mpr
    ⟨List.forall_mem_append.mpr ⟨zipped _ _, zipped _ _⟩, ?_⟩, ?_⟩
  · exact forall_optionalSlots value fallback _
  · intro slot hslot
    obtain ⟨i, -, rfl⟩ := Option.map_eq_some_iff.mp (Option.mem_toList.mp hslot)
    exact value _

theorem KeywordShare.forall_take {share : KeywordShare} {i : Nat} {param : Param}
    (fallback : ∀ expr, param.role.fallback? = some expr → P (.fallback expr))
    (h : ∀ slot ∈ share.slots, P slot.2) : ∀ slot ∈ (share.take i param).slots, P slot.2 := by
  unfold KeywordShare.take
  split
  · exact List.forall_mem_append.mpr ⟨h, List.forall_mem_singleton.mpr (value _)⟩
  · split
    next expr hrole =>
      exact List.forall_mem_append.mpr ⟨h, List.forall_mem_singleton.mpr (fallback expr hrole)⟩
    next => exact List.forall_mem_append.mpr ⟨h, List.forall_mem_singleton.mpr (value _)⟩

theorem forall_shareKeywords {groups : ParamGroups}
    (fallback : ∀ i param expr, (i, param) ∈ groups.keywords → param.role.fallback? = some expr →
      P (.fallback expr))
    (keywords : Keywords) : ∀ slot ∈ (shareKeywords groups keywords).slots, P slot.2 := by
  unfold shareKeywords
  refine List.foldlRecOn (motive := fun share : KeywordShare => ∀ slot ∈ share.slots, P slot.2)
    groups.keywords _ nofun fun share hshare pair hpair => ?_
  exact KeywordShare.forall_take value (fun expr => fallback pair.1 pair.2 expr hpair) hshare

/-- Slots of keyword parameters hold values, or their fallbacks. -/
theorem forall_keywordSlots {names : NameTable} {groups : ParamGroups} {mode : BindMode}
    {keywords : Keywords} {slots : Slots}
    (fallback : ∀ i param expr, (i, param) ∈ groups.keywords → param.role.fallback? = some expr →
      P (.fallback expr))
    (hslots : keywordSlots names groups mode keywords = .ok slots) : ∀ slot ∈ slots, P slot.2 := by
  have shared := forall_shareKeywords value fallback keywords
  unfold keywordSlots at hslots
  split at hslots
  · split at hslots <;> cases hslots
    exact nofun
  · dsimp only at hslots
    split at hslots
    · cases hslots
    · split at hslots
      · cases hslots
        exact List.forall_mem_append.mpr ⟨shared, List.forall_mem_singleton.mpr (value _)⟩
      · split at hslots <;> cases hslots
        exact shared

end Slots

/-- The parts of a plan come from the parameter list: its names are names of parameters, and what
it falls back on are fallbacks of the list. -/
structure DrawnFrom (params : ParamList) (plan : BindPlan) : Prop where
  names : ∀ planned ∈ plan, planned.name ∈ params.map Param.name
  fallbacks : ∀ planned ∈ plan, ∀ expr, planned.binding = .fallback expr →
    expr ∈ params.fallbacks

theorem drawnFrom_ofSlots {params : ParamList} {slots : Slots}
    (h : ∀ slot ∈ slots, ∀ expr, slot.2 = .fallback expr → expr ∈ params.fallbacks) :
    DrawnFrom params (ofSlots params slots) := by
  constructor
  · intro planned hplanned
    obtain ⟨⟨param, i⟩, hmem, rfl⟩ := List.mem_map.mp hplanned
    have hparam := (List.mem_zipIdx' (List.mem_filter.mp hmem).1).2
    exact List.mem_map.mpr ⟨param, hparam ▸ List.getElem_mem _, rfl⟩
  · intro planned hplanned expr hexpr
    obtain ⟨⟨param, i⟩, -, rfl⟩ := List.mem_map.mp hplanned
    cases hget : Assoc.get? slots i with
    | none => simp [hget] at hexpr
    | some binding =>
      simp only [hget, Option.getD_some] at hexpr
      exact h _ (Assoc.mem_of_get? hget) expr hexpr

theorem drawnFrom_make {names : NameTable} {params : ParamList} {mode : BindMode}
    {args : CallArgs} {plan : BindPlan} (h : make names params mode args = .ok plan) :
    DrawnFrom params plan := by
  have hgroups := ParamGroups.drawnFrom_ofParams params
  simp only [make, bind, Except.bind, pure, Except.pure] at h
  split at h
  · cases h
  · split at h
    · cases h
    next byKeyword hkeywords =>
      cases h
      let InList (binding : Binding) : Prop :=
        ∀ expr, binding = .fallback expr → expr ∈ params.fallbacks
      have value : ∀ v, InList (.value v) := fun _ _ h => nomatch h
      refine drawnFrom_ofSlots (List.forall_mem_append.mpr
        ⟨List.forall_mem_append.mpr ⟨?_, ?_⟩, ?_⟩)
      · refine forall_positionalSlots (P := InList) value (fun i expr hmem expr' h => ?_) _
        cases h
        exact hgroups.optional i expr hmem
      · refine forall_keywordSlots (P := InList) value (fun i param expr hmem hrole expr' h => ?_)
          hkeywords
        cases h
        exact ParamList.mem_fallbacks (hgroups.keywords i param hmem) hrole
      · intro slot hslot expr h
        obtain ⟨i, -, rfl⟩ := Option.map_eq_some_iff.mp (Option.mem_toList.mp hslot)
        cases h

end BindPlan

end ScriptSemantics
