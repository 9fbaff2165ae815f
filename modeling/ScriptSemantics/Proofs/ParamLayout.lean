import ScriptSemantics.Binding
import Mathlib.Data.List.Nodup

/-!
# The layout of a valid parameter list

A parameter list that passes validation has its positional parameters first: required ones, optional
ones, at most one rest parameter, and required ones again.  The groups that arguments are shared out
over are then runs of neighbouring positions.

## Main Definitions

* `ParamLayout` — the parameters of a valid list, part by part
* `ParamLayout.params` — the list with this layout

## Main Results

* `ParamList.exists_layout` — every valid list has a layout
* `ParamLayout.groups` — the positional groups of a list, read off from its layout
* `ParamGroups.takesKeywords_ofParams` — whether the groups say anything about keywords
-/

namespace ScriptSemantics

/-- The parts of a parameter list in their order. -/
structure ParamLayout where
  leading : List Name
  optional : List (Name × NodeId)
  rest : Option Name
  /-- Required parameters after an optional or rest parameter. -/
  trailing : List Name
  /-- Parameters for keywords and for the block. -/
  others : List Param
  others_not_positional : ∀ param ∈ others, param.role.isPositional = false
  trailing_follows : optional = [] → rest = none → trailing = []

namespace ParamLayout

/-- The positional parameters of a layout. -/
def positional (layout : ParamLayout) : List Param :=
  layout.leading.map (⟨·, .required⟩) ++ layout.optional.map (fun (name, e) => ⟨name, .optional e⟩) ++
    layout.rest.toList.map (⟨·, .rest⟩) ++ layout.trailing.map (⟨·, .required⟩)

/-- The parameter list with a layout. -/
def params (layout : ParamLayout) : ParamList :=
  layout.positional ++ layout.others

end ParamLayout

/-! ### Valid lists -/

namespace ParamList

variable {scan : Scan} {params : List Param}

/-- How a scan goes on after a parameter that it accepts. -/
theorem validateFrom_cons {param : Param} (h : validateFrom scan (param :: params) = .ok ()) :
    ∃ next, scan.step param params.isEmpty = .ok next ∧ validateFrom next params = .ok () := by
  rw [validateFrom] at h
  cases hstep : scan.step param params.isEmpty with
  | error fault =>
    rw [hstep] at h
    cases h
  | ok next =>
    rw [hstep] at h
    exact ⟨next, rfl, h⟩

/-- What a scan has met, apart from names, after a parameter that it accepts. -/
theorem Scan.step_eq {next : Scan} {param : Param} {final : Bool}
    (h : scan.step param final = .ok next) :
    (param.role.isPositional = true → scan.keyword = false) ∧
    match param.role with
    | .required => next.optional = scan.optional ∧ next.rest = scan.rest ∧
        next.trailing = (scan.trailing || scan.rest || scan.optional) ∧ next.keyword = scan.keyword
    | .optional _ => scan.rest = false ∧ scan.trailing = false ∧ next.optional = true ∧
        next.rest = false ∧ next.trailing = false ∧ next.keyword = scan.keyword
    | .rest => scan.rest = false ∧ scan.trailing = false ∧ next.rest = true ∧
        next.keyword = scan.keyword
    | .keyword | .keywordOptional _ | .keywordRest | .noKeywords => next.keyword = true
    | .block => final = true := by
  rw [step] at h
  dsimp only at h
  split at h
  · cases h
  · split at h
    · cases h
    next hpositional =>
      refine ⟨fun hrole => by simpa [hrole] using hpositional, ?_⟩
      -- taking down the name changes nothing that is met apart from names
      generalize hnamed : (if (!param.name.isEmpty) = true then _ else scan : Scan) = named at h
      have same : named.optional = scan.optional ∧ named.rest = scan.rest ∧
          named.trailing = scan.trailing ∧ named.keyword = scan.keyword := by
        rw [← hnamed]
        split <;> exact ⟨rfl, rfl, rfl, rfl⟩
      obtain ⟨hoptional, hrest, htrailing, hkeyword⟩ := same
      rw [← hoptional, ← hrest, ← htrailing, ← hkeyword]
      -- each role is left with the checks that it makes
      cases hrole : param.role <;> rw [hrole] at h <;> dsimp only at h ⊢
      case required => cases h; exact ⟨rfl, rfl, rfl, rfl⟩
      case optional =>
        split at h
        · cases h
        next hlate =>
          cases h
          rw [Bool.or_eq_true, not_or, Bool.not_eq_true, Bool.not_eq_true] at hlate
          exact ⟨hlate.1, hlate.2, rfl, hlate.1, hlate.2, rfl⟩
      case rest =>
        split at h
        · cases h
        next hrest =>
          split at h
          · cases h
          next htrailing =>
            cases h
            exact ⟨Bool.not_eq_true _ ▸ hrest, Bool.not_eq_true _ ▸ htrailing, rfl, rfl⟩
      case keyword | keywordOptional => cases h; rfl
      case keywordRest | noKeywords =>
        split at h <;> cases h
        rfl
      case block =>
        split at h <;> cases h
        assumption

/-- After a keyword parameter comes no positional one. -/
theorem not_positional_of_keyword (keyword : scan.keyword = true)
    (h : validateFrom scan params = .ok ()) :
    ∀ param ∈ params, param.role.isPositional = false := by
  induction params generalizing scan with
  | nil => exact fun _ hmem => nomatch hmem
  | cons first rest ih =>
    obtain ⟨next, hstep, hrest⟩ := validateFrom_cons h
    obtain ⟨hpositional, hrole⟩ := Scan.step_eq hstep
    have hfirst : first.role.isPositional = false := by
      rw [Bool.eq_false_iff]
      intro hfirst
      rw [hpositional hfirst] at keyword
      cases keyword
    refine List.forall_mem_cons.mpr ⟨hfirst, ?_⟩
    cases hcase : first.role <;> rw [hcase] at hrole hfirst
    case required | optional | rest => cases hfirst
    case block =>
      obtain rfl := List.isEmpty_iff.mp hrole
      exact fun _ hmem => nomatch hmem
    all_goals exact ih hrole hrest

/-- After a parameter that is not positional comes no positional one. -/
theorem not_positional_of_first {first : Param} (hfirst : first.role.isPositional = false)
    (h : validateFrom scan (first :: params) = .ok ()) :
    ∀ param ∈ first :: params, param.role.isPositional = false := by
  obtain ⟨next, hstep, hrest⟩ := validateFrom_cons h
  obtain ⟨-, hrole⟩ := Scan.step_eq hstep
  refine List.forall_mem_cons.mpr ⟨hfirst, ?_⟩
  cases hcase : first.role <;> rw [hcase] at hrole hfirst
  case required | optional | rest => cases hfirst
  case block =>
    obtain rfl := List.isEmpty_iff.mp hrole
    exact fun _ hmem => nomatch hmem
  all_goals exact not_positional_of_keyword hrole hrest

/-- After a rest or trailing parameter come required parameters and then none that is positional. -/
theorem exists_trailing (late : scan.rest = true ∨ scan.trailing = true)
    (h : validateFrom scan params = .ok ()) :
    ∃ (trailing : List Name) (others : List Param),
      params = trailing.map (⟨·, .required⟩) ++ others ∧
      ∀ param ∈ others, param.role.isPositional = false := by
  induction params generalizing scan with
  | nil => exact ⟨[], [], rfl, fun _ hmem => nomatch hmem⟩
  | cons first rest ih =>
    obtain ⟨next, hstep, hrest⟩ := validateFrom_cons h
    obtain ⟨-, hrole⟩ := Scan.step_eq hstep
    obtain ⟨name, role⟩ := first
    cases role
    case required =>
      have htrailing : next.trailing = true := by
        rw [hrole.2.2.1]
        rcases late with h | h <;> simp [h]
      obtain ⟨trailing, others, rfl, hothers⟩ := ih (.inr htrailing) hrest
      exact ⟨name :: trailing, others, rfl, hothers⟩
    case optional | rest =>
      obtain ⟨hnoRest, hnoTrailing, -⟩ := hrole
      rcases late with h | h
      · rw [h] at hnoRest
        cases hnoRest
      · rw [h] at hnoTrailing
        cases hnoTrailing
    all_goals exact ⟨[], _, rfl, not_positional_of_first rfl h⟩

/-- After an optional parameter come optional ones, perhaps a rest parameter, and required ones. -/
theorem exists_optional (hoptional : scan.optional = true)
    (h : validateFrom scan params = .ok ()) :
    ∃ (optional : List (Name × NodeId)) (rest : Option Name) (trailing : List Name)
      (others : List Param),
      params = optional.map (fun (name, e) => ⟨name, .optional e⟩) ++ rest.toList.map (⟨·, .rest⟩) ++
        trailing.map (⟨·, .required⟩) ++ others ∧
      ∀ param ∈ others, param.role.isPositional = false := by
  induction params generalizing scan with
  | nil => exact ⟨[], none, [], [], rfl, fun _ hmem => nomatch hmem⟩
  | cons first rest ih =>
    obtain ⟨next, hstep, hrest⟩ := validateFrom_cons h
    obtain ⟨-, hrole⟩ := Scan.step_eq hstep
    obtain ⟨name, role⟩ := first
    cases role
    case required =>
      have htrailing : next.trailing = true := by simp [hrole.2.2.1, hoptional]
      obtain ⟨trailing, others, rfl, hothers⟩ := exists_trailing (.inr htrailing) hrest
      exact ⟨[], none, name :: trailing, others, rfl, hothers⟩
    case optional e =>
      obtain ⟨optional, rest, trailing, others, rfl, hothers⟩ := ih hrole.2.2.1 hrest
      exact ⟨(name, e) :: optional, rest, trailing, others, rfl, hothers⟩
    case rest =>
      obtain ⟨trailing, others, rfl, hothers⟩ := exists_trailing (.inl hrole.2.2.1) hrest
      exact ⟨[], some name, trailing, others, rfl, hothers⟩
    all_goals exact ⟨[], none, [], _, rfl, not_positional_of_first rfl h⟩

/-- A scan that has met required parameters only goes on with a layout. -/
theorem exists_layout_of_scan (hoptional : scan.optional = false) (hrest : scan.rest = false)
    (htrailing : scan.trailing = false) (h : validateFrom scan params = .ok ()) :
    ∃ layout : ParamLayout, layout.params = params := by
  induction params generalizing scan with
  | nil => exact ⟨⟨[], [], none, [], [], (fun _ hmem => nomatch hmem), fun _ _ => rfl⟩, rfl⟩
  | cons first rest ih =>
    obtain ⟨next, hstep, hvalid⟩ := validateFrom_cons h
    obtain ⟨-, hrole⟩ := Scan.step_eq hstep
    obtain ⟨name, role⟩ := first
    cases role
    case required =>
      obtain ⟨hoptional', hrest', htrailing', -⟩ := hrole
      rw [hoptional] at hoptional'
      rw [hrest] at hrest'
      obtain ⟨layout, rfl⟩ :=
        ih hoptional' hrest' (by rw [htrailing', htrailing, hrest, hoptional]; rfl) hvalid
      exact ⟨{ layout with leading := name :: layout.leading }, rfl⟩
    case optional e =>
      obtain ⟨optional, rest, trailing, others, rfl, hothers⟩ := exists_optional hrole.2.2.1 hvalid
      exact ⟨⟨[], (name, e) :: optional, rest, trailing, others, hothers, nofun⟩, rfl⟩
    case rest =>
      obtain ⟨trailing, others, rfl, hothers⟩ := exists_trailing (.inl hrole.2.2.1) hvalid
      exact ⟨⟨[], [], some name, trailing, others, hothers, nofun⟩, rfl⟩
    all_goals
      exact ⟨⟨[], [], none, [], _, not_positional_of_first rfl h, fun _ _ => rfl⟩, rfl⟩

/-- Every valid list has a layout. -/
theorem exists_layout {params : ParamList} (h : params.validate = .ok ()) :
    ∃ layout : ParamLayout, layout.params = params :=
  exists_layout_of_scan rfl rfl rfl h

end ParamList

/-! ### Groups -/

namespace ParamGroups

/-- The groups after further parameters, the first of which has the given position. -/
def addAll (groups : ParamGroups) (params : List Param) (start : Nat) : ParamGroups :=
  (params.zipIdx start).foldl (fun groups (param, i) => groups.add param i) groups

theorem ofParams_eq (params : ParamList) : ofParams params = addAll {} params 0 := rfl

theorem addAll_cons (groups : ParamGroups) (param : Param) (params : List Param) (start : Nat) :
    groups.addAll (param :: params) start = (groups.add param start).addAll params (start + 1) := rfl

theorem addAll_append (groups : ParamGroups) (xs ys : List Param) (start : Nat) :
    groups.addAll (xs ++ ys) start = (groups.addAll xs start).addAll ys (start + xs.length) := by
  rw [addAll, List.zipIdx_append, List.foldl_append]
  rfl

variable {groups : ParamGroups} {start : Nat}

theorem addAll_leading (hrest : groups.rest = none) (hoptional : groups.optional = [])
    (names : List Name) :
    groups.addAll (names.map (⟨·, .required⟩)) start =
      { groups with leading := groups.leading ++ List.range' start names.length } := by
  induction names generalizing groups start with
  | nil => simp [addAll]
  | cons name rest ih =>
    have hadd : groups.add ⟨name, .required⟩ start =
        { groups with leading := groups.leading ++ [start] } := by simp [add, hrest, hoptional]
    have hnext := @ih { groups with leading := groups.leading ++ [start] } (start + 1) hrest hoptional
    rw [List.map_cons, addAll_cons, hadd, hnext, List.length_cons, List.range'_succ]
    simp

theorem addAll_optional (params : List (Name × NodeId)) :
    groups.addAll (params.map fun (name, e) => ⟨name, .optional e⟩) start =
      { groups with
        optional := groups.optional ++
          (List.range' start params.length).zip (params.map Prod.snd) } := by
  induction params generalizing groups start with
  | nil => simp [addAll]
  | cons param rest ih =>
    rw [List.map_cons, addAll_cons, ih, List.length_cons, List.range'_succ]
    simp [add]

theorem addAll_rest (rest : Option Name) :
    groups.addAll (rest.toList.map (⟨·, .rest⟩)) start =
      { groups with rest := (rest.map fun _ => start).or groups.rest } := by
  cases rest <;> rfl

theorem addAll_trailing (late : groups.rest.isSome ∨ groups.optional ≠ []) (names : List Name) :
    groups.addAll (names.map (⟨·, .required⟩)) start =
      { groups with trailing := groups.trailing ++ List.range' start names.length } := by
  induction names generalizing groups start with
  | nil => simp [addAll]
  | cons name rest ih =>
    have hadd : groups.add ⟨name, .required⟩ start =
        { groups with trailing := groups.trailing ++ [start] } := by
      rcases late with h | h <;> simp [add, h]
    have hnext := @ih { groups with trailing := groups.trailing ++ [start] } (start + 1) late
    rw [List.map_cons, addAll_cons, hadd, hnext, List.length_cons, List.range'_succ]
    simp

/-- Two groupings of the positional parameters are the same. -/
structure SamePositional (groups groups' : ParamGroups) : Prop where
  leading : groups'.leading = groups.leading
  optional : groups'.optional = groups.optional
  rest : groups'.rest = groups.rest
  trailing : groups'.trailing = groups.trailing

theorem samePositional_addAll {params : List Param}
    (h : ∀ param ∈ params, param.role.isPositional = false) :
    groups.SamePositional (groups.addAll params start) := by
  induction params generalizing groups start with
  | nil => exact ⟨rfl, rfl, rfl, rfl⟩
  | cons param rest ih =>
    obtain ⟨hparam, hrest⟩ := List.forall_mem_cons.mp h
    have first : groups.SamePositional (groups.add param start) := by
      cases hrole : param.role <;> rw [hrole] at hparam
      case required | optional | rest => cases hparam
      all_goals
        simp only [add, hrole]
        exact ⟨rfl, rfl, rfl, rfl⟩
    have others := @ih (groups.add param start) (start + 1) hrest
    exact ⟨others.leading.trans first.leading, others.optional.trans first.optional,
      others.rest.trans first.rest, others.trailing.trans first.trailing⟩

/-- The groups say something about keywords when some parameter does. -/
theorem takesKeywords_ofParams (params : ParamList) :
    (ofParams params).takesKeywords = params.mentionsKeywords := by
  have all : ∀ (params : List Param) (groups : ParamGroups) (start : Nat),
      (groups.addAll params start).takesKeywords =
        (groups.takesKeywords || params.any (·.role.isKeyword)) := by
    intro params
    induction params with
    | nil => intro groups start; simp [addAll]
    | cons param rest ih =>
      intro groups start
      have hadd : (groups.add param start).takesKeywords =
          (groups.takesKeywords || param.role.isKeyword) := by
        cases hrole : param.role
        case required =>
          rw [add, hrole]
          dsimp only
          split <;> simp [takesKeywords, ParamRole.isKeyword]
        all_goals simp [add, hrole, takesKeywords, ParamRole.isKeyword]
      rw [addAll_cons, ih, hadd, List.any_cons, Bool.or_assoc]
  exact (all params {} 0).trans (Bool.false_or _)

end ParamGroups

namespace ParamLayout

open ParamGroups

/-- The positional groups of a list with a layout. -/
theorem groups (layout : ParamLayout) :
    let l := layout.leading.length
    let o := layout.optional.length
    let r := layout.rest.toList.length
    SamePositional
      { leading := List.range' 0 l
        optional := (List.range' l o).zip (layout.optional.map Prod.snd)
        rest := layout.rest.map fun _ => l + o
        trailing := List.range' (l + o + r) layout.trailing.length }
      (ofParams layout.params) := by
  intro l o r
  have positional : addAll {} layout.positional 0 =
      { leading := List.range' 0 l
        optional := (List.range' l o).zip (layout.optional.map Prod.snd)
        rest := layout.rest.map fun _ => l + o
        trailing := List.range' (l + o + r) layout.trailing.length } := by
    rw [ParamLayout.positional, addAll_append, addAll_append, addAll_append,
      @addAll_leading {} 0 rfl rfl, addAll_optional, addAll_rest]
    simp only [List.length_append, List.length_map, Nat.zero_add, List.nil_append, Option.or_none]
    by_cases hfollows : layout.optional = [] ∧ layout.rest = none
    · have htrailing := layout.trailing_follows hfollows.1 hfollows.2
      rw [htrailing]
      rfl
    · rw [addAll_trailing]
      · rfl
      · by_cases hrest : layout.rest = none
        · refine .inr fun hzip => hfollows ⟨?_, hrest⟩
          have hlength := congrArg List.length hzip
          simpa [o] using hlength
        · refine .inl ?_
          rw [Option.isSome_map]
          exact Option.isSome_iff_ne_none.mpr hrest
  rw [ofParams_eq, params, addAll_append, positional]
  exact samePositional_addAll layout.others_not_positional

end ParamLayout

end ScriptSemantics
