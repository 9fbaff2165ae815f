import ScriptSemantics.Proofs.Plan
import ScriptSemantics.Proofs.PositionalArguments
import Mathlib.Data.List.Perm.Subperm
import Mathlib.Data.Nat.PSub

/-!
# Checked planning

Planning subtracts numbers of arguments and fills slots by position.  The checked planner does the
same over one row of slots, and gives up where a subtraction would go below zero or a slot is not in
the row.  It never gives up, for any parameter list and any arguments.

## Main Definitions

* `ParamGroups.positions` — the positions in all groups
* `SlotRow`, `SlotRow.fill?` — one slot per parameter, filled only inside the row
* `BindPlan.makeChecked?` — planning with every step checked
* `BindPlan.Covers` — a plan has one entry per parameter, and the last block parameter has the block

## Main Results

* `ParamGroups.positions_subperm` — the groups share out positions of the list, each at most once
* `BindPlan.makeChecked?_eq` — the checked planner makes the plan
* `BindPlan.planning_is_total` — planning is safe, never fails for a lenient call, and covers every
  parameter

## Design Notes

The parameter list need not be valid.  Of several rest parameters, say, only one position is in a
group, and the slots of the others stay empty.
-/

namespace ScriptSemantics

/-! ### Positions -/

namespace ParamGroups

/-- The positions in all groups, in the order in which their slots are filled. -/
def positions (groups : ParamGroups) : List Nat :=
  groups.leading ++ groups.trailing ++ groups.optional.map Prod.fst ++ groups.rest.toList ++
    (groups.keywords.map Prod.fst ++ groups.keywordRest.toList) ++ groups.block.toList

variable {groups : ParamGroups} {start : Nat}

/-- A parameter brings its own position into the groups at most once, and no other. -/
theorem count_positions_add (groups : ParamGroups) (param : Param) (i j : Nat) :
    (groups.add param i).positions.count j ≤ groups.positions.count j + [i].count j := by
  cases hrole : param.role with
  | required =>
    simp only [add, hrole]
    split <;> simp only [positions, List.count_append] <;> omega
  | optional | keyword | keywordOptional =>
    simp only [add, hrole, positions, List.map_append, List.map_cons, List.map_nil,
      List.count_append]
    omega
  | rest | keywordRest | noKeywords | block =>
    simp only [add, hrole, positions, List.count_append, Option.toList_some]
    omega

/-- Grouping some more parameters takes each of their positions once at most. -/
theorem count_positions_addAll (groups : ParamGroups) (params : List Param) (start j : Nat) :
    (groups.addAll params start).positions.count j ≤
      groups.positions.count j + (List.range' start params.length).count j := by
  induction params generalizing groups start with
  | nil => simp [addAll]
  | cons param rest ih =>
    have first := count_positions_add groups param start j
    have others := ih (groups.add param start) (start + 1)
    rw [addAll_cons, List.length_cons, List.range'_succ, List.count_cons]
    rw [List.count_singleton] at first
    omega

/-- The groups share out positions of the list, each at most once. -/
theorem positions_subperm (params : ParamList) :
    (ofParams params).positions.Subperm (List.range params.length) := by
  refine List.subperm_ext_iff.mpr fun j _ => ?_
  have h := count_positions_addAll {} params 0 j
  rw [← ofParams_eq, ← List.range_eq_range'] at h
  simpa [positions] using h

/-- The groups hold positions of the list only. -/
theorem lt_of_mem_positions {params : ParamList} {i : Nat} (h : i ∈ (ofParams params).positions) :
    i < params.length :=
  List.mem_range.mp ((positions_subperm params).subset h)

/-- No position is in the groups twice. -/
theorem nodup_positions (params : ParamList) : (ofParams params).positions.Nodup := by
  refine List.nodup_iff_count_le_one.mpr fun j => ?_
  have h := (positions_subperm params).count_le j
  exact Nat.le_trans h (List.nodup_iff_count_le_one.mp List.nodup_range j)

/-! ### The block parameter -/

/-- Only a block parameter is noted as the block. -/
theorem block_add {param : Param} (h : param.role ≠ .block) (i : Nat) :
    (groups.add param i).block = groups.block := by
  cases hrole : param.role with
  | required =>
    simp only [add, hrole]
    split <;> rfl
  | block => exact absurd hrole h
  | _ => simp only [add, hrole]

/-- Without a block parameter, the block stays as it is. -/
theorem block_addAll {params : List Param} (h : ∀ param ∈ params, param.role ≠ .block) :
    (groups.addAll params start).block = groups.block := by
  induction params generalizing groups start with
  | nil => rfl
  | cons param rest ih =>
    obtain ⟨hparam, hrest⟩ := List.forall_mem_cons.mp h
    rw [addAll_cons, ih hrest, block_add hparam]

/-- With a block parameter in the list, the block goes to a position of the list. -/
theorem exists_block_addAll {params : List Param} (h : ∃ param ∈ params, param.role = .block) :
    ∃ i, start ≤ i ∧ (groups.addAll params start).block = some i := by
  induction params generalizing groups start with
  | nil =>
    obtain ⟨param, hparam, -⟩ := h
    cases hparam
  | cons param rest ih =>
    rw [addAll_cons]
    by_cases hrest : ∃ param ∈ rest, param.role = .block
    · obtain ⟨i, hi, hblock⟩ := @ih (groups.add param start) (start + 1) hrest
      exact ⟨i, Nat.le_of_succ_le hi, hblock⟩
    · push Not at hrest
      obtain ⟨other, hother, hrole⟩ := h
      rcases List.mem_cons.mp hother with rfl | hother
      · exact ⟨start, Nat.le_refl _, by rw [block_addAll hrest, add, hrole]⟩
      · exact absurd hrole (hrest other hother)

/-- The block goes to the last block parameter. -/
theorem block_ofParams_iff (before : List Param) (param : Param) (after : List Param) :
    (ofParams (before ++ param :: after)).block = some before.length ↔
      param.role = .block ∧ ∀ later ∈ after, later.role ≠ .block := by
  rw [ofParams_eq, addAll_append, addAll_cons, Nat.zero_add]
  constructor
  · intro hblock
    have last : ∀ later ∈ after, later.role ≠ .block := by
      intro later hlater hrole
      obtain ⟨i, hi, hother⟩ := @exists_block_addAll
        ((addAll {} before 0).add param before.length) (before.length + 1) after
        ⟨later, hlater, hrole⟩
      rw [hother] at hblock
      cases hblock
      omega
    rw [block_addAll last] at hblock
    refine ⟨?_, last⟩
    -- otherwise the position would belong to a parameter before this one
    by_contra hrole
    rw [block_add hrole] at hblock
    have inside : before.length ∈ (ofParams before).positions := by
      rw [ofParams_eq]
      simp [positions, hblock]
    exact Nat.lt_irrefl _ (lt_of_mem_positions inside)
  · rintro ⟨hrole, last⟩
    rw [block_addAll last, add, hrole]

end ParamGroups

/-! ### Rows of slots -/

/-- One slot for each parameter of a list.  A slot that was not filled is empty. -/
abbrev SlotRow := List (Option Binding)

namespace SlotRow

/-- Fill the slot at a position, if the row has this slot. -/
def fill? (row : SlotRow) (i : Nat) (binding : Binding) : Option SlotRow :=
  if i < row.length then some (row.set i (some binding)) else none

/-- Fill several slots, one after the other. -/
def fillAll? : SlotRow → Slots → Option SlotRow
  | row, [] => some row
  | row, (i, binding) :: rest => do fillAll? (← fill? row i binding) rest

/-- Slots are filled one after the other. -/
theorem fillAll?_append (row : SlotRow) (xs ys : Slots) :
    fillAll? row (xs ++ ys) = (fillAll? row xs).bind (fillAll? · ys) := by
  induction xs generalizing row with
  | nil => rfl
  | cons slot rest ih =>
    simp only [List.cons_append, fillAll?, ih, Option.bind_eq_bind, Option.bind_assoc]

theorem fillAll?_singleton (row : SlotRow) (i : Nat) (binding : Binding) :
    fillAll? row [(i, binding)] = fill? row i binding := by
  simp [fillAll?]

/-- Slots at different positions of the row are all filled. -/
theorem fillAll?_eq_some {row : SlotRow} {slots : Slots} (nodup : (slots.map Prod.fst).Nodup)
    (inside : ∀ i ∈ slots.map Prod.fst, i < row.length) :
    fillAll? row slots = some (row.mapIdx fun i slot => (Assoc.get? slots i).or slot) := by
  induction slots generalizing row with
  | nil => exact congrArg some (List.ext_getElem (by simp) (by simp))
  | cons slot rest ih =>
    obtain ⟨i, binding⟩ := slot
    obtain ⟨hfresh, hrest⟩ := List.nodup_cons.mp nodup
    obtain ⟨hi, hinside⟩ := List.forall_mem_cons.mp inside
    have others := @ih (row.set i (some binding)) hrest (by simpa using hinside)
    simp only [fillAll?, fill?, if_pos hi, Option.bind_eq_bind, Option.bind_some, others]
    refine congrArg some (List.ext_getElem (by simp) fun j hj hj' => ?_)
    rw [List.getElem_mapIdx, List.getElem_mapIdx, List.getElem_set, Assoc.get?]
    split
    next heq =>
      subst heq
      rw [Assoc.get?_eq_none_iff.mpr hfresh]
      rfl
    next => rfl

end SlotRow

/-! ### Positions of slots -/

namespace BindPlan

/-- The slots of positional parameters, with so many arguments between those of the leading and
those of the trailing parameters. -/
def slotsAround (groups : ParamGroups) (positional : List Value) (middleLength : Nat) : Slots :=
  let leading := groups.leading.length
  let middle := (positional.drop leading).take middleLength
  let last := positional.drop (leading + middleLength)
  groups.leading.zip (positional.map .value) ++
    groups.trailing.zip (last.map .value) ++
    optionalSlots groups.optional middle ++
    (groups.rest.map fun i => (i, .value (.array (middle.drop groups.optional.length)))).toList

/-- The number of arguments in the middle is a subtraction that may be cut off at zero. -/
theorem positionalSlots_eq (groups : ParamGroups) (positional : List Value) :
    positionalSlots groups positional = slotsAround groups positional
      (positional.length - groups.leading.length - groups.trailing.length) := rfl

theorem map_fst_zip_sublist {α β : Type} (xs : List α) (ys : List β) :
    ((xs.zip ys).map Prod.fst).Sublist xs := by
  induction xs generalizing ys with
  | nil => simp
  | cons x xs ih =>
    cases ys with
    | nil => simp
    | cons y ys => exact (ih ys).cons_cons x

/-- Each optional parameter has one slot. -/
theorem map_fst_optionalSlots (optional : List (Nat × NodeId)) (values : List Value) :
    (optionalSlots optional values).map Prod.fst = optional.map Prod.fst := by
  fun_induction optionalSlots optional values with
  | case1 => rfl
  | case2 i expr rest value values ih => rw [List.map_cons, ih, List.map_cons]
  | case3 i expr rest ih => rw [List.map_cons, ih, List.map_cons]

/-- The positional slots are those of the groups, each once at most. -/
theorem map_fst_slotsAround (groups : ParamGroups) (positional : List Value) (middleLength : Nat) :
    ((slotsAround groups positional middleLength).map Prod.fst).Sublist
      (groups.leading ++ groups.trailing ++ groups.optional.map Prod.fst ++ groups.rest.toList) := by
  simp only [slotsAround, List.map_append, map_fst_optionalSlots]
  refine List.Sublist.append (List.Sublist.append (List.Sublist.append ?_ ?_) ?_) ?_
  · exact map_fst_zip_sublist _ _
  · exact map_fst_zip_sublist _ _
  · exact List.Sublist.refl _
  · cases groups.rest <;> simp

/-- Taking a keyword fills the slot of its parameter. -/
theorem KeywordShare.map_fst_take (share : KeywordShare) (i : Nat) (param : Param) :
    (share.take i param).slots.map Prod.fst = share.slots.map Prod.fst ++ [i] := by
  unfold KeywordShare.take
  split
  · simp
  · split <;> simp

/-- Each named keyword parameter has one slot. -/
theorem map_fst_shareKeywords (groups : ParamGroups) (keywords : Keywords) :
    (shareKeywords groups keywords).slots.map Prod.fst = groups.keywords.map Prod.fst := by
  have all : ∀ (list : List (Nat × Param)) (share : KeywordShare),
      (list.foldl (fun share pair => share.take pair.1 pair.2) share).slots.map Prod.fst =
        share.slots.map Prod.fst ++ list.map Prod.fst := by
    intro list
    induction list with
    | nil => simp
    | cons pair rest ih =>
      intro share
      rw [List.foldl_cons, ih, KeywordShare.map_fst_take, List.append_assoc, List.map_cons]
      rfl
  exact all groups.keywords { remaining := keywords }

/-- The slots of keywords are those of the groups, each once at most. -/
theorem map_fst_keywordSlots {names : NameTable} {groups : ParamGroups} {mode : BindMode}
    {keywords : Keywords} {slots : Slots} (h : keywordSlots names groups mode keywords = .ok slots) :
    (slots.map Prod.fst).Sublist (groups.keywords.map Prod.fst ++ groups.keywordRest.toList) := by
  have shared := map_fst_shareKeywords groups keywords
  unfold keywordSlots at h
  split at h
  · split at h <;> cases h
    simp
  · dsimp only at h
    split at h
    · cases h
    · split at h
      next i hrest =>
        cases h
        simp [shared, hrest]
      next hrest =>
        split at h <;> cases h
        simp [shared, hrest]

/-- All slots that planning fills. -/
def filledSlots (groups : ParamGroups) (positional : List Value) (byKeyword : Slots) : Slots :=
  positionalSlots groups positional ++ byKeyword ++ (groups.block.map fun i => (i, .block)).toList

/-- All slots together are those of the groups, each once at most. -/
theorem map_fst_filledSlots {names : NameTable} {groups : ParamGroups} {mode : BindMode}
    {keywords : Keywords} {byKeyword : Slots}
    (h : keywordSlots names groups mode keywords = .ok byKeyword) (positional : List Value) :
    ((filledSlots groups positional byKeyword).map Prod.fst).Sublist groups.positions := by
  simp only [filledSlots, List.map_append]
  refine ((map_fst_slotsAround groups positional _).append (map_fst_keywordSlots h)).append ?_
  cases groups.block <;> simp

/-- A plan is read off from the slots that the arguments which fit and the keywords fill. -/
theorem make_eq_ok_iff {names : NameTable} {params : ParamList} {mode : BindMode} {args : CallArgs}
    {plan : BindPlan} : make names params mode args = .ok plan ↔
      ∃ positional byKeyword,
        fitArity (ParamGroups.ofParams params).arity mode
          (autoSplat (ParamGroups.ofParams params) mode (params.folded args)) = .ok positional ∧
        keywordSlots names (ParamGroups.ofParams params) mode
          (foldKeywords (ParamGroups.ofParams params) args).keywords = .ok byKeyword ∧
        ofSlots params (filledSlots (ParamGroups.ofParams params) positional byKeyword) = plan := by
  simp only [make, positional_foldKeywords, bind, Except.bind, pure, Except.pure]
  cases fitArity (ParamGroups.ofParams params).arity mode
      (autoSplat (ParamGroups.ofParams params) mode (params.folded args)) with
  | error cause => simp
  | ok positional =>
    cases keywordSlots names (ParamGroups.ofParams params) mode
        (foldKeywords (ParamGroups.ofParams params) args).keywords with
    | error cause => simp
    | ok byKeyword => simp [filledSlots]

/-! ### The checked planner -/

/-- The number of arguments between those of the leading and those of the trailing parameters, if
there are enough arguments for these. -/
def middleLength? (groups : ParamGroups) (given : Nat) : Option Nat := do
  let behind ← given.psub groups.leading.length
  behind.psub groups.trailing.length

/-- Fill the slots of keyword parameters, or find out why the keywords do not fit. -/
def fillKeywords? (names : NameTable) (groups : ParamGroups) (mode : BindMode)
    (keywords : Keywords) (row : SlotRow) : Option (Except ErrorCause SlotRow) :=
  if groups.noKeywords then
    if !keywords.isEmpty && mode = .strict then some (.error .noKeywordsAccepted)
    else some (.ok row)
  else do
    let share := shareKeywords groups keywords
    let row ← row.fillAll? share.slots
    if mode = .strict && !share.missing.isEmpty then
      return .error (.missingKeywords (share.missing.map names.lookup))
    else
      match groups.keywordRest with
      | some i => return .ok (← row.fill? i (.value (.hashOfKeywords share.remaining)))
      | none =>
        if mode = .strict && !share.remaining.isEmpty then
          return .error (.unknownKeywords (share.remaining.keys.map names.lookup))
        else return .ok row

/-- Read off the plan from a row: one entry per parameter, markers left out, nil for empty slots. -/
def ofRow (params : ParamList) (row : SlotRow) : BindPlan :=
  ((params.zip row).filter (·.1.role ≠ .noKeywords)).map fun (param, slot) =>
    { name := param.name, binding := slot.getD (.value .nil) }

/-- Planning with every subtraction and every filled slot checked; none if a check fails. -/
def makeChecked? (names : NameTable) (params : ParamList) (mode : BindMode) (args : CallArgs) :
    Option (Except ErrorCause BindPlan) :=
  let groups := ParamGroups.ofParams params
  let args := foldKeywords groups args
  match fitArity groups.arity mode (autoSplat groups mode args.positional) with
  | .error cause => some (.error cause)
  | .ok positional => do
    let middleLength ← middleLength? groups positional.length
    let empty : SlotRow := .replicate params.length none
    let row ← empty.fillAll? (slotsAround groups positional middleLength)
    match ← fillKeywords? names groups mode args.keywords row with
    | .error cause => return .error cause
    | .ok row =>
      let row ← row.fillAll? (groups.block.map fun i => (i, .block)).toList
      return .ok (ofRow params row)

/-- The arguments that fit suffice for the leading and the trailing parameters. -/
theorem required_le_of_fitArity {groups : ParamGroups} {mode : BindMode}
    {given positional : List Value} (h : fitArity groups.arity mode given = .ok positional) :
    groups.leading.length + groups.trailing.length ≤ positional.length := by
  unfold fitArity at h
  cases mode with
  | strict =>
    dsimp only at h
    split at h <;> cases h
    next accepted =>
      rw [Arity.accepts, Bool.and_eq_true, decide_eq_true_eq] at accepted
      exact accepted.1
  | lenient =>
    dsimp only at h
    cases h
    simp only [ParamGroups.arity, List.length_append, List.length_replicate]
    omega

/-- With enough arguments, the checked subtraction goes well. -/
theorem middleLength?_eq {groups : ParamGroups} {given : Nat}
    (enough : groups.leading.length + groups.trailing.length ≤ given) :
    middleLength? groups given =
      some (given - groups.leading.length - groups.trailing.length) := by
  have leading : groups.leading.length ≤ given := by omega
  have trailing : groups.trailing.length ≤ given - groups.leading.length := by omega
  simp [middleLength?, Nat.psub_eq_sub leading, Nat.psub_eq_sub trailing]

/-- The checked step for keywords does what the other one does, with the slots that it fills. -/
theorem fillKeywords?_eq {names : NameTable} {groups : ParamGroups} {mode : BindMode}
    {keywords : Keywords} {row filled : SlotRow}
    (shared : row.fillAll? (shareKeywords groups keywords).slots = some filled) :
    fillKeywords? names groups mode keywords row =
      match keywordSlots names groups mode keywords with
      | .error cause => some (.error cause)
      | .ok slots => (row.fillAll? slots).map .ok := by
  unfold fillKeywords? keywordSlots
  split
  · split <;> rfl
  · simp only [shared, Option.bind_eq_bind, Option.bind_some]
    split
    · rfl
    · cases groups.keywordRest with
      | some i =>
        simp only [SlotRow.fillAll?_append, shared, Option.bind_some, SlotRow.fillAll?_singleton]
        cases filled.fill? i _ <;> rfl
      | none =>
        dsimp only
        split <;> simp [shared]

/-- Slots at positions of the groups can be filled, one per parameter. -/
theorem fillAll?_of_sublist {params : ParamList} {slots : Slots}
    (h : (slots.map Prod.fst).Sublist (ParamGroups.ofParams params).positions) :
    SlotRow.fillAll? (.replicate params.length none) slots =
      some ((List.replicate params.length none).mapIdx fun i slot =>
        (Assoc.get? slots i).or slot) := by
  refine SlotRow.fillAll?_eq_some ((ParamGroups.nodup_positions params).sublist h) fun i hi => ?_
  rw [List.length_replicate]
  exact ParamGroups.lt_of_mem_positions (h.subset hi)

/-- A row of slots gives the plan that the slots give. -/
theorem ofRow_eq (params : ParamList) (slots : Slots) :
    ofRow params ((List.replicate params.length none).mapIdx fun i slot =>
      (Assoc.get? slots i).or slot) = ofSlots params slots := by
  have row : params.zip ((List.replicate params.length none).mapIdx fun i slot =>
      (Assoc.get? slots i).or slot) =
      params.zipIdx.map fun pair => (pair.1, Assoc.get? slots pair.2) := by
    refine List.ext_getElem (by simp) fun i hi hi' => ?_
    simp
  rw [ofRow, row, ofSlots, List.filter_map, List.map_map]
  rfl

/-- The checked planner never gives up, and it makes the plan. -/
theorem makeChecked?_eq (names : NameTable) (params : ParamList) (mode : BindMode)
    (args : CallArgs) : makeChecked? names params mode args = some (make names params mode args) := by
  simp only [makeChecked?, make]
  generalize foldKeywords (ParamGroups.ofParams params) args = folded
  cases hfit : fitArity (ParamGroups.ofParams params).arity mode
    (autoSplat (ParamGroups.ofParams params) mode folded.positional) with
  | error cause => rfl
  | ok positional =>
    have around := map_fst_slotsAround (ParamGroups.ofParams params) positional
      (positional.length - (ParamGroups.ofParams params).leading.length -
        (ParamGroups.ofParams params).trailing.length)
    rw [← positionalSlots_eq] at around
    -- the slots of keyword parameters are filled before missing keywords are reported
    have shared := @fillAll?_of_sublist params
      (positionalSlots (ParamGroups.ofParams params) positional ++
        (shareKeywords (ParamGroups.ofParams params) folded.keywords).slots) (by
      rw [List.map_append, map_fst_shareKeywords]
      exact (around.append (List.sublist_append_left _ _)).trans (List.sublist_append_left _ _))
    rw [SlotRow.fillAll?_append] at shared
    obtain ⟨row, hrow, hshared⟩ := Option.bind_eq_some_iff.mp shared
    simp only [middleLength?_eq (required_le_of_fitArity hfit), ← positionalSlots_eq, hrow,
      fillKeywords?_eq hshared, Option.bind_eq_bind, Option.bind_some]
    cases hkeywords : keywordSlots names (ParamGroups.ofParams params) mode folded.keywords with
    | error cause => rfl
    | ok byKeyword =>
      have filled := fillAll?_of_sublist (map_fst_filledSlots hkeywords positional)
      rw [filledSlots, SlotRow.fillAll?_append, SlotRow.fillAll?_append, hrow,
        Option.bind_some] at filled
      obtain ⟨row', hrow', hblock⟩ := Option.bind_eq_some_iff.mp filled
      simp only [hrow', hblock, Option.map_some, Option.bind_some, ofRow_eq]
      rfl

end BindPlan

/-! ### Coverage -/

namespace BindPlan

/-- A plan has one entry for each parameter that is no marker, in the order of the parameters and
under their names, and the last block parameter, and no other one, receives the block. -/
structure Covers (params : ParamList) (plan : BindPlan) : Prop where
  named : plan.map (·.name) = (params.filter (·.role ≠ .noKeywords)).map (·.name)
  block : ∀ before param after, params = before ++ param :: after → param.role ≠ .noKeywords →
    (plan[before.countP (·.role ≠ .noKeywords)]? = some { name := param.name, binding := .block } ↔
      param.role = .block ∧ ∀ later ∈ after, later.role ≠ .block)

/-- The entry of a parameter in a plan that is read off from slots. -/
theorem getElem?_ofSlots (before : List Param) (param : Param) (after : List Param)
    (hrole : param.role ≠ .noKeywords) (slots : Slots) :
    (ofSlots (before ++ param :: after) slots)[before.countP (·.role ≠ .noKeywords)]? =
      some { name := param.name
             binding := (Assoc.get? slots before.length).getD (.value .nil) } := by
  have hlength : ((before.zipIdx.filter (·.1.role ≠ .noKeywords)).map
      fun pair => ({ name := pair.1.name
                     binding := (Assoc.get? slots pair.2).getD (.value .nil) } : PlannedParam)).length =
        before.countP (·.role ≠ .noKeywords) := by
    rw [List.length_map, List.countP_eq_length_filter, filter_eq_map_fst, List.length_map]
  rw [ofSlots, List.zipIdx_append, List.filter_append, List.map_append,
    List.getElem?_append_right (Nat.le_of_eq hlength), hlength, Nat.sub_self, Nat.zero_add,
    List.zipIdx_cons, List.filter_cons_of_pos (by simpa using hrole)]
  rfl

/-- The block is in the slot of the block parameter and in no other one. -/
theorem get?_filledSlots_iff {names : NameTable} {groups : ParamGroups} {mode : BindMode}
    {keywords : Keywords} {byKeyword : Slots}
    (hkeywords : keywordSlots names groups mode keywords = .ok byKeyword)
    (nodup : groups.positions.Nodup) (positional : List Value) (i : Nat) :
    (Assoc.get? (filledSlots groups positional byKeyword) i).getD (.value .nil) = .block ↔
      groups.block = some i := by
  constructor
  · intro h
    have hget : Assoc.get? (filledSlots groups positional byKeyword) i = some .block := by
      cases hslot : Assoc.get? (filledSlots groups positional byKeyword) i with
      | none => simp [hslot] at h
      | some binding =>
        rw [hslot] at h
        exact congrArg some h
    have value (v : Value) : Binding.value v ≠ .block := by simp
    have fallback (expr : NodeId) : Binding.fallback expr ≠ .block := by simp
    rcases List.mem_append.mp (Assoc.mem_of_get? hget) with hmem | hmem
    · rcases List.mem_append.mp hmem with hmem | hmem
      · exact absurd rfl (forall_positionalSlots (P := (· ≠ .block)) value
          (fun _ expr _ => fallback expr) positional _ hmem)
      · exact absurd rfl (forall_keywordSlots (P := (· ≠ .block)) value
          (fun _ _ expr _ _ => fallback expr) hkeywords _ hmem)
    · obtain ⟨j, hblock, hj⟩ := Option.map_eq_some_iff.mp (Option.mem_toList.mp hmem)
      cases hj
      exact hblock
  · intro hblock
    have distinct := nodup.sublist (map_fst_filledSlots hkeywords positional)
    have hmem : (i, Binding.block) ∈ filledSlots groups positional byKeyword := by
      simp [filledSlots, hblock]
    rw [Assoc.get?_of_mem distinct hmem]
    rfl

/-- A plan has an entry for each parameter. -/
theorem covers_make {names : NameTable} {params : ParamList} {mode : BindMode} {args : CallArgs}
    {plan : BindPlan} (h : make names params mode args = .ok plan) : Covers params plan := by
  simp only [make, bind, Except.bind, pure, Except.pure] at h
  split at h
  · cases h
  next positional hfit =>
    split at h
    · cases h
    next byKeyword hkeywords =>
      cases h
      refine ⟨names_ofSlots _ _, ?_⟩
      rintro before param after rfl hrole
      change (ofSlots _ (filledSlots _ _ _))[_]? = _ ↔ _
      rw [getElem?_ofSlots before param after hrole, ← ParamGroups.block_ofParams_iff,
        ← get?_filledSlots_iff hkeywords (ParamGroups.nodup_positions _) positional]
      simp

/-- A lenient call never fails. -/
theorem exists_make_lenient (names : NameTable) (params : ParamList) (args : CallArgs) :
    ∃ plan, make names params .lenient args = .ok plan := by
  have byKeyword : ∀ groups keywords, ∃ slots,
      keywordSlots names groups .lenient keywords = .ok slots := by
    intro groups keywords
    unfold keywordSlots
    split
    · exact ⟨[], by simp⟩
    · cases groups.keywordRest <;> simp
  obtain ⟨slots, hslots⟩ := byKeyword (ParamGroups.ofParams params)
    (foldKeywords (ParamGroups.ofParams params) args).keywords
  simp [make, hslots, fitArity, bind, Except.bind, pure, Except.pure]

/-- For every parameter list, every call and both modes, planning subtracts and fills slots within
bounds; it never fails for a lenient call; and a plan covers every parameter. -/
theorem planning_is_total (names : NameTable) (params : ParamList) (mode : BindMode)
    (args : CallArgs) :
    makeChecked? names params mode args = some (make names params mode args) ∧
    (∃ plan, make names params .lenient args = .ok plan) ∧
    ∀ plan, make names params mode args = .ok plan → Covers params plan :=
  ⟨makeChecked?_eq names params mode args, exists_make_lenient names params args,
    fun _ h => covers_make h⟩

/-- A list that breaks every rule, with two rest and two block parameters: the second ones count,
and the others are nil. -/
theorem planning_is_total_broken :
    let params : ParamList :=
      [⟨⟨40⟩, .block⟩, ⟨⟨41⟩, .rest⟩, ⟨⟨42⟩, .keyword⟩, ⟨⟨43⟩, .rest⟩, ⟨.empty, .noKeywords⟩,
        ⟨⟨44⟩, .required⟩, ⟨⟨45⟩, .block⟩]
    let plan : BindPlan :=
      [⟨⟨40⟩, .value .nil⟩, ⟨⟨41⟩, .value .nil⟩, ⟨⟨42⟩, .value .nil⟩,
        ⟨⟨43⟩, .value (.array [.int 1])⟩, ⟨⟨44⟩, .value (.int 2)⟩, ⟨⟨45⟩, .block⟩]
    make .initial params .lenient { positional := [.int 1, .int 2] } = .ok plan ∧
      Covers params plan :=
  ⟨rfl, (planning_is_total .initial _ .lenient { positional := [.int 1, .int 2] }).2.2 _ rfl⟩

end BindPlan

end ScriptSemantics
