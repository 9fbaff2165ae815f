import ScriptSemantics.Proofs.StrictBinding

/-!
# The grammar of parameter lists

Validation is one scan from left to right with a handful of flags.  It accepts exactly the lists
that are put together from parts in a fixed order and that name every parameter differently.

## Main Definitions

* `ParamSyntax` — the parts of a list in their order
* `ParamList.Grammatical` — a list is put together from parts, and no name occurs twice
* `ParamList.Scan.Admits`, `ParamList.Scan.next` — when a scan goes on, and with what
* `ParamList.Passes` — a scan in a state with some property gets through a list

## Main Results

* `ParamList.Scan.step_eq_ok_iff` — a step of the scan, told without its branches
* `ParamList.valid_of_grammatical` — the scan gets through every grammatical list
* `ParamList.grammatical_of_valid` — and through no other

## Design Notes

The parts of a list are not unique: where no optional and no rest parameter stands between them,
leading and trailing required parameters are one run.
-/

namespace ScriptSemantics

/-- Whether the role says what becomes of keywords that no parameter names. -/
def ParamRole.isKeywordRemainder : ParamRole → Bool
  | .keywordRest | .noKeywords => true
  | _ => false

/-- The parts of a parameter list, in the order in which they stand. -/
structure ParamSyntax where
  leading : List Name
  optional : List (Name × NodeId)
  rest : Option Name
  trailing : List Name
  /-- Parameters about keywords, in any order. -/
  keywords : List Param
  block : Option Name
  keywords_only : ∀ param ∈ keywords, param.role.isKeyword = true
  one_remainder : keywords.countP (·.role.isKeywordRemainder) ≤ 1

namespace ParamSyntax

/-- The positional parameters. -/
def positional (parts : ParamSyntax) : List Param :=
  parts.leading.map (⟨·, .required⟩) ++ parts.optional.map (fun (name, e) => ⟨name, .optional e⟩) ++
    parts.rest.toList.map (⟨·, .rest⟩) ++ parts.trailing.map (⟨·, .required⟩)

/-- The list that is put together from the parts. -/
def params (parts : ParamSyntax) : ParamList :=
  parts.positional ++ (parts.keywords ++ parts.block.toList.map (⟨·, .block⟩))

end ParamSyntax

namespace ParamList

/-- The list has its parts in order, and its parameters have different names; anonymous parameters
have none. -/
def Grammatical (params : ParamList) : Prop :=
  (∃ parts : ParamSyntax, parts.params = params) ∧ params.boundNames.Nodup

/-! ### One step of the scan -/

namespace Scan

/-- A parameter with this role may stand here, keyword parameters before positional ones apart. -/
def Places (scan : Scan) (final : Bool) : ParamRole → Prop
  | .optional _ | .rest => scan.rest = false ∧ scan.trailing = false
  | .keywordRest | .noKeywords => scan.keywordRest = false
  | .block => final = true
  | .required | .keyword | .keywordOptional _ => True

/-- The scan can go on after this parameter. -/
structure Admits (scan : Scan) (param : Param) (final : Bool) : Prop where
  fresh : param.name.isEmpty = false → param.name ∉ scan.names
  positional : param.role.isPositional = true → scan.keyword = false
  placed : scan.Places final param.role

/-- What has been met after this parameter too. -/
def next (scan : Scan) (param : Param) : Scan where
  names := if param.name.isEmpty then scan.names else param.name :: scan.names
  optional := scan.optional || param.role matches .optional _
  rest := scan.rest || param.role matches .rest
  trailing := scan.trailing || (param.role matches .required && (scan.rest || scan.optional))
  keyword := scan.keyword || param.role.isKeyword
  keywordRest := scan.keywordRest || param.role.isKeywordRemainder

variable {scan scan' : Scan} {param : Param} {final : Bool}

/-- The scan goes on after the parameters that it admits, and only after these. -/
theorem step_eq_ok_iff : scan.step param final = .ok scan' ↔
    scan.Admits param final ∧ scan' = scan.next param := by
  rw [step]
  dsimp only
  split
  next taken =>
    have known : param.name.isEmpty = false ∧ param.name ∈ scan.names := by simpa using taken
    exact iff_of_false (by simp) fun h => h.1.fresh known.1 known.2
  next untaken =>
    have fresh : param.name.isEmpty = false → param.name ∉ scan.names := by simpa using untaken
    split
    next late =>
      rw [Bool.and_eq_true] at late
      refine iff_of_false (by simp) fun h => ?_
      rw [h.1.positional late.1] at late
      cases late.2
    next early =>
      have positional : param.role.isPositional = true → scan.keyword = false := by
        simpa using early
      have admits : scan.Admits param final ↔ scan.Places final param.role :=
        ⟨Admits.placed, fun placed => ⟨fresh, positional, placed⟩⟩
      have named : (if (!param.name.isEmpty) = true then
          { scan with names := param.name :: scan.names } else scan : Scan) =
          { scan with names := (scan.next param).names } := by
        rw [next]
        cases param.name.isEmpty <;> rfl
      rw [admits, named, @eq_comm _ scan']
      obtain ⟨name, role⟩ := param
      cases role <;>
        simp [Places, next, ParamRole.isKeyword, ParamRole.isKeywordRemainder, Bool.or_assoc] <;>
        grind

end Scan

/-! ### From the grammar to the scan -/

/-- The names of the parameters are new to the scan, and different. -/
def Scan.Fresh (scan : Scan) (params : List Param) : Prop :=
  (boundNames params).Nodup ∧ ∀ name ∈ boundNames params, name ∉ scan.names

/-- Names that are fresh and distinct stay so after the first parameter. -/
theorem Scan.Fresh.of_cons {scan : Scan} {param : Param} {params : List Param}
    (h : scan.Fresh (param :: params)) :
    (param.name.isEmpty = false → param.name ∉ scan.names) ∧ (scan.next param).Fresh params := by
  obtain ⟨nodup, fresh⟩ := h
  rw [boundNames_cons] at nodup fresh
  rw [Fresh, next]
  cases hname : param.name.isEmpty
  · rw [hname, if_neg Bool.false_ne_true] at nodup fresh
    obtain ⟨new, others⟩ := List.forall_mem_cons.mp fresh
    obtain ⟨once, nodup⟩ := List.nodup_cons.mp nodup
    refine ⟨fun _ => new, nodup, fun name hmem => ?_⟩
    rw [if_neg Bool.false_ne_true, List.mem_cons, not_or]
    exact ⟨fun heq => once (heq ▸ hmem), others name hmem⟩
  · rw [hname, if_pos rfl] at nodup fresh
    exact ⟨nofun, nodup, fresh⟩

/-- A scan in a state with this property gets through the parameters, if their names are new. -/
def Passes (P : Scan → Prop) (params : List Param) : Prop :=
  ∀ scan, P scan → scan.Fresh params → validateFrom scan params = .ok ()

variable {P Q : Scan → Prop} {params : List Param}

theorem Passes.mono (h : Passes Q params) (weaken : ∀ scan, P scan → Q scan) : Passes P params :=
  fun scan hscan => h scan (weaken scan hscan)

/-- A parameter is put in front if its place is right and the scan goes on from there. -/
theorem Passes.cons {param : Param} (h : Passes Q params)
    (positional : ∀ scan, P scan → param.role.isPositional = true → scan.keyword = false)
    (placed : ∀ scan, P scan → scan.Places params.isEmpty param.role)
    (next : ∀ scan, P scan → Q (scan.next param)) : Passes P (param :: params) := by
  intro scan hscan fresh
  obtain ⟨new, others⟩ := fresh.of_cons
  have step : scan.step param params.isEmpty = .ok (scan.next param) :=
    Scan.step_eq_ok_iff.mpr ⟨⟨new, positional scan hscan, placed scan hscan⟩, rfl⟩
  rw [validateFrom, step]
  exact h _ (next scan hscan) others

/-- The scan has met positional parameters only. -/
structure Scan.Positional (scan : Scan) : Prop where
  keyword : scan.keyword = false
  keywordRest : scan.keywordRest = false

/-- The scan has met leading and optional parameters only. -/
structure Scan.Front (scan : Scan) : Prop extends scan.Positional where
  rest : scan.rest = false
  trailing : scan.trailing = false

/-- A block parameter comes last. -/
theorem passes_block (block : Option Name) :
    Passes (fun _ => True) (block.toList.map (⟨·, .block⟩)) := by
  cases block with
  | none => exact fun _ _ _ => rfl
  | some name =>
    exact Passes.cons (Q := fun _ => True) (fun _ _ _ => rfl) (fun _ _ => nofun) (fun _ _ => rfl)
      fun _ _ => trivial

/-- Keyword parameters, with one remainder at most, come before the block. -/
theorem passes_keywords (h : Passes (fun _ => True) params) {keywords : List Param}
    (only : ∀ param ∈ keywords, param.role.isKeyword = true) :
    Passes (fun scan => keywords.countP (·.role.isKeywordRemainder) ≤
      if scan.keywordRest then 0 else 1) (keywords ++ params) := by
  induction keywords with
  | nil => exact h.mono fun _ _ => trivial
  | cons param rest ih =>
    obtain ⟨hparam, hrest⟩ := List.forall_mem_cons.mp only
    obtain ⟨name, role⟩ := param
    refine (ih hrest).cons (fun _ _ hpositional => ?_) (fun scan hscan => ?_) fun scan hscan => ?_
    · cases role <;> contradiction
    · cases role <;> try contradiction
      case keyword | keywordOptional => trivial
      all_goals
        rw [List.countP_cons_of_pos rfl] at hscan
        cases hmet : scan.keywordRest
        · exact hmet
        · rw [hmet] at hscan
          exact absurd hscan (Nat.not_succ_le_zero _)
    · rw [List.countP_cons] at hscan
      simp only [Scan.next] at hscan ⊢
      cases hmet : scan.keywordRest <;> cases hrole : role.isKeywordRemainder <;>
        simp only [hmet, hrole] at hscan ⊢ <;> grind

theorem Scan.Positional.next {scan : Scan} (h : scan.Positional) {param : Param}
    (hrole : param.role.isPositional = true) : (scan.next param).Positional := by
  obtain ⟨name, role⟩ := param
  cases role <;> first
    | contradiction
    | exact ⟨by simp [Scan.next, h.keyword, ParamRole.isKeyword],
        by simp [Scan.next, h.keywordRest, ParamRole.isKeywordRemainder]⟩

/-- Trailing parameters come before the keywords. -/
theorem passes_trailing (h : Passes Scan.Positional params) (names : List Name) :
    Passes Scan.Positional (names.map (⟨·, .required⟩) ++ params) := by
  induction names with
  | nil => exact h
  | cons name rest ih =>
    exact ih.cons (fun _ hscan _ => hscan.keyword) (fun _ _ => trivial) fun _ hscan => hscan.next rfl

/-- A rest parameter comes before the trailing ones. -/
theorem passes_rest (h : Passes Scan.Positional params) (rest : Option Name) :
    Passes Scan.Front (rest.toList.map (⟨·, .rest⟩) ++ params) := by
  cases rest with
  | none => exact h.mono fun _ hscan => hscan.toPositional
  | some name =>
    exact h.cons (fun _ hscan _ => hscan.keyword) (fun _ hscan => ⟨hscan.rest, hscan.trailing⟩)
      fun _ hscan => hscan.toPositional.next rfl

/-- Optional parameters come before the rest parameter. -/
theorem passes_optional (h : Passes Scan.Front params) (optional : List (Name × NodeId)) :
    Passes Scan.Front (optional.map (fun (name, e) => ⟨name, .optional e⟩) ++ params) := by
  induction optional with
  | nil => exact h
  | cons param rest ih =>
    refine ih.cons (fun _ hscan _ => hscan.keyword) (fun _ hscan => ⟨hscan.rest, hscan.trailing⟩) ?_
    intro scan hscan
    exact ⟨hscan.toPositional.next rfl, by simp [Scan.next, hscan.rest],
      by simp [Scan.next, hscan.trailing]⟩

/-- Leading parameters come first. -/
theorem passes_leading (h : Passes Scan.Front params) (names : List Name) :
    Passes (fun scan => scan.Front ∧ scan.optional = false)
      (names.map (⟨·, .required⟩) ++ params) := by
  induction names with
  | nil => exact h.mono fun _ hscan => hscan.1
  | cons name rest ih =>
    refine ih.cons (fun _ hscan _ => hscan.1.keyword) (fun _ _ => trivial) ?_
    intro scan ⟨hscan, hoptional⟩
    exact ⟨⟨hscan.toPositional.next rfl, by simp [Scan.next, hscan.rest],
      by simp [Scan.next, hscan.rest, hscan.trailing, hoptional]⟩, by simp [Scan.next, hoptional]⟩

/-- The scan gets through every grammatical list. -/
theorem valid_of_grammatical {params : ParamList} (h : params.Grammatical) :
    params.validate = .ok () := by
  obtain ⟨⟨parts, rfl⟩, nodup⟩ := h
  have keywords : Passes Scan.Positional (parts.keywords ++ parts.block.toList.map (⟨·, .block⟩)) :=
    (passes_keywords (passes_block parts.block) parts.keywords_only).mono fun scan hscan => by
      rw [hscan.keywordRest]
      exact parts.one_remainder
  have all := passes_leading (passes_optional
    (passes_rest (passes_trailing keywords parts.trailing) parts.rest) parts.optional) parts.leading
  simp only [← List.append_assoc] at all
  simp only [ParamSyntax.params, ParamSyntax.positional, ← List.append_assoc] at nodup ⊢
  exact all {} ⟨⟨⟨rfl, rfl⟩, rfl, rfl⟩, rfl⟩ ⟨nodup, nofun⟩

/-! ### From the scan to the grammar -/

theorem validateFrom_append {scan : Scan} {others : List Param}
    (h : validateFrom scan (params ++ others) = .ok ()) :
    ∃ scan', validateFrom scan' others = .ok () := by
  induction params generalizing scan with
  | nil => exact ⟨scan, h⟩
  | cons param rest ih =>
    obtain ⟨next, -, hrest⟩ := validateFrom_cons h
    exact ih hrest

/-- What follows the positional parameters are keyword parameters and perhaps a block parameter. -/
theorem exists_keywords {scan : Scan} (others : ∀ param ∈ params, param.role.isPositional = false)
    (h : validateFrom scan params = .ok ()) :
    ∃ (keywords : List Param) (block : Option Name),
      params = keywords ++ block.toList.map (⟨·, .block⟩) ∧
      (∀ param ∈ keywords, param.role.isKeyword = true) ∧
      keywords.countP (·.role.isKeywordRemainder) ≤ if scan.keywordRest then 0 else 1 := by
  induction params generalizing scan with
  | nil => exact ⟨[], none, rfl, nofun, Nat.zero_le _⟩
  | cons param rest ih =>
    obtain ⟨hparam, hrest⟩ := List.forall_mem_cons.mp others
    obtain ⟨next, hstep, hvalid⟩ := validateFrom_cons h
    obtain ⟨admits, rfl⟩ := Scan.step_eq_ok_iff.mp hstep
    obtain ⟨name, role⟩ := param
    by_cases hkeyword : role.isKeyword = true
    · obtain ⟨keywords, block, rfl, only, remainders⟩ := ih hrest hvalid
      refine ⟨⟨name, role⟩ :: keywords, block, rfl, List.forall_mem_cons.mpr ⟨hkeyword, only⟩, ?_⟩
      have placed := admits.placed
      rw [List.countP_cons]
      cases role <;> simp_all [Scan.next, Scan.Places, ParamRole.isKeywordRemainder]
    · obtain rfl : role = .block := by
        cases role <;> simp_all [ParamRole.isKeyword, ParamRole.isPositional]
      obtain rfl := List.isEmpty_iff.mp admits.placed
      exact ⟨[], some name, rfl, nofun, Nat.zero_le _⟩

/-- What the scan gets through is grammatical. -/
theorem grammatical_of_valid {params : ParamList} (h : params.validate = .ok ()) :
    params.Grammatical := by
  obtain ⟨layout, rfl⟩ := exists_layout h
  obtain ⟨scan, hothers⟩ := validateFrom_append h
  obtain ⟨keywords, block, heq, only, remainders⟩ :=
    exists_keywords layout.others_not_positional hothers
  have one : keywords.countP (·.role.isKeywordRemainder) ≤ 1 :=
    Nat.le_trans remainders (by split <;> decide)
  let parts : ParamSyntax :=
    ⟨layout.leading, layout.optional, layout.rest, layout.trailing, keywords, block, only, one⟩
  refine ⟨⟨parts, ?_⟩, (nodup_boundNames_of_scan h).1⟩
  rw [ParamLayout.params, heq]
  rfl

end ParamList

end ScriptSemantics
