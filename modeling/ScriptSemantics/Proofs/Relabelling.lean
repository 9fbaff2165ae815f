import ScriptSemantics.Binding
import ScriptSemantics.Machine

/-!
# Relabelling of nodes

Nodes refer to their operands by their ids.  Whatever only carries such ids along stays as it is
when the ids are replaced by others.

## Main Definitions

* `Node.relabel`, `Param.relabel` — the same node, the same parameter with other operands
* `Method.relabel`, `Closure.relabel`, `Resolution.relabel` — what a machine keeps of nodes

## Main Results

* `BindPlan.make_relabel` — which argument a parameter receives does not depend on the ids
* `ParamList.validate_relabel` — nor does the check of a parameter list
-/

namespace ScriptSemantics

/-! ### The parts of nodes -/

/-- The same element with another operand. -/
def Elem.relabel (g : NodeId → NodeId) : Elem → Elem
  | plain expr => plain (g expr)
  | splat expr => splat (g expr)

/-- The same entry with other operands. -/
def HashEntry.relabel (g : NodeId → NodeId) : HashEntry → HashEntry
  | pair key value => pair (g key) (g value)
  | doubleSplat expr => doubleSplat (g expr)

/-- The same argument with another operand. -/
def Arg.relabel (g : NodeId → NodeId) : Arg → Arg
  | positional expr => positional (g expr)
  | splat expr => splat (g expr)
  | keyword name expr => keyword name (g expr)
  | doubleSplat expr => doubleSplat (g expr)

/-- The same block argument with another operand. -/
def BlockArg.relabel (g : NodeId → NodeId) : BlockArg → BlockArg
  | literal block => literal (g block)
  | pass expr => pass (g expr)

/-- The same clause with another body. -/
def RescueClause.relabel (g : NodeId → NodeId) (clause : RescueClause) : RescueClause :=
  { clause with body := g clause.body }

/-- The same role with another fallback. -/
def ParamRole.relabel (g : NodeId → NodeId) : ParamRole → ParamRole
  | optional fallback => optional (g fallback)
  | keywordOptional fallback => keywordOptional (g fallback)
  | role => role

/-- The same parameter with another fallback. -/
def Param.relabel (g : NodeId → NodeId) (param : Param) : Param :=
  { param with role := param.role.relabel g }

/-- The same parameters with other fallbacks. -/
def ParamList.relabel (g : NodeId → NodeId) (params : ParamList) : ParamList :=
  params.map (Param.relabel g)

/-- The same node with other operands. -/
def Node.relabel (g : NodeId → NodeId) : Node → Node
  | nil => nil
  | bool value => bool value
  | int value => int value
  | str text => str text
  | symbol name => symbol name
  | array elems => array (elems.map (Elem.relabel g))
  | hash entries => hash (entries.map (HashEntry.relabel g))
  | ident name => ident name
  | assign name value => assign name (value.map (Elem.relabel g))
  | opAssign name op value => opAssign name op (g value)
  | binary op left right => binary op (g left) (g right)
  | seq stmts => seq (stmts.map g)
  | cond test thenBranch elseBranch => cond (g test) (g thenBranch) (elseBranch.map g)
  | loop kind test body bodyFirst => loop kind (g test) (g body) bodyFirst
  | begin body rescues elseBranch ensure =>
    begin (g body) (rescues.map (RescueClause.relabel g)) (elseBranch.map g) (ensure.map g)
  | define name params body => define name (params.relabel g) (g body)
  | block params body => block (params.relabel g) (g body)
  | lambda params body => lambda (params.relabel g) (g body)
  | call name args blockArg =>
    call name (args.map (Arg.relabel g)) (blockArg.map (BlockArg.relabel g))
  | callValue callee args blockArg =>
    callValue (g callee) (args.map (Arg.relabel g)) (blockArg.map (BlockArg.relabel g))
  | yield args => yield (args.map (Arg.relabel g))
  | returnWith value => returnWith (value.map g)
  | breakWith value => breakWith (value.map g)
  | nextWith value => nextWith (value.map g)
  | redo => redo
  | raise message => raise (message.map g)

/-! ### Operands -/

section Operands

variable {g : NodeId → NodeId}

@[simp]
theorem Elem.expr_relabel (elem : Elem) : (elem.relabel g).expr = g elem.expr := by
  cases elem <;> rfl

@[simp]
theorem HashEntry.exprs_relabel (entry : HashEntry) :
    (entry.relabel g).exprs = entry.exprs.map g := by
  cases entry <;> rfl

@[simp]
theorem Arg.expr_relabel (arg : Arg) : (arg.relabel g).expr = g arg.expr := by
  cases arg <;> rfl

@[simp]
theorem BlockArg.expr_relabel (arg : BlockArg) : (arg.relabel g).expr = g arg.expr := by
  cases arg <;> rfl

/-- Only the fallback of a role is an operand. -/
theorem ParamRole.fallback?_relabel (role : ParamRole) :
    (role.relabel g).fallback? = role.fallback?.map g := by
  cases role <;> rfl

/-- The fallbacks of a parameter list are relabelled one by one. -/
theorem ParamList.fallbacks_relabel (params : ParamList) :
    (params.relabel g).fallbacks = params.fallbacks.map g := by
  rw [fallbacks, fallbacks, relabel, List.filterMap_map, List.map_filterMap]
  congr 1
  funext param
  exact param.role.fallback?_relabel

/-- The operands of the node with other operands. -/
theorem Node.children_relabel (node : Node) : (node.relabel g).children = node.children.map g := by
  cases node with
  | nil | bool | int | str | symbol | ident | redo | opAssign | binary | seq | loop => rfl
  | define | block | lambda => simp [relabel, children, ParamList.fallbacks_relabel]
  | returnWith value | breakWith value | nextWith value | raise value => cases value <;> rfl
  | cond test thenBranch elseBranch => cases elseBranch <;> rfl
  | begin body rescues elseBranch ensure =>
    cases elseBranch <;> cases ensure <;> simp [relabel, children, RescueClause.relabel]
  | call name args blockArg | callValue callee args blockArg =>
    cases blockArg <;> simp [relabel, children]
  | array | assign | yield => simp [relabel, children]
  | hash entries => simp [relabel, children, List.flatMap_map, List.map_flatMap]

end Operands

/-! ### Nothing is relabelled -/

section Identity

@[simp]
theorem Elem.relabel_id : Elem.relabel id = id := by
  funext elem
  cases elem <;> rfl

@[simp]
theorem HashEntry.relabel_id : HashEntry.relabel id = id := by
  funext entry
  cases entry <;> rfl

@[simp]
theorem Arg.relabel_id : Arg.relabel id = id := by
  funext arg
  cases arg <;> rfl

@[simp]
theorem BlockArg.relabel_id : BlockArg.relabel id = id := by
  funext arg
  cases arg <;> rfl

@[simp]
theorem RescueClause.relabel_id : RescueClause.relabel id = id := rfl

@[simp]
theorem Param.relabel_id : Param.relabel id = id := by
  funext param
  obtain ⟨name, role⟩ := param
  cases role <;> rfl

@[simp]
theorem ParamList.relabel_id (params : ParamList) : params.relabel id = params := by
  simp [relabel]

@[simp]
theorem Node.relabel_id (node : Node) : node.relabel id = node := by
  cases node <;> simp [relabel]

end Identity

/-! ### What a machine keeps of nodes -/

/-- The same method, with operands replaced by `operand` and its definition by `place`. -/
def Method.relabel (operand place : NodeId → NodeId) (method : Method) : Method :=
  { name := method.name
    params := method.params.relabel operand
    body := operand method.body
    root := place method.root }

/-- The same closure, with operands replaced by `operand` and its literal by `place`. -/
def Closure.relabel (operand place : NodeId → NodeId) (closure : Closure) : Closure :=
  { closure with
    literal := place closure.literal
    params := closure.params.relabel operand
    body := operand closure.body }

/-- The same findings at other nodes. -/
def Resolution.relabel (place : NodeId → NodeId) (resolution : Resolution) : Resolution where
  owned := resolution.owned.map fun (root, names) => (place root, names)
  unbound := resolution.unbound.map place

@[simp]
theorem Method.relabel_id (method : Method) : method.relabel id id = method := by
  simp [relabel]

@[simp]
theorem Closure.relabel_id (closure : Closure) : closure.relabel id id = closure := by
  simp [relabel]

namespace Assoc

variable {κ κ' α β : Type} [DecidableEq κ] [DecidableEq κ']

/-- A map with other values. -/
theorem get?_map_snd (f : α → β) (map : Assoc κ α) (key : κ) :
    Assoc.get? (map.map fun pair => (pair.1, f pair.2)) key = (map.get? key).map f := by
  induction map with
  | nil => rfl
  | cons pair rest ih =>
    rw [List.map_cons, get?, get?, ih]
    split <;> rfl

/-- A map with other keys, which are told apart as before. -/
theorem get?_map_fst {f : κ → κ'} (injective : Function.Injective f) (map : Assoc κ α) (key : κ) :
    Assoc.get? (map.map fun pair => (f pair.1, pair.2)) (f key) = map.get? key := by
  induction map with
  | nil => rfl
  | cons pair rest ih =>
    rw [List.map_cons, get?, get?, ih]
    simp only [injective.eq_iff]

/-- An entry is stored in a map with other keys, which are told apart as before. -/
theorem put_map_fst {f : κ → κ'} (injective : Function.Injective f) (map : Assoc κ α) (key : κ)
    (value : α) :
    Assoc.put (map.map fun pair => (f pair.1, pair.2)) (f key) value =
      (map.put key value).map fun pair => (f pair.1, pair.2) := by
  induction map with
  | nil => rfl
  | cons pair rest ih =>
    rw [List.map_cons, put, put, ih]
    by_cases h : pair.1 = key
    · simp [h]
    · simp [h, injective.eq_iff]

/-- An entry is stored in a map with other values. -/
theorem put_map_snd (f : α → β) (map : Assoc κ α) (key : κ) (value : α) :
    Assoc.put (map.map fun pair => (pair.1, f pair.2)) key (f value) =
      (map.put key value).map fun pair => (pair.1, f pair.2) := by
  induction map with
  | nil => rfl
  | cons pair rest ih =>
    rw [List.map_cons, put, put, ih]
    by_cases h : pair.1 = key
    · simp [h]
    · simp [h]

end Assoc

namespace Resolution

variable {place : NodeId → NodeId}

/-- A scope root owns the same names wherever it stands. -/
theorem ownedNames_relabel (injective : Function.Injective place) (resolution : Resolution)
    (root : NodeId) :
    (resolution.relabel place).ownedNames (place root) = resolution.ownedNames root :=
  congrArg (·.getD []) (Assoc.get?_map_fst injective resolution.owned root)

/-- A read is flagged wherever its node stands. -/
theorem isUnbound_relabel (injective : Function.Injective place) (resolution : Resolution)
    (id : NodeId) : (resolution.relabel place).isUnbound (place id) = resolution.isUnbound id := by
  rw [isUnbound, isUnbound, relabel, Bool.eq_iff_iff, List.contains_iff_mem, List.contains_iff_mem]
  constructor
  · intro h
    obtain ⟨other, hother, heq⟩ := List.mem_map.mp h
    exact injective heq ▸ hother
  · exact List.mem_map_of_mem

end Resolution

/-! ### Parameter lists -/

section Params

variable {g : NodeId → NodeId}

/-- The state machine that checks a list looks at kinds and names of parameters only. -/
theorem ParamList.Scan.step_relabel (scan : Scan) (param : Param) (final : Bool) :
    scan.step (param.relabel g) final = scan.step param final := by
  obtain ⟨name, role⟩ := param
  cases role <;> rfl

/-- The check of a parameter list does not look at fallbacks. -/
theorem ParamList.validate_relabel (params : ParamList) :
    (params.relabel g).validate = params.validate := by
  have scanned : ∀ scan, validateFrom scan (params.relabel g) = validateFrom scan params := by
    induction params with
    | nil => exact fun _ => rfl
    | cons param rest ih =>
      intro scan
      show validateFrom scan (param.relabel g :: relabel g rest) = _
      rw [validateFrom, validateFrom, Scan.step_relabel]
      have hempty : (relabel g rest).isEmpty = rest.isEmpty := by cases rest <;> rfl
      rw [hempty]
      cases scan.step param rest.isEmpty with
      | error => rfl
      | ok next => exact ih next
  exact scanned {}

/-- The same groups with other fallbacks. -/
def ParamGroups.relabel (g : NodeId → NodeId) (groups : ParamGroups) : ParamGroups :=
  { groups with
    optional := groups.optional.map fun place => (place.1, g place.2)
    keywords := groups.keywords.map fun place => (place.1, place.2.relabel g) }

/-- A parameter goes to the same group with another fallback. -/
theorem ParamGroups.add_relabel (groups : ParamGroups) (param : Param) (i : Nat) :
    (groups.relabel g).add (param.relabel g) i = (groups.add param i).relabel g := by
  obtain ⟨name, role⟩ := param
  cases role with
  | required =>
    simp only [add, relabel, Param.relabel, ParamRole.relabel, List.isEmpty_map]
    split <;> rfl
  | optional | keyword | keywordOptional => simp [add, relabel, Param.relabel, ParamRole.relabel]
  | rest | keywordRest | noKeywords | block => rfl

/-- The parameters of a list are grouped in the same way with other fallbacks. -/
theorem ParamGroups.ofParams_relabel (params : ParamList) :
    ofParams (params.relabel g) = (ofParams params).relabel g := by
  have added : ∀ (list : List (Param × Nat)) (groups : ParamGroups),
      (list.map (Prod.map (Param.relabel g) id)).foldl (fun groups place => groups.add place.1 place.2)
          (groups.relabel g) =
        (list.foldl (fun groups place => groups.add place.1 place.2) groups).relabel g := by
    intro list
    induction list with
    | nil => exact fun _ => rfl
    | cons first rest ih =>
      intro groups
      simp only [List.map_cons, List.foldl_cons, Prod.map_fst, Prod.map_snd, id_eq, add_relabel]
      exact ih _
  rw [ofParams, ofParams, ParamList.relabel, List.zipIdx_map]
  exact added params.zipIdx {}

end Params

/-! ### Plans -/

/-- The same binding with another fallback. -/
def Binding.relabel (g : NodeId → NodeId) : Binding → Binding
  | value v => value v
  | fallback expr => fallback (g expr)
  | block => block

/-- The same planned parameter with another fallback. -/
def PlannedParam.relabel (g : NodeId → NodeId) (planned : PlannedParam) : PlannedParam :=
  { planned with binding := planned.binding.relabel g }

/-- The same slots with other fallbacks. -/
def Slots.relabel (g : NodeId → NodeId) (slots : Slots) : Slots :=
  slots.map fun slot => (slot.1, slot.2.relabel g)

namespace BindPlan

/-- The same plan with other fallbacks. -/
def relabel (g : NodeId → NodeId) (plan : BindPlan) : BindPlan :=
  plan.map (PlannedParam.relabel g)

variable {g : NodeId → NodeId}

/-- Slots are relabelled one by one. -/
@[simp]
theorem relabel_append (xs ys : Slots) :
    Slots.relabel g (xs ++ ys) = Slots.relabel g xs ++ Slots.relabel g ys :=
  List.map_append

/-- Optional parameters that receive nothing fall back to the relabelled expression. -/
theorem optionalSlots_relabel (places : List (Nat × NodeId)) (values : List Value) :
    optionalSlots (places.map fun place => (place.1, g place.2)) values =
      Slots.relabel g (optionalSlots places values) := by
  induction places generalizing values with
  | nil => rfl
  | cons place rest ih =>
    cases values with
    | nil => exact congrArg (_ :: ·) (ih [])
    | cons value values => exact congrArg (_ :: ·) (ih values)

/-- A slot with a value has no fallback. -/
theorem zip_relabel (places : List Nat) (values : List Value) :
    Slots.relabel g (places.zip (values.map Binding.value)) =
      places.zip (values.map Binding.value) := by
  rw [Slots.relabel]
  refine (List.map_congr_left fun slot hslot => ?_).trans (List.map_id _)
  obtain ⟨value, -, heq⟩ := List.mem_map.mp (List.of_mem_zip hslot).2
  obtain ⟨i, binding⟩ := slot
  cases heq
  rfl

/-- Positional values are handed out by number, whatever the fallbacks are. -/
theorem positionalSlots_relabel (groups : ParamGroups) (positional : List Value) :
    positionalSlots (groups.relabel g) positional =
      Slots.relabel g (positionalSlots groups positional) := by
  simp only [positionalSlots, relabel_append, zip_relabel, ← optionalSlots_relabel]
  simp only [ParamGroups.relabel, List.length_map]
  congr 1
  cases groups.rest <;> rfl

/-- The same share with other fallbacks. -/
def KeywordShare.relabel (g : NodeId → NodeId) (share : KeywordShare) : KeywordShare :=
  { share with slots := share.slots.relabel g }

/-- A keyword parameter that is not given falls back to the relabelled expression. -/
theorem KeywordShare.take_relabel (share : KeywordShare) (i : Nat) (param : Param) :
    (share.relabel g).take i (param.relabel g) = (share.take i param).relabel g := by
  have hremaining : (share.relabel g).remaining = share.remaining := rfl
  have hname : (param.relabel g).name = param.name := rfl
  have hfallback : (param.relabel g).role.fallback? = param.role.fallback?.map g :=
    param.role.fallback?_relabel
  rw [take, take, hremaining, hname, hfallback]
  cases share.remaining.get? param.name with
  | some value => simp [relabel, Slots.relabel, Binding.relabel]
  | none =>
    cases param.role.fallback? with
    | some expr => simp [relabel, Slots.relabel, Binding.relabel]
    | none => simp [relabel, Slots.relabel, Binding.relabel]

/-- Keywords are handed out by name, whatever the fallbacks are. -/
theorem shareKeywords_relabel (groups : ParamGroups) (keywords : Keywords) :
    shareKeywords (groups.relabel g) keywords = (shareKeywords groups keywords).relabel g := by
  have shared : ∀ (list : List (Nat × Param)) (share : KeywordShare),
      (list.map fun place => (place.1, place.2.relabel g)).foldl
          (fun share place => share.take place.1 place.2) (share.relabel g) =
        (list.foldl (fun share place => share.take place.1 place.2) share).relabel g := by
    intro list
    induction list with
    | nil => exact fun _ => rfl
    | cons first rest ih =>
      intro share
      simp only [List.map_cons, List.foldl_cons, KeywordShare.take_relabel]
      exact ih _
  exact shared groups.keywords { remaining := keywords }

/-- Which keywords are missing or unknown does not depend on fallbacks. -/
theorem keywordSlots_relabel (names : NameTable) (groups : ParamGroups) (mode : BindMode)
    (keywords : Keywords) :
    keywordSlots names (groups.relabel g) mode keywords =
      (keywordSlots names groups mode keywords).map (Slots.relabel g) := by
  have hnone : (groups.relabel g).noKeywords = groups.noKeywords := rfl
  have hrest : (groups.relabel g).keywordRest = groups.keywordRest := rfl
  rw [keywordSlots, keywordSlots, shareKeywords_relabel, hnone, hrest]
  dsimp only [KeywordShare.relabel]
  split
  · split <;> rfl
  · split
    · rfl
    · cases groups.keywordRest with
      | some i => simp [Except.map, Slots.relabel, Binding.relabel]
      | none =>
        dsimp only
        split <;> rfl

/-- Slots are read by position, whatever the fallbacks are. -/
theorem ofSlots_relabel (params : ParamList) (slots : Slots) :
    ofSlots (params.relabel g) (slots.relabel g) = (ofSlots params slots).relabel g := by
  have hrole : ∀ role : ParamRole, role.relabel g = .noKeywords ↔ role = .noKeywords := by
    intro role
    cases role <;> simp [ParamRole.relabel]
  rw [ofSlots, ofSlots, ParamList.relabel, List.zipIdx_map, List.filter_map, relabel, List.map_map,
    List.map_map]
  have hfilter : ((fun x : Param × Nat => decide (x.1.role ≠ .noKeywords)) ∘
      Prod.map (Param.relabel g) id) = fun x : Param × Nat => decide (x.1.role ≠ .noKeywords) := by
    funext x
    exact decide_eq_decide.mpr (not_congr (hrole x.1.role))
  rw [hfilter]
  refine List.map_congr_left fun ⟨param, i⟩ _ => ?_
  have hslot := Assoc.get?_map_snd (Binding.relabel g) slots i
  show PlannedParam.mk param.name ((Assoc.get? (slots.relabel g) i).getD (.value .nil)) =
    PlannedParam.relabel g ⟨param.name, (Assoc.get? slots i).getD (.value .nil)⟩
  rw [Slots.relabel, hslot]
  cases Assoc.get? slots i <;> rfl

/-- Which argument a parameter receives does not depend on the fallbacks. -/
theorem make_relabel (names : NameTable) (params : ParamList) (mode : BindMode) (args : CallArgs) :
    make names (params.relabel g) mode args = (make names params mode args).map (relabel g) := by
  rw [make, make, ParamGroups.ofParams_relabel]
  generalize hgroups : ParamGroups.ofParams params = groups
  -- the counts and the other groups do not depend on the fallbacks
  have htakes : (groups.relabel g).takesKeywords = groups.takesKeywords := by
    simp only [ParamGroups.takesKeywords, ParamGroups.relabel, List.isEmpty_map]
  have hslots : (groups.relabel g).positionalSlots = groups.positionalSlots := by
    have hrest : (groups.relabel g).rest = groups.rest := rfl
    have hoptional : (groups.relabel g).optional.length = groups.optional.length := List.length_map _
    rw [ParamGroups.positionalSlots, ParamGroups.positionalSlots, hrest, hoptional]
    rfl
  have hfold : foldKeywords (groups.relabel g) args = foldKeywords groups args := by
    rw [foldKeywords, foldKeywords, htakes]
  have hsplat : ∀ positional, autoSplat (groups.relabel g) mode positional =
      autoSplat groups mode positional := by
    intro positional
    unfold autoSplat
    rw [hslots]
  have harity : (groups.relabel g).arity = groups.arity := by
    simp only [ParamGroups.arity, ParamGroups.relabel, List.length_map]
  have hblock : (groups.relabel g).block = groups.block := rfl
  dsimp only
  rw [hfold, hsplat, harity, hblock, keywordSlots_relabel]
  cases fitArity groups.arity mode (autoSplat groups mode (foldKeywords groups args).positional) with
  | error => rfl
  | ok positional =>
    cases keywordSlots names groups mode (foldKeywords groups args).keywords with
    | error => rfl
    | ok byKeyword =>
      show Except.ok _ = Except.ok _
      have hbyBlock : (groups.block.map fun i => (i, Binding.block)).toList =
          Slots.relabel g (groups.block.map fun i => (i, Binding.block)).toList := by
        cases groups.block <;> rfl
      rw [positionalSlots_relabel, hbyBlock, ← relabel_append, ← relabel_append, ofSlots_relabel,
        ← hbyBlock]

end BindPlan

end ScriptSemantics
