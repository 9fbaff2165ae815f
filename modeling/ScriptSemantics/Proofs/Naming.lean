import ScriptSemantics.Operator
import ScriptSemantics.Proofs.Provenance
import ScriptSemantics.Proofs.Relabelling

/-!
# Other names for closures and activations

Programs compare closures and activations, and nothing else: which number stands for which of them
is never seen.  So all that is done with values goes on in the same way under other names, as long
as different ones keep different names.

## Main Definitions

* `Naming` — new names for closures and activations, and new places for scope roots
* `Named` — what mentions closures or activations, and what it is under other names

## Main Results

* `Value.same_under`, `BinaryOp.eval_under` — comparisons and operators give the same
* `Value.toSequence_under`, `CallArgs.mergeKeywords_under`, ... — conversions commute with naming
* `BindPlan.make_under` — so does the binding of arguments
* `Value.under_congr` — only the closures that occur in a value matter
-/

namespace ScriptSemantics

/-- New names for closures and activations; different ones keep different names.  Scope roots may
stand in other places. -/
@[ext]
structure Naming where
  node : NodeId → NodeId
  proc : ProcId → ProcId
  frame : FrameId → FrameId
  /-- Whether both sides go on to make the same closures. -/
  aligned : Prop
  /-- Whether both sides go on to take frame identities at the same moments. -/
  inStep : Prop
  proc_injective : ∀ {a b}, proc a = proc b → a = b
  frame_injective : ∀ {a b}, frame a = frame b → a = b

/-- Everything keeps its name. -/
def Naming.same : Naming where
  node := id
  proc := id
  frame := id
  aligned := True
  inStep := True
  proc_injective h := h
  frame_injective h := h

/-- What mentions closures or activations. -/
class Named (α : Type) where
  /-- The same under other names. -/
  under : Naming → α → α

export Named (under)

namespace Naming

variable (σ : Naming)

/-- Names of closures tell the closures apart. -/
theorem proc_eq_iff {a b : ProcId} : σ.proc a = σ.proc b ↔ a = b :=
  ⟨σ.proc_injective, congrArg σ.proc⟩

/-- Names of activations tell the activations apart. -/
theorem frame_eq_iff {a b : FrameId} : σ.frame a = σ.frame b ↔ a = b :=
  ⟨σ.frame_injective, congrArg σ.frame⟩

end Naming

variable {σ τ : Naming}

/-! ### Parts -/

section Instances

variable {α β ε κ : Type}

instance : Named Unit := ⟨fun _ a => a⟩
instance : Named Bool := ⟨fun _ a => a⟩
instance : Named HashKey := ⟨fun _ a => a⟩
instance : Named ErrorCause := ⟨fun _ a => a⟩
instance : Named ProcId := ⟨Naming.proc⟩
instance : Named FrameId := ⟨Naming.frame⟩

@[simp]
theorem under_frameId (id : FrameId) : under σ id = σ.frame id := rfl

instance [Named α] : Named (List α) := ⟨fun σ => List.map (under σ)⟩
instance [Named α] : Named (Option α) := ⟨fun σ => Option.map (under σ)⟩

/-- The keys of a map mention neither closures nor activations. -/
instance [Named α] : Named (κ × α) := ⟨fun σ pair => (pair.1, under σ pair.2)⟩

instance [Named ε] [Named α] : Named (Except ε α) where
  under σ
    | .ok a => .ok (under σ a)
    | .error e => .error (under σ e)

variable [Named α] [Named β] [Named ε]

@[simp]
theorem under_list (xs : List α) : under σ xs = xs.map (under σ) := rfl

/-- The parts of a list are named one by one. -/
theorem under_append (xs ys : List α) : under σ (xs ++ ys) = under σ xs ++ under σ ys :=
  List.map_append

@[simp]
theorem under_some (a : α) : under σ (some a) = some (under σ a) := rfl

@[simp]
theorem under_pair (key : κ) (a : α) : under σ (key, a) = (key, under σ a) := rfl

@[simp]
theorem under_fst (pair : κ × α) : (under σ pair).1 = pair.1 := rfl

@[simp]
theorem under_snd (pair : κ × α) : (under σ pair).2 = under σ pair.2 := rfl

@[simp]
theorem under_ok (a : α) : under σ (.ok a : Except ε α) = .ok (under σ a) := rfl

@[simp]
theorem under_error (e : ε) : under σ (.error e : Except ε α) = .error (under σ e) := rfl

@[simp]
theorem under_cause (cause : ErrorCause) : under σ cause = cause := rfl

/-- A pure operation goes on with what another one gives. -/
theorem under_bind {x : Except ErrorCause α} {f g : α → Except ErrorCause β}
    (h : ∀ a, g (under σ a) = under σ (f a)) : (under σ x >>= g) = under σ (x >>= f) := by
  cases x with
  | ok a => exact h a
  | error => rfl

end Instances

namespace Assoc

variable {κ α : Type} [DecidableEq κ] [Named α] (map other : Assoc κ α) (key : κ) (value : α)

/-- Maps are looked up by their keys, which have no names. -/
theorem get?_under : Assoc.get? (under σ map) key = under σ (map.get? key) :=
  get?_map_snd (under σ) map key

/-- Whether a key is there does not depend on what is stored under it. -/
theorem contains_under : Assoc.contains (under σ map) key = map.contains key := by
  rw [contains, contains, get?_under]
  cases map.get? key <;> rfl

/-- An entry is stored at the same place under all names. -/
theorem put_under : Assoc.put (under σ map) key (under σ value) = under σ (map.put key value) :=
  put_map_snd (under σ) map key value

/-- An entry is erased at the same place under all names. -/
theorem erase_under : Assoc.erase (under σ map) key = under σ (map.erase key) := by
  induction map with
  | nil => rfl
  | cons pair rest ih =>
    rw [under_list, List.map_cons, erase, erase]
    change (if pair.1 = key then _ else _ :: Assoc.erase (under σ rest) key) = _
    rw [ih]
    split <;> rfl

/-- Maps are merged entry by entry, so merging commutes with naming. -/
theorem putAll_under :
    Assoc.putAll (under σ map) (under σ other) = under σ (map.putAll other) := by
  induction other generalizing map with
  | nil => rfl
  | cons pair rest ih =>
    change Assoc.putAll (Assoc.put (under σ map) pair.1 (under σ pair.2)) (under σ rest) = _
    rw [put_under]
    exact ih _

omit [DecidableEq κ] in
/-- Naming changes no keys. -/
theorem keys_under : Assoc.keys (under σ map) = map.keys := by
  rw [keys, keys, under_list, List.map_map]
  rfl

end Assoc

/-! ### Values -/

namespace Value

mutual

/-- A value whose closures have other names. -/
protected def under (σ : Naming) : Value → Value
  | array items => array (Value.underItems σ items)
  | hash entries => hash (Value.underEntries σ entries)
  | proc id => proc (σ.proc id)
  | object id className payload hook => object id className (Value.underItems σ payload) hook
  | nil => nil
  | bool b => bool b
  | int n => int n
  | str text => str text
  | symbol name => symbol name

/-- Some values whose closures have other names. -/
protected def underItems (σ : Naming) : List Value → List Value
  | [] => []
  | item :: rest => item.under σ :: Value.underItems σ rest

/-- A hash whose closures have other names. -/
protected def underEntries (σ : Naming) : List (HashKey × Value) → List (HashKey × Value)
  | [] => []
  | (key, value) :: rest => (key, value.under σ) :: Value.underEntries σ rest

end

instance : Named Value := ⟨Value.under⟩

variable {value : Value} {items : List Value} {entries : HashEntries} {keywords : Keywords}

theorem underItems_eq (items : List Value) : Value.underItems σ items = under σ items := by
  induction items with
  | nil => rfl
  | cons item rest ih => exact congrArg (under σ item :: ·) ih

theorem underEntries_eq (entries : HashEntries) :
    Value.underEntries σ entries = under σ entries := by
  induction entries with
  | nil => rfl
  | cons entry rest ih => exact congrArg ((entry.1, under σ entry.2) :: ·) ih

@[simp]
theorem under_nil : under σ nil = nil := rfl

@[simp]
theorem under_bool (b : Bool) : under σ (bool b) = bool b := rfl

@[simp]
theorem under_int (n : Int) : under σ (int n) = int n := rfl

@[simp]
theorem under_str (text : String) : under σ (str text) = str text := rfl

@[simp]
theorem under_symbol (name : Name) : under σ (symbol name) = symbol name := rfl

@[simp]
theorem under_proc (id : ProcId) : under σ (proc id) = proc (σ.proc id) := rfl

/-- An array has the closures of its elements. -/
@[simp]
theorem under_array : under σ (array items) = array (under σ items) :=
  congrArg array (underItems_eq items)

/-- A hash has the closures of its values. -/
@[simp]
theorem under_hash : under σ (hash entries) = hash (under σ entries) :=
  congrArg hash (underEntries_eq entries)

/-- A host object has the closures of its payload, and converts it with the same hook. -/
@[simp]
theorem under_object (id : ObjectId) (className : String) (hook : Option ArrayHook) :
    under σ (object id className items hook) = object id className (under σ items) hook :=
  congrArg (object id className · hook) (underItems_eq items)

/-- A key that is turned into a value holds no closures. -/
@[simp]
theorem under_toValue (key : HashKey) : under σ key.toValue = key.toValue := by
  cases key <;> rfl

/-- Keywords are gathered in a hash under the same keys. -/
theorem hashOfKeywords_under : hashOfKeywords (under σ keywords) = under σ (hashOfKeywords keywords) := by
  simp [hashOfKeywords, Function.comp_def]

/-- A closure is true under all names. -/
@[simp]
theorem isTruthy_under (value : Value) : (under σ value).isTruthy = value.isTruthy := by
  cases value <;> simp [isTruthy]

/-- No closure is the key of a hash, so naming makes or unmakes no key. -/
@[simp]
theorem ofValue_under (value : Value) : HashKey.ofValue (under σ value) = HashKey.ofValue value := by
  cases value <;> simp [HashKey.ofValue, typeName]

mutual

/-- Closures are told apart as before. -/
theorem same_under : ∀ left right : Value,
    (under σ left).same (under σ right) = left.same right
  | proc a, right => by
    cases right with
    | proc b =>
      rw [under_proc, under_proc, same, same, Bool.eq_iff_iff, beq_iff_eq, beq_iff_eq, σ.proc_eq_iff]
    | _ => simp [same]
  | array xs, right => by
    cases right with
    | array ys =>
      rw [under_array, under_array]
      exact sameItems_under xs ys
    | _ => simp [same]
  | hash xs, right => by
    cases right with
    | hash ys =>
      rw [under_hash, under_hash, same, same, sameEntries_under xs ys, under_list, under_list,
        List.length_map, List.length_map]
    | _ => simp [same]
  | nil, right | bool _, right | int _, right | str _, right | symbol _, right
  | object .., right => by
    cases right <;> simp [same]

/-- Arrays are compared element by element. -/
theorem sameItems_under : ∀ xs ys : List Value,
    sameItems (under σ xs) (under σ ys) = sameItems xs ys
  | [], [] => rfl
  | [], _ :: _ => rfl
  | _ :: _, [] => rfl
  | x :: xs, y :: ys => by
    have head := same_under x y
    have tail := sameItems_under xs ys
    rw [under_list, under_list, List.map_cons, List.map_cons, sameItems, sameItems, head, ← tail]
    rfl

/-- Hashes are compared by looking up the keys of one in the other. -/
theorem sameEntries_under : ∀ xs ys : List (HashKey × Value),
    sameEntries (under σ xs) (under σ ys) = sameEntries xs ys
  | [], _ => rfl
  | (key, value) :: rest, ys => by
    have tail := sameEntries_under rest ys
    rw [under_list, List.map_cons, under_pair, sameEntries, sameEntries, ← tail, Assoc.get?_under]
    cases Assoc.get? ys key with
    | none => rfl
    | some counterpart =>
      have head := same_under value counterpart
      rw [under_some]
      dsimp only
      rw [head]
      rfl

end

mutual

/-- Only the closures that occur in a value matter. -/
theorem under_congr : ∀ {value : Value}, (∀ id ∈ value.procs, σ.proc id = τ.proc id) →
    under σ value = under τ value
  | nil, _ | bool _, _ | int _, _ | str _, _ | symbol _, _ => rfl
  | proc id, h => congrArg proc (h id List.mem_cons_self)
  | array items, h => by
    have same : ∀ id ∈ procsOfItems items, σ.proc id = τ.proc id := h
    rw [under_array, under_array, under_congr_items same]
  | hash entries, h => by
    have same : ∀ id ∈ procsOfEntries entries, σ.proc id = τ.proc id := h
    rw [under_hash, under_hash, under_congr_entries same]
  | object id className payload hook, h => by
    have same : ∀ id ∈ procsOfItems payload, σ.proc id = τ.proc id := h
    rw [under_object, under_object, under_congr_items same]

/-- Only the closures that occur in some values matter. -/
theorem under_congr_items : ∀ {items : List Value},
    (∀ id ∈ procsOfItems items, σ.proc id = τ.proc id) → under σ items = under τ items
  | [], _ => rfl
  | item :: rest, h => by
    obtain ⟨head, tail⟩ := List.forall_mem_append.mp h
    rw [under_list, under_list, List.map_cons, List.map_cons, under_congr head]
    exact congrArg (_ :: ·) (under_congr_items tail)

/-- Only the closures that occur in the values of a hash matter. -/
theorem under_congr_entries : ∀ {entries : List (HashKey × Value)},
    (∀ id ∈ procsOfEntries entries, σ.proc id = τ.proc id) → under σ entries = under τ entries
  | [], _ => rfl
  | (key, value) :: rest, h => by
    obtain ⟨head, tail⟩ := List.forall_mem_append.mp h
    rw [under_list, under_list, List.map_cons, List.map_cons, under_pair, under_pair, under_congr head]
    exact congrArg (_ :: ·) (under_congr_entries tail)

end

/-- Where closures keep their names, values stay as they are. -/
theorem under_same (value : Value) : under .same value = value := by
  induction value using Value.rec
    (motive_2 := fun items => under .same items = items)
    (motive_3 := fun entries => under .same entries = entries)
    (motive_4 := fun pair => under .same pair = pair) with
  | _ => simp_all [Naming.same]

/-! ### Conversions -/

/-- A hook gives positions of the payload, whatever stands there. -/
theorem apply_under (hook : ArrayHook) (payload : List Value) :
    hook.apply (under σ payload) = under σ (hook.apply payload) := by
  have element : ∀ i, (under σ payload).getD i .nil = under σ (payload.getD i .nil) := fun i => by
    rw [under_list, List.getD_eq_getElem?_getD, List.getElem?_map, List.getD_eq_getElem?_getD]
    cases payload[i]? <;> rfl
  have length : (under σ payload).length = payload.length := List.length_map _
  rw [ArrayHook.apply, ArrayHook.apply, length]
  cases hook.convert payload.length with
  | array positions =>
    refine (congrArg array ?_).trans under_array.symm
    exact (List.map_congr_left fun i _ => element i).trans List.map_map.symm
  | element i => exact element i

/-- What kind of value is converted decides how, and naming changes no kind. -/
theorem toSequence_under (value : Value) : (under σ value).toSequence = under σ value.toSequence := by
  cases value with
  | object id className payload hook =>
    cases hook with
    | none => rw [under_object]; exact congrArg (fun v => Except.ok [v]) (under_object ..).symm
    | some hook =>
      rw [under_object, toSequence, toSequence]
      simp only [apply_under]
      cases hook.apply payload <;> simp [typeName]
  | _ => simp [toSequence, Function.comp_def]

/-- A hash fails to be keywords for its keys only. -/
theorem keywordsOfEntries_under (entries : HashEntries) (keywords : Keywords) :
    keywordsOfEntries (under σ entries) (under σ keywords) =
      under σ (keywordsOfEntries entries keywords) := by
  induction entries generalizing keywords with
  | nil => rfl
  | cons entry rest ih =>
    obtain ⟨key, value⟩ := entry
    cases key with
    | symbol name =>
      rw [keywordsOfEntries, ← ih, ← Assoc.put_under]
      rfl
    | nil | bool | int | str => rfl

/-- A value fails to be keywords for its kind or its keys. -/
theorem toKeywords_under (value : Value) : (under σ value).toKeywords = under σ value.toKeywords := by
  cases value with
  | hash entries =>
    rw [under_hash]
    exact keywordsOfEntries_under entries []
  | _ => simp [toKeywords, typeName]

/-- A value fails to be a hash for its kind only. -/
theorem toHashEntries_under (value : Value) :
    (under σ value).toHashEntries = under σ value.toHashEntries := by
  cases value <;> simp [toHashEntries, typeName]

end Value

/-! ### Sequence literals -/

namespace SequenceItem

instance : Named SequenceItem where
  under σ
    | plain value => plain (under σ value)
    | spread value => spread (under σ value)

/-- Splats are expanded in the same way under all names. -/
theorem build_under (parts : List SequenceItem) : build (under σ parts) = under σ (build parts) := by
  induction parts with
  | nil => rfl
  | cons part rest ih =>
    have front : (under σ part).elements = under σ part.elements := by
      cases part with
      | plain => rfl
      | spread value => exact value.toSequence_under
    rw [under_list, List.map_cons, build, build, front]
    refine under_bind fun items => ?_
    change (build (under σ rest) >>= _) = _
    rw [ih]
    exact under_bind fun others => congrArg Except.ok (under_append items others).symm

/-- So is the right-hand side of an assignment, for one part and for several. -/
theorem assigned_under (parts : List SequenceItem) :
    assigned (under σ parts) = under σ (assigned parts) := by
  have arrays : ∀ parts : List SequenceItem,
      (build (under σ parts) >>= fun items => Except.ok (Value.array items)) =
        under σ (build parts >>= fun items => Except.ok (Value.array items)) := fun parts => by
    rw [build_under]
    exact under_bind fun items => congrArg Except.ok Value.under_array.symm
  match parts with
  | [plain value] => rfl
  | [spread value] =>
    show ((under σ value).toSequence >>= fun items => Except.ok (Value.array items)) = _
    rw [Value.toSequence_under]
    exact under_bind fun items => congrArg Except.ok Value.under_array.symm
  | [] => rfl
  | spread value :: second :: rest => exact arrays (spread value :: second :: rest)
  | plain value :: second :: rest => exact arrays (plain value :: second :: rest)

end SequenceItem

/-! ### Operators -/

namespace BinaryOp

/-- There are no closures in results. -/
theorem evalInt_under (op : BinaryOp) (a b : Int) : under σ (evalInt a b op) = evalInt a b op := by
  have checked : ∀ operation result, under σ (checked operation result) = checked operation result := by
    intro operation result
    unfold BinaryOp.checked
    split <;> rfl
  cases op with
  | add | sub | mul => exact checked _ _
  | lt | le | gt | ge | eq | ne => rfl

/-- Operators compare closures by identity, and refuse them otherwise. -/
theorem eval_under (op : BinaryOp) (left right : Value) :
    op.eval (under σ left) (under σ right) = under σ (op.eval left right) := by
  have ordered : evalOrdered op (under σ left) (under σ right) = under σ (evalOrdered op left right) := by
    cases left with
    | int a =>
      cases right with
      | int b => exact (evalInt_under op a b).symm
      | _ => simp [evalOrdered, Value.operandText, Value.typeName]
    | str a =>
      unfold evalOrdered
      by_cases hadd : op = add
      · cases right <;> simp [hadd, Value.operandText, Value.typeName]
      · simp [hadd]
    | _ => simp [evalOrdered, Value.receiverText, Value.typeName]
  cases op with
  | eq | ne => simp [eval, Value.same_under]
  | _ => exact ordered

end BinaryOp

/-! ### Arguments -/

namespace CallArgs

instance : Named CallArgs where
  under σ args := { positional := under σ args.positional, keywords := under σ args.keywords }

variable (args : CallArgs) (value : Value)

/-- Positional arguments are added one by one. -/
theorem push_under : (under σ args).push (under σ value) = under σ (args.push value) :=
  congrArg (CallArgs.mk · (under σ args.keywords)) (under_append args.positional [value]).symm

/-- A splat adds what its value converts to. -/
theorem pushSpread_under :
    (under σ args).pushSpread (under σ value) = under σ (args.pushSpread value) := by
  rw [pushSpread, pushSpread, value.toSequence_under]
  exact under_bind fun items =>
    congrArg (fun xs => Except.ok (CallArgs.mk xs _)) (under_append args.positional items).symm

/-- A keyword replaces an earlier one of the same name under all names. -/
theorem pushKeyword_under (name : Name) :
    (under σ args).pushKeyword name (under σ value) = under σ (args.pushKeyword name value) :=
  congrArg (CallArgs.mk _) (Assoc.put_under args.keywords name value)

/-- A double splat adds the keywords that its value converts to. -/
theorem mergeKeywords_under :
    (under σ args).mergeKeywords (under σ value) = under σ (args.mergeKeywords value) := by
  rw [mergeKeywords, mergeKeywords, value.toKeywords_under]
  exact under_bind fun keywords =>
    congrArg (fun kws => Except.ok (CallArgs.mk _ kws)) (Assoc.putAll_under args.keywords keywords)

/-- The number of arguments does not depend on names. -/
theorem count_under : (under σ args).count = args.count := by
  change (args.positional.map _).length + (if (args.keywords.map _).isEmpty then 0 else 1) = _
  rw [List.length_map, List.isEmpty_map]
  rfl

end CallArgs

/-! ### Binding -/

instance : Named Binding where
  under σ
    | .value value => .value (under σ value)
    | .fallback expr => .fallback expr
    | .block => .block

instance : Named PlannedParam where
  under σ param := { param with binding := under σ param.binding }

namespace BindPlan

variable {groups : ParamGroups} {mode : BindMode}

/-- Keywords are folded into a positional hash for the sake of the parameters, not of the values. -/
theorem foldKeywords_under (args : CallArgs) :
    foldKeywords groups (under σ args) = under σ (foldKeywords groups args) := by
  have hempty : (under σ args).keywords.isEmpty = args.keywords.isEmpty := List.isEmpty_map
  rw [foldKeywords, foldKeywords, hempty]
  split
  · rfl
  · have folded : Value.hashOfKeywords (under σ args).keywords =
        under σ (Value.hashOfKeywords args.keywords) := Value.hashOfKeywords_under
    rw [folded]
    exact congrArg (CallArgs.mk · [])
      (under_append args.positional [Value.hashOfKeywords args.keywords]).symm

/-- An array is splatted for being a lone array, whatever it holds. -/
theorem autoSplat_under (positional : List Value) :
    autoSplat groups mode (under σ positional) = under σ (autoSplat groups mode positional) := by
  cases mode with
  | strict => rfl
  | lenient =>
    match positional with
    | [] => rfl
    | [value] =>
      cases value with
      | array items =>
        change autoSplat groups .lenient [under σ (Value.array items)] = _
        rw [Value.under_array, autoSplat, autoSplat]
        split
        · rfl
        · exact congrArg ([·]) Value.under_array.symm
      | _ => rfl
    | first :: second :: rest => cases first <;> rfl

/-- Values are counted, cut off and filled up with nil. -/
theorem fitArity_under (arity : Arity) (positional : List Value) :
    fitArity arity mode (under σ positional) = under σ (fitArity arity mode positional) := by
  cases mode with
  | strict =>
    rw [fitArity, fitArity, under_list, List.length_map]
    split <;> rfl
  | lenient =>
    rw [fitArity, fitArity]
    cases arity.max? <;> simp [List.map_take]

/-- Values are handed to the parameters from the left, and what is left over falls back. -/
theorem optionalSlots_under (places : List (Nat × NodeId)) (values : List Value) :
    optionalSlots places (under σ values) = under σ (optionalSlots places values) := by
  induction places generalizing values with
  | nil => rfl
  | cons place rest ih =>
    cases values with
    | nil => exact congrArg ((place.1, Binding.fallback place.2) :: ·) (ih [])
    | cons value values => exact congrArg ((place.1, Binding.value (under σ value)) :: ·) (ih values)

/-- Parameters receive values one by one. -/
theorem zip_under (places : List Nat) (values : List Value) :
    places.zip ((under σ values).map Binding.value) =
      under σ (places.zip (values.map Binding.value)) := by
  rw [under_list, under_list, List.map_map, List.zip_map_right, List.zip_map_right, List.map_map]
  rfl

/-- The positional values are split by their number only. -/
theorem positionalSlots_under (positional : List Value) :
    positionalSlots groups (under σ positional) = under σ (positionalSlots groups positional) := by
  have hlength : (under σ positional).length = positional.length := List.length_map _
  have hdrop : ∀ n (values : List Value), (under σ values).drop n = under σ (values.drop n) :=
    fun n values => List.map_drop.symm
  have htake : ∀ n (values : List Value), (under σ values).take n = under σ (values.take n) :=
    fun n values => List.map_take.symm
  simp only [positionalSlots, hlength, hdrop, htake, zip_under, optionalSlots_under, under_append]
  congr 1
  cases groups.rest with
  | none => rfl
  | some i => exact congrArg (fun value => [(i, Binding.value value)]) Value.under_array.symm

instance : Named KeywordShare where
  under σ share :=
    { share with slots := under σ share.slots, remaining := under σ share.remaining }

/-- A keyword parameter looks for its own name. -/
theorem take_under (share : KeywordShare) (i : Nat) (param : Param) :
    (under σ share).take i param = under σ (share.take i param) := by
  have hremaining : (under σ share).remaining = under σ share.remaining := rfl
  have hslots : ∀ binding, under σ share.slots ++ [(i, under σ binding)] =
      under σ (share.slots ++ [(i, binding)]) :=
    fun binding => (under_append share.slots [(i, binding)]).symm
  rw [KeywordShare.take, KeywordShare.take, hremaining, Assoc.get?_under]
  cases share.remaining.get? param.name with
  | some value =>
    have herase := Assoc.erase_under (σ := σ) share.remaining param.name
    rw [under_some]
    dsimp only
    rw [herase]
    exact congrArg (KeywordShare.mk · share.missing _) (hslots (.value value))
  | none =>
    cases param.role.fallback? with
    | some expr => exact congrArg (KeywordShare.mk · share.missing _) (hslots (.fallback expr))
    | none => exact congrArg (KeywordShare.mk · _ _) (hslots (.value .nil))

/-- Keyword parameters take their values one after the other. -/
theorem shareKeywords_under (keywords : Keywords) :
    shareKeywords groups (under σ keywords) = under σ (shareKeywords groups keywords) := by
  have shared : ∀ (list : List (Nat × Param)) (share : KeywordShare),
      list.foldl (fun share place => share.take place.1 place.2) (under σ share) =
        under σ (list.foldl (fun share place => share.take place.1 place.2) share) :=
    fun list share => List.foldl_hom (under σ) fun share place => take_under share place.1 place.2
  exact shared groups.keywords { remaining := keywords }

/-- Missing and unknown keywords are reported for their names, so the report is the same. -/
theorem keywordSlots_under (names : NameTable) (keywords : Keywords) :
    keywordSlots names groups mode (under σ keywords) =
      under σ (keywordSlots names groups mode keywords) := by
  have hempty : ∀ keywords : Keywords, (under σ keywords).isEmpty = keywords.isEmpty :=
    fun _ => List.isEmpty_map
  generalize hshare : shareKeywords groups keywords = share
  have hmissing : (under σ share).missing = share.missing := rfl
  have hremaining : (under σ share).remaining = under σ share.remaining := rfl
  rw [keywordSlots, keywordSlots, hempty, shareKeywords_under, hshare]
  dsimp only
  rw [hmissing, hremaining, hempty, Assoc.keys_under]
  split
  · split <;> rfl
  · split
    · rfl
    · cases groups.keywordRest with
      | some i =>
        dsimp only
        rw [Value.hashOfKeywords_under]
        exact congrArg Except.ok
          (under_append share.slots [(i, .value (.hashOfKeywords share.remaining))]).symm
      | none =>
        dsimp only
        split <;> rfl

/-- Slots are read in the order of the parameters. -/
theorem ofSlots_under (params : ParamList) (slots : Slots) :
    ofSlots params (under σ slots) = under σ (ofSlots params slots) := by
  rw [ofSlots, ofSlots, under_list (α := PlannedParam), List.map_map]
  refine List.map_congr_left fun slot _ => ?_
  obtain ⟨param, i⟩ := slot
  change PlannedParam.mk param.name ((Assoc.get? (under σ slots) i).getD (.value .nil)) =
    PlannedParam.mk param.name (under σ ((Assoc.get? slots i).getD (.value .nil)))
  rw [Assoc.get?_under]
  cases Assoc.get? slots i <;> rfl

/-- The same arguments are bound, under other names. -/
theorem make_under (names : NameTable) (params : ParamList) (mode : BindMode) (args : CallArgs) :
    make names params mode (under σ args) = under σ (make names params mode args) := by
  rw [make, make, foldKeywords_under]
  generalize foldKeywords (ParamGroups.ofParams params) args = folded
  generalize ParamGroups.ofParams params = groups
  change (fitArity groups.arity mode (autoSplat groups mode (under σ folded.positional)) >>= _) = _
  rw [autoSplat_under, fitArity_under]
  refine under_bind fun positional => ?_
  change (keywordSlots names groups mode (under σ folded.keywords) >>= _) = _
  rw [keywordSlots_under]
  refine under_bind fun byKeyword => congrArg Except.ok ?_
  have byBlock : under σ (groups.block.map fun i => (i, Binding.block)).toList =
      (groups.block.map fun i => (i, Binding.block)).toList := by
    cases groups.block <;> rfl
  rw [positionalSlots_under, ← byBlock, ← ofSlots_under, under_append, under_append, byBlock,
    byBlock]

end BindPlan

end ScriptSemantics
