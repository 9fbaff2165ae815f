import ScriptSemantics.Binding
import ScriptSemantics.Operator

/-!
# Where closures come from

A closure that occurs in the result of an operation on values occurs in one of the values that the
operation was given.  No operation on values makes a closure.

## Main Definitions

* `Value.procs` — the closures that occur in a value, also inside arrays, hashes and host objects
* `Value.Within` — only some closures occur in a value
* `Assoc.Holds` — something holds for the values of a map

## Main Results

* `Value.within_toSequence`, `SequenceItem.within_assigned`, `BinaryOp.within_eval`, ... — one lemma
  for each operation
* `BindPlan.within_make` — the parameters of a call receive what was given
-/

namespace ScriptSemantics

/-! ### Maps -/

namespace Assoc

variable {κ α : Type} {Q : α → Prop}

/-- Something holds for the values of a map. -/
def Holds (Q : α → Prop) (map : Assoc κ α) : Prop :=
  ∀ pair ∈ map, Q pair.2

@[simp]
theorem holds_nil : Holds Q ([] : Assoc κ α) := by
  simp [Holds]

variable [DecidableEq κ] {map other : Assoc κ α} {key : κ} {value : α}

/-- What is looked up is one of the values of the map. -/
theorem Holds.get? (h : map.Holds Q) (hget : map.get? key = some value) : Q value := by
  induction map with
  | nil => cases hget
  | cons pair rest ih =>
    rw [Assoc.get?] at hget
    split at hget
    · cases hget
      exact h pair List.mem_cons_self
    · exact ih (fun pair hpair => h pair (List.mem_cons_of_mem _ hpair)) hget

/-- A new entry adds its own value, and keeps or replaces the others. -/
theorem Holds.put (h : map.Holds Q) (key : κ) (hvalue : Q value) : (map.put key value).Holds Q := by
  induction map with
  | nil =>
    intro pair hpair
    cases List.mem_singleton.mp hpair
    exact hvalue
  | cons first rest ih =>
    have hrest : Holds Q rest := fun pair hpair => h pair (List.mem_cons_of_mem _ hpair)
    intro pair hpair
    rw [Assoc.put] at hpair
    split at hpair
    · rcases List.mem_cons.mp hpair with rfl | hpair
      · exact hvalue
      · exact hrest pair hpair
    · rcases List.mem_cons.mp hpair with rfl | hpair
      · exact h _ List.mem_cons_self
      · exact ih hrest pair hpair

/-- Erasing a key leaves only values that were there before. -/
theorem Holds.erase (h : map.Holds Q) (key : κ) : (map.erase key).Holds Q := by
  induction map with
  | nil => exact h
  | cons first rest ih =>
    have hrest : Holds Q rest := fun pair hpair => h pair (List.mem_cons_of_mem _ hpair)
    intro pair hpair
    rw [Assoc.erase] at hpair
    split at hpair
    · exact hrest pair hpair
    · rcases List.mem_cons.mp hpair with rfl | hpair
      · exact h _ List.mem_cons_self
      · exact ih hrest pair hpair

/-- Merging adds values of the other map only. -/
theorem Holds.putAll (h : map.Holds Q) (hother : other.Holds Q) : (map.putAll other).Holds Q := by
  rw [Assoc.putAll]
  induction other generalizing map with
  | nil => exact h
  | cons first rest ih =>
    exact ih (h.put first.1 (hother first List.mem_cons_self))
      fun pair hpair => hother pair (List.mem_cons_of_mem _ hpair)

end Assoc

/-! ### Values -/

namespace Value

mutual

/-- The closures that occur in a value. -/
def procs : Value → List ProcId
  | array items => procsOfItems items
  | hash entries => procsOfEntries entries
  | proc id => [id]
  | object _ _ payload _ => procsOfItems payload
  | nil | bool _ | int _ | str _ | symbol _ => []

/-- The closures that occur in some values. -/
def procsOfItems : List Value → List ProcId
  | [] => []
  | item :: rest => item.procs ++ procsOfItems rest

/-- The closures that occur in the values of a hash. -/
def procsOfEntries : List (HashKey × Value) → List ProcId
  | [] => []
  | (_, value) :: rest => value.procs ++ procsOfEntries rest

end

/-- Only some closures occur in a value. -/
def Within (P : ProcId → Prop) (value : Value) : Prop :=
  ∀ id ∈ value.procs, P id

variable {P : ProcId → Prop} {value : Value} {items : List Value} {entries : HashEntries}
  {keywords : Keywords}

/-- The closures of some values are those of each of them, in order. -/
theorem procsOfItems_eq (items : List Value) : procsOfItems items = items.flatMap procs := by
  induction items with
  | nil => rfl
  | cons item rest ih =>
    show item.procs ++ procsOfItems rest = _
    rw [ih, List.flatMap_cons]

/-- The closures of a hash are those of its values, as keys hold none. -/
theorem procsOfEntries_eq (entries : HashEntries) :
    procsOfEntries entries = entries.flatMap fun pair => pair.2.procs := by
  induction entries with
  | nil => rfl
  | cons entry rest ih =>
    show entry.2.procs ++ procsOfEntries rest = _
    rw [ih, List.flatMap_cons]

@[simp]
theorem within_nil : nil.Within P := nofun

@[simp]
theorem within_bool (b : Bool) : (bool b).Within P := nofun

@[simp]
theorem within_int (n : Int) : (int n).Within P := nofun

@[simp]
theorem within_str (text : String) : (str text).Within P := nofun

@[simp]
theorem within_symbol (name : Name) : (symbol name).Within P := nofun

@[simp]
theorem within_proc {id : ProcId} : (proc id).Within P ↔ P id :=
  List.forall_mem_singleton

/-- Only some closures occur in an array if and only if only these occur in its elements. -/
@[simp]
theorem within_array : (array items).Within P ↔ ∀ item ∈ items, item.Within P := by
  show (∀ id ∈ procsOfItems items, P id) ↔ _
  rw [procsOfItems_eq]
  exact List.forall_mem_flatMap

/-- Only some closures occur in a hash if and only if only these occur in its values. -/
@[simp]
theorem within_hash : (hash entries).Within P ↔ Assoc.Holds (Within P) entries := by
  show (∀ id ∈ procsOfEntries entries, P id) ↔ _
  rw [procsOfEntries_eq]
  exact List.forall_mem_flatMap

/-- Only some closures occur in a host object if and only if only these occur in its payload. -/
@[simp]
theorem within_object {id : ObjectId} {className : String} {payload : List Value}
    {hook : Option ArrayHook} :
    (object id className payload hook).Within P ↔ ∀ item ∈ payload, item.Within P := by
  show (∀ id ∈ procsOfItems payload, P id) ↔ _
  rw [procsOfItems_eq]
  exact List.forall_mem_flatMap

/-- Keys hold no closures, so none occurs in a key that is turned into a value. -/
theorem within_toValue (key : HashKey) : key.toValue.Within P := by
  cases key <;> simp [HashKey.toValue]

/-- Keywords that are gathered in a hash keep their values. -/
theorem within_hashOfKeywords (h : Assoc.Holds (Within P) keywords) :
    (hashOfKeywords keywords).Within P := by
  rw [hashOfKeywords, within_hash]
  intro pair hpair
  obtain ⟨keyword, hkeyword, rfl⟩ := List.mem_map.mp hpair
  exact h keyword hkeyword

/-! ### Conversions -/

/-- A conversion hook gives something of the payload. -/
theorem within_apply (hook : ArrayHook) {payload : List Value}
    (h : ∀ item ∈ payload, item.Within P) : (hook.apply payload).Within P := by
  have element : ∀ i, (payload.getD i .nil).Within P := fun i => by
    rw [List.getD_eq_getElem?_getD]
    cases hitem : payload[i]? with
    | none => exact within_nil
    | some item => exact h item (List.mem_of_getElem? hitem)
  rw [ArrayHook.apply]
  split
  · refine within_array.mpr fun item hitem => ?_
    obtain ⟨i, -, rfl⟩ := List.mem_map.mp hitem
    exact element i
  · exact element _

/-- The items of a converted value come from the value, whichever way it is converted: the elements
of an array, the pairs of a hash, what a hook gives of a payload, or the value itself. -/
theorem within_toSequence (h : value.Within P) (hitems : value.toSequence = .ok items) :
    ∀ item ∈ items, item.Within P := by
  cases value with
  | nil => cases hitems; simp
  | array list => cases hitems; exact within_array.mp h
  | hash entries =>
    cases hitems
    intro item hitem
    obtain ⟨pair, hpair, rfl⟩ := List.mem_map.mp hitem
    have hvalue := within_hash.mp h pair hpair
    simp [within_toValue, hvalue]
  | object id className payload hook =>
    cases hook with
    | none =>
      cases hitems
      intro item hitem
      cases List.mem_singleton.mp hitem
      exact h
    | some hook =>
      have happly := within_apply hook (within_object.mp h)
      rw [toSequence] at hitems
      split at hitems
      next list heq =>
        cases hitems
        rw [heq] at happly
        exact within_array.mp happly
      next => cases hitems
  | bool | int | str | symbol | proc =>
    cases hitems
    intro item hitem
    cases List.mem_singleton.mp hitem
    exact h

/-- The keywords of a hash have the values of its entries. -/
theorem within_keywordsOfEntries (h : Assoc.Holds (Within P) entries)
    {soFar : Keywords} (hsoFar : Assoc.Holds (Within P) soFar)
    (hkeywords : keywordsOfEntries entries soFar = .ok keywords) :
    Assoc.Holds (Within P) keywords := by
  induction entries generalizing soFar with
  | nil => cases hkeywords; exact hsoFar
  | cons entry rest ih =>
    obtain ⟨key, value⟩ := entry
    have hvalue : value.Within P := h _ List.mem_cons_self
    have hrest : Assoc.Holds (Within P) rest := fun pair hpair => h pair (List.mem_cons_of_mem _ hpair)
    cases key with
    | symbol name => exact ih hrest (hsoFar.put name hvalue) hkeywords
    | nil | bool | int | str => cases hkeywords

/-- Keywords come from a hash or from nil. -/
theorem within_toKeywords (h : value.Within P) (hkeywords : value.toKeywords = .ok keywords) :
    Assoc.Holds (Within P) keywords := by
  cases value with
  | nil => cases hkeywords; exact Assoc.holds_nil
  | hash entries =>
    exact within_keywordsOfEntries (within_hash.mp h) Assoc.holds_nil hkeywords
  | _ => cases hkeywords

/-- Entries come from a hash or from nil. -/
theorem within_toHashEntries (h : value.Within P) (hentries : value.toHashEntries = .ok entries) :
    Assoc.Holds (Within P) entries := by
  cases value with
  | nil => cases hentries; exact Assoc.holds_nil
  | hash list => cases hentries; exact within_hash.mp h
  | _ => cases hentries

end Value

variable {P : ProcId → Prop}

/-! ### Sequence literals -/

namespace SequenceItem

/-- Only some closures occur in the value of an item. -/
def Within (P : ProcId → Prop) : SequenceItem → Prop
  | plain value | spread value => value.Within P

/-- The elements of a sequence literal come from its parts, by induction on these. -/
theorem within_build {parts : List SequenceItem} {values : List Value}
    (h : ∀ part ∈ parts, part.Within P) (hvalues : build parts = .ok values) :
    ∀ value ∈ values, value.Within P := by
  induction parts generalizing values with
  | nil => cases hvalues; simp
  | cons part rest ih =>
    rw [build] at hvalues
    cases hfront : part.elements with
    | error => rw [hfront] at hvalues; cases hvalues
    | ok front =>
      rw [hfront] at hvalues
      cases hback : build rest with
      | error => rw [hback] at hvalues; cases hvalues
      | ok back =>
        rw [hback] at hvalues
        cases hvalues
        have hpart := h part List.mem_cons_self
        intro value hvalue
        rcases List.mem_append.mp hvalue with hvalue | hvalue
        · cases part with
          | plain only =>
            cases hfront
            cases List.mem_singleton.mp hvalue
            exact hpart
          | spread sequence => exact Value.within_toSequence hpart hfront value hvalue
        · exact ih (fun part hmem => h part (List.mem_cons_of_mem _ hmem)) hback value hvalue

/-- So does the value that an assignment makes of its right-hand side. -/
theorem within_assigned {parts : List SequenceItem} {value : Value}
    (h : ∀ part ∈ parts, part.Within P) (hvalue : assigned parts = .ok value) :
    value.Within P := by
  have arrays : ∀ {result},
      (build parts >>= fun values => Except.ok (Value.array values)) = .ok result →
      result.Within P := by
    intro result hresult
    cases hbuild : build parts with
    | error => rw [hbuild] at hresult; cases hresult
    | ok values =>
      rw [hbuild] at hresult
      cases hresult
      exact Value.within_array.mpr (within_build h hbuild)
  unfold assigned at hvalue
  split at hvalue
  next only =>
    cases hvalue
    exact h _ List.mem_cons_self
  next sequence =>
    cases hitems : sequence.toSequence with
    | error => rw [hitems] at hvalue; cases hvalue
    | ok items =>
      rw [hitems] at hvalue
      cases hvalue
      have hsequence : (spread sequence).Within P := h _ List.mem_cons_self
      exact Value.within_array.mpr (Value.within_toSequence hsequence hitems)
  next => exact arrays hvalue

end SequenceItem

/-! ### Operators -/

namespace BinaryOp

/-- No operator has a closure in its result. -/
theorem within_eval {op : BinaryOp} {left right value : Value} (h : op.eval left right = .ok value) :
    value.Within P := by
  have checked : ∀ {operation result}, checked operation result = .ok value → value.Within P := by
    intro operation result hchecked
    rw [BinaryOp.checked] at hchecked
    split at hchecked
    · cases hchecked
      exact Value.within_int _
    · cases hchecked
  have integers : ∀ a b, evalInt a b op = .ok value → value.Within P := by
    intro a b hint
    cases op with
    | add | sub | mul => exact checked hint
    | lt | le | gt | ge | eq | ne => cases hint; exact Value.within_bool _
  have ordered : evalOrdered op left right = .ok value → value.Within P := by
    intro hordered
    unfold evalOrdered at hordered
    split at hordered
    · exact integers _ _ hordered
    · cases hordered
    · split at hordered
      · split at hordered
        · cases hordered
          exact Value.within_str _
        · cases hordered
      · cases hordered
    · cases hordered
  cases op with
  | eq | ne => cases h; exact Value.within_bool _
  | add | sub | mul | lt | le | gt | ge => exact ordered h

end BinaryOp

/-! ### Arguments -/

namespace CallArgs

/-- The closures that occur in the arguments of a call. -/
def procs (args : CallArgs) : List ProcId :=
  args.positional.flatMap Value.procs ++ args.keywords.flatMap fun pair => pair.2.procs

/-- Only some closures occur in the arguments of a call. -/
structure Within (P : ProcId → Prop) (args : CallArgs) : Prop where
  positional : ∀ value ∈ args.positional, value.Within P
  keywords : Assoc.Holds (Value.Within P) args.keywords

variable {args args' : CallArgs} {value : Value}

/-- Closures occur in arguments as positional values or as values of keywords. -/
theorem within_iff : args.Within P ↔ ∀ id ∈ args.procs, P id := by
  constructor
  · intro h id hid
    rcases List.mem_append.mp hid with hid | hid
    · obtain ⟨value, hvalue, hid⟩ := List.mem_flatMap.mp hid
      exact h.positional value hvalue id hid
    · obtain ⟨pair, hpair, hid⟩ := List.mem_flatMap.mp hid
      exact h.keywords pair hpair id hid
  · intro h
    refine ⟨fun value hvalue id hid => h id ?_, fun pair hpair id hid => h id ?_⟩
    · exact List.mem_append_left _ (List.mem_flatMap.mpr ⟨value, hvalue, hid⟩)
    · exact List.mem_append_right _ (List.mem_flatMap.mpr ⟨pair, hpair, hid⟩)

/-- A call without arguments is given no closures. -/
theorem within_empty : ({} : CallArgs).Within P :=
  within_iff.mpr fun _ hid => nomatch hid

/-- A positional argument adds the closures of its value. -/
theorem Within.push (h : args.Within P) (hvalue : value.Within P) : (args.push value).Within P where
  positional := by
    simpa [CallArgs.push, or_imp, forall_and] using ⟨h.positional, hvalue⟩
  keywords := h.keywords

/-- A splat adds the closures of the value that it expands. -/
theorem Within.pushSpread (h : args.Within P) (hvalue : value.Within P)
    (hargs : args.pushSpread value = .ok args') : args'.Within P := by
  rw [CallArgs.pushSpread] at hargs
  cases hitems : value.toSequence with
  | error => rw [hitems] at hargs; cases hargs
  | ok items =>
    rw [hitems] at hargs
    cases hargs
    refine ⟨fun item hitem => ?_, h.keywords⟩
    rcases List.mem_append.mp hitem with hitem | hitem
    · exact h.positional item hitem
    · exact Value.within_toSequence hvalue hitems item hitem

/-- A keyword argument adds the closures of its value, and may drop those of an earlier one. -/
theorem Within.pushKeyword (h : args.Within P) (name : Name) (hvalue : value.Within P) :
    (args.pushKeyword name value).Within P :=
  ⟨h.positional, h.keywords.put name hvalue⟩

/-- A double splat adds the closures of the hash that it merges. -/
theorem Within.mergeKeywords (h : args.Within P) (hvalue : value.Within P)
    (hargs : args.mergeKeywords value = .ok args') : args'.Within P := by
  rw [CallArgs.mergeKeywords] at hargs
  cases hkeywords : value.toKeywords with
  | error => rw [hkeywords] at hargs; cases hargs
  | ok keywords =>
    rw [hkeywords] at hargs
    cases hargs
    exact ⟨h.positional, h.keywords.putAll (Value.within_toKeywords hvalue hkeywords)⟩

end CallArgs

/-! ### Parameters -/

/-- Only some closures occur in the value that a parameter receives, if it receives one. -/
def Binding.Within (P : ProcId → Prop) : Binding → Prop
  | .value v => v.Within P
  | .fallback _ | .block => True

namespace BindPlan

variable {groups : ParamGroups} {positional values : List Value} {keywords : Keywords}

/-- Parameters that are filled one by one receive the values they are filled with. -/
theorem within_zip {places : List Nat} (h : ∀ value ∈ values, value.Within P) :
    Assoc.Holds (Binding.Within P) (places.zip (values.map Binding.value)) := by
  intro slot hslot
  obtain ⟨value, hvalue, heq⟩ := List.mem_map.mp (List.of_mem_zip hslot).2
  show Binding.Within P slot.2
  rw [← heq]
  exact h value hvalue

/-- Optional parameters receive values that were given, or fall back. -/
theorem within_optionalSlots {places : List (Nat × NodeId)}
    (h : ∀ value ∈ values, value.Within P) :
    Assoc.Holds (Binding.Within P) (optionalSlots places values) := by
  induction places generalizing values with
  | nil => exact Assoc.holds_nil
  | cons place rest ih =>
    cases values with
    | nil =>
      intro slot hslot
      rcases List.mem_cons.mp hslot with rfl | hslot
      · trivial
      · exact ih h slot hslot
    | cons value values =>
      intro slot hslot
      rcases List.mem_cons.mp hslot with rfl | hslot
      · exact h value List.mem_cons_self
      · exact ih (fun value hvalue => h value (List.mem_cons_of_mem _ hvalue)) slot hslot

/-- Every positional parameter receives a part of the positional values; the rest parameter gathers
what is left in an array. -/
theorem within_positionalSlots (h : ∀ value ∈ positional, value.Within P) :
    Assoc.Holds (Binding.Within P) (positionalSlots groups positional) := by
  have part : ∀ {n k : Nat}, ∀ value ∈ (positional.drop n).take k, value.Within P :=
    fun value hvalue => h value (List.mem_of_mem_drop (List.mem_of_mem_take hvalue))
  intro slot hslot
  simp only [positionalSlots, List.mem_append, or_assoc] at hslot
  rcases hslot with hslot | hslot | hslot | hslot
  · exact within_zip h slot hslot
  · exact within_zip (fun value hvalue => h value (List.mem_of_mem_drop hvalue)) slot hslot
  · exact within_optionalSlots part slot hslot
  · cases hrest : groups.rest with
    | none => simp [hrest] at hslot
    | some i =>
      simp only [hrest, Option.map_some, Option.toList_some, List.mem_singleton] at hslot
      subst hslot
      exact Value.within_array.mpr fun value hvalue => part value (List.mem_of_mem_drop hvalue)

/-- A keyword parameter takes its value out of what remains, so nothing else is given. -/
theorem within_take {share : KeywordShare} (i : Nat) (param : Param)
    (hslots : Assoc.Holds (Binding.Within P) share.slots)
    (hremaining : Assoc.Holds (Value.Within P) share.remaining) :
    Assoc.Holds (Binding.Within P) (share.take i param).slots ∧
      Assoc.Holds (Value.Within P) (share.take i param).remaining := by
  have added : ∀ {binding : Binding}, binding.Within P →
      Assoc.Holds (Binding.Within P) (share.slots ++ [(i, binding)]) := by
    intro binding hbinding slot hslot
    rcases List.mem_append.mp hslot with hslot | hslot
    · exact hslots slot hslot
    · cases List.mem_singleton.mp hslot
      exact hbinding
  rw [KeywordShare.take]
  split
  next value hvalue => exact ⟨added (hremaining.get? hvalue), hremaining.erase _⟩
  next =>
    split
    · exact ⟨added trivial, hremaining⟩
    · exact ⟨added Value.within_nil, hremaining⟩

/-- Keywords are shared out among the parameters, one parameter at a time. -/
theorem within_shareKeywords (groups : ParamGroups) (h : Assoc.Holds (Value.Within P) keywords) :
    Assoc.Holds (Binding.Within P) (shareKeywords groups keywords).slots ∧
      Assoc.Holds (Value.Within P) (shareKeywords groups keywords).remaining := by
  have shared : ∀ (list : List (Nat × Param)) (share : KeywordShare),
      Assoc.Holds (Binding.Within P) share.slots → Assoc.Holds (Value.Within P) share.remaining →
      Assoc.Holds (Binding.Within P)
          (list.foldl (fun share place => share.take place.1 place.2) share).slots ∧
        Assoc.Holds (Value.Within P)
          (list.foldl (fun share place => share.take place.1 place.2) share).remaining := by
    intro list
    induction list with
    | nil => exact fun share hslots hremaining => ⟨hslots, hremaining⟩
    | cons first rest ih =>
      intro share hslots hremaining
      obtain ⟨hslots, hremaining⟩ := within_take first.1 first.2 hslots hremaining
      exact ih _ hslots hremaining
  exact shared groups.keywords _ Assoc.holds_nil h

/-- What no keyword parameter takes goes into the hash of the double rest, if there is one. -/
theorem within_keywordSlots {names : NameTable} {mode : BindMode} {slots : Slots}
    (h : Assoc.Holds (Value.Within P) keywords)
    (hslots : keywordSlots names groups mode keywords = .ok slots) :
    Assoc.Holds (Binding.Within P) slots := by
  obtain ⟨hshared, hremaining⟩ := within_shareKeywords groups h
  rw [keywordSlots] at hslots
  dsimp only at hslots
  split at hslots
  · split at hslots
    · cases hslots
    · cases hslots
      exact Assoc.holds_nil
  · split at hslots
    · cases hslots
    · split at hslots
      next i _ =>
        cases hslots
        intro slot hslot
        rcases List.mem_append.mp hslot with hslot | hslot
        · exact hshared slot hslot
        · cases List.mem_singleton.mp hslot
          exact Value.within_hashOfKeywords hremaining
      next =>
        split at hslots
        · cases hslots
        · cases hslots
          exact hshared

/-- Keywords that are folded into a positional hash keep their values. -/
theorem within_foldKeywords (groups : ParamGroups) {args : CallArgs} (h : args.Within P) :
    (foldKeywords groups args).Within P := by
  rw [foldKeywords]
  split
  · exact h
  · have hhash := Value.within_hashOfKeywords h.keywords
    exact ⟨(h.push hhash).positional, Assoc.holds_nil⟩

/-- An array that is splatted gives its own elements. -/
theorem within_autoSplat (groups : ParamGroups) (mode : BindMode)
    (h : ∀ value ∈ positional, value.Within P) :
    ∀ value ∈ autoSplat groups mode positional, value.Within P := by
  unfold autoSplat
  split
  · split
    · exact Value.within_array.mp (h _ List.mem_cons_self)
    · exact h
  · exact h

/-- Values are cut off, or nil is added, when the number of values is fitted. -/
theorem within_fitArity {arity : Arity} {mode : BindMode} {fitting : List Value}
    (h : ∀ value ∈ positional, value.Within P) (hfit : fitArity arity mode positional = .ok fitting) :
    ∀ value ∈ fitting, value.Within P := by
  cases mode with
  | strict =>
    rw [fitArity] at hfit
    split at hfit
    · cases hfit
      exact h
    · cases hfit
  | lenient =>
    cases hfit
    intro value hvalue
    rcases List.mem_append.mp hvalue with hvalue | hvalue
    · split at hvalue
      · exact h value (List.mem_of_mem_take hvalue)
      · exact h value hvalue
    · rw [List.eq_of_mem_replicate hvalue]
      exact Value.within_nil

/-- The parameters of a call receive what was given to it. -/
theorem within_make {names : NameTable} {params : ParamList} {mode : BindMode} {args : CallArgs}
    {plan : BindPlan} (h : args.Within P) (hplan : make names params mode args = .ok plan) :
    ∀ planned ∈ plan, planned.binding.Within P := by
  have hfolded := within_foldKeywords (.ofParams params) h
  have hsplat := within_autoSplat (.ofParams params) mode hfolded.positional
  rw [make] at hplan
  dsimp only at hplan
  cases hfit : fitArity (ParamGroups.ofParams params).arity mode
      (autoSplat (.ofParams params) mode (foldKeywords (.ofParams params) args).positional) with
  | error => rw [hfit] at hplan; cases hplan
  | ok positional =>
    rw [hfit] at hplan
    cases hkeyword : keywordSlots names (.ofParams params) mode
        (foldKeywords (.ofParams params) args).keywords with
    | error =>
      rw [hkeyword] at hplan
      cases hplan
    | ok byKeyword =>
      rw [hkeyword] at hplan
      cases hplan
      -- the slots hold what was given, what defaults to nil, or the block
      have slots : Assoc.Holds (Binding.Within P)
          (positionalSlots (.ofParams params) positional ++ byKeyword ++
            ((ParamGroups.ofParams params).block.map fun i => (i, Binding.block)).toList) := by
        intro slot hslot
        simp only [List.mem_append, or_assoc] at hslot
        rcases hslot with hslot | hslot | hslot
        · exact within_positionalSlots (within_fitArity hsplat hfit) slot hslot
        · exact within_keywordSlots hfolded.keywords hkeyword slot hslot
        · cases hblock : (ParamGroups.ofParams params).block with
          | none => simp [hblock] at hslot
          | some i =>
            simp only [hblock, Option.map_some, Option.toList_some, List.mem_singleton] at hslot
            subst hslot
            trivial
      intro planned hplanned
      obtain ⟨⟨param, i⟩, -, rfl⟩ := List.mem_map.mp hplanned
      dsimp only
      cases hslot : Assoc.get? (positionalSlots (.ofParams params) positional ++ byKeyword ++
          ((ParamGroups.ofParams params).block.map fun i => (i, Binding.block)).toList) i with
      | none => exact Value.within_nil
      | some binding => exact slots.get? hslot

end BindPlan

end ScriptSemantics
