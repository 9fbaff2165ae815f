import ScriptSemantics.Operator
import ScriptSemantics.Proofs.AssocKeys
import Mathlib.Data.List.Perm.Subperm

/-!
# Equality of values

Equality is an equivalence relation on the values whose hashes are maps, at any depth, and on the
values that may be hash keys it is the equality of the keys.

## Main Definitions

* `Value.KeyedOnce` — every hash in a value has each key once
* `KeyedValue` — the values with this property

## Main Results

* `Value.same_array_iff` — arrays are equal when they have equal elements in every position
* `Value.same_hash_iff` — hashes are equal when they have equal values for every key
* `Value.equality_agrees_with_keys` — equality is an equivalence relation and agrees with hash keys

## Design Notes

The comparison of two hashes looks up the keys of one in the other only.  That no key of the other
is left over follows from their number, since keys occur once.  So symmetry and transitivity are not
read off the comparison, but off `Value.same_hash_iff`, which treats both sides alike.
-/

namespace ScriptSemantics

/-! ### Optional values -/

section Optional

variable {α : Type} {r : α → α → Prop} {o o' o'' : Option α}

theorem rel_refl_of_mem (h : ∀ a, o = some a → r a a) : Option.Rel r o o := by
  cases o with
  | none => exact .none
  | some a => exact .some (h a rfl)

theorem rel_symm_of_mem (h : ∀ a b, o = some a → o' = some b → r a b → r b a)
    (rel : Option.Rel r o o') : Option.Rel r o' o := by
  cases rel with
  | none => exact .none
  | some hab => exact .some (h _ _ rfl rfl hab)

theorem rel_trans_of_mem
    (h : ∀ a b c, o = some a → o' = some b → o'' = some c → r a b → r b c → r a c)
    (rel : Option.Rel r o o') (rel' : Option.Rel r o' o'') : Option.Rel r o o'' := by
  cases rel with
  | none => exact rel'
  | some hab =>
    obtain hbc | _ := rel'
    exact .some (h _ _ _ rfl rfl rfl hab hbc)

end Optional

/-! ### Maps -/

namespace Assoc

variable {κ α : Type} {map other : Assoc κ α}

/-- A map that has all keys of another one of its size has no others. -/
theorem mem_keys_of_subset (distinct : map.keys.Nodup) (hsub : map.keys ⊆ other.keys)
    (hlength : map.length = other.length) {key : κ} (hkey : key ∈ other.keys) : key ∈ map.keys := by
  have hle : other.keys.length ≤ map.keys.length := by simp [keys, hlength]
  exact ((distinct.subperm hsub).perm_of_length_le hle).mem_iff.mpr hkey

/-- Maps with the same keys have the same size. -/
theorem length_eq_of_mem_keys_iff (distinct : map.keys.Nodup) (hother : other.keys.Nodup)
    (h : ∀ key, key ∈ map.keys ↔ key ∈ other.keys) : map.length = other.length := by
  have hperm : map.keys.Perm other.keys := (List.perm_ext_iff_of_nodup distinct hother).mpr h
  simpa [keys] using hperm.length_eq

variable [DecidableEq κ]

/-- The order of the pairs makes no difference to what a key has. -/
theorem get?_of_perm (distinct : map.keys.Nodup) (hperm : List.Perm map other) (key : κ) :
    map.get? key = other.get? key := by
  have hother : other.keys.Nodup := (hperm.map Prod.fst).nodup_iff.mp distinct
  cases hget : map.get? key with
  | some value => exact (get?_of_mem hother (hperm.mem_iff.mp (mem_of_get? hget))).symm
  | none =>
    refine (get?_eq_none_iff.mpr fun hkey => get?_eq_none_iff.mp hget ?_).symm
    exact (hperm.map Prod.fst).mem_iff.mpr hkey

end Assoc

namespace Value

variable {a b c : Value} {xs ys : List Value} {entries others : HashEntries}

/-- Every hash in the value has each key once. -/
inductive KeyedOnce : Value → Prop
  | nil : KeyedOnce .nil
  | bool (b : Bool) : KeyedOnce (.bool b)
  | int (n : Int) : KeyedOnce (.int n)
  | str (text : String) : KeyedOnce (.str text)
  | symbol (name : Name) : KeyedOnce (.symbol name)
  | array {items : List Value} (items_keyed : ∀ item ∈ items, KeyedOnce item) :
    KeyedOnce (.array items)
  | hash {entries : HashEntries} (distinct : entries.keys.Nodup)
    (values_keyed : ∀ pair ∈ entries, KeyedOnce pair.2) : KeyedOnce (.hash entries)
  | proc (id : ProcId) : KeyedOnce (.proc id)
  | object {payload : List Value} (id : ObjectId) (className : String) (hook : Option ArrayHook)
    (payload_keyed : ∀ item ∈ payload, KeyedOnce item) :
    KeyedOnce (.object id className payload hook)

attribute [simp] KeyedOnce.nil KeyedOnce.bool KeyedOnce.int KeyedOnce.str KeyedOnce.symbol
  KeyedOnce.proc

/-- An array is keyed once if its elements are. -/
@[simp]
theorem keyedOnce_array : (Value.array xs).KeyedOnce ↔ ∀ item ∈ xs, item.KeyedOnce :=
  ⟨fun h => by cases h; assumption, .array⟩

/-- A hash is keyed once if its keys are distinct and its values are keyed once. -/
@[simp]
theorem keyedOnce_hash :
    (Value.hash entries).KeyedOnce ↔
      entries.keys.Nodup ∧ ∀ pair ∈ entries, pair.2.KeyedOnce :=
  ⟨fun h => by cases h; exact ⟨‹_›, ‹_›⟩, fun h => .hash h.1 h.2⟩

theorem KeyedOnce.distinct_keys (h : (Value.hash entries).KeyedOnce) : entries.keys.Nodup :=
  (keyedOnce_hash.mp h).1

theorem KeyedOnce.of_getElem? (h : (Value.array xs).KeyedOnce) {i : Nat} (hi : xs[i]? = some a) :
    a.KeyedOnce :=
  keyedOnce_array.mp h a (List.mem_of_getElem? hi)

theorem KeyedOnce.of_get? (h : (Value.hash entries).KeyedOnce) {key : HashKey}
    (hkey : entries.get? key = some a) : a.KeyedOnce :=
  (keyedOnce_hash.mp h).2 _ (Assoc.mem_of_get? hkey)

/-! ### Comparing values of one kind -/

/-- A scalar is equal to itself only. -/
theorem toValue_same_iff (key : HashKey) : key.toValue.same b = true ↔ b = key.toValue := by
  cases key <;> cases b <;> simp [HashKey.toValue, same] <;> exact eq_comm

/-- A closure is the same as itself only. -/
theorem proc_same_iff (id : ProcId) : (proc id).same b = true ↔ b = proc id := by
  cases b with
  | proc other =>
    rw [same, beq_iff_eq, proc.injEq]
    exact eq_comm
  | _ => simp [same]

/-- An object is told by its identity, whatever else it carries. -/
theorem object_same_iff (id : ObjectId) (className : String) (payload : List Value)
    (hook : Option ArrayHook) :
    (object id className payload hook).same b = true ↔
      ∃ className' payload' hook', b = object id className' payload' hook' := by
  cases b with
  | object other className' payload' hook' =>
    rw [same, beq_iff_eq]
    constructor
    · rintro rfl
      exact ⟨_, _, _, rfl⟩
    · rintro ⟨_, _, _, h⟩
      cases h
      rfl
  | _ => simp [same]

/-- Arrays are equal when they have equal elements in every position. -/
theorem same_array_iff :
    (array xs).same (array ys) = true ↔
      ∀ i : Nat, Option.Rel (fun x y => x.same y = true) xs[i]? ys[i]? := by
  change sameItems xs ys = true ↔ _
  induction xs generalizing ys with
  | nil =>
    cases ys with
    | nil => simp [sameItems]
    | cons y ys =>
      constructor
      · intro h
        cases h
      · intro h
        cases h 0
  | cons x xs ih =>
    cases ys with
    | nil =>
      constructor
      · intro h
        cases h
      · intro h
        cases h 0
    | cons y ys =>
      rw [sameItems, Bool.and_eq_true, ih]
      constructor
      · rintro ⟨head, tail⟩ (_ | i)
        · exact .some head
        · exact tail i
      · intro h
        refine ⟨?_, fun i => h (i + 1)⟩
        obtain head | _ := h 0
        exact head

/-- Entries are the same as others if each has a same value under its key there. -/
theorem sameEntries_iff :
    sameEntries entries others = true ↔
      ∀ pair ∈ entries, ∃ value, others.get? pair.1 = some value ∧ pair.2.same value = true := by
  induction entries with
  | nil => simp [sameEntries]
  | cons pair rest ih =>
    rw [sameEntries, Bool.and_eq_true, ih, List.forall_mem_cons]
    cases Assoc.get? others pair.1 with
    | none => simp
    | some value => simp

/-- Hashes are equal when they have equal values for every key. -/
theorem same_hash_iff (distinct : entries.keys.Nodup) (hothers : others.keys.Nodup) :
    (hash entries).same (hash others) = true ↔
      ∀ key, Option.Rel (fun x y => x.same y = true) (entries.get? key) (others.get? key) := by
  change (entries.length == others.length && sameEntries entries others) = true ↔ _
  rw [Bool.and_eq_true, beq_iff_eq, sameEntries_iff]
  constructor
  · rintro ⟨hlength, found⟩ key
    have hsub : entries.keys ⊆ others.keys := by
      intro other hother
      obtain ⟨pair, hpair, rfl⟩ := List.mem_map.mp hother
      obtain ⟨value, hvalue, -⟩ := found pair hpair
      exact Assoc.mem_keys_iff.mpr (Option.isSome_iff_exists.mpr ⟨value, hvalue⟩)
    cases hkey : entries.get? key with
    | some value =>
      obtain ⟨other, hother, same⟩ := found _ (Assoc.mem_of_get? hkey)
      rw [hother]
      exact .some same
    | none =>
      -- the other hash has no key more, since it is as large
      have hfresh : key ∉ others.keys := fun hmem => Assoc.get?_eq_none_iff.mp hkey
        (Assoc.mem_keys_of_subset distinct hsub hlength hmem)
      rw [Assoc.get?_eq_none_iff.mpr hfresh]
      exact .none
  · intro h
    refine ⟨Assoc.length_eq_of_mem_keys_iff distinct hothers fun key => ?_, fun pair hpair => ?_⟩
    · rw [Assoc.mem_keys_iff, Assoc.mem_keys_iff]
      have rel := h key
      generalize entries.get? key = o, others.get? key = o' at rel ⊢
      cases rel <;> simp
    · have rel := h pair.1
      rw [Assoc.get?_of_mem distinct hpair] at rel
      cases hother : Assoc.get? others pair.1 with
      | none => rw [hother] at rel; cases rel
      | some value =>
        rw [hother] at rel
        obtain same | _ := rel
        exact ⟨value, rfl, same⟩

/-- Only arrays are the same as an array. -/
theorem exists_array_of_same (h : (array xs).same b = true) : ∃ ys, b = array ys := by
  cases b with
  | array ys => exact ⟨ys, rfl⟩
  | _ => cases h

/-- Only hashes are the same as a hash. -/
theorem exists_hash_of_same (h : (hash entries).same b = true) : ∃ others, b = hash others := by
  cases b with
  | hash others => exact ⟨others, rfl⟩
  | _ => cases h

/-! ### An equivalence relation -/

/-- Induction over the values whose hashes are maps, with one case for all that may be hash keys. -/
@[elab_as_elim]
theorem KeyedOnce.induction {motive : ∀ a : Value, a.KeyedOnce → Prop}
    (key : ∀ key : HashKey, ∀ h, motive key.toValue h) (proc : ∀ id h, motive (.proc id) h)
    (object : ∀ id className payload hook h, motive (.object id className payload hook) h)
    (array : ∀ items, ∀ h : ∀ item ∈ items, item.KeyedOnce,
      (∀ item, ∀ hitem : item ∈ items, motive item (h item hitem)) → motive (.array items) (.array h))
    (hash : ∀ entries : HashEntries, ∀ distinct : entries.keys.Nodup,
      ∀ h : ∀ pair ∈ entries, pair.2.KeyedOnce,
      (∀ pair, ∀ hpair : pair ∈ entries, motive pair.2 (h pair hpair)) →
        motive (.hash entries) (.hash distinct h))
    {a : Value} (h : a.KeyedOnce) : motive a h := by
  induction h with
  | nil => exact key .nil _
  | bool b => exact key (.bool b) _
  | int n => exact key (.int n) _
  | str text => exact key (.str text) _
  | symbol name => exact key (.symbol name) _
  | proc id => exact proc id _
  | object id className hook _ _ => exact object id className _ hook _
  | array h ih => exact array _ h ih
  | hash distinct h ih => exact hash _ distinct h ih

/-- A value is the same as itself, as long as its hashes have each key once. -/
theorem same_refl (h : a.KeyedOnce) : a.same a = true := by
  induction h using KeyedOnce.induction with
  | key key => exact (toValue_same_iff key).mpr rfl
  | proc id => exact (proc_same_iff id).mpr rfl
  | object id className payload hook => exact (object_same_iff ..).mpr ⟨_, _, _, rfl⟩
  | array xs _ ih =>
    exact same_array_iff.mpr fun i => rel_refl_of_mem fun x hx => ih x (List.mem_of_getElem? hx)
  | hash entries distinct _ ih =>
    exact (same_hash_iff distinct distinct).mpr fun key =>
      rel_refl_of_mem fun x hx => ih _ (Assoc.mem_of_get? hx)

/-- Being the same goes both ways between such values. -/
theorem same_symm (ha : a.KeyedOnce) (hb : b.KeyedOnce) (h : a.same b = true) : b.same a = true := by
  induction ha using KeyedOnce.induction generalizing b with
  | key key =>
    obtain rfl := (toValue_same_iff key).mp h
    exact h
  | proc id =>
    obtain rfl := (proc_same_iff id).mp h
    exact h
  | object id className payload hook =>
    obtain ⟨_, _, _, rfl⟩ := (object_same_iff ..).mp h
    exact (object_same_iff ..).mpr ⟨_, _, _, rfl⟩
  | array xs _ ih =>
    obtain ⟨ys, rfl⟩ := exists_array_of_same h
    exact same_array_iff.mpr fun i => rel_symm_of_mem
      (fun x y hx hy => ih x (List.mem_of_getElem? hx) (hb.of_getElem? hy)) (same_array_iff.mp h i)
  | hash entries distinct _ ih =>
    obtain ⟨others, rfl⟩ := exists_hash_of_same h
    exact (same_hash_iff hb.distinct_keys distinct).mpr fun key => rel_symm_of_mem
      (fun x y hx hy => ih _ (Assoc.mem_of_get? hx) (hb.of_get? hy))
      ((same_hash_iff distinct hb.distinct_keys).mp h key)

/-- A value that is the same as a same one is the same as the first. -/
theorem same_trans (ha : a.KeyedOnce) (hb : b.KeyedOnce) (hc : c.KeyedOnce) (h : a.same b = true)
    (h' : b.same c = true) : a.same c = true := by
  induction ha using KeyedOnce.induction generalizing b c with
  | key key =>
    obtain rfl := (toValue_same_iff key).mp h
    exact h'
  | proc id =>
    obtain rfl := (proc_same_iff id).mp h
    exact h'
  | object id className payload hook =>
    obtain ⟨_, _, _, rfl⟩ := (object_same_iff ..).mp h
    exact (object_same_iff ..).mpr ((object_same_iff ..).mp h')
  | array xs _ ih =>
    obtain ⟨ys, rfl⟩ := exists_array_of_same h
    obtain ⟨zs, rfl⟩ := exists_array_of_same h'
    exact same_array_iff.mpr fun i => rel_trans_of_mem
      (fun x y z hx hy hz =>
        ih x (List.mem_of_getElem? hx) (hb.of_getElem? hy) (hc.of_getElem? hz))
      (same_array_iff.mp h i) (same_array_iff.mp h' i)
  | hash entries distinct _ ih =>
    obtain ⟨others, rfl⟩ := exists_hash_of_same h
    obtain ⟨thirds, rfl⟩ := exists_hash_of_same h'
    exact (same_hash_iff distinct hc.distinct_keys).mpr fun key => rel_trans_of_mem
      (fun x y z hx hy hz => ih _ (Assoc.mem_of_get? hx) (hb.of_get? hy) (hc.of_get? hz))
      ((same_hash_iff distinct hb.distinct_keys).mp h key)
      ((same_hash_iff hb.distinct_keys hc.distinct_keys).mp h' key)

/-- The order in which a hash was built makes no difference. -/
theorem same_of_perm (h : (hash entries).KeyedOnce) (hperm : List.Perm entries others) :
    (hash entries).same (hash others) = true := by
  have hothers : others.keys.Nodup := (hperm.map Prod.fst).nodup_iff.mp h.distinct_keys
  refine (same_hash_iff h.distinct_keys hothers).mpr fun key => ?_
  rw [← Assoc.get?_of_perm h.distinct_keys hperm]
  exact rel_refl_of_mem fun x hx => same_refl (h.of_get? hx)

end Value

/-- The values whose hashes are maps. -/
abbrev KeyedValue := {value : Value // value.KeyedOnce}

/-! ### Hash keys -/

namespace HashKey

variable {a b : Value} {key key' : HashKey}

/-- Different keys stand for different values. -/
theorem toValue_injective : toValue.Injective := fun key key' h => by
  have hkeys := congrArg ofValue h
  rw [ofValue_toValue, ofValue_toValue] at hkeys
  exact Except.ok.inj hkeys

/-- The values that may be keys are those of keys. -/
theorem ofValue_eq_ok_iff : ofValue a = .ok key ↔ a = key.toValue := by
  constructor
  · intro h
    cases a with
    | nil | bool | int | str | symbol => cases h; rfl
    | array | hash | proc | object => cases h
  · rintro rfl
    exact ofValue_toValue key

/-- Values that may be keys are equal exactly when their keys are. -/
theorem eq_iff_same (ha : ofValue a = .ok key) (hb : ofValue b = .ok key') :
    key = key' ↔ a.same b = true := by
  obtain rfl := ofValue_eq_ok_iff.mp ha
  obtain rfl := ofValue_eq_ok_iff.mp hb
  rw [Value.toValue_same_iff, toValue_injective.eq_iff]
  exact eq_comm

end HashKey

namespace Value

/-- Equality is an equivalence relation on values, nested to any depth: arrays are equal element by
element, hashes when they have equal values for the same keys, in whatever order, closures and host
objects by identity.  Values that may be hash keys are equal exactly when their keys are, and each
is equal to the value of its key.  The operators `==` and `!=` tell whether two values are equal. -/
theorem equality_agrees_with_keys :
    (Equivalence fun a b : KeyedValue => a.1.same b.1 = true) ∧
    (∀ xs ys, (array xs).same (array ys) = true ↔
      ∀ i : Nat, Option.Rel (fun x y => x.same y = true) xs[i]? ys[i]?) ∧
    (∀ xs ys : HashEntries, (hash xs).KeyedOnce → (hash ys).KeyedOnce →
      ((hash xs).same (hash ys) = true ↔
        ∀ key, Option.Rel (fun x y => x.same y = true) (xs.get? key) (ys.get? key))) ∧
    (∀ xs ys : HashEntries, (hash xs).KeyedOnce → List.Perm xs ys →
      (hash xs).same (hash ys) = true) ∧
    (∀ id b, (proc id).same b = true ↔ b = proc id) ∧
    (∀ id className payload hook b, (object id className payload hook).same b = true ↔
      ∃ className' payload' hook', b = object id className' payload' hook') ∧
    (∀ a b key key', HashKey.ofValue a = .ok key → HashKey.ofValue b = .ok key' →
      (key = key' ↔ a.same b = true)) ∧
    (∀ a key, HashKey.ofValue a = .ok key → key.toValue.same a = true) ∧
    ∀ a b, BinaryOp.eq.eval a b = .ok (.bool (a.same b)) ∧
      BinaryOp.ne.eval a b = .ok (.bool (!a.same b)) := by
  refine ⟨⟨fun a => same_refl a.2, fun {a b} => same_symm a.2 b.2,
    fun {a b c} => same_trans a.2 b.2 c.2⟩, fun _ _ => same_array_iff, fun xs ys hxs hys =>
    same_hash_iff hxs.distinct_keys hys.distinct_keys, fun _ _ => same_of_perm,
    fun id _ => proc_same_iff id, fun id className payload hook _ =>
    object_same_iff id className payload hook, fun _ _ _ _ => HashKey.eq_iff_same, ?_,
    fun _ _ => ⟨rfl, rfl⟩⟩
  intro a key h
  exact (toValue_same_iff key).mpr (HashKey.ofValue_eq_ok_iff.mp h)

/-- Two hashes that hold a hash and an array, built in different orders, are equal, and so is a
third one that is equal to the second. -/
theorem equality_agrees_with_keys_nested :
    let inner : HashEntries := [(.nil, .array [.int 1]), (.bool false, .proc ⟨0⟩)]
    let first : HashEntries := [(.str "a", .hash inner), (.symbol ⟨34⟩, .nil)]
    let second : HashEntries := [(.symbol ⟨34⟩, .nil), (.str "a", .hash inner.reverse)]
    (hash first).KeyedOnce ∧ (hash second).KeyedOnce ∧ (hash first).same (hash second) = true ∧
      (hash second).same (hash first) = true ∧
      (hash first).same (hash second.reverse) = true ∧
      (∀ key, Option.Rel (fun x y => x.same y = true) (first.get? key) (second.get? key)) ∧
      (HashKey.str "a" = .symbol ⟨34⟩ ↔ (str "a").same (symbol ⟨34⟩) = true) := by
  intro inner first second
  have firstOnce : (hash first).KeyedOnce := by simp [first, inner, Assoc.keys]
  have secondOnce : (hash second).KeyedOnce := by simp [second, inner, Assoc.keys]
  have thirdOnce : (hash second.reverse).KeyedOnce := by simp [second, inner, Assoc.keys]
  obtain ⟨equivalence, -, hashes, orders, -, -, keys, -⟩ := equality_agrees_with_keys
  have same : (hash first).same (hash second) = true := by decide
  exact ⟨firstOnce, secondOnce, same,
    @Equivalence.symm _ _ equivalence ⟨_, firstOnce⟩ ⟨_, secondOnce⟩ same,
    @Equivalence.trans _ _ equivalence ⟨_, firstOnce⟩ ⟨_, secondOnce⟩ ⟨_, thirdOnce⟩ same
      (orders second second.reverse secondOnce (List.reverse_perm second).symm),
    (hashes first second firstOnce secondOnce).mp same, keys _ _ _ _ rfl rfl⟩

end Value

end ScriptSemantics
