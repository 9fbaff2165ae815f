import ScriptSemantics.Assoc
import Mathlib.Data.List.Nodup

/-!
# Keys of insertion-ordered maps

Which keys a map has and in which order, and reading it where each key occurs once.

## Main Results

* `Assoc.get?_of_mem` — where keys occur once, a key has the value of its pair
* `Assoc.erase_eq_filter` — where keys occur once, the other pairs stay
* `Assoc.nodup_keys_put`, `Assoc.nodup_keys_putAll` — what is put leaves each key once
* `Assoc.putAll_eq_append` — new keys go to the end, in their order
* `Assoc.keys_mergeAll`, `Assoc.get?_mergeAll` — merged maps keep the first place of a key and its
  last value
* `Assoc.putAll_assoc` — merging is associative
-/

namespace ScriptSemantics.Assoc

variable {κ α : Type}

theorem keys_filter (map : Assoc κ α) (p : κ → Bool) :
    keys (map.filter (p ·.1)) = map.keys.filter p := by
  rw [keys, keys, List.filter_map]
  rfl

variable [DecidableEq κ] {map other : Assoc κ α} {key : κ} {value : α}

theorem mem_of_get? (h : map.get? key = some value) : (key, value) ∈ map := by
  induction map with
  | nil => cases h
  | cons pair rest ih =>
    rw [get?] at h
    split at h
    next hkey =>
      cases h
      exact hkey ▸ List.mem_cons_self
    next => exact List.mem_cons_of_mem _ (ih h)

theorem mem_keys_iff : key ∈ map.keys ↔ (map.get? key).isSome = true := by
  induction map with
  | nil => simp [keys, get?]
  | cons pair rest ih =>
    rw [keys, List.map_cons, List.mem_cons, get?]
    split
    next heq => simp [heq]
    next hne =>
      rw [← ih, keys]
      exact or_iff_right fun h => hne h.symm

theorem get?_eq_none_iff : map.get? key = none ↔ key ∉ map.keys := by
  rw [mem_keys_iff, Option.not_isSome_iff_eq_none]

/-- Where keys occur once, a key has the value of its pair. -/
theorem get?_of_mem (distinct : map.keys.Nodup) (h : (key, value) ∈ map) :
    map.get? key = some value := by
  induction map with
  | nil => cases h
  | cons pair rest ih =>
    rw [keys, List.map_cons, List.nodup_cons] at distinct
    rcases List.mem_cons.mp h with rfl | h
    · exact if_pos rfl
    · have hne : pair.1 ≠ key := by
        rintro rfl
        exact distinct.1 (List.mem_map.mpr ⟨_, h, rfl⟩)
      rw [get?, if_neg hne]
      exact ih distinct.2 h

theorem get?_append (h : map.get? key = some value) : get? (map ++ other) key = some value := by
  induction map with
  | nil => cases h
  | cons pair rest ih =>
    rw [get?] at h
    rw [List.cons_append, get?]
    split at h
    next hkey => rwa [if_pos hkey]
    next hkey => rw [if_neg hkey, ih h]

/-- Leaving out other keys does not change what a key has. -/
theorem get?_filter {p : κ → Bool} (h : p key = true) :
    get? (map.filter (p ·.1)) key = map.get? key := by
  induction map with
  | nil => rfl
  | cons pair rest ih =>
    by_cases hkey : pair.1 = key
    · rw [List.filter_cons_of_pos (by rw [hkey, h]), get?, get?, if_pos hkey, if_pos hkey]
    · rw [List.filter_cons, get?, if_neg hkey]
      split
      · rw [get?, if_neg hkey, ih]
      · exact ih

/-- Where keys occur once, erasing one leaves the pairs of the others. -/
theorem erase_eq_filter (distinct : map.keys.Nodup) (key : κ) :
    map.erase key = map.filter (·.1 ≠ key) := by
  induction map with
  | nil => rfl
  | cons pair rest ih =>
    obtain ⟨hfresh, hrest⟩ := List.nodup_cons.mp distinct
    rw [erase]
    split
    next hkey =>
      rw [List.filter_cons_of_neg (by simpa using hkey)]
      refine (List.filter_eq_self.mpr fun other hother => ?_).symm
      have hne : other.1 ≠ key := by
        rintro rfl
        exact hfresh (hkey ▸ List.mem_map_of_mem hother)
      simpa using hne
    next hkey => rw [List.filter_cons_of_pos (by simpa using hkey), ih hrest]

theorem mem_keys_put {other : κ} :
    other ∈ (map.put key value).keys ↔ other = key ∨ other ∈ map.keys := by
  rw [mem_keys_iff, mem_keys_iff, get?_put]
  by_cases hkey : key = other
  · simp [hkey]
  · simp [hkey, Ne.symm hkey]

theorem nodup_keys_put (distinct : map.keys.Nodup) (key : κ) (value : α) :
    (map.put key value).keys.Nodup := by
  induction map with
  | nil => simp [put, keys]
  | cons pair rest ih =>
    obtain ⟨hfresh, hrest⟩ := List.nodup_cons.mp distinct
    rw [put]
    split
    next => exact distinct
    next hne =>
      refine List.nodup_cons.mpr ⟨fun hmem => ?_, ih hrest⟩
      rcases mem_keys_put.mp hmem with heq | hmem
      · exact hne heq
      · exact hfresh hmem

theorem nodup_keys_putAll (distinct : map.keys.Nodup) (other : Assoc κ α) :
    (map.putAll other).keys.Nodup :=
  List.foldlRecOn (motive := fun map : Assoc κ α => map.keys.Nodup) other _ distinct
    fun _ h _ _ => nodup_keys_put h _ _

/-- A new key goes to the end. -/
theorem put_of_not_mem (fresh : key ∉ map.keys) (value : α) :
    map.put key value = map ++ [(key, value)] := by
  induction map with
  | nil => rfl
  | cons pair rest ih =>
    rw [keys, List.map_cons, List.mem_cons, not_or] at fresh
    rw [put, if_neg (Ne.symm fresh.1), ih fresh.2, List.cons_append]

/-- New keys go to the end, in their order. -/
theorem putAll_eq_append {other : Assoc κ α} (distinct : (keys (map ++ other)).Nodup) :
    map.putAll other = map ++ other := by
  induction other generalizing map with
  | nil => exact (List.append_nil map).symm
  | cons pair rest ih =>
    have fresh : pair.1 ∉ map.keys := fun hmem => by
      rw [keys, List.map_append, List.nodup_append] at distinct
      exact distinct.2.2 _ hmem _ List.mem_cons_self rfl
    have happend : map ++ pair :: rest = map ++ [pair] ++ rest := by simp
    rw [happend] at distinct ⊢
    rw [← ih distinct, ← put_of_not_mem fresh]
    rfl

/-- Pairs with distinct keys can be put one after the other again. -/
theorem putAll_nil_left (distinct : map.keys.Nodup) : putAll [] map = map :=
  putAll_eq_append distinct

/-! ### Merging -/

/-- Where keys occur once, a map is told by the order of its keys and by what they have. -/
theorem ext_of_keys (distinct : map.keys.Nodup) (hkeys : map.keys = other.keys)
    (hget : ∀ key, map.get? key = other.get? key) : map = other := by
  induction map generalizing other with
  | nil => exact (List.map_eq_nil_iff.mp hkeys.symm).symm
  | cons pair rest ih =>
    obtain ⟨pair', rest', rfl⟩ : ∃ pair' rest', other = pair' :: rest' :=
      List.exists_cons_of_ne_nil fun h => by rw [h] at hkeys; cases hkeys
    obtain ⟨hkey, hrest⟩ : pair.1 = pair'.1 ∧ keys rest = keys rest' := List.cons.inj hkeys
    obtain ⟨hfresh, distinct⟩ := List.nodup_cons.mp distinct
    have hvalue := hget pair.1
    rw [get?, get?, if_pos rfl, if_pos hkey.symm] at hvalue
    refine congrArg₂ _ (Prod.ext hkey (Option.some.inj hvalue)) (ih distinct hrest fun key => ?_)
    by_cases heq : pair.1 = key
    · -- the first key is read in neither rest
      subst heq
      rw [get?_eq_none_iff.mpr hfresh, get?_eq_none_iff.mpr (hrest ▸ hfresh : pair.1 ∉ keys rest')]
    · have h := hget key
      rwa [get?, get?, if_neg heq, if_neg (hkey ▸ heq)] at h

theorem keys_put (map : Assoc κ α) (key : κ) (value : α) :
    (map.put key value).keys = if key ∈ map.keys then map.keys else map.keys ++ [key] := by
  induction map with
  | nil => rfl
  | cons pair rest ih =>
    have hmem : key ∈ keys (pair :: rest) ↔ key = pair.1 ∨ key ∈ keys rest := List.mem_cons
    rw [put]
    split
    next hkey => exact (if_pos (hmem.mpr (.inl hkey.symm))).symm
    next hkey =>
      change pair.1 :: keys (put rest key value) = _
      rw [ih, if_congr (hmem.trans (or_iff_right (Ne.symm hkey))) rfl rfl]
      split <;> rfl

theorem eraseDups_of_nodup {list : List κ} (h : list.Nodup) : list.eraseDups = list := by
  induction list with
  | nil => rfl
  | cons a rest ih =>
    obtain ⟨hfresh, hrest⟩ := List.nodup_cons.mp h
    have others : rest.filter (fun b => !b == a) = rest := List.filter_eq_self.mpr fun b hb => by
      simpa using fun heq : b = a => hfresh (heq ▸ hb)
    rw [List.eraseDups_cons, others, ih hrest]

/-- What the front holds twice makes no difference. -/
theorem eraseDups_append_congr {front front' : List κ} (h : front.eraseDups = front'.eraseDups)
    (back : List κ) : (front ++ back).eraseDups = (front' ++ back).eraseDups := by
  have hmem : ∀ key, key ∈ front ↔ key ∈ front' := fun key => by
    rw [← List.mem_eraseDups, h, List.mem_eraseDups]
  rw [List.eraseDups_append, List.eraseDups_append, h, List.removeAll, List.removeAll]
  simp only [List.elem_eq_mem, hmem]

/-- Leaving out what is there already is leaving out what occurs once more. -/
theorem eraseDups_concat (list : List κ) (key : κ) :
    (if key ∈ list then list else list ++ [key]).eraseDups = (list ++ [key]).eraseDups := by
  split
  next hmem =>
    rw [List.eraseDups_append, List.removeAll, List.filter_cons_of_neg (by simpa using hmem)]
    exact (List.append_nil _).symm
  next => rfl

/-- The keys of merged maps are those of both, each in its first place. -/
theorem keys_putAll (distinct : map.keys.Nodup) (other : Assoc κ α) :
    (map.putAll other).keys = (map.keys ++ other.keys).eraseDups := by
  induction other generalizing map with
  | nil => exact ((congrArg _ (List.append_nil _)).trans (eraseDups_of_nodup distinct)).symm
  | cons pair rest ih =>
    have hput : (map.put pair.1 pair.2).keys.eraseDups = (map.keys ++ [pair.1]).eraseDups := by
      rw [keys_put, eraseDups_concat]
    calc (map.putAll (pair :: rest)).keys
      _ = ((map.put pair.1 pair.2).keys ++ keys rest).eraseDups := ih (nodup_keys_put distinct _ _)
      _ = (map.keys ++ [pair.1] ++ keys rest).eraseDups := eraseDups_append_congr hput _
      _ = (map.keys ++ keys (pair :: rest)).eraseDups := by rw [List.append_assoc]; rfl

/-- New keys go to the end, in their order. -/
theorem keys_putAll_of_nodup (distinct : map.keys.Nodup) (hother : other.keys.Nodup) :
    (map.putAll other).keys = map.keys ++ other.keys.filter (· ∉ map.keys) := by
  have hfilter : other.keys.removeAll map.keys = other.keys.filter (· ∉ map.keys) :=
    List.filter_congr fun key _ => by simp
  rw [keys_putAll distinct, List.eraseDups_append, eraseDups_of_nodup distinct, hfilter,
    eraseDups_of_nodup (hother.filter _)]

/-- A key of merged maps has its last value. -/
theorem get?_putAll (map : Assoc κ α) (distinct : other.keys.Nodup) (key : κ) :
    (map.putAll other).get? key = (other.get? key).or (map.get? key) := by
  induction other generalizing map with
  | nil => rfl
  | cons pair rest ih =>
    obtain ⟨hfresh, distinct⟩ := List.nodup_cons.mp distinct
    change ((map.put pair.1 pair.2).putAll rest).get? key = _
    rw [ih _ distinct, get?_put, get?]
    by_cases hkey : pair.1 = key
    · subst hkey
      rw [get?_eq_none_iff.mpr hfresh, if_pos rfl, if_pos rfl]
      rfl
    · rw [if_neg hkey, if_neg hkey]

/-- Merging is associative. -/
theorem putAll_assoc {first second third : Assoc κ α} (hfirst : first.keys.Nodup)
    (hsecond : second.keys.Nodup) (hthird : third.keys.Nodup) :
    (first.putAll second).putAll third = first.putAll (second.putAll third) := by
  have hleft := nodup_keys_putAll hfirst second
  have hright := nodup_keys_putAll hsecond third
  refine ext_of_keys (nodup_keys_putAll hleft third) ?_ fun key => ?_
  · -- a key of the third map is new when it is in neither of the first two
    have hnew : third.keys.filter (· ∉ first.keys ++ second.keys.filter (· ∉ first.keys)) =
        (third.keys.filter (· ∉ second.keys)).filter (· ∉ first.keys) := by
      rw [List.filter_filter]
      refine List.filter_congr fun key _ => ?_
      by_cases h : key ∈ first.keys <;> simp [h]
    rw [keys_putAll_of_nodup hleft hthird, keys_putAll_of_nodup hfirst hright,
      keys_putAll_of_nodup hfirst hsecond, keys_putAll_of_nodup hsecond hthird, List.filter_append,
      hnew, List.append_assoc]
  · rw [get?_putAll _ hthird, get?_putAll _ hsecond, get?_putAll _ hright, get?_putAll _ hthird,
      Option.or_assoc]

variable {maps : List (Assoc κ α)}

/-- Maps that are merged one after the other keep each key in its first place. -/
theorem keys_mergeAll (distinct : map.keys.Nodup) (maps : List (Assoc κ α)) :
    (maps.foldl putAll map).keys = (map.keys ++ maps.flatMap keys).eraseDups := by
  induction maps generalizing map with
  | nil => exact keys_putAll distinct []
  | cons other rest ih =>
    have hmerged := nodup_keys_putAll distinct other
    rw [List.foldl_cons, ih hmerged, List.flatMap_cons, ← List.append_assoc]
    exact eraseDups_append_congr ((eraseDups_of_nodup hmerged).trans (keys_putAll distinct other)) _

/-- Maps that are merged one after the other give each key its last value. -/
theorem get?_mergeAll (map : Assoc κ α) (distinct : ∀ other ∈ maps, other.keys.Nodup) (key : κ) :
    (maps.foldl putAll map).get? key =
      (maps.reverse.findSome? fun other => other.get? key).or (map.get? key) := by
  induction maps generalizing map with
  | nil => rfl
  | cons other rest ih =>
    obtain ⟨hother, distinct⟩ := List.forall_mem_cons.mp distinct
    rw [List.foldl_cons, ih _ distinct, get?_putAll _ hother, List.reverse_cons,
      List.findSome?_append, Option.or_assoc]
    simp

theorem nodup_keys_mergeAll (distinct : map.keys.Nodup) (maps : List (Assoc κ α)) :
    (maps.foldl putAll map).keys.Nodup :=
  List.foldlRecOn (motive := fun map : Assoc κ α => map.keys.Nodup) maps _ distinct
    fun _ h _ _ => nodup_keys_putAll h _

/-- Maps that are merged one after the other may be merged among themselves first. -/
theorem mergeAll_eq_putAll (distinct : map.keys.Nodup) (hmaps : ∀ other ∈ maps, other.keys.Nodup) :
    maps.foldl putAll map = map.putAll (maps.foldl putAll []) := by
  suffices merged : ∀ soFar : Assoc κ α, soFar.keys.Nodup →
      maps.foldl putAll (map.putAll soFar) = map.putAll (maps.foldl putAll soFar) from
    merged [] List.nodup_nil
  intro soFar hsoFar
  induction maps generalizing soFar with
  | nil => rfl
  | cons other rest ih =>
    obtain ⟨hother, hrest⟩ := List.forall_mem_cons.mp hmaps
    rw [List.foldl_cons, List.foldl_cons, putAll_assoc distinct hsoFar hother]
    exact ih hrest _ (nodup_keys_putAll hsoFar other)

end ScriptSemantics.Assoc
