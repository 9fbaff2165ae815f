/-!
# Insertion-ordered maps

A map that remembers the order in which its keys were first put, as a list of pairs.  Hash values,
keyword arguments, scopes and the method table are such maps.

## Main Definitions

* `Assoc` — a list of key and value pairs
* `Assoc.get?`, `Assoc.put`, `Assoc.erase` — read, write and remove one key
* `Assoc.putAll` — write the pairs of another map, in its order

## Design Notes

`put` keeps the place of a key that is present and overwrites its value; a new key goes to the end.
A map built by `put` from the empty one holds each key once.
-/

namespace ScriptSemantics

/-- A map as the list of its pairs, in the order in which the keys were first put. -/
abbrev Assoc (κ α : Type) := List (κ × α)

namespace Assoc

variable {κ α : Type} [DecidableEq κ]

/-- The value of the first pair with this key. -/
def get? : Assoc κ α → κ → Option α
  | [], _ => none
  | (k, v) :: rest, key => if k = key then some v else get? rest key

/-- Whether some pair has this key. -/
def contains (map : Assoc κ α) (key : κ) : Bool :=
  (map.get? key).isSome

/-- Overwrite the value of a present key in its place, or append a new pair. -/
def put : Assoc κ α → κ → α → Assoc κ α
  | [], key, value => [(key, value)]
  | (k, v) :: rest, key, value =>
    if k = key then (k, value) :: rest else (k, v) :: put rest key value

/-- Remove the pair of a key; the other pairs keep their order. -/
def erase : Assoc κ α → κ → Assoc κ α
  | [], _ => []
  | (k, v) :: rest, key => if k = key then rest else (k, v) :: erase rest key

/-- Put all pairs of another map, in its order. -/
def putAll (map other : Assoc κ α) : Assoc κ α :=
  other.foldl (fun acc pair => acc.put pair.1 pair.2) map

/-- The keys, in order. -/
def keys (map : Assoc κ α) : List κ :=
  map.map Prod.fst

@[simp]
theorem get?_nil (key : κ) : get? ([] : Assoc κ α) key = none := rfl

/-- After a `put`, the key has the new value and the other keys keep theirs. -/
theorem get?_put (map : Assoc κ α) (key other : κ) (value : α) :
    (map.put key value).get? other = if key = other then some value else map.get? other := by
  induction map with
  | nil => rfl
  | cons pair rest ih =>
    obtain ⟨k, v⟩ := pair
    by_cases hk : k = key
    · by_cases ho : key = other <;> simp [put, get?, hk, ho]
    · by_cases ho : key = other
      · have hne : k ≠ other := fun h => hk (h.trans ho.symm)
        simpa [put, get?, hk, hne, ho] using ih
      · simp only [put, hk, if_false, get?, ih, ho]

end Assoc

end ScriptSemantics
