import ScriptSemantics.Name
import ScriptSemantics.Proofs.AssocKeys

/-!
# Interning

A table of names only grows: it lists the different strings it was ever given in the order of their
first use, so names and strings determine each other, at any time.

## Main Definitions

* `NameTable.bare`, `NameTable.internAll` — the empty string only, and strings interned one after
  the other
* `NameTable.after` — a new table after some calls
* `NameTable.Sound` — each string has one number, the empty string the first
* `IndexedTable` — a table with a map from strings to numbers and a limit

## Main Results

* `NameTable.strings_internAll` — the strings of a table are those it was given, without repetitions
* `NameTable.names_internAll` — every name that was given out stands for its string
* `IndexedTable.tryInternAll_eq_ok` — below the limit, a table with a map gives out the same names
* `NameTable.interning_is_growing_bijection` — names and strings determine each other

## Design Notes

A search for a string in the vector of all strings and a look into a map agree as long as the map is
the inverse of the vector (`IndexedTable.Indexes`).  Both grow together, so one step of the table
with the map is one step of the table without.
-/

namespace ScriptSemantics

namespace NameTable

variable {table : NameTable} {text other : String} {name : Name} {calls : List String}

/-- The table that knows the empty string only. -/
def bare : NameTable :=
  ⟨#[""]⟩

/-- Intern strings one after the other: the names that are given out, and the table that is left. -/
def internAll (table : NameTable) : List String → List Name × NameTable
  | [] => ([], table)
  | text :: rest =>
    let (name, next) := table.intern text
    let (names, last) := next.internAll rest
    (name :: names, last)

/-- A new table after some calls. -/
def after (calls : List String) : NameTable :=
  (initial.internAll calls).2

/-- Calls go on with the table that those before them leave. -/
theorem internAll_append (table : NameTable) (calls later : List String) :
    table.internAll (calls ++ later) =
      ((table.internAll calls).1 ++ ((table.internAll calls).2.internAll later).1,
        ((table.internAll calls).2.internAll later).2) := by
  induction calls generalizing table with
  | nil => rfl
  | cons text rest ih =>
    change (_ :: ((table.intern text).2.internAll (rest ++ later)).1,
      ((table.intern text).2.internAll (rest ++ later)).2) = _
    rw [ih]
    rfl

/-- Each string has one number, and the empty string the first. -/
structure Sound (table : NameTable) : Prop where
  distinct : table.strings.toList.Nodup
  empty_first : table.strings[0]? = some ""

/-! ### One call -/

/-- Where each string has one number, a number is told by its string. -/
theorem Sound.index_inj (sound : table.Sound) {i j : Nat} (hi : table.strings[i]? = some text)
    (hj : table.strings[j]? = some text) : i = j := by
  rw [← Array.getElem?_toList] at hi hj
  have hlt : i < table.strings.toList.length := (List.getElem?_eq_some_iff.mp hi).1
  exact (List.getElem?_inj hlt sound.distinct).mp (hi.trans hj.symm)

/-- A name that is found stands for the string that was looked for. -/
theorem getElem?_of_find? (h : table.find? text = some name) :
    table.strings[name.index]? = some text := by
  obtain ⟨i, hi, rfl⟩ := Option.map_eq_some_iff.mp h
  obtain ⟨hlt, hfound, -⟩ := Array.findIdx?_eq_some_iff_getElem.mp hi
  exact Array.getElem?_eq_some_iff.mpr ⟨hlt, eq_of_beq hfound⟩

/-- A search fails exactly for strings that are not listed. -/
theorem find?_eq_none_iff : table.find? text = none ↔ text ∉ table.strings.toList := by
  rw [find?, Option.map_eq_none_iff, Array.findIdx?_eq_none_iff, Array.mem_toList_iff]
  constructor
  · intro h hmem
    simpa using h text hmem
  · intro h other hother
    refine beq_false_of_ne ?_
    rintro rfl
    exact h hother

/-- What a search finds in a table with one string more. -/
theorem find?_push (table : NameTable) (text other : String) :
    (⟨table.strings.push text⟩ : NameTable).find? other =
      (table.find? other).or (if text = other then some ⟨table.size⟩ else none) := by
  rw [find?, find?, Array.findIdx?_push, Option.map_or]
  by_cases h : text = other <;> simp [h, size]

/-- A string that is found is not listed again. -/
theorem intern_of_find?_eq_some (h : table.find? text = some name) :
    table.intern text = (name, table) := by
  rw [intern, h]

/-- A string that is not found is listed last. -/
theorem intern_of_find?_eq_none (h : table.find? text = none) :
    table.intern text = (⟨table.size⟩, ⟨table.strings.push text⟩) := by
  rw [intern, h]

/-- A string that is listed keeps its name, and the table stays as it is. -/
theorem intern_of_mem (h : text ∈ table.strings.toList) :
    ∃ name, table.intern text = (name, table) ∧ table.strings[name.index]? = some text := by
  cases hfind : table.find? text with
  | none => exact absurd h (find?_eq_none_iff.mp hfind)
  | some name => exact ⟨name, intern_of_find?_eq_some hfind, getElem?_of_find? hfind⟩

/-- A string that is not listed gets the next number. -/
theorem intern_of_not_mem (h : text ∉ table.strings.toList) :
    table.intern text = (⟨table.size⟩, ⟨table.strings.push text⟩) :=
  intern_of_find?_eq_none (find?_eq_none_iff.mpr h)

/-- A string is listed once more only when it is new. -/
theorem strings_intern (table : NameTable) (text : String) :
    (table.intern text).2.strings.toList =
      if text ∈ table.strings.toList then table.strings.toList
      else table.strings.toList ++ [text] := by
  split
  next h =>
    obtain ⟨name, hname, -⟩ := intern_of_mem h
    rw [hname]
  next h =>
    rw [intern_of_not_mem h]
    exact Array.toList_push

/-- The table grows by new strings only. -/
theorem size_intern (table : NameTable) (text : String) :
    (table.intern text).2.size =
      if text ∈ table.strings.toList then table.size else table.size + 1 := by
  have h := congrArg List.length (strings_intern table text)
  rw [Array.length_toList] at h
  rw [size, h]
  split <;> simp [size]

/-- The name that is given out stands for the string. -/
theorem getElem?_intern_self (table : NameTable) (text : String) :
    (table.intern text).2.strings[(table.intern text).1.index]? = some text := by
  by_cases h : text ∈ table.strings.toList
  · obtain ⟨name, hname, hindex⟩ := intern_of_mem h
    rw [hname]
    exact hindex
  · rw [intern_of_not_mem h]
    exact Array.getElem?_push_size

/-- Other names stay as they are. -/
theorem getElem?_intern {i : Nat} (h : table.strings[i]? = some other) (text : String) :
    (table.intern text).2.strings[i]? = some other := by
  rw [← Array.getElem?_toList] at h ⊢
  rw [strings_intern]
  split
  next => exact h
  next => rw [List.getElem?_append_left (List.getElem?_eq_some_iff.mp h).1, h]

/-- A call gives no string a second number. -/
theorem Sound.intern (sound : table.Sound) (text : String) : (table.intern text).2.Sound where
  distinct := by
    rw [strings_intern]
    split
    next => exact sound.distinct
    next hfresh => exact List.nodup_append.mpr ⟨sound.distinct, List.nodup_singleton text,
      fun a ha b hb => by rintro rfl; exact hfresh (List.mem_singleton.mp hb ▸ ha)⟩
  empty_first := getElem?_intern sound.empty_first text

/-! ### All calls -/

theorem sound_bare : bare.Sound := ⟨List.nodup_singleton _, rfl⟩

/-- No number of calls does. -/
theorem Sound.internAll (sound : table.Sound) (calls : List String) :
    (table.internAll calls).2.Sound := by
  induction calls generalizing table with
  | nil => exact sound
  | cons text rest ih => exact ih (sound.intern text)

/-- Names stay as they are, whatever is interned later. -/
theorem getElem?_internAll {i : Nat} (h : table.strings[i]? = some other) (calls : List String) :
    (table.internAll calls).2.strings[i]? = some other := by
  induction calls generalizing table with
  | nil => exact h
  | cons text rest ih => exact ih (getElem?_intern h text)

/-- The strings of a table are those it was given, in the order of their first use. -/
theorem strings_internAll (sound : table.Sound) (calls : List String) :
    (table.internAll calls).2.strings.toList = (table.strings.toList ++ calls).eraseDups := by
  induction calls generalizing table with
  | nil => rw [List.append_nil, Assoc.eraseDups_of_nodup sound.distinct]; rfl
  | cons text rest ih =>
    have hnext : (table.intern text).2.strings.toList.eraseDups =
        (table.strings.toList ++ [text]).eraseDups := by
      rw [strings_intern, Assoc.eraseDups_concat]
    calc (table.internAll (text :: rest)).2.strings.toList
      _ = ((table.intern text).2.strings.toList ++ rest).eraseDups := ih (sound.intern text)
      _ = (table.strings.toList ++ [text] ++ rest).eraseDups :=
          Assoc.eraseDups_append_congr hnext rest
      _ = (table.strings.toList ++ text :: rest).eraseDups := by rw [List.append_assoc]; rfl

/-- Listed is what was listed before or given since. -/
theorem mem_strings_internAll (sound : table.Sound) :
    text ∈ (table.internAll calls).2.strings.toList ↔ text ∈ table.strings.toList ++ calls := by
  rw [strings_internAll sound, List.mem_eraseDups]

/-- The table never shrinks. -/
theorem size_le_internAll (table : NameTable) (calls : List String) :
    table.size ≤ (table.internAll calls).2.size := by
  induction calls generalizing table with
  | nil => exact Nat.le_refl _
  | cons text rest ih =>
    refine Nat.le_trans ?_ (ih (table.intern text).2)
    rw [size_intern]
    split <;> omega

/-- The names that are given out are those of the strings. -/
theorem mem_names_iff (sound : table.Sound) :
    name ∈ (table.internAll calls).1 ↔
      ∃ text ∈ calls, (table.internAll calls).2.strings[name.index]? = some text := by
  induction calls generalizing table with
  | nil => exact ⟨nofun, nofun⟩
  | cons text rest ih =>
    have hself := getElem?_internAll (getElem?_intern_self table text) rest
    have hnext := sound.intern text
    change name ∈ (table.intern text).1 :: ((table.intern text).2.internAll rest).1 ↔ _
    rw [List.mem_cons, ih hnext, List.exists_mem_cons_iff]
    refine or_congr_left ⟨fun h => h ▸ hself, fun h => ?_⟩
    exact congrArg Name.mk ((hnext.internAll rest).index_inj h hself)

/-- The pre-interned table is what interning the reserved names leaves. -/
theorem initial_eq : (bare.internAll reserved).2 = initial := by
  have distinct : ("" :: reserved).Nodup := by decide
  have hstrings := (strings_internAll sound_bare reserved).trans
    (Assoc.eraseDups_of_nodup distinct)
  exact congrArg mk (Array.toList_inj.mp hstrings)

theorem sound_initial : initial.Sound := initial_eq ▸ sound_bare.internAll reserved

/-- So the calls may be taken to start with the reserved names. -/
theorem after_eq (calls : List String) : after calls = (bare.internAll (reserved ++ calls)).2 := by
  rw [after, ← initial_eq, internAll_append]

theorem sound_after (calls : List String) : (after calls).Sound := sound_initial.internAll calls

theorem mem_after : text ∈ (after calls).strings.toList ↔ text ∈ "" :: reserved ++ calls :=
  mem_strings_internAll sound_initial

/-! ### Names and strings -/

/-- A search finds a name exactly where the string is listed. -/
theorem Sound.find?_eq_some_iff (sound : table.Sound) :
    table.find? text = some name ↔ table.strings[name.index]? = some text := by
  refine ⟨getElem?_of_find?, fun h => ?_⟩
  cases hfind : table.find? text with
  | none =>
    exact absurd (Array.mem_toList_iff.mpr (Array.mem_of_getElem? h)) (find?_eq_none_iff.mp hfind)
  | some found =>
    exact congrArg (some <| Name.mk ·) (sound.index_inj (getElem?_of_find? hfind) h)

/-- A name is looked up as its string. -/
theorem lookup_of_getElem? {i : Nat} (h : table.strings[i]? = some text) :
    table.lookup ⟨i⟩ = text := by
  rw [lookup, Array.getD_eq_getD_getElem?, h]
  rfl

/-- A name that was never given out is looked up as the empty string. -/
theorem lookup_of_size_le (h : table.size ≤ name.index) : table.lookup name = "" := by
  rw [lookup, Array.getD_eq_getD_getElem?, Array.getElem?_eq_none h]
  rfl

/-- Two calls give out the same name exactly for the same string, whatever was interned in
between. -/
theorem intern_eq_iff (sound : table.Sound) (text other : String) (between : List String) :
    ((((table.intern text).2.internAll between).2.intern other).1 = (table.intern text).1) ↔
      other = text := by
  have hnext := (sound.intern text).internAll between
  have hself := getElem?_internAll (getElem?_intern_self table text) between
  have hother := getElem?_intern_self ((table.intern text).2.internAll between).2 other
  have hkept := getElem?_intern hself other
  constructor
  · intro h
    rw [h, hkept] at hother
    exact (Option.some.inj hother).symm
  · rintro rfl
    exact congrArg Name.mk ((hnext.intern other).index_inj hother hkept)

/-- The names below the number of strings are the empty name and those that were given out. -/
theorem lt_size_iff {k : Nat} :
    k < (bare.internAll calls).2.size ↔ (⟨k⟩ : Name) ∈ Name.empty :: (bare.internAll calls).1 := by
  have sound := sound_bare.internAll calls
  rw [List.mem_cons, mem_names_iff sound_bare]
  constructor
  · intro hk
    have hindex := Array.getElem?_eq_getElem hk
    have hmem : _ ∈ "" :: calls := (mem_strings_internAll sound_bare).mp
      (Array.mem_toList_iff.mpr (Array.mem_of_getElem? hindex))
    rcases List.mem_cons.mp hmem with hempty | hcall
    · rw [hempty] at hindex
      exact .inl (congrArg Name.mk (sound.index_inj hindex sound.empty_first))
    · exact .inr ⟨_, hcall, hindex⟩
  · have below : ∀ {i : Nat} {string : String},
        (bare.internAll calls).2.strings[i]? = some string → i < (bare.internAll calls).2.size :=
      fun h => (Array.getElem?_eq_some_iff.mp h).1
    rintro (h | ⟨string, -, hindex⟩)
    · cases h
      exact below sound.empty_first
    · exact below hindex

/-- The empty string has the empty name and no other string has. -/
theorem intern_eq_empty_iff (sound : table.Sound) (text : String) :
    (table.intern text).1 = .empty ↔ text = "" := by
  have hself := getElem?_intern_self table text
  have hnext := sound.intern text
  constructor
  · intro h
    rw [h] at hself
    exact Option.some.inj (hself.symm.trans hnext.empty_first)
  · rintro rfl
    exact congrArg Name.mk (hnext.index_inj hself hnext.empty_first)

end NameTable

/-! ### A map beside the vector -/

/-- The strings in the order of their numbers, and a map from each string to its number. -/
structure IndexedTable where
  numbers : Assoc String Nat
  strings : Array String

/-- Why a string has no name: as many strings as there are numbers are interned already. -/
inductive InternError
  | overflow (count : Nat)

namespace IndexedTable

/-- The table that knows the empty string only. -/
def bare : IndexedTable where
  numbers := [("", 0)]
  strings := #[""]

/-- How many numbers there are: they have 32 bits. -/
def capacity : Nat := UInt32.size

/-- The name of a string, giving out the next number when the map does not know the string. -/
def tryIntern (table : IndexedTable) (text : String) : Except InternError (Name × IndexedTable) :=
  match table.numbers.get? text with
  | some number => .ok (⟨number⟩, table)
  | none =>
    let number := table.strings.size
    if number < capacity then
      .ok (⟨number⟩,
        { numbers := table.numbers.put text number, strings := table.strings.push text })
    else .error (.overflow number)

/-- Intern strings one after the other, up to the first that has no name. -/
def tryInternAll (table : IndexedTable) :
    List String → Except InternError (List Name × IndexedTable)
  | [] => .ok ([], table)
  | text :: rest => do
    let (name, next) ← table.tryIntern text
    let (names, last) ← next.tryInternAll rest
    return (name :: names, last)

/-- The map finds what a search in the vector finds. -/
structure Indexes (indexed : IndexedTable) (table : NameTable) : Prop where
  strings_eq : indexed.strings = table.strings
  numbers_eq : ∀ text, (indexed.numbers.get? text).map Name.mk = table.find? text

variable {indexed : IndexedTable} {table : NameTable} {text : String}

theorem indexes_bare : bare.Indexes .bare where
  strings_eq := rfl
  numbers_eq text := by
    have empty : (⟨#[]⟩ : NameTable).find? text = none := by simp [NameTable.find?]
    refine Eq.trans ?_ (NameTable.find?_push ⟨#[]⟩ "" text).symm
    rw [empty, bare, Assoc.get?]
    by_cases h : "" = text <;> simp [h, NameTable.size]

/-- The map is the inverse of the vector. -/
theorem Indexes.get?_eq_some_iff (h : indexed.Indexes table) (sound : table.Sound) {number : Nat} :
    indexed.numbers.get? text = some number ↔ indexed.strings[number]? = some text := by
  have hfind : table.find? text = some ⟨number⟩ ↔ table.strings[number]? = some text :=
    sound.find?_eq_some_iff
  rw [h.strings_eq, ← hfind, ← h.numbers_eq]
  cases indexed.numbers.get? text <;> simp

theorem tryIntern_of_get?_eq_some {number : Nat} (h : indexed.numbers.get? text = some number) :
    indexed.tryIntern text = .ok (⟨number⟩, indexed) := by
  rw [tryIntern, h]

theorem tryIntern_of_get?_eq_none (h : indexed.numbers.get? text = none)
    (hroom : indexed.strings.size < capacity) :
    indexed.tryIntern text = .ok (⟨indexed.strings.size⟩,
      { numbers := indexed.numbers.put text indexed.strings.size
        strings := indexed.strings.push text }) := by
  rw [tryIntern, h]
  exact if_pos hroom

/-- One call keeps both together. -/
theorem Indexes.tryIntern (h : indexed.Indexes table)
    (fits : (table.intern text).2.size ≤ capacity) :
    ∃ next, indexed.tryIntern text = .ok ((table.intern text).1, next) ∧
      next.Indexes (table.intern text).2 := by
  have hnumber := h.numbers_eq text
  cases hget : indexed.numbers.get? text with
  | some number =>
    rw [hget] at hnumber
    rw [NameTable.intern_of_find?_eq_some hnumber.symm]
    exact ⟨indexed, tryIntern_of_get?_eq_some hget, h⟩
  | none =>
    rw [hget] at hnumber
    rw [NameTable.intern_of_find?_eq_none hnumber.symm] at fits ⊢
    have hsize : indexed.strings.size = table.size := congrArg Array.size h.strings_eq
    have hroom : indexed.strings.size < capacity := by
      rwa [NameTable.size, Array.size_push, ← NameTable.size, ← hsize] at fits
    refine ⟨_, hsize ▸ tryIntern_of_get?_eq_none hget hroom,
      congrArg (Array.push · text) h.strings_eq, fun other => ?_⟩
    rw [NameTable.find?_push, Assoc.get?_put, ← h.numbers_eq other]
    by_cases hother : text = other
    · subst hother
      rw [if_pos rfl, if_pos rfl, hget]
      rfl
    · rw [if_neg hother, if_neg hother, Option.or_none]

/-- Below the limit, a table with a map gives out the same names. -/
theorem Indexes.tryInternAll {calls : List String} (h : indexed.Indexes table)
    (fits : (table.internAll calls).2.size ≤ capacity) :
    ∃ last, indexed.tryInternAll calls = .ok ((table.internAll calls).1, last) ∧
      last.Indexes (table.internAll calls).2 := by
  induction calls generalizing indexed table with
  | nil => exact ⟨indexed, rfl, h⟩
  | cons text rest ih =>
    obtain ⟨next, hnext, hindexes⟩ :=
      h.tryIntern (Nat.le_trans (NameTable.size_le_internAll _ rest) fits)
    obtain ⟨last, hlast, hindexes⟩ := ih hindexes fits
    refine ⟨last, ?_, hindexes⟩
    rw [IndexedTable.tryInternAll, hnext]
    change (next.tryInternAll rest >>= _) = _
    rw [hlast]
    rfl

end IndexedTable

/-! ### The laws -/

namespace NameTable

/-- Interning is a growing bijection.  At any time, after some earlier calls on a new table, the
name of a string reads as the string, then and after any later calls, and no other string ever gets
it.  The names that were given out, for reserved words and calls, are those below the number of
strings, which grows by one for a string that was neither reserved nor interned.  The empty string
has the empty name and no other has; names that were not given out read as the empty string.  As
long as there are enough numbers, a table with a map from strings to numbers gives out the same
names, and its map and its vector are inverse to each other. -/
theorem interning_is_growing_bijection (earlier later : List String) (text : String) :
    let table := after earlier
    let name := (table.intern text).1
    let next := (table.intern text).2
    let calls := reserved ++ earlier ++ text :: later
    let names := (bare.internAll calls).1
    let last := (bare.internAll calls).2
    next.lookup name = text ∧ last = (next.internAll later).2 ∧ last.lookup name = text ∧
      (∀ other, (last.intern other).1 = name ↔ other = text) ∧
      (∀ k, k < last.size ↔ ⟨k⟩ ∈ Name.empty :: names) ∧
      next.size = (if text ∈ "" :: reserved ++ earlier then table.size else table.size + 1) ∧
      (name = .empty ↔ text = "") ∧
      (∀ other : Name, last.size ≤ other.index → last.lookup other = "") ∧
      (("" :: calls).eraseDups.length ≤ IndexedTable.capacity →
        ∃ indexed, IndexedTable.bare.tryInternAll calls = .ok (names, indexed) ∧
          indexed.strings = last.strings ∧
          ∀ other number, indexed.numbers.get? other = some number ↔
            indexed.strings[number]? = some other) := by
  intro table name next calls names last
  have sound : table.Sound := sound_after earlier
  -- the calls are the earlier ones, the one at hand and the later ones
  have hlast : last = (next.internAll later).2 := by
    change (bare.internAll (reserved ++ earlier ++ text :: later)).2 = _
    rw [internAll_append, ← after_eq]
    rfl
  have hself : next.strings[name.index]? = some text := getElem?_intern_self table text
  refine ⟨lookup_of_getElem? hself, hlast, ?_, fun other => ?_, fun k => lt_size_iff, ?_,
    intern_eq_empty_iff sound text, fun other => lookup_of_size_le, fun fits => ?_⟩
  · rw [hlast]
    exact lookup_of_getElem? (getElem?_internAll hself later)
  · rw [hlast]
    exact intern_eq_iff sound text other later
  · exact (size_intern table text).trans (if_congr mem_after rfl rfl)
  -- with enough numbers, both tables go on together
  · have hsize : last.size ≤ IndexedTable.capacity := by
      rw [size, ← Array.length_toList, strings_internAll sound_bare]
      exact fits
    obtain ⟨indexed, hindexed, hindexes⟩ := IndexedTable.indexes_bare.tryInternAll hsize
    exact ⟨indexed, hindexed, hindexes.strings_eq,
      fun _ _ => hindexes.get?_eq_some_iff (sound_bare.internAll calls)⟩

/-- A string that is new, a reserved word and a string that is interned again. -/
theorem interning_is_growing_bijection_repeated :
    let calls := reserved ++ ["x"] ++ "y" :: ["end", "x"]
    ("" :: calls).eraseDups.length ≤ IndexedTable.capacity ∧
      (∃ indexed, IndexedTable.bare.tryInternAll calls = .ok ((bare.internAll calls).1, indexed) ∧
        indexed.strings = (bare.internAll calls).2.strings) ∧
      (bare.internAll calls).2.lookup ⟨(bare.internAll calls).2.size⟩ = "" := by
  intro calls
  have fits : ("" :: calls).eraseDups.length ≤ IndexedTable.capacity := by decide
  obtain ⟨-, -, -, -, -, -, -, outside, indexes⟩ :=
    interning_is_growing_bijection ["x"] ["end", "x"] "y"
  obtain ⟨indexed, hindexed, hstrings, -⟩ := indexes fits
  exact ⟨fits, ⟨indexed, hindexed, hstrings⟩, outside _ (Nat.le_refl _)⟩

end NameTable

end ScriptSemantics
