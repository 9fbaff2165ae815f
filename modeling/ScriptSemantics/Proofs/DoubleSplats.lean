import ScriptSemantics.Proofs.CompRuns
import ScriptSemantics.Proofs.Forwarding
import ScriptSemantics.Proofs.Relabelling

/-!
# Double splats

A double splat merges a hash into the keywords of a call or into the entries of a hash literal.
Both keep each key in its first place and give it its last value, so hashes may be merged in a
literal before a call gets them.

## Main Definitions

* `Value.IsKeywordHash` — nil and the hashes with symbol keys, which may be splatted everywhere
* `Value.ofSplats`, `CallArgs.mergeAll` — several double splats in a literal and in a call
* `CallArgs.mergeInPlace` — merging as an action on the arguments, which a failure may leave changed
* `Assoc.Merges` — each key in its first place, with its last value

## Main Results

* `Value.exists_contributes` — what a keyword hash contributes to a literal is what it contributes
  to a call
* `CallArgs.run_mergeInPlace` — a merge that fails has written no keyword
* `Comp.run_entries_splats`, `Comp.run_args_splats` — how the evaluation merges double splats
* `CallArgs.double_splats_merge_alike` — the laws of double splats
-/

namespace ScriptSemantics

/-! ### Maps -/

namespace Assoc

variable {κ κ' α : Type} [DecidableEq κ] [DecidableEq κ']

/-- The result of merging some maps: each key stands in its first place and has its last value. -/
structure Merges (maps : List (Assoc κ α)) (result : Assoc κ α) : Prop where
  keys_eq : result.keys = (maps.flatMap keys).eraseDups
  get?_eq : ∀ key, result.get? key = maps.reverse.findSome? fun map => map.get? key

theorem merges_foldl {map : Assoc κ α} {maps : List (Assoc κ α)} (distinct : map.keys.Nodup)
    (hmaps : ∀ other ∈ maps, other.keys.Nodup) : Merges (map :: maps) (maps.foldl putAll map) where
  keys_eq := keys_mergeAll distinct maps
  get?_eq key := by
    rw [get?_mergeAll map hmaps, List.reverse_cons, List.findSome?_append]
    simp

/-- The empty map contributes nothing. -/
theorem Merges.of_nil_cons {maps : List (Assoc κ α)} {result : Assoc κ α}
    (h : Merges ([] :: maps) result) : Merges maps result where
  keys_eq := h.keys_eq
  get?_eq key := by
    rw [h.get?_eq, List.reverse_cons, List.findSome?_append]
    simp

/-- Keys that are told apart as before may be changed before or after maps are merged. -/
theorem putAll_map_fst {f : κ → κ'} (injective : f.Injective) (map other : Assoc κ α) :
    putAll (map.map fun pair => (f pair.1, pair.2)) (other.map fun pair => (f pair.1, pair.2)) =
      (map.putAll other).map fun pair => (f pair.1, pair.2) := by
  induction other generalizing map with
  | nil => rfl
  | cons pair rest ih =>
    change putAll (put (map.map _) (f pair.1) pair.2) (rest.map _) = _
    rw [put_map_fst injective]
    exact ih _

end Assoc

/-- Keywords as the entries of a hash. -/
def Keywords.asEntries (keywords : Keywords) : HashEntries :=
  keywords.map fun pair => (.symbol pair.1, pair.2)

theorem Keywords.putAll_asEntries (keywords other : Keywords) :
    keywords.asEntries.putAll other.asEntries = Keywords.asEntries (keywords.putAll other) :=
  Assoc.putAll_map_fst (fun _ _ h => HashKey.symbol.inj h) keywords other

theorem Keywords.foldl_asEntries (soFar : Keywords) (maps : List Keywords) :
    (maps.map asEntries).foldl Assoc.putAll soFar.asEntries =
      asEntries (maps.foldl Assoc.putAll soFar) := by
  induction maps generalizing soFar with
  | nil => rfl
  | cons other rest ih =>
    rw [List.map_cons, List.foldl_cons, putAll_asEntries]
    exact ih _

theorem Keywords.keys_asEntries (keywords : Keywords) :
    keywords.asEntries.keys = keywords.keys.map .symbol := by
  simp [asEntries, Assoc.keys]

theorem Keywords.nodup_asEntries {keywords : Keywords} (distinct : keywords.keys.Nodup) :
    keywords.asEntries.keys.Nodup :=
  keys_asEntries keywords ▸ distinct.map fun _ _ h => HashKey.symbol.inj h

/-- Keywords that are merged are the entries of a hash that are merged. -/
theorem Keywords.merges_asEntries {maps : List Keywords}
    (distinct : ∀ other ∈ maps, other.keys.Nodup) :
    Assoc.Merges (maps.map asEntries) (asEntries (maps.foldl Assoc.putAll [])) := by
  have entriesOnce : ∀ other ∈ maps.map asEntries, other.keys.Nodup := by
    intro other hother
    obtain ⟨keywords, hkeywords, rfl⟩ := List.mem_map.mp hother
    exact nodup_asEntries (distinct keywords hkeywords)
  have merged : Assoc.Merges ([] :: maps.map asEntries)
      ((maps.map asEntries).foldl Assoc.putAll []) :=
    Assoc.merges_foldl List.nodup_nil entriesOnce
  rw [← foldl_asEntries]
  exact merged.of_nil_cons

/-! ### What a double splat contributes -/

namespace Value

variable {value : Value} {entries : HashEntries} {keywords : Keywords} {sources : List Value}

/-- Nil, or a hash whose keys are symbols, each of which occurs once. -/
def IsKeywordHash : Value → Prop
  | nil => True
  | hash entries => (Assoc.keys entries).Nodup ∧
      ∀ key ∈ Assoc.keys entries, ∃ name, key = .symbol name
  | _ => False

/-- The hash that a literal of double splats builds. -/
def ofSplats (sources : List Value) : Except ErrorCause Value := do
  let entries ← sources.foldlM (fun soFar source => do
    return Assoc.putAll soFar (← source.toHashEntries)) []
  return .hash entries

/-- A double splat of the value contributes these keywords, in a call and in a literal. -/
structure Contributes (value : Value) (keywords : Keywords) : Prop where
  distinct : keywords.keys.Nodup
  toKeywords_eq : value.toKeywords = .ok keywords
  toHashEntries_eq : value.toHashEntries = .ok keywords.asEntries

/-- The entries of a keyword hash are those of some keywords. -/
theorem exists_asEntries (h : (hash entries).IsKeywordHash) :
    ∃ keywords : Keywords, keywords.keys.Nodup ∧ entries = keywords.asEntries := by
  obtain ⟨distinct, symbols⟩ := h
  suffices named : ∃ keywords : Keywords, entries = keywords.asEntries by
    obtain ⟨keywords, rfl⟩ := named
    rw [Keywords.keys_asEntries] at distinct
    exact ⟨keywords, distinct.of_map _, rfl⟩
  clear distinct
  induction entries with
  | nil => exact ⟨[], rfl⟩
  | cons pair rest ih =>
    obtain ⟨keywords, rfl⟩ := ih fun key hkey => symbols key (List.mem_cons_of_mem _ hkey)
    obtain ⟨name, hname⟩ := symbols pair.1 List.mem_cons_self
    exact ⟨(name, pair.2) :: keywords, congrArg (· :: _) (Prod.ext hname rfl)⟩

theorem contributes_hashOfKeywords (distinct : keywords.keys.Nodup) :
    (hashOfKeywords keywords).Contributes keywords :=
  ⟨distinct, toKeywords_hashOfKeywords distinct, rfl⟩

/-- A keyword hash contributes the same to a literal and to a call. -/
theorem exists_contributes (h : value.IsKeywordHash) : ∃ keywords, value.Contributes keywords := by
  cases value with
  | nil => exact ⟨[], List.nodup_nil, rfl, rfl⟩
  | hash entries =>
    obtain ⟨keywords, distinct, rfl⟩ := exists_asEntries h
    exact ⟨keywords, contributes_hashOfKeywords distinct⟩
  | _ => exact h.elim

theorem isKeywordHash_hashOfKeywords (distinct : keywords.keys.Nodup) :
    (hashOfKeywords keywords).IsKeywordHash := by
  refine ⟨Keywords.nodup_asEntries distinct, fun key hkey => ?_⟩
  obtain ⟨name, -, rfl⟩ := List.mem_map.mp (Keywords.keys_asEntries keywords ▸ hkey)
  exact ⟨name, rfl⟩

theorem exists_contributions (h : ∀ source ∈ sources, source.IsKeywordHash) :
    ∃ maps, List.Forall₂ Contributes sources maps := by
  induction sources with
  | nil => exact ⟨[], .nil⟩
  | cons source rest ih =>
    obtain ⟨hsource, hrest⟩ := List.forall_mem_cons.mp h
    obtain ⟨keywords, hkeywords⟩ := exists_contributes hsource
    obtain ⟨maps, hmaps⟩ := ih hrest
    exact ⟨keywords :: maps, .cons hkeywords hmaps⟩

end Value

variable {args merged : CallArgs} {value : Value} {sources : List Value} {maps : List Keywords}

/-- Each source contributes keywords of its own that occur once. -/
theorem nodup_of_contributions (h : List.Forall₂ Value.Contributes sources maps) :
    ∀ other ∈ maps, other.keys.Nodup := by
  induction h with
  | nil => nofun
  | cons first _ ih => exact List.forall_mem_cons.mpr ⟨first.distinct, ih⟩

/-! ### Merging -/

/-- A literal of keyword hashes builds the hash of their merged keywords. -/
theorem Value.ofSplats_of_contributions (h : List.Forall₂ Value.Contributes sources maps) :
    ofSplats sources = .ok (hashOfKeywords (maps.foldl Assoc.putAll [])) := by
  suffices merged : ∀ soFar : Keywords,
      sources.foldlM (fun soFar source => do
        return Assoc.putAll soFar (← source.toHashEntries)) soFar.asEntries =
      (.ok (Keywords.asEntries (maps.foldl Assoc.putAll soFar)) : Except ErrorCause HashEntries) by
    rw [ofSplats, show ([] : HashEntries) = Keywords.asEntries [] from rfl, merged]
    rfl
  induction h with
  | nil => exact fun _ => rfl
  | cons first _ ih =>
    intro soFar
    rw [List.foldlM_cons, first.toHashEntries_eq, List.foldl_cons, ← ih,
      ← Keywords.putAll_asEntries]
    rfl

namespace CallArgs

/-- Merge the keywords of several double splats, one after the other. -/
def mergeAll (args : CallArgs) (sources : List Value) : Except ErrorCause CallArgs :=
  sources.foldlM mergeKeywords args

/-- Merge the keywords of a hash into the arguments of a call: the whole hash is read before the
first keyword is written. -/
def mergeInPlace (value : Value) : ExceptT ErrorCause (StateM CallArgs) Unit := do
  let keywords ← ofExcept value.toKeywords
  keywords.forM fun pair => modify (·.pushKeyword pair.1 pair.2)

theorem mergeKeywords_of_contributes {keywords : Keywords} (h : value.Contributes keywords)
    (args : CallArgs) :
    args.mergeKeywords value = .ok { args with keywords := args.keywords.putAll keywords } := by
  rw [mergeKeywords, h.toKeywords_eq]
  rfl

theorem mergeAll_of_contributions (h : List.Forall₂ Value.Contributes sources maps)
    (args : CallArgs) :
    args.mergeAll sources =
      .ok { args with keywords := maps.foldl Assoc.putAll args.keywords } := by
  induction h generalizing args with
  | nil => rfl
  | cons first _ ih =>
    rw [mergeAll, List.foldlM_cons, mergeKeywords_of_contributes first]
    exact ih _

/-- The hash that a literal of the sources builds is merged as the sources are. -/
theorem mergeKeywords_literal (givenOnce : args.GivenOnce)
    (h : List.Forall₂ Value.Contributes sources maps) :
    args.mergeKeywords (.hashOfKeywords (maps.foldl Assoc.putAll [])) =
      .ok { args with keywords := maps.foldl Assoc.putAll args.keywords } := by
  have empty : (Assoc.keys ([] : Keywords)).Nodup := List.nodup_nil
  have distinct : (maps.foldl Assoc.putAll []).keys.Nodup := Assoc.nodup_keys_mergeAll empty maps
  rw [mergeKeywords_of_contributes (Value.contributes_hashOfKeywords distinct),
    Assoc.mergeAll_eq_putAll givenOnce (nodup_of_contributions h)]

/-- Merging in place gives the merged arguments, and a merge that fails has written no keyword. -/
theorem run_mergeInPlace (value : Value) (args : CallArgs) :
    (mergeInPlace value).run args =
      match args.mergeKeywords value with
      | .ok merged => (.ok (), merged)
      | .error cause => (.error cause, args) := by
  have written : ∀ keywords : Keywords, ∀ args : CallArgs,
      (ExceptT.run (m := StateM CallArgs) (ε := ErrorCause)
        (keywords.forM fun pair => modify (·.pushKeyword pair.1 pair.2))).run args =
      (.ok (), { args with keywords := args.keywords.putAll keywords }) := by
    intro keywords
    induction keywords with
    | nil => exact fun _ => rfl
    | cons pair rest ih => exact fun args => ih (args.pushKeyword pair.1 pair.2)
  rw [mergeInPlace, mergeKeywords]
  cases value.toKeywords with
  | error cause => rfl
  | ok keywords => exact written keywords args

end CallArgs

/-! ### Evaluation -/

namespace Comp

variable {perform : Task → Eval Value} {exprs : List NodeId} {m m' : Machine}

/-- Some nodes are evaluated one after the other and have these values. -/
inductive Evaluates (perform : Task → Eval Value) :
    List NodeId → Machine → List Value → Machine → Prop
  | nil (m : Machine) : Evaluates perform [] m [] m
  | cons {expr : NodeId} {exprs : List NodeId} {m m₁ m' : Machine} {value : Value}
    {values : List Value} (first : perform (.node expr) m = some (.ok value, m₁))
    (rest : Evaluates perform exprs m₁ values m') :
    Evaluates perform (expr :: exprs) m (value :: values) m'

theorem Evaluates.mono {program : Program} {fuel : Nat}
    (h : Evaluates (program.perform fuel) exprs m sources m') :
    Evaluates (program.perform (fuel + 1)) exprs m sources m' := by
  induction h with
  | nil m => exact .nil m
  | cons first _ ih => exact .cons (program.perform_mono (Nat.le_succ fuel) first) ih

/-- A hash literal merges its double splats in their order. -/
theorem run_entries_splats (h : Evaluates perform exprs m sources m')
    (contributions : List.Forall₂ Value.Contributes sources maps) (soFar : Keywords) :
    (entries soFar.asEntries (exprs.map .doubleSplat) m).run perform =
      some (.ok (Keywords.asEntries (maps.foldl Assoc.putAll soFar)), m') := by
  induction h generalizing maps soFar with
  | nil m =>
    cases contributions
    rfl
  | @cons expr exprs m m₁ m' value values first _ ih =>
    obtain _ | ⟨hvalue, contributions⟩ := contributions
    rw [List.map_cons, entries, run_bind, run_eval, first]
    change ((ofExcept value.toHashEntries >>= _) m₁).run perform = _
    rw [hvalue.toHashEntries_eq]
    change (entries (soFar.asEntries.putAll _) (exprs.map .doubleSplat) m₁).run perform = _
    rw [Keywords.putAll_asEntries]
    exact ih contributions _

/-- A call merges its double splats in their order. -/
theorem run_args_splats (h : Evaluates perform exprs m sources m')
    (contributions : List.Forall₂ Value.Contributes sources maps) (soFar : CallArgs) :
    (Comp.args soFar (exprs.map .doubleSplat) m).run perform =
      some (.ok { soFar with keywords := maps.foldl Assoc.putAll soFar.keywords }, m') := by
  induction h generalizing maps soFar with
  | nil m =>
    cases contributions
    rfl
  | @cons expr exprs m m₁ m' value values first _ ih =>
    obtain _ | ⟨hvalue, contributions⟩ := contributions
    rw [List.map_cons, Comp.args, run_bind, run_eval, first]
    change ((ofExcept (soFar.mergeKeywords value) >>= _) m₁).run perform = _
    rw [CallArgs.mergeKeywords_of_contributes hvalue]
    exact ih contributions _

end Comp

/-- A node that is a literal of double splats has the hash of the merged keywords as its value. -/
theorem Program.perform_splats {program : Program} {fuel : Nat} {literal : NodeId}
    {exprs : List NodeId} {m m' : Machine}
    (hnode : program.nodes.node? literal = some (.hash (exprs.map .doubleSplat)))
    (h : Comp.Evaluates (program.perform fuel) exprs m sources m')
    (contributions : List.Forall₂ Value.Contributes sources maps) :
    program.perform (fuel + 1) (.node literal) m =
      some (.ok (.hashOfKeywords (maps.foldl Assoc.putAll [])), m') := by
  rw [perform, Task.work, hnode]
  change ((Comp.entries (Keywords.asEntries []) _ >>= _) m).run _ = _
  rw [Comp.run_bind, Comp.run_entries_splats h contributions []]
  rfl

/-! ### The laws -/

/-- What each element gives is what all give together. -/
theorem mapM_of_forall₂ {α β : Type} {f : α → Except ErrorCause β} {as : List α} {bs : List β}
    (h : List.Forall₂ (fun a b => f a = .ok b) as bs) : as.mapM f = .ok bs := by
  induction h with
  | nil => rfl
  | cons first _ ih =>
    rw [List.mapM_cons, first, ih]
    rfl

namespace Value

variable {h₁ h₂ h₃ : Value}

/-- Merging is associative. -/
theorem ofSplats_assoc (s₁ : h₁.IsKeywordHash) (s₂ : h₂.IsKeywordHash) (s₃ : h₃.IsKeywordHash) :
    ∃ h₁₂ h₂₃ h, ofSplats [h₁, h₂] = .ok h₁₂ ∧ ofSplats [h₂, h₃] = .ok h₂₃ ∧
      ofSplats [h₁₂, h₃] = .ok h ∧ ofSplats [h₁, h₂₃] = .ok h := by
  obtain ⟨k₁, c₁⟩ := exists_contributes s₁
  obtain ⟨k₂, c₂⟩ := exists_contributes s₂
  obtain ⟨k₃, c₃⟩ := exists_contributes s₃
  have d₁₂ := Assoc.nodup_keys_putAll c₁.distinct k₂
  have d₂₃ := Assoc.nodup_keys_putAll c₂.distinct k₃
  have built : ∀ {h h' : Value} {k k' : Keywords}, h.Contributes k → h'.Contributes k' →
      ofSplats [h, h'] = .ok (hashOfKeywords (k.putAll k')) := by
    intro h h' k k' c c'
    rw [ofSplats_of_contributions (.cons c (.cons c' .nil)), List.foldl_cons,
      Assoc.putAll_nil_left c.distinct]
    rfl
  refine ⟨_, _, _, built c₁ c₂, built c₂ c₃, built (contributes_hashOfKeywords d₁₂) c₃, ?_⟩
  rw [built c₁ (contributes_hashOfKeywords d₂₃),
    Assoc.putAll_assoc c₁.distinct c₂.distinct c₃.distinct]

/-- Nil and the empty hash make no difference. -/
theorem ofSplats_unit {unit : Value} {entries : HashEntries} (hunit : unit = .nil ∨ unit = .hash [])
    (h : (hash entries).IsKeywordHash) :
    ofSplats [unit, .hash entries] = .ok (.hash entries) ∧
      ofSplats [.hash entries, unit] = .ok (.hash entries) := by
  obtain ⟨keywords, distinct, rfl⟩ := exists_asEntries h
  have nothing : unit.Contributes [] := by
    rcases hunit with rfl | rfl
    · exact ⟨List.nodup_nil, rfl, rfl⟩
    · exact ⟨List.nodup_nil, rfl, rfl⟩
  have given := contributes_hashOfKeywords distinct
  have merged : Assoc.putAll [] keywords = keywords := Assoc.putAll_nil_left distinct
  constructor
  · exact (ofSplats_of_contributions (.cons nothing (.cons given .nil))).trans
      (congrArg (Except.ok <| hashOfKeywords ·) merged)
  · exact (ofSplats_of_contributions (.cons given (.cons nothing .nil))).trans
      (congrArg (Except.ok <| hashOfKeywords ·) merged)

end Value

namespace CallArgs

/-- Double splats merge in the same way everywhere: into a call one after the other or, once a hash
literal has merged them, all at once.  Each key keeps its first place and takes its last value.
Merging is associative, nil and the empty hash make no difference, keywords and hashes with symbol
keys are turned into each other, and a merge that fails leaves the arguments as they were. -/
theorem double_splats_merge_alike {args : CallArgs} (givenOnce : args.GivenOnce)
    {sources : List Value} (hashes : ∀ source ∈ sources, source.IsKeywordHash) :
    (∃ merged entries maps entryMaps,
      args.mergeAll sources = .ok merged ∧ Value.ofSplats sources = .ok (.hash entries) ∧
      args.mergeKeywords (.hash entries) = .ok merged ∧
      sources.mapM Value.toKeywords = .ok maps ∧
      Assoc.Merges (args.keywords :: maps) merged.keywords ∧
      sources.mapM Value.toHashEntries = .ok entryMaps ∧ Assoc.Merges entryMaps entries ∧
      ∀ (program : Program) (fuel : Nat) (literal : NodeId) (exprs : List NodeId) (m m' : Machine),
        program.nodes.node? literal = some (.hash (exprs.map .doubleSplat)) →
        Comp.Evaluates (program.perform fuel) exprs m sources m' →
        program.perform (fuel + 1) (.node literal) m = some (.ok (.hash entries), m') ∧
        (Comp.args args (exprs.map .doubleSplat) m).run (program.perform (fuel + 1)) =
          some (.ok merged, m') ∧
        (Comp.args args [.doubleSplat literal] m).run (program.perform (fuel + 1)) =
          some (.ok merged, m')) ∧
    (∀ h₁ h₂ h₃ : Value, h₁.IsKeywordHash → h₂.IsKeywordHash → h₃.IsKeywordHash →
      ∃ h₁₂ h₂₃ h, Value.ofSplats [h₁, h₂] = .ok h₁₂ ∧ Value.ofSplats [h₂, h₃] = .ok h₂₃ ∧
        Value.ofSplats [h₁₂, h₃] = .ok h ∧ Value.ofSplats [h₁, h₂₃] = .ok h) ∧
    (∀ unit : Value, unit = .nil ∨ unit = .hash [] → args.mergeKeywords unit = .ok args ∧
      ∀ entries, (Value.hash entries).IsKeywordHash →
        Value.ofSplats [unit, .hash entries] = .ok (.hash entries) ∧
        Value.ofSplats [.hash entries, unit] = .ok (.hash entries)) ∧
    (∀ entries, (Value.hash entries).IsKeywordHash →
      ∃ keywords, (Value.hash entries).toKeywords = .ok keywords ∧
        Value.hashOfKeywords keywords = .hash entries) ∧
    (∀ keywords : Keywords, keywords.keys.Nodup → (Value.hashOfKeywords keywords).IsKeywordHash ∧
      (Value.hashOfKeywords keywords).toKeywords = .ok keywords) ∧
    ∀ value, (mergeInPlace value).run args =
      match args.mergeKeywords value with
      | .ok merged => (.ok (), merged)
      | .error cause => (.error cause, args) := by
  refine ⟨?_, fun _ _ _ => Value.ofSplats_assoc, fun unit hunit => ⟨?_, fun _ => ?_⟩,
    fun entries h => ?_, fun keywords distinct => ⟨?_, ?_⟩, fun value => ?_⟩
  -- every hash contributes the same keywords to a call as to a literal
  · obtain ⟨maps, contributions⟩ := Value.exists_contributions hashes
    have distinct := nodup_of_contributions contributions
    have hmerge := mergeKeywords_literal givenOnce contributions
    refine ⟨_, _, maps, maps.map Keywords.asEntries, mergeAll_of_contributions contributions args,
      Value.ofSplats_of_contributions contributions, hmerge, ?_, ?_, ?_, ?_, ?_⟩
    · exact mapM_of_forall₂ (contributions.imp fun _ _ c => c.toKeywords_eq)
    · exact Assoc.merges_foldl givenOnce distinct
    · exact mapM_of_forall₂ (List.forall₂_map_right_iff.mpr
        (contributions.imp fun _ _ c => c.toHashEntries_eq))
    · exact Keywords.merges_asEntries distinct
    · intro program fuel literal exprs m m' hnode h
      have hliteral := Program.perform_splats hnode h contributions
      refine ⟨hliteral, Comp.run_args_splats h.mono contributions args, ?_⟩
      rw [Comp.args, Comp.run_bind, Comp.run_eval, hliteral]
      change ((Comp.ofExcept _ >>= _) m').run _ = _
      rw [hmerge]
      rfl
  · rcases hunit with rfl | rfl <;> rfl
  · exact Value.ofSplats_unit hunit
  · obtain ⟨keywords, distinct, rfl⟩ := Value.exists_asEntries h
    exact ⟨keywords, Value.toKeywords_hashOfKeywords distinct, rfl⟩
  · exact Value.isKeywordHash_hashOfKeywords distinct
  · exact Value.toKeywords_hashOfKeywords distinct
  · exact run_mergeInPlace value args

/-- The hashes `{a: 1}` and `{a: 2}` with `nil` between them, and the literal that merges all three,
where `a` is the first name that is not reserved. -/
def repeatedSplats : Program where
  names := .initial
  nodes := ⟨#[.symbol ⟨34⟩, .int 1, .hash [.pair ⟨0⟩ ⟨1⟩], .nil, .int 2, .hash [.pair ⟨0⟩ ⟨4⟩],
    .hash [.doubleSplat ⟨2⟩, .doubleSplat ⟨3⟩, .doubleSplat ⟨5⟩]]⟩

/-- A keyword that the call has already, before another one, keeps its place and takes the value of
the last of two hashes; a hash with another key is refused as a whole. -/
theorem double_splats_merge_alike_repeated :
    let args : CallArgs := { keywords := [(⟨34⟩, .int 0), (⟨35⟩, .int 9)] }
    let sources : List Value :=
      [.hash [(.symbol ⟨34⟩, .int 1)], .nil, .hash [(.symbol ⟨34⟩, .int 2)]]
    let m : Machine := .initial .unlimited []
    args.GivenOnce ∧ (∀ source ∈ sources, source.IsKeywordHash) ∧
      (∃ merged, args.mergeAll sources = .ok merged ∧
        merged.keywords = [(⟨34⟩, .int 2), (⟨35⟩, .int 9)] ∧
        (Comp.args args [.doubleSplat ⟨6⟩] m).run (repeatedSplats.perform 3) =
          some (.ok merged, m)) ∧
      ∃ cause, (mergeInPlace (.hash [(.symbol ⟨35⟩, .int 1), (.int 5, .nil)])).run args =
        (.error cause, args) := by
  intro args sources m
  have givenOnce : args.GivenOnce := by unfold GivenOnce; decide
  have hashes : ∀ source ∈ sources, source.IsKeywordHash := by
    simp [sources, Value.IsKeywordHash, Assoc.keys]
  have evaluated : Comp.Evaluates (repeatedSplats.perform 2) [⟨2⟩, ⟨3⟩, ⟨5⟩] m sources m :=
    .cons rfl (.cons rfl (.cons rfl (.nil m)))
  obtain ⟨⟨merged, entries, maps, entryMaps, hmerged, -, -, -, -, -, -, run⟩, -, -, -, -, inPlace⟩ :=
    double_splats_merge_alike givenOnce hashes
  refine ⟨givenOnce, hashes, ⟨merged, hmerged, ?_, ?_⟩, _, inPlace _⟩
  · cases hmerged
    rfl
  · exact (run repeatedSplats 2 ⟨6⟩ [⟨2⟩, ⟨3⟩, ⟨5⟩] m m rfl evaluated).2.2

end CallArgs

end ScriptSemantics
