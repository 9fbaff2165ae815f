import ScriptSemantics.Proofs.StrictBinding

/-!
# Forwarding arguments

A callable that takes everything with a rest and a keyword rest parameter can hand its arguments on:
spreading what the two parameters receive gives the arguments back.

## Main Definitions

* `ParamList.forwarding` — one rest and one keyword rest parameter
* `CallArgs.forwarded` — a call with one splat and one double splat

## Main Results

* `Value.toKeywords_hashOfKeywords` — keywords that were made into a hash are found in it again
* `BindPlan.forwarding_is_identity` — what was given arrives, and arguments are the same when handed
  on

## Design Notes

Nothing is asked of the argument values.  A lone array is not spread, since there is one positional
parameter only, and a hash, nil or an object among the arguments stays one element of the rest
array.
-/

namespace ScriptSemantics

namespace Value

/-- Pairs with symbols as keys are put one after the other. -/
theorem keywordsOfEntries_symbols (keywords soFar : Keywords) :
    keywordsOfEntries (keywords.map fun (name, value) => (.symbol name, value)) soFar =
      .ok (soFar.putAll keywords) := by
  induction keywords generalizing soFar with
  | nil => rfl
  | cons pair rest ih => exact ih (soFar.put pair.1 pair.2)

/-- Keywords that were made into a hash are found in it again, in their order. -/
theorem toKeywords_hashOfKeywords {keywords : Keywords} (distinct : keywords.keys.Nodup) :
    (hashOfKeywords keywords).toKeywords = .ok keywords := by
  rw [hashOfKeywords, toKeywords, keywordsOfEntries_symbols, Assoc.putAll_nil_left distinct]

end Value

/-- A rest parameter that takes all positional arguments and a keyword rest parameter that takes all
keywords. -/
def ParamList.forwarding (rest opts : Name) : ParamList :=
  [⟨rest, .rest⟩, ⟨opts, .keywordRest⟩]

/-- The arguments of a call with one splat and one double splat. -/
def CallArgs.forwarded (rest opts : Value) : Except ErrorCause CallArgs := do
  let given ← ({} : CallArgs).pushSpread rest
  given.mergeKeywords opts

/-- An array and a hash of keywords are given as they are. -/
theorem CallArgs.forwarded_collected {args : CallArgs} (givenOnce : args.GivenOnce) :
    forwarded (.array args.positional) (.hashOfKeywords args.keywords) = .ok args := by
  have spread : ({} : CallArgs).pushSpread (.array args.positional) =
      .ok { positional := args.positional } := rfl
  rw [forwarded, spread]
  show CallArgs.mergeKeywords _ _ = _
  rw [mergeKeywords, Value.toKeywords_hashOfKeywords givenOnce]
  exact congrArg (fun keywords => Except.ok ({ args with keywords } : CallArgs))
    (Assoc.putAll_nil_left givenOnce)

namespace BindPlan

/-- One parameter is too few to spread a lone array over it. -/
theorem autoSplat_forwarding (rest opts : Name) (mode : BindMode) (positional : List Value) :
    autoSplat (ParamGroups.ofParams (.forwarding rest opts)) mode positional = positional := by
  unfold autoSplat
  split
  next => rfl
  next => rfl

/-- A rest parameter takes any number of arguments. -/
theorem fitArity_forwarding (rest opts : Name) (mode : BindMode) (positional : List Value) :
    fitArity (ParamGroups.ofParams (.forwarding rest opts)).arity mode positional =
      .ok positional := by
  cases mode with
  | strict => rfl
  | lenient => simp [fitArity, ParamGroups.arity, ParamGroups.ofParams, ParamList.forwarding,
      ParamGroups.add, Arity.max?]

/-- The rest parameter receives the positional arguments and the keyword rest parameter the
keywords, in both modes. -/
theorem make_forwarding (names : NameTable) (rest opts : Name) (mode : BindMode) (args : CallArgs) :
    make names (.forwarding rest opts) mode args =
      .ok [⟨rest, .value (.array args.positional)⟩,
        ⟨opts, .value (.hashOfKeywords args.keywords)⟩] := by
  have fold : foldKeywords (ParamGroups.ofParams (.forwarding rest opts)) args = args := rfl
  have positional : positionalSlots (ParamGroups.ofParams (.forwarding rest opts)) args.positional =
      [(0, .value (.array args.positional))] := by
    simp [positionalSlots, ParamGroups.ofParams, ParamList.forwarding, ParamGroups.add,
      optionalSlots]
  have byKeyword : keywordSlots names (ParamGroups.ofParams (.forwarding rest opts)) mode
      args.keywords = .ok [(1, .value (.hashOfKeywords args.keywords))] := by
    simp [keywordSlots, ParamGroups.ofParams, ParamList.forwarding, ParamGroups.add, shareKeywords]
  simp only [make, fold, autoSplat_forwarding, fitArity_forwarding, byKeyword, bind, Except.bind,
    positional]
  rfl

/-- Forwarding is the identity: a call of a callable with one rest and one keyword rest parameter is
planned in both modes, and spreading what the two receive gives the same arguments, in their order
and with their values. -/
theorem forwarding_is_identity (names : NameTable) (rest opts : Name) (mode : BindMode)
    (args : CallArgs) (givenOnce : args.GivenOnce) :
    make names (.forwarding rest opts) mode args =
        .ok [⟨rest, .value (.array args.positional)⟩,
          ⟨opts, .value (.hashOfKeywords args.keywords)⟩] ∧
      CallArgs.forwarded (.array args.positional) (.hashOfKeywords args.keywords) = .ok args :=
  ⟨make_forwarding names rest opts mode args, CallArgs.forwarded_collected givenOnce⟩

/-- A block call with a lone array, which other parameter lists would spread, and with a hash and
nil as keywords. -/
theorem forwarding_is_identity_lone_array :
    let args : CallArgs :=
      { positional := [.array [.nil, .object ⟨0⟩ "Pair" [.int 1, .int 2] (some .payload)]]
        keywords := [(⟨36⟩, .hash [(.symbol ⟨35⟩, .int 3)]), (⟨35⟩, .nil)] }
    args.GivenOnce ∧
      make .initial (.forwarding ⟨34⟩ ⟨35⟩) .lenient args =
        .ok [⟨⟨34⟩, .value (.array args.positional)⟩,
          ⟨⟨35⟩, .value (.hash [(.symbol ⟨36⟩, .hash [(.symbol ⟨35⟩, .int 3)]),
            (.symbol ⟨35⟩, .nil)])⟩] ∧
      CallArgs.forwarded (.array args.positional) (.hashOfKeywords args.keywords) = .ok args := by
  intro args
  have givenOnce : args.GivenOnce := by unfold CallArgs.GivenOnce; decide
  exact ⟨givenOnce, forwarding_is_identity .initial ⟨34⟩ ⟨35⟩ .lenient args givenOnce⟩

end BindPlan

end ScriptSemantics
