import ScriptSemantics.CallArgs
import ScriptSemantics.Params

/-!
# Argument binding

Which argument each parameter receives.  The plan is made without touching any scope; fallback
expressions are only named in it and are evaluated later, in the scope of the callee.

## Main Definitions

* `BindMode` — strict for methods and lambdas, lenient for blocks
* `ParamGroups` — the positions of the parameters, grouped by role
* `Binding`, `PlannedParam` — what a parameter receives
* `BindPlan.make` — the plan of a call, or why the arguments do not fit

## Design Notes

Positional arguments are shared out in this order: leading required parameters take from the front,
trailing required ones from the back, optional ones take what is left, and a rest parameter the
remainder.  Keywords for a callable that has no keyword parameter arrive as one hash after the
positional arguments.  A lenient call spreads a lone array over two or more positional parameters,
fills up with nil and drops what is too much.
-/

namespace ScriptSemantics

/-- How mismatched arguments are treated. -/
inductive BindMode
  /-- Mismatches are errors. -/
  | strict
  /-- Missing arguments are nil and extra ones are dropped. -/
  | lenient
deriving DecidableEq

/-- Lambdas are strict, blocks lenient. -/
def BindMode.ofLambda : Bool → BindMode
  | true => strict
  | false => lenient

/-- What a parameter receives. -/
inductive Binding
  | value (value : Value)
  /-- The value of this expression, evaluated in the scope of the callee. -/
  | fallback (expr : NodeId)
  /-- The block passed to the call, or nil. -/
  | block

/-- A parameter with what it receives. -/
structure PlannedParam where
  name : Name
  binding : Binding

/-- What the parameters of one call receive, in the order of their declaration. -/
abbrev BindPlan := List PlannedParam

/-- The positions of the parameters of a list, grouped by role.  Of several rest, keyword rest or
block parameters the last one counts. -/
structure ParamGroups where
  /-- Required parameters before any optional or rest parameter. -/
  leading : List Nat := []
  optional : List (Nat × NodeId) := []
  rest : Option Nat := none
  /-- Required parameters after an optional or rest parameter. -/
  trailing : List Nat := []
  keywords : List (Nat × Param) := []
  keywordRest : Option Nat := none
  noKeywords : Bool := false
  block : Option Nat := none

namespace ParamGroups

/-- Put one parameter into its group. -/
def add (groups : ParamGroups) (param : Param) (i : Nat) : ParamGroups :=
  match param.role with
  | .required =>
    if groups.rest.isSome || !groups.optional.isEmpty then
      { groups with trailing := groups.trailing ++ [i] }
    else { groups with leading := groups.leading ++ [i] }
  | .optional fallback => { groups with optional := groups.optional ++ [(i, fallback)] }
  | .rest => { groups with rest := some i }
  | .keyword | .keywordOptional _ => { groups with keywords := groups.keywords ++ [(i, param)] }
  | .keywordRest => { groups with keywordRest := some i }
  | .noKeywords => { groups with noKeywords := true }
  | .block => { groups with block := some i }

/-- The groups of a parameter list. -/
def ofParams (params : ParamList) : ParamGroups :=
  params.zipIdx.foldl (fun groups (param, i) => groups.add param i) {}

/-- The accepted numbers of positional arguments. -/
def arity (groups : ParamGroups) : Arity where
  required := groups.leading.length + groups.trailing.length
  optional := groups.optional.length
  rest := groups.rest.isSome

/-- The number of positional parameters, a rest parameter counting as one. -/
def positionalSlots (groups : ParamGroups) : Nat :=
  groups.leading.length + groups.optional.length + groups.trailing.length +
    if groups.rest.isSome then 1 else 0

/-- Whether the callable says anything about keywords. -/
def takesKeywords (groups : ParamGroups) : Bool :=
  !groups.keywords.isEmpty || groups.keywordRest.isSome || groups.noKeywords

end ParamGroups

/-- Bindings by position in the parameter list. -/
abbrev Slots := List (Nat × Binding)

namespace BindPlan

/-- Keywords that no parameter takes become one more positional argument. -/
def foldKeywords (groups : ParamGroups) (args : CallArgs) : CallArgs :=
  if groups.takesKeywords || args.keywords.isEmpty then args
  else { positional := args.positional ++ [.hashOfKeywords args.keywords] }

/-- A lenient call spreads a lone array over several positional parameters. -/
def autoSplat (groups : ParamGroups) (mode : BindMode) (positional : List Value) : List Value :=
  match mode, positional with
  | .lenient, [.array items] => if 2 ≤ groups.positionalSlots then items else positional
  | _, _ => positional

/-- Check the number of positional arguments, or make it fit. -/
def fitArity (arity : Arity) (mode : BindMode) (positional : List Value) :
    Except ErrorCause (List Value) :=
  match mode with
  | .strict =>
    if arity.accepts positional.length then .ok positional
    else .error (.arityMismatch positional.length arity)
  | .lenient =>
    let kept := match arity.max? with
      | some max => positional.take max
      | none => positional
    .ok (kept ++ List.replicate (arity.required - kept.length) .nil)

/-- The optional parameters take values from the front; those that find none fall back. -/
def optionalSlots : List (Nat × NodeId) → List Value → Slots
  | [], _ => []
  | (i, _) :: rest, value :: values => (i, .value value) :: optionalSlots rest values
  | (i, expr) :: rest, [] => (i, .fallback expr) :: optionalSlots rest []

/-- Share out the positional arguments. -/
def positionalSlots (groups : ParamGroups) (positional : List Value) : Slots :=
  let leading := groups.leading.length
  let middleLength := positional.length - leading - groups.trailing.length
  let middle := (positional.drop leading).take middleLength
  let last := positional.drop (leading + middleLength)
  groups.leading.zip (positional.map .value) ++
    groups.trailing.zip (last.map .value) ++
    optionalSlots groups.optional middle ++
    (groups.rest.map fun i => (i, .value (.array (middle.drop groups.optional.length)))).toList

/-- What keyword parameters make of the given keywords. -/
structure KeywordShare where
  slots : Slots := []
  /-- Required keywords that are not given. -/
  missing : List Name := []
  /-- Given keywords that no parameter took. -/
  remaining : Keywords

/-- Give one keyword parameter its argument. -/
def KeywordShare.take (share : KeywordShare) (i : Nat) (param : Param) : KeywordShare :=
  match share.remaining.get? param.name with
  | some value =>
    { share with
      slots := share.slots ++ [(i, .value value)]
      remaining := share.remaining.erase param.name }
  | none =>
    match param.role.fallback? with
    | some expr => { share with slots := share.slots ++ [(i, .fallback expr)] }
    | none =>
      { share with
        slots := share.slots ++ [(i, .value .nil)]
        missing := share.missing ++ [param.name] }

/-- Give the keyword parameters their arguments, in order. -/
def shareKeywords (groups : ParamGroups) (keywords : Keywords) : KeywordShare :=
  groups.keywords.foldl (fun share (i, param) => share.take i param) { remaining := keywords }

/-- Share out the keyword arguments. -/
def keywordSlots (names : NameTable) (groups : ParamGroups) (mode : BindMode)
    (keywords : Keywords) : Except ErrorCause Slots :=
  if groups.noKeywords then
    if !keywords.isEmpty && mode = .strict then .error .noKeywordsAccepted else .ok []
  else
    let share := shareKeywords groups keywords
    if mode = .strict && !share.missing.isEmpty then
      .error (.missingKeywords (share.missing.map names.lookup))
    else
      match groups.keywordRest with
      | some i => .ok (share.slots ++ [(i, .value (.hashOfKeywords share.remaining))])
      | none =>
        if mode = .strict && !share.remaining.isEmpty then
          .error (.unknownKeywords (share.remaining.keys.map names.lookup))
        else .ok share.slots

/-- Read off the plan: one entry per parameter, markers left out, nil where no slot was filled. -/
def ofSlots (params : ParamList) (slots : Slots) : BindPlan :=
  (params.zipIdx.filter (·.1.role ≠ .noKeywords)).map fun (param, i) =>
    { name := param.name, binding := (Assoc.get? slots i).getD (.value .nil) }

/-- What every parameter receives from the arguments of a call. -/
def make (names : NameTable) (params : ParamList) (mode : BindMode) (args : CallArgs) :
    Except ErrorCause BindPlan := do
  let groups := ParamGroups.ofParams params
  let args := foldKeywords groups args
  -- Keywords are folded first: what they become counts for the spreading and for the arity.
  let positional ← fitArity groups.arity mode (autoSplat groups mode args.positional)
  let byKeyword ← keywordSlots names groups mode args.keywords
  let byBlock : Slots := (groups.block.map fun i => (i, .block)).toList
  return ofSlots params (positionalSlots groups positional ++ byKeyword ++ byBlock)

end BindPlan

end ScriptSemantics
