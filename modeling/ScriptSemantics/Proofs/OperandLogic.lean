import ScriptSemantics.Evaluation.Node
import ScriptSemantics.Proofs.Provenance
import ScriptSemantics.Proofs.Relabelling

/-!
# A logic of operands

Operands are evaluated one after the other, and what they yield is gathered: into the elements of an
array, the entries of a hash or the arguments of a call.  Whatever is said of two runs of the same
code, or of one run, follows for all of these from a few rules: what holds of single operands holds
of lists of operands.

## Main Definitions

* `Datum` — what the evaluation of operands yields
* `DataRelation.Congruence` — the operations on data respect a relation
* `OperandLogic` — a way in which computations go alike, with one rule for each way of putting them
  together

## Main Results

* `OperandLogic.items`, `OperandLogic.entries`, `OperandLogic.args`, `OperandLogic.seq` — lists of
  operands go alike
* `OperandLogic.array`, `OperandLogic.hash`, `OperandLogic.binary` — so do literals and operators

## Design Notes

What is known about data may grow while operands are evaluated, so data are related at a moment, and
stay related later.  A statement about one run is one about two runs that does not look at the
second.  The operands are listed in the order in which they are evaluated.
-/

namespace ScriptSemantics

/-! ### Data -/

/-- What the evaluation of operands yields. -/
inductive Datum
  | value
  | values
  | key
  | parts
  | entries
  | args

/-- The type of what is yielded. -/
abbrev Datum.Carrier : Datum → Type
  | value => Value
  | values => List Value
  | key => HashKey
  | parts => List SequenceItem
  | entries => HashEntries
  | args => CallArgs

/-- Which data of two runs correspond to each other. -/
abbrev DataRelation := (d : Datum) → d.Carrier → d.Carrier → Prop

/-- Two conversions fail for the same cause or give data that correspond. -/
inductive DataRelation.Results (S : DataRelation) (d : Datum) :
    Except ErrorCause d.Carrier → Except ErrorCause d.Carrier → Prop
  | ok {a a' : d.Carrier} (same : S d a a') : Results S d (.ok a) (.ok a')
  | error (cause : ErrorCause) : Results S d (.error cause) (.error cause)

/-- The operations by which operands are gathered respect a relation. -/
structure DataRelation.Congruence (S : DataRelation) : Prop where
  nil : S .value .nil .nil
  noParts : S .parts [] []
  noEntries : S .entries [] []
  plain {v v' : Value} {tail tail' : List SequenceItem} : S .value v v' → S .parts tail tail' →
    S .parts (.plain v :: tail) (.plain v' :: tail')
  spread {v v' : Value} {tail tail' : List SequenceItem} : S .value v v' → S .parts tail tail' →
    S .parts (.spread v :: tail) (.spread v' :: tail')
  build {parts parts' : List SequenceItem} : S .parts parts parts' →
    S.Results .values (SequenceItem.build parts) (SequenceItem.build parts')
  array {items items' : List Value} : S .values items items' → S .value (.array items) (.array items')
  ofValue {v v' : Value} : S .value v v' → S.Results .key (HashKey.ofValue v) (HashKey.ofValue v')
  put {soFar soFar' : HashEntries} {key key' : HashKey} {v v' : Value} : S .entries soFar soFar' →
    S .key key key' → S .value v v' → S .entries (soFar.put key v) (soFar'.put key' v')
  toHashEntries {v v' : Value} : S .value v v' → S.Results .entries v.toHashEntries v'.toHashEntries
  putAll {soFar soFar' merged merged' : HashEntries} : S .entries soFar soFar' →
    S .entries merged merged' → S .entries (Assoc.putAll soFar merged) (Assoc.putAll soFar' merged')
  hash {entries entries' : HashEntries} : S .entries entries entries' →
    S .value (.hash entries) (.hash entries')
  push {given given' : CallArgs} {v v' : Value} : S .args given given' → S .value v v' →
    S .args (given.push v) (given'.push v')
  pushKeyword {given given' : CallArgs} {v v' : Value} (name : Name) : S .args given given' →
    S .value v v' → S .args (given.pushKeyword name v) (given'.pushKeyword name v')
  pushSpread {given given' : CallArgs} {v v' : Value} : S .args given given' → S .value v v' →
    S.Results .args (given.pushSpread v) (given'.pushSpread v')
  mergeKeywords {given given' : CallArgs} {v v' : Value} : S .args given given' → S .value v v' →
    S.Results .args (given.mergeKeywords v) (given'.mergeKeywords v')
  eval {left left' right right' : Value} (op : BinaryOp) : S .value left left' →
    S .value right right' → S.Results .value (op.eval left right) (op.eval left' right')

namespace DataRelation

/-- Data correspond when they are equal. -/
def equal : DataRelation := fun _ a a' => a' = a

/-- A conversion of equal data gives equal data. -/
theorem results_equal {d : Datum} (result : Except ErrorCause d.Carrier) :
    equal.Results d result result := by
  cases result with
  | ok a => exact .ok rfl
  | error cause => exact .error cause

/-- Whatever is gathered from equal data is equal. -/
theorem congruence_equal : equal.Congruence where
  nil := rfl
  noParts := rfl
  noEntries := rfl
  plain := by rintro _ _ _ _ rfl rfl; rfl
  spread := by rintro _ _ _ _ rfl rfl; rfl
  build := by rintro _ _ rfl; exact results_equal _
  array := by rintro _ _ rfl; rfl
  ofValue := by rintro _ _ rfl; exact results_equal _
  put := by rintro _ _ _ _ _ _ rfl rfl rfl; rfl
  toHashEntries := by rintro _ _ rfl; exact results_equal _
  putAll := by rintro _ _ _ _ rfl rfl; rfl
  hash := by rintro _ _ rfl; rfl
  push := by rintro _ _ _ _ rfl rfl; rfl
  pushKeyword := by rintro _ _ _ _ _ rfl rfl; rfl
  pushSpread := by rintro _ _ _ _ rfl rfl; exact results_equal _
  mergeKeywords := by rintro _ _ _ _ rfl rfl; exact results_equal _
  eval := by rintro _ _ _ _ _ rfl rfl; exact results_equal _

end DataRelation

/-- Only closures of some kind occur in what is yielded. -/
def Datum.Within (P : ProcId → Prop) : (d : Datum) → d.Carrier → Prop
  | value, v => v.Within P
  | values, items => ∀ v ∈ items, v.Within P
  | key, _ => True
  | parts, items => ∀ part ∈ items, part.Within P
  | entries, map => Assoc.Holds (Value.Within P) map
  | args, given => given.Within P

namespace DataRelation

/-- Data correspond when they are equal and only closures of some kind occur in them. -/
def within (P : ProcId → Prop) : DataRelation := fun d a a' => a' = a ∧ d.Within P a

variable {P : ProcId → Prop}

/-- A conversion goes alike with itself if the data it gives are of the kind. -/
theorem results_within {d : Datum} {result : Except ErrorCause d.Carrier}
    (good : ∀ a, result = .ok a → d.Within P a) : (within P).Results d result result := by
  cases result with
  | ok a => exact .ok ⟨rfl, good a rfl⟩
  | error cause => exact .error cause

/-- One more part of the kind leaves all parts of the kind. -/
theorem within_cons {part : SequenceItem} {tail : List SequenceItem} (hpart : part.Within P)
    (htail : ∀ part ∈ tail, part.Within P) : ∀ other ∈ part :: tail, other.Within P :=
  List.forall_mem_cons.mpr ⟨hpart, htail⟩

/-- Gathering makes no closures: it gives those that the operands have. -/
theorem congruence_within : (within P).Congruence where
  nil := ⟨rfl, Value.within_nil⟩
  noParts := ⟨rfl, List.forall_mem_nil _⟩
  noEntries := ⟨rfl, Assoc.holds_nil⟩
  plain := by
    rintro v _ tail _ ⟨rfl, hv⟩ ⟨rfl, htail⟩
    exact ⟨rfl, within_cons hv htail⟩
  spread := by
    rintro v _ tail _ ⟨rfl, hv⟩ ⟨rfl, htail⟩
    exact ⟨rfl, within_cons hv htail⟩
  build := by
    rintro parts _ ⟨rfl, h⟩
    exact results_within fun _ => SequenceItem.within_build h
  array := by
    rintro items _ ⟨rfl, h⟩
    exact ⟨rfl, Value.within_array.mpr h⟩
  ofValue := by
    rintro v _ ⟨rfl, -⟩
    exact results_within fun _ _ => trivial
  put := by
    rintro soFar _ _ _ v _ ⟨rfl, h⟩ ⟨rfl, -⟩ ⟨rfl, hv⟩
    exact ⟨rfl, h.put _ hv⟩
  toHashEntries := by
    rintro v _ ⟨rfl, hv⟩
    exact results_within fun _ => Value.within_toHashEntries hv
  putAll := by
    rintro soFar _ merged _ ⟨rfl, h⟩ ⟨rfl, hmerged⟩
    exact ⟨rfl, h.putAll hmerged⟩
  hash := by
    rintro entries _ ⟨rfl, h⟩
    exact ⟨rfl, Value.within_hash.mpr h⟩
  push := by
    rintro given _ v _ ⟨rfl, h⟩ ⟨rfl, hv⟩
    exact ⟨rfl, h.push hv⟩
  pushKeyword := by
    rintro given _ v _ name ⟨rfl, h⟩ ⟨rfl, hv⟩
    exact ⟨rfl, h.pushKeyword name hv⟩
  pushSpread := by
    rintro given _ v _ ⟨rfl, h⟩ ⟨rfl, hv⟩
    exact results_within fun _ => h.pushSpread hv
  mergeKeywords := by
    rintro given _ v _ ⟨rfl, h⟩ ⟨rfl, hv⟩
    exact results_within fun _ => h.mergeKeywords hv
  eval := by
    rintro left _ right _ op ⟨rfl, -⟩ ⟨rfl, -⟩
    exact results_within fun _ => BinaryOp.within_eval

end DataRelation

/-! ### The logic -/

/-- A way in which computations go alike from some moment on, when operands are evaluated on the
way, and yield data that correspond to each other.  The operands of the second one are found by
moving those of the first one. -/
structure OperandLogic (move : NodeId → NodeId) where
  /-- What is known at a moment. -/
  World : Type
  Later : World → World → Prop
  Same : World → DataRelation
  /-- Two computations go alike from a moment on.  The operands are evaluated in this order. -/
  Goes : (d : Datum) → World → List NodeId → Comp d.Carrier → Comp d.Carrier → Prop
  congruence : ∀ W, (Same W).Congruence
  mono : ∀ {d W W' a a'}, Later W W' → Same W d a a' → Same W' d a a'
  pure : ∀ {d W a a'}, Same W d a a' → Goes d W [] (Comp.pure a) (Comp.pure a')
  ofExcept : ∀ {d W result result'}, (Same W).Results d result result' →
    Goes d W [] (Comp.ofExcept result) (Comp.ofExcept result')
  eval : ∀ {W} id, Goes .value W [id] (Comp.eval id) (Comp.eval (move id))
  bind : ∀ {d e W xs ys} {x x' : Comp d.Carrier} {f f' : d.Carrier → Comp e.Carrier},
    Goes d W xs x x' →
    (∀ W' a a', Later W W' → Same W' d a a' → Goes e W' ys (f a) (f' a')) →
    Goes e W (xs ++ ys) (x >>= f) (x' >>= f')

namespace OperandLogic

/-- A logic in which data correspond when they are equal. -/
def plain (Goes : {α : Type} → List NodeId → Comp α → Comp α → Prop)
    (pure : ∀ {α : Type} (a : α), Goes [] (Comp.pure a) (Comp.pure a))
    (ofExcept : ∀ {α : Type} (result : Except ErrorCause α),
      Goes [] (Comp.ofExcept result) (Comp.ofExcept result))
    (eval : ∀ id, Goes [id] (Comp.eval id) (Comp.eval id))
    (bind : ∀ {α β : Type} {xs ys : List NodeId} {x x' : Comp α} {f f' : α → Comp β},
      Goes xs x x' → (∀ a, Goes ys (f a) (f' a)) → Goes (xs ++ ys) (x >>= f) (x' >>= f')) :
    OperandLogic id where
  World := Unit
  Later _ _ := True
  Same _ := .equal
  Goes _ _ := Goes
  congruence _ := DataRelation.congruence_equal
  mono _ same := same
  pure := by
    rintro d - _ _ rfl
    exact pure _
  ofExcept := by
    rintro d - _ _ (⟨rfl⟩ | ⟨cause⟩)
    · exact ofExcept _
    · exact ofExcept _
  eval := eval
  bind hx hf := bind hx fun a => hf () a a trivial rfl

variable {move : NodeId → NodeId} (L : OperandLogic move) {W : L.World}

/-! ### Operands -/

/-- An operand is evaluated first. -/
theorem eval_bind {d : Datum} {ys : List NodeId} {f f' : Value → Comp d.Carrier} (expr : NodeId)
    (hf : ∀ W' v v', L.Later W W' → L.Same W' .value v v' → L.Goes d W' ys (f v) (f' v')) :
    L.Goes d W (expr :: ys) (Comp.eval expr >>= f) (Comp.eval (move expr) >>= f') :=
  L.bind (L.eval expr) hf

/-- A conversion evaluates no operand. -/
theorem ofExcept_bind {d e : Datum} {ys : List NodeId}
    {result result' : Except ErrorCause d.Carrier} {f f' : d.Carrier → Comp e.Carrier}
    (h : (L.Same W).Results d result result')
    (hf : ∀ W' a a', L.Later W W' → L.Same W' d a a' → L.Goes e W' ys (f a) (f' a')) :
    L.Goes e W ys (Comp.ofExcept result >>= f) (Comp.ofExcept result' >>= f') :=
  L.bind (L.ofExcept h) hf

/-- What comes last evaluates no operand. -/
theorem bind_last {d e : Datum} {xs : List NodeId} {x x' : Comp d.Carrier}
    {f f' : d.Carrier → Comp e.Carrier} (hx : L.Goes d W xs x x')
    (hf : ∀ W' a a', L.Later W W' → L.Same W' d a a' → L.Goes e W' [] (f a) (f' a')) :
    L.Goes e W xs (x >>= f) (x' >>= f') :=
  List.append_nil xs ▸ L.bind hx hf

/-- An operand that may be left out is evaluated if it is there. -/
theorem optional (W : L.World) (expr : Option NodeId) :
    L.Goes .value W expr.toList (Comp.optional expr) (Comp.optional (expr.map move)) := by
  cases expr with
  | none => exact L.pure (L.congruence W).nil
  | some expr => exact L.eval expr

/-- The elements of an array, one after the other, with their spreads marked. -/
theorem items (W : L.World) (elems : List Elem) :
    L.Goes .parts W (elems.map Elem.expr) (Comp.items elems)
      (Comp.items (elems.map (Elem.relabel move))) := by
  induction elems generalizing W with
  | nil => exact L.pure (L.congruence W).noParts
  | cons elem rest ih =>
    -- the value of an element is still the same when the others have been evaluated
    cases elem with
    | plain expr =>
      exact L.eval_bind expr fun _ _ _ _ same => L.bind_last (ih _) fun W₂ _ _ later tail =>
        L.pure ((L.congruence W₂).plain (L.mono later same) tail)
    | splat expr =>
      exact L.eval_bind expr fun _ _ _ _ same => L.bind_last (ih _) fun W₂ _ _ later tail =>
        L.pure ((L.congruence W₂).spread (L.mono later same) tail)

/-- The entries of a hash: each key before its value, and both before the next entry. -/
theorem entries (W : L.World) (list : List HashEntry) {soFar soFar' : HashEntries}
    (same : L.Same W .entries soFar soFar') :
    L.Goes .entries W (list.flatMap HashEntry.exprs) (Comp.entries soFar list)
      (Comp.entries soFar' (list.map (HashEntry.relabel move))) := by
  induction list generalizing W soFar soFar' with
  | nil => exact L.pure same
  | cons entry rest ih =>
    cases entry with
    | pair key value =>
      -- what has been gathered is carried past the key, its conversion and the value
      exact L.eval_bind key fun W₁ _ _ later₁ hkey =>
        L.ofExcept_bind ((L.congruence W₁).ofValue hkey) fun _ _ _ later₂ hkey =>
        L.eval_bind value fun W₃ _ _ later₃ hvalue =>
        ih _ ((L.congruence W₃).put (L.mono later₃ (L.mono later₂ (L.mono later₁ same)))
          (L.mono later₃ hkey) hvalue)
    | doubleSplat expr =>
      exact L.eval_bind expr fun W₁ _ _ later₁ hvalue =>
        L.ofExcept_bind ((L.congruence W₁).toHashEntries hvalue) fun W₂ _ _ later₂ hmerged =>
        ih _ ((L.congruence W₂).putAll (L.mono later₂ (L.mono later₁ same)) hmerged)

/-- The arguments of a call, with every spread converted as soon as it is evaluated. -/
theorem args (W : L.World) (list : List Arg) {soFar soFar' : CallArgs}
    (same : L.Same W .args soFar soFar') :
    L.Goes .args W (list.map Arg.expr) (Comp.args soFar list)
      (Comp.args soFar' (list.map (Arg.relabel move))) := by
  induction list generalizing W soFar soFar' with
  | nil => exact L.pure same
  | cons arg rest ih =>
    cases arg with
    | positional expr =>
      exact L.eval_bind expr fun W₁ _ _ later hvalue =>
        ih _ ((L.congruence W₁).push (L.mono later same) hvalue)
    | keyword name expr =>
      exact L.eval_bind expr fun W₁ _ _ later hvalue =>
        ih _ ((L.congruence W₁).pushKeyword name (L.mono later same) hvalue)
    | splat expr =>
      exact L.eval_bind expr fun W₁ _ _ later hvalue =>
        L.ofExcept_bind ((L.congruence W₁).pushSpread (L.mono later same) hvalue)
          fun _ _ _ _ hgiven => ih _ hgiven
    | doubleSplat expr =>
      exact L.eval_bind expr fun W₁ _ _ later hvalue =>
        L.ofExcept_bind ((L.congruence W₁).mergeKeywords (L.mono later same) hvalue)
          fun _ _ _ _ hgiven => ih _ hgiven

/-- Statements, of which the last one gives the value. -/
theorem seq (W : L.World) (stmts : List NodeId) {last last' : Value}
    (same : L.Same W .value last last') :
    L.Goes .value W stmts (Comp.seq last stmts) (Comp.seq last' (stmts.map move)) := by
  induction stmts generalizing W last last' with
  | nil => exact L.pure same
  | cons stmt rest ih => exact L.eval_bind stmt fun _ _ _ _ hvalue => ih _ hvalue

/-! ### Literals and operators -/

/-- An array is built when all of its elements have been evaluated. -/
theorem array (W : L.World) (elems : List Elem) :
    L.Goes .value W (elems.map Elem.expr)
      (do
        let parts ← Comp.items elems
        return Value.array (← Comp.ofExcept (SequenceItem.build parts)))
      (do
        let parts ← Comp.items (elems.map (Elem.relabel move))
        return Value.array (← Comp.ofExcept (SequenceItem.build parts))) :=
  L.bind_last (L.items W elems) fun W₁ _ _ _ parts =>
    L.ofExcept_bind ((L.congruence W₁).build parts) fun W₂ _ _ _ values =>
      L.pure ((L.congruence W₂).array values)

/-- A hash is built from its entries. -/
theorem hash (W : L.World) (list : List HashEntry) :
    L.Goes .value W (list.flatMap HashEntry.exprs)
      (do return Value.hash (← Comp.entries [] list))
      (do return Value.hash (← Comp.entries [] (list.map (HashEntry.relabel move)))) :=
  L.bind_last (L.entries W list (L.congruence W).noEntries) fun W₁ _ _ _ entries =>
    L.pure ((L.congruence W₁).hash entries)

/-- The left operand is evaluated before the right one. -/
theorem binary (W : L.World) (op : BinaryOp) (left right : NodeId) :
    L.Goes .value W [left, right]
      (do
        let left ← Comp.eval left
        let right ← Comp.eval right
        Comp.ofExcept (op.eval left right))
      (do
        let left ← Comp.eval (move left)
        let right ← Comp.eval (move right)
        Comp.ofExcept (op.eval left right)) :=
  L.eval_bind left fun _ _ _ _ hleft => L.bind_last (L.eval right) fun W₂ _ _ later hright =>
    L.ofExcept ((L.congruence W₂).eval op (L.mono later hleft) hright)

/-! ### The same operands

When both runs evaluate the same operands, their code is the same. -/

section Fixed

variable (L : OperandLogic id) (W : L.World)

theorem optional_same (expr : Option NodeId) :
    L.Goes .value W expr.toList (Comp.optional expr) (Comp.optional expr) := by
  simpa using L.optional W expr

theorem items_same (elems : List Elem) :
    L.Goes .parts W (elems.map Elem.expr) (Comp.items elems) (Comp.items elems) := by
  simpa using L.items W elems

theorem args_same (list : List Arg) {soFar soFar' : CallArgs} (same : L.Same W .args soFar soFar') :
    L.Goes .args W (list.map Arg.expr) (Comp.args soFar list) (Comp.args soFar' list) := by
  simpa using L.args W list same

theorem seq_same (stmts : List NodeId) {last last' : Value} (same : L.Same W .value last last') :
    L.Goes .value W stmts (Comp.seq last stmts) (Comp.seq last' stmts) := by
  simpa using L.seq W stmts same

theorem array_same (elems : List Elem) :
    L.Goes .value W (elems.map Elem.expr)
      (do
        let parts ← Comp.items elems
        return Value.array (← Comp.ofExcept (SequenceItem.build parts)))
      (do
        let parts ← Comp.items elems
        return Value.array (← Comp.ofExcept (SequenceItem.build parts))) := by
  simpa using L.array W elems

theorem hash_same (list : List HashEntry) :
    L.Goes .value W (list.flatMap HashEntry.exprs)
      (do return Value.hash (← Comp.entries [] list))
      (do return Value.hash (← Comp.entries [] list)) := by
  simpa using L.hash W list

end Fixed

end OperandLogic

end ScriptSemantics
