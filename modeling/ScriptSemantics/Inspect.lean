import ScriptSemantics.Closure
import ScriptSemantics.Text.Quoted

/-!
# Showing values

Two renderings of values: one close to what a program would write, and one that shows the tags and
numbers behind it.

## Main Definitions

* `Value.inspect` — `[1, :a, nil]`
* `Value.dump` — `[Int(1), Symbol(34), Nil]`
-/

namespace ScriptSemantics

namespace HashKey

/-- A hash key with its tag. -/
def dump : HashKey → String
  | nil => "Nil"
  | bool b => "Bool(" ++ toString b ++ ")"
  | int n => "Int(" ++ toString n ++ ")"
  | str s => "Str(" ++ Text.quote s ++ ")"
  | symbol name => "Symbol(Name(" ++ toString name.index ++ "))"

/-- A hash key as a program writes it in front of its value. -/
def inspectLabel (names : NameTable) : HashKey → String
  | nil => "nil => "
  | bool b => toString b ++ " => "
  | int n => toString n ++ " => "
  | str s => Text.quote s ++ " => "
  | symbol name => names.lookup name ++ ": "

end HashKey

namespace Closure

/-- An optional frame identity with its tag. -/
def dumpFrame : Option FrameId → String
  | some id => "Some(FrameId(" ++ toString id.index ++ "))"
  | none => "None"

/-- The identifying parts of a closure. -/
def dump (closure : Closure) : String :=
  "ProcValue \x7b literal: ExprId(" ++ toString closure.literal.index ++ "), is_lambda: " ++
    toString closure.isLambda ++ ", home: " ++ dumpFrame closure.home ++ ", break_tag: " ++
    dumpFrame closure.breakTag ++ ", .. \x7d"

end Closure

namespace Value

/-- Parts in square brackets. -/
def bracketed (parts : List String) : String :=
  "[" ++ ", ".intercalate parts ++ "]"

/-- Parts in braces. -/
def braced (parts : List String) : String :=
  "\x7b" ++ ", ".intercalate parts ++ "\x7d"

/-- A closure from outside: only lambdas are told apart. -/
def inspectProc (closures : ClosureTable) (id : ProcId) : String :=
  if (closures.get? id).any (·.isLambda) then "#<Proc (lambda)>" else "#<Proc>"

mutual

/-- A value as a program would write it. -/
def inspect (names : NameTable) (closures : ClosureTable) : Value → String
  | nil => "nil"
  | bool b => toString b
  | int n => toString n
  | str s => Text.quote s
  | symbol name => ":" ++ names.lookup name
  | array items => bracketed (inspectItems names closures items)
  | hash entries => braced (inspectEntries names closures entries)
  | proc id => inspectProc closures id
  | object _ className _ _ => "#<" ++ className ++ ">"

/-- The elements of an array. -/
def inspectItems (names : NameTable) (closures : ClosureTable) : List Value → List String
  | [] => []
  | item :: rest => inspect names closures item :: inspectItems names closures rest

/-- The entries of a hash. -/
def inspectEntries (names : NameTable) (closures : ClosureTable) :
    List (HashKey × Value) → List String
  | [] => []
  | (key, value) :: rest =>
    (key.inspectLabel names ++ inspect names closures value) ::
      inspectEntries names closures rest

end

mutual

/-- A value with the tags and numbers behind it. -/
def dump (closures : ClosureTable) : Value → String
  | nil => "Nil"
  | bool b => "Bool(" ++ toString b ++ ")"
  | int n => "Int(" ++ toString n ++ ")"
  | str s => "Str(" ++ Text.quote s ++ ")"
  | symbol name => "Symbol(" ++ toString name.index ++ ")"
  | array items => bracketed (dumpItems closures items)
  | hash entries => braced (dumpEntries closures entries)
  | proc id => ((closures.get? id).map Closure.dump).getD "#<Proc>"
  | object _ className _ _ => "Object(" ++ className ++ ")"

/-- The elements of an array. -/
def dumpItems (closures : ClosureTable) : List Value → List String
  | [] => []
  | item :: rest => dump closures item :: dumpItems closures rest

/-- The entries of a hash. -/
def dumpEntries (closures : ClosureTable) : List (HashKey × Value) → List String
  | [] => []
  | (key, value) :: rest =>
    (key.dump ++ ": " ++ dump closures value) :: dumpEntries closures rest

end

end Value

end ScriptSemantics
