import ScriptSemantics.Arity

/-!
# Errors

What can go wrong during evaluation, how it is worded, and which error classes it belongs to.

## Main Definitions

* `Signal` — the kinds of non-local exits
* `ErrorCause` — one constructor per cause, with its data
* `ErrorCause.message` — the wording
* `ErrorCause.ancestors`, `ErrorCause.isA` — the class chain that rescue clauses match
* `ErrorCause.category` — the coarse grouping
* `Backtrace`, `EvalError` — an error with the frames that were live where it arose
-/

namespace ScriptSemantics

/-- The kinds of non-local exits. -/
inductive Signal
  | return | break | next | redo | yield
deriving DecidableEq

/-- The word for a signal. -/
def Signal.text : Signal → String
  | .return => "return"
  | .break => "break"
  | .next => "next"
  | .redo => "redo"
  | .yield => "yield"

/-- Why an evaluation failed. -/
inductive ErrorCause
  | undefinedVariable (name : String)
  /-- A conversion hook returned something other than an array. -/
  | coercionFailure (typeName got : String)
  /-- There is no conversion into the target type. -/
  | implicitConversion (typeName target : String)
  | unhashableKey (typeName : String)
  | arityMismatch (given : Nat) (expected : Arity)
  | missingKeywords (names : List String)
  | unknownKeywords (names : List String)
  | noKeywordsAccepted
  | invalidControlTransfer (signal : Signal) (reason : String)
  | undefinedMethod (method receiver : String)
  | notCallable (typeName : String)
  /-- The right operand does not fit the left one. -/
  | operandCoercion (typeName target : String)
  | integerOverflow (operation : String)
  | stackOverflow (limit : Nat)
  | raised (message : String)
  /-- The tree breaks a static rule. -/
  | invalidProgram (message : String)
  | custom (message : String)
deriving DecidableEq

/-- The coarse grouping of causes. -/
inductive ErrorCategory
  | unboundVariable | coercionFailure | arityMismatch | invalidControlTransfer | other
deriving DecidableEq

namespace ErrorCause

/-- A method was called that needs a block and got none. -/
def noBlockGiven : ErrorCause :=
  .invalidControlTransfer .yield "no block given (yield)"

/-- The group of a cause. -/
def category : ErrorCause → ErrorCategory
  | undefinedVariable _ => .unboundVariable
  | coercionFailure .. | implicitConversion .. | unhashableKey _ => .coercionFailure
  | arityMismatch .. | missingKeywords _ | unknownKeywords _ | noKeywordsAccepted =>
    .arityMismatch
  | invalidControlTransfer .. => .invalidControlTransfer
  | undefinedMethod .. | notCallable _ | operandCoercion .. | integerOverflow _
  | stackOverflow _ | raised _ | invalidProgram _ | custom _ => .other

/-- The class that an error presents itself as. -/
def className : ErrorCause → String
  | undefinedVariable _ => "NameError"
  | undefinedMethod .. | notCallable _ => "NoMethodError"
  | coercionFailure .. | implicitConversion .. | unhashableKey _ | operandCoercion .. =>
    "TypeError"
  | arityMismatch .. | missingKeywords _ | unknownKeywords _ | noKeywordsAccepted =>
    "ArgumentError"
  | invalidControlTransfer .. => "LocalJumpError"
  | integerOverflow _ => "RangeError"
  | stackOverflow _ => "SystemStackError"
  | invalidProgram _ => "SyntaxError"
  | raised _ | custom _ => "RuntimeError"

/-- The classes above the own class, most specific first. -/
def superclasses : ErrorCause → List String
  | undefinedMethod .. | notCallable _ => ["NameError", "StandardError", "Exception"]
  | stackOverflow _ => ["Exception"]
  | invalidProgram _ => ["ScriptError", "Exception"]
  | undefinedVariable _ | coercionFailure .. | implicitConversion .. | unhashableKey _
  | operandCoercion .. | arityMismatch .. | missingKeywords _ | unknownKeywords _
  | noKeywordsAccepted | invalidControlTransfer .. | integerOverflow _ | raised _ | custom _ =>
    ["StandardError", "Exception"]

/-- The class chain, most specific first. -/
def ancestors (cause : ErrorCause) : List String :=
  cause.className :: cause.superclasses

/-- Whether a rescue clause for this class takes the error. -/
def isA (cause : ErrorCause) (className : String) : Bool :=
  cause.ancestors.contains className

/-- Names in the spelling of symbols, separated by commas. -/
def symbolList (names : List String) : String :=
  ", ".intercalate (names.map (":" ++ ·))

/-- The singular for one name, else the plural. -/
def keywordWord (names : List String) : String :=
  if names.length = 1 then "keyword" else "keywords"

/-- The wording of an error. -/
def message : ErrorCause → String
  | undefinedVariable name => "undefined local variable or method '" ++ name ++ "' for main"
  | coercionFailure typeName got =>
    "can't convert " ++ typeName ++ " to Array (" ++ typeName ++ "#to_a gives " ++ got ++ ")"
  | implicitConversion typeName target =>
    "no implicit conversion of " ++ typeName ++ " into " ++ target
  | unhashableKey typeName => typeName ++ " cannot be used as a hash key"
  | arityMismatch given expected =>
    "wrong number of arguments (given " ++ toString given ++ ", expected " ++ expected.text ++ ")"
  | missingKeywords names => "missing " ++ keywordWord names ++ ": " ++ symbolList names
  | unknownKeywords names => "unknown " ++ keywordWord names ++ ": " ++ symbolList names
  | noKeywordsAccepted => "no keywords accepted"
  | invalidControlTransfer _ reason => reason
  | undefinedMethod method receiver => "undefined method '" ++ method ++ "' for " ++ receiver
  | notCallable typeName => "undefined method 'call' for an instance of " ++ typeName
  | operandCoercion typeName target => typeName ++ " can't be coerced into " ++ target
  | integerOverflow operation => "integer overflow in " ++ operation
  | stackOverflow limit => "stack level too deep (limit: " ++ toString limit ++ ")"
  | raised message | invalidProgram message | custom message => message

end ErrorCause

/-- The labels of the frames that were live, innermost first. -/
structure Backtrace where
  frames : List String
deriving DecidableEq

namespace Backtrace

/-- One line per frame under a headline; empty for no frames. -/
def text (trace : Backtrace) : String :=
  if trace.frames.isEmpty then ""
  else
    "stack backtrace:\n" ++
      String.join (trace.frames.zipIdx.map fun (label, i) =>
        "  " ++ toString i ++ ": " ++ label ++ "\n")

end Backtrace

/-- An error on its way, with the frames live where it arose once they were recorded. -/
structure EvalError where
  cause : ErrorCause
  backtrace : Option Backtrace := none
deriving DecidableEq

namespace EvalError

/-- The wording of the error. -/
def message (error : EvalError) : String :=
  error.cause.message

/-- The wording with the class. -/
def text (error : EvalError) : String :=
  error.message ++ " (" ++ error.cause.className ++ ")"

/-- Record the live frames unless they are recorded already. -/
def withBacktrace (error : EvalError) (trace : Backtrace) : EvalError :=
  match error.backtrace with
  | some _ => error
  | none => { error with backtrace := some trace }

end EvalError

end ScriptSemantics
