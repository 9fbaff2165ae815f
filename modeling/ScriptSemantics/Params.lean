import ScriptSemantics.Handle
import ScriptSemantics.Name

/-!
# Parameter lists

The parameters of methods, lambdas and blocks: an ordered list of named roles, and the rules on
their order.

## Main Definitions

* `ParamRole`, `Param`, `ParamList` — roles, named parameters and their list
* `ParamError` — how a list breaks the rules
* `ParamList.validate` — one scan from left to right that reports the first fault
-/

namespace ScriptSemantics

/-- What a parameter is filled from. -/
inductive ParamRole
  /-- One positional argument. -/
  | required
  /-- One positional argument, or the value of the fallback expression. -/
  | optional (fallback : NodeId)
  /-- All remaining positional arguments, as an array. -/
  | rest
  /-- The keyword argument of the same name. -/
  | keyword
  /-- The keyword argument of the same name, or the value of the fallback expression. -/
  | keywordOptional (fallback : NodeId)
  /-- All remaining keyword arguments, as a hash. -/
  | keywordRest
  /-- A marker: the callable takes no keywords.  It binds nothing. -/
  | noKeywords
  /-- The block passed to the call. -/
  | block
deriving DecidableEq

namespace ParamRole

/-- Whether the role is filled from positional arguments. -/
def isPositional : ParamRole → Bool
  | required | optional _ | rest => true
  | _ => false

/-- Whether the role is about keyword arguments. -/
def isKeyword : ParamRole → Bool
  | keyword | keywordOptional _ | keywordRest | noKeywords => true
  | _ => false

/-- The expression evaluated when no argument is given. -/
def fallback? : ParamRole → Option NodeId
  | optional fallback | keywordOptional fallback => some fallback
  | _ => none

end ParamRole

/-- A named parameter; an anonymous one has the empty name. -/
structure Param where
  name : Name
  role : ParamRole
deriving DecidableEq

/-- How a parameter list breaks the rules on order and names. -/
inductive ParamError
  | duplicateRest
  | duplicateKeywordRest
  | misplacedOptional
  | positionalAfterKeyword
  | blockNotLast
  | duplicateName (name : Name)
deriving DecidableEq

/-- The text of a parameter fault. -/
def ParamError.message : ParamError → String
  | duplicateRest => "more than one rest parameter"
  | duplicateKeywordRest => "more than one keyword rest parameter"
  | misplacedOptional => "optional parameter after rest or trailing required parameter"
  | positionalAfterKeyword => "positional parameter after keyword parameter"
  | blockNotLast => "block parameter must come last"
  | duplicateName _ => "duplicated argument name"

/-- The parameters of a callable, in the order of their declaration. -/
abbrev ParamList := List Param

namespace ParamList

/-- The names that the list binds; anonymous parameters bind none. -/
def boundNames (params : ParamList) : List Name :=
  (params.filter (!·.name.isEmpty)).map (·.name)

/-- The fallback expressions, in order. -/
def fallbacks (params : ParamList) : List NodeId :=
  params.filterMap (·.role.fallback?)

/-- Whether the list says anything about keywords. -/
def mentionsKeywords (params : ParamList) : Bool :=
  params.any (·.role.isKeyword)

/-- What a scan of a parameter list has met so far. -/
structure Scan where
  names : List Name := []
  optional : Bool := false
  rest : Bool := false
  /-- A required parameter after an optional or rest parameter. -/
  trailing : Bool := false
  keyword : Bool := false
  /-- A keyword rest parameter or the marker that refuses keywords. -/
  keywordRest : Bool := false

/-- Check one parameter against what came before; `final` says that none follows. -/
def Scan.step (scan : Scan) (param : Param) (final : Bool) : Except ParamError Scan :=
  let named := !param.name.isEmpty
  if named && scan.names.contains param.name then .error (.duplicateName param.name)
  else if param.role.isPositional && scan.keyword then .error .positionalAfterKeyword
  else
    let scan := if named then { scan with names := param.name :: scan.names } else scan
    match param.role with
    | .required => .ok { scan with trailing := scan.trailing || scan.rest || scan.optional }
    | .optional _ =>
      if scan.rest || scan.trailing then .error .misplacedOptional
      else .ok { scan with optional := true }
    | .rest =>
      if scan.rest then .error .duplicateRest
      else if scan.trailing then .error .misplacedOptional
      else .ok { scan with rest := true }
    | .keyword | .keywordOptional _ => .ok { scan with keyword := true }
    | .keywordRest | .noKeywords =>
      if scan.keywordRest then .error .duplicateKeywordRest
      else .ok { scan with keywordRest := true, keyword := true }
    | .block => if final then .ok scan else .error .blockNotLast

/-- Scan the rest of a list. -/
def validateFrom : Scan → List Param → Except ParamError Unit
  | _, [] => .ok ()
  | scan, param :: rest =>
    match scan.step param rest.isEmpty with
    | .error fault => .error fault
    | .ok next => validateFrom next rest

/-- Check the rules on order and names, reporting the first fault. -/
def validate (params : ParamList) : Except ParamError Unit :=
  validateFrom {} params

end ParamList

end ScriptSemantics
