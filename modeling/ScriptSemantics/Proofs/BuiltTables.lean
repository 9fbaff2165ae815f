import ScriptSemantics.TreeBuilder

/-!
# Tables that are built

A builder hands out ids of nodes that are in the table already.  As long as it is given no others,
each node it adds comes after its operands, also where one call adds several nodes.

## Main Definitions

* `Build.Founds` — a step that is given ids of nodes in the table puts operands before their nodes
* `BuilderCall` — the calls of a builder, with the ids they are given and what they do
* `BuilderSession` — a program being built, with the ids handed out so far
* `BuilderSession.Built` — sessions in which each call is given ids that were handed out before

## Main Results

* `Build.Founds.bind`, `Build.founds_mapM` — one rule for each way of putting steps together
* `BuilderCall.founds_build` — every call puts operands before their nodes
* `BuilderSession.Built.founded` — so does every session
-/

namespace ScriptSemantics

theorem Elem.map_expr_plain (items : List NodeId) : (items.map Elem.plain).map Elem.expr = items := by
  rw [List.map_map]
  exact List.map_id' items

theorem Arg.map_expr_positional (args : List NodeId) :
    (args.map Arg.positional).map Arg.expr = args := by
  rw [List.map_map]
  exact List.map_id' args

/-! ### Adding one node -/

namespace NodeTable

variable {table : NodeTable} {node : Node}

/-- The table has nodes with all these ids. -/
def Holds (table : NodeTable) (ids : List NodeId) : Prop :=
  ∀ id ∈ ids, id.index < table.size

theorem founded_empty : empty.Founded := by
  intro id node hnode
  simp [node?, empty] at hnode

theorem size_add (table : NodeTable) (node : Node) : (table.add node).2.size = table.size + 1 :=
  Array.size_push _

/-- A node that is added after its operands comes after them. -/
theorem Founded.add (founded : table.Founded) (operands : table.Holds node.children) :
    (table.add node).2.Founded := by
  intro id other hother child hchild
  have hnode : (table.add node).2.node? id =
      if id.index = table.size then some node else table.node? id := Array.getElem?_push
  rw [hnode] at hother
  split at hother
  next heq =>
    cases hother
    rw [heq]
    exact operands child hchild
  next => exact founded id other hother child hchild

end NodeTable

/-! ### Steps -/

namespace Build

variable {α β : Type} {given : List NodeId} {made : α → List NodeId} {made' : β → List NodeId}
  {node : Node}

/-- How a step leaves a program: operands precede their nodes, no node is gone, and the table has
the nodes with some ids. -/
structure Leaves (before after : Program) (ids : List NodeId) : Prop where
  founded : after.nodes.Founded
  size_le : before.nodes.size ≤ after.nodes.size
  holds : after.nodes.Holds ids

/-- A step that is given ids of nodes in the table keeps operands before their nodes, and what it
makes refers to nodes in the table. -/
def Founds (step : Build α) (given : List NodeId) (made : α → List NodeId) : Prop :=
  ∀ program : Program, program.nodes.Founded → program.nodes.Holds given →
    Leaves program (step.run program).2 (made (step.run program).1)

theorem Founds.pure {a : α} (known : made a ⊆ given) : Founds (pure a) given made := by
  intro program founded holds
  exact ⟨founded, Nat.le_refl _, fun id hid => holds id (known hid)⟩

/-- The second step is given what the first one has made. -/
theorem Founds.bind {step : Build α} {next : α → Build β} (first : Founds step given made)
    (second : ∀ a, Founds (next a) (made a ++ given) made') : Founds (step >>= next) given made' := by
  intro program founded holds
  have left := first program founded holds
  have holds' : (step.run program).2.nodes.Holds (made (step.run program).1 ++ given) := by
    intro id hid
    rcases List.mem_append.mp hid with hmade | hgiven
    · exact left.holds id hmade
    · exact Nat.lt_of_lt_of_le (holds id hgiven) left.size_le
  have right := second (step.run program).1 (step.run program).2 left.founded holds'
  exact ⟨right.founded, Nat.le_trans left.size_le right.size_le, right.holds⟩

theorem Founds.mono {step : Build α} {given' : List NodeId} (h : Founds step given made)
    (sub : given ⊆ given') : Founds step given' made :=
  fun program founded holds => h program founded fun id hid => holds id (sub hid)

theorem Founds.map {step : Build α} {f : α → β} (h : Founds step given made)
    (known : ∀ a, made' (f a) ⊆ made a) : Founds (f <$> step) given made' := by
  rw [map_eq_pure_bind]
  exact h.bind fun a => .pure fun id hid => List.mem_append_left _ (known a hid)

/-- Every step of a list is given the same ids. -/
theorem founds_mapM {f : α → Build β} {list : List α} (made' : β → List NodeId)
    (each : ∀ a ∈ list, Founds (f a) given made') :
    Founds (list.mapM f) given fun results => results.flatMap made' := by
  induction list with
  | nil => exact .pure (List.nil_subset _)
  | cons first rest ih =>
    rw [List.mapM_cons]
    refine (each first List.mem_cons_self).bind fun b => ?_
    have later := ih fun a ha => each a (List.mem_cons_of_mem _ ha)
    refine (later.mono (List.subset_append_right _ _)).bind fun results => .pure fun id hid => ?_
    rw [List.flatMap_cons] at hid
    grind

theorem founds_name (text : String) : Founds (name text) given fun _ => [] :=
  fun _ founded _ => ⟨founded, Nat.le_refl _, nofun⟩

theorem founds_add (operands : node.children ⊆ given) : Founds (add node) given fun id => [id] := by
  intro program founded holds
  have hsize := program.nodes.size_add node
  refine ⟨founded.add fun id hid => holds id (operands hid), ?_, fun id hid => ?_⟩
  · show program.nodes.size ≤ (program.nodes.add node).2.size
    omega
  · cases List.mem_singleton.mp hid
    show program.nodes.size < (program.nodes.add node).2.size
    omega

/-- A node with a name in it. -/
theorem founds_named {text : String} {node : Name → Node}
    (operands : ∀ name, (node name).children ⊆ given) :
    Founds (do add (node (← name text))) given fun id => [id] :=
  (founds_name text).bind fun name => founds_add (operands name)

theorem founds_symHash (entries : List (String × NodeId)) :
    Founds (symHash entries) (entries.map (·.2)) fun id => [id] := by
  refine (founds_mapM HashEntry.exprs fun entry hentry => ?_).bind fun pairs => ?_
  · refine (founds_named fun _ => List.nil_subset _).bind fun key => .pure fun id hid => ?_
    have hvalue : entry.2 ∈ entries.map (·.2) := List.mem_map_of_mem hentry
    simp only [HashEntry.exprs] at hid
    grind
  · exact founds_add (List.subset_append_left _ _)

theorem founds_rescueClause (classes : List String) (binding : Option String) (body : NodeId) :
    Founds (rescueClause classes binding body) [body] fun clause => [clause.body] := by
  have names {given : List NodeId} : Founds (binding.mapM name) given fun _ => [] := by
    cases binding with
    | none => exact .pure (List.nil_subset _)
    | some text => exact (founds_name text).map fun _ => List.nil_subset _
  refine (founds_mapM (fun _ => []) fun text _ => founds_name text).bind fun classes => ?_
  exact names.bind fun binding => .pure (by simp)

theorem founds_keywordArg (key : String) (value : NodeId) :
    Founds (keywordArg key value) [value] fun arg => [arg.expr] :=
  (founds_name key).bind fun _ => .pure (List.Subset.refl _)

/-- The block literal is added before the call that it is given to. -/
theorem founds_callWithBlock (method : String) (args : List NodeId) (params : ParamList)
    (body : NodeId) :
    Founds (callWithBlock method args params body) (args ++ (params.fallbacks ++ [body]))
      fun id => [id] := by
  refine (founds_add (List.subset_append_right _ _)).bind fun block => ?_
  refine founds_named fun name id hid => ?_
  rw [Node.children, Arg.map_expr_positional] at hid
  rcases List.mem_append.mp hid with harg | hblock
  · exact List.mem_append_right _ (List.mem_append_left _ harg)
  · exact List.mem_append_left _ hblock

end Build

/-! ### Calls of a builder -/

/-- A call of the builder.  All calls that add one node as it is given are the call `add`. -/
inductive BuilderCall
  | add (node : Node)
  | name (text : String)
  | str (text : String)
  | symbol (text : String)
  | arrayOf (items : List NodeId)
  | symHash (entries : List (String × NodeId))
  | ident (text : String)
  | assignElems (target : String) (value : List Elem)
  | assign (target : String) (value : NodeId)
  | opAssign (target : String) (op : BinaryOp) (value : NodeId)
  | whileLoop (test body : NodeId)
  | untilLoop (test body : NodeId)
  | doWhile (body test : NodeId)
  | ensured (body cleanup : NodeId)
  /-- A part of a later node, with its names interned now. -/
  | rescueClause (classes : List String) (binding : Option String) (body : NodeId)
  | define (text : String) (params : ParamList) (body : NodeId)
  | call (method : String) (args : List Arg) (block : Option BlockArg)
  | callSimple (method : String) (args : List NodeId)
  | callWithBlock (method : String) (args : List NodeId) (params : ParamList) (body : NodeId)
  /-- A part of a later node, with its name interned now. -/
  | keywordArg (key : String) (value : NodeId)

namespace BuilderCall

/-- The ids that the call is given. -/
def given : BuilderCall → List NodeId
  | add node => node.children
  | name _ | str _ | symbol _ | ident _ => []
  | arrayOf items => items
  | symHash entries => entries.map (·.2)
  | assignElems _ value => value.map Elem.expr
  | assign _ value | opAssign _ _ value => [value]
  | whileLoop test body | untilLoop test body => [test, body]
  | doWhile body test => [body, test]
  | ensured body cleanup => [body, cleanup]
  | rescueClause _ _ body => [body]
  | define _ params body => params.fallbacks ++ [body]
  | call _ args block => args.map Arg.expr ++ (block.map BlockArg.expr).toList
  | callSimple _ args => args
  | callWithBlock _ args params body => args ++ (params.fallbacks ++ [body])
  | keywordArg _ value => [value]

/-- What the call does.  It hands out the id of the node that it adds last, if it adds one. -/
def build : BuilderCall → Build (Option NodeId)
  | add node => some <$> Build.add node
  | name text => (fun _ => none) <$> Build.name text
  | str text => some <$> Build.str text
  | symbol text => some <$> Build.symbol text
  | arrayOf items => some <$> Build.arrayOf items
  | symHash entries => some <$> Build.symHash entries
  | ident text => some <$> Build.ident text
  | assignElems target value => some <$> Build.assignElems target value
  | assign target value => some <$> Build.assign target value
  | opAssign target op value => some <$> Build.opAssign target op value
  | whileLoop test body => some <$> Build.whileLoop test body
  | untilLoop test body => some <$> Build.untilLoop test body
  | doWhile body test => some <$> Build.doWhile body test
  | ensured body cleanup => some <$> Build.ensured body cleanup
  | rescueClause classes binding body =>
    (fun _ => none) <$> Build.rescueClause classes binding body
  | define text params body => some <$> Build.define text params body
  | call method args block => some <$> Build.call method args block
  | callSimple method args => some <$> Build.callSimple method args
  | callWithBlock method args params body => some <$> Build.callWithBlock method args params body
  | keywordArg key value => (fun _ => none) <$> Build.keywordArg key value

/-- A call that is given ids of nodes in the table puts operands before their nodes, and the table
has a node with the id that it hands out. -/
theorem founds_build (call : BuilderCall) :
    Build.Founds call.build call.given Option.toList := by
  have returns {step : Build NodeId} {given : List NodeId}
      (h : Build.Founds step given fun id => [id]) :
      Build.Founds (some <$> step) given Option.toList := h.map fun _ => List.Subset.refl _
  cases call with
  | add node => exact returns (Build.founds_add (List.Subset.refl _))
  | name text => exact (Build.founds_name text).map fun _ => List.nil_subset _
  | str | symbol | ident => exact returns (Build.founds_named fun _ => List.nil_subset _)
  | arrayOf items =>
    refine returns (Build.founds_add ?_)
    rw [Node.children, Elem.map_expr_plain]
    exact List.Subset.refl _
  | symHash entries => exact returns (Build.founds_symHash entries)
  | assignElems | assign | opAssign | define | call =>
    exact returns (Build.founds_named fun _ => List.Subset.refl _)
  | whileLoop test body => exact returns (Build.founds_add (List.Subset.refl _))
  | untilLoop test body => exact returns (Build.founds_add (List.Subset.refl _))
  | doWhile body test => exact returns (Build.founds_add (List.Perm.swap _ _ _).subset)
  | ensured body cleanup => exact returns (Build.founds_add (List.Subset.refl _))
  | rescueClause classes binding body =>
    exact (Build.founds_rescueClause classes binding body).map fun _ => List.nil_subset _
  | callSimple method args =>
    refine returns (Build.founds_named fun _ => ?_)
    rw [Node.children, Arg.map_expr_positional, Option.map_none, Option.toList_none, List.append_nil]
    exact List.Subset.refl _
  | callWithBlock method args params body =>
    exact returns (Build.founds_callWithBlock method args params body)
  | keywordArg key value =>
    exact (Build.founds_keywordArg key value).map fun _ => List.nil_subset _

end BuilderCall

/-! ### Sessions -/

/-- A program that is being built, with the ids that were handed out. -/
structure BuilderSession where
  program : Program
  returned : List NodeId

namespace BuilderSession

/-- No node is there yet.  Names may be known from other programs. -/
def start (names : NameTable) : BuilderSession where
  program := { names, nodes := .empty }
  returned := []

/-- Carry out a call. -/
def apply (session : BuilderSession) (call : BuilderCall) : BuilderSession :=
  let (id?, program) := call.build.run session.program
  { program, returned := session.returned ++ id?.toList }

/-- Each call was given only ids that had been handed out before. -/
inductive Built (names : NameTable) : BuilderSession → Prop
  | start : Built names (start names)
  | call {session : BuilderSession} (call : BuilderCall) (built : Built names session)
      (known : call.given ⊆ session.returned) : Built names (session.apply call)

/-- Operands precede their nodes, and the table has all nodes whose ids were handed out. -/
theorem Built.founded {names : NameTable} {session : BuilderSession} (built : Built names session) :
    session.program.nodes.Founded ∧ session.program.nodes.Holds session.returned := by
  induction built with
  | start => exact ⟨NodeTable.founded_empty, nofun⟩
  | @call session call _ known ih =>
    obtain ⟨founded, holds⟩ := ih
    have left := call.founds_build session.program founded fun id hid => holds id (known hid)
    refine ⟨left.founded, fun id hid => ?_⟩
    rcases List.mem_append.mp hid with hold | hnew
    · exact Nat.lt_of_lt_of_le (holds id hold) left.size_le
    · exact left.holds id hnew

end BuilderSession

end ScriptSemantics
