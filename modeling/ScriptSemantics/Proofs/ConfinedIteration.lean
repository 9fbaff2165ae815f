import ScriptSemantics.Proofs.Confinement

/-!
# `next` and `redo` in methods and closures

No `next` and no `redo` crosses the boundary of a method or of a closure, unless one leaks.  In a
method it acts on a running loop of the same activation or fails, and a `next` outside of any loop
is the answer of the closure that it is evaluated in.  Cleanup parts on the way run, and do not
change that unless one ends in an exit of its own.

## Main Results

* `Program.methods_confine_iteration` — in methods
* `Program.closures_confine_iteration` — in closures
-/

namespace ScriptSemantics

namespace Program

variable {program : Program}

theorem not_iterating_of_method {m : Machine} {frame : Frame} (hframe : m.frame? = some frame)
    (hkind : frame.kind = .method) (noLoop : frame.loopDepth = 0) :
    Frame.iterating m.calls.frames = false := by
  have hhead : m.calls.frames.head? = some frame := hframe
  simp [Frame.iterating, hhead, Frame.isIterating, hkind, noLoop]

/-- A run in which no task leaks, of a method: it does not end in a `next` or `redo`.  Inside, a
`next` or `redo` leaves nodes only, and where it leaves one in the activation of a method, it leaves
the nodes around it in this activation, also after a cleanup part that has a value, until a running
loop of the activation takes it or a cleanup part ends in an exit of its own.  Where the method runs
no loop, `next` and `redo` fail. -/
theorem methods_confine_iteration (program : Program) (fuel : Nat) (callee : Method) (id : FrameId)
    (given : CallArgs) (block : Option ProcId) (m : Machine)
    (tight : program.IsTight (program.record fuel (.method callee id given block) m)) :
    (∀ e m', program.perform fuel (.method callee id given block) m = some (.error e, m') →
      ¬ e.IsIteration) ∧
    (∀ i task e m', (program.record fuel (.method callee id given block) m)[i]? =
        some (.leave task (.error e) m') → e.IsIteration →
      (∃ node, task = .node node) ∧
      ∀ frame, m'.frame? = some frame → frame.kind = .method →
        (Passage.inMethod program).Journey e m'.calls.frames
          ((program.record fuel (.method callee id given block) m).drop (i + 1))) ∧
    ∀ node frame m' fuel' ending m'', m'.frame? = some frame → frame.kind = .method →
      frame.loopDepth = 0 → program.perform fuel' (.node node) m' = some (ending, m'') →
      (program.nodes.node? node = some .redo →
        ending = .error (.error { cause := .invalidControlTransfer .redo "Invalid redo" })) ∧
      ∀ value, program.nodes.node? node = some (.nextWith value) →
        ending = .error (.error { cause := .invalidControlTransfer .next "Invalid next" }) ∨
        ∃ operand e, value = some operand ∧ ending = .error e ∧
          program.perform (fuel' - 1) (.node operand) m' = some (.error e, m'') := by
  have hprogram : ¬ (Task.method callee id given block).IsProgram := nofun
  refine ⟨fun e m' h => not_iteration_of_perform rfl hprogram tight h, ?_, ?_⟩
  · intro i task e m' hleave he
    refine ⟨node_of_leave hprogram tight hleave he, fun frame hframe hkind => ?_⟩
    exact journey_inMethod hprogram tight hleave he ⟨frame, hframe, hkind⟩
  · intro node frame m' fuel' ending m'' hframe hkind noLoop hperform
    have outside := not_iterating_of_method hframe hkind noLoop
    exact ⟨fun lookup => redo_outside lookup outside hperform,
      fun value lookup => next_outside lookup outside hperform⟩

/-- The method `def m; begin; begin; next; ensure; nil; end; end while false; end`, where `m` is the
first name that is not reserved. -/
def skipping : Program where
  names := .initial
  nodes := ⟨#[.bool false, .nextWith none, .nil, .begin ⟨1⟩ [] none (some ⟨2⟩),
    .loop .whileTrue ⟨0⟩ ⟨3⟩ true]⟩

/-- The method of `skipping`. -/
def skipper : Method where
  name := ⟨34⟩
  params := []
  body := ⟨4⟩
  root := ⟨5⟩

/-- The cleanup part in the body of the loop has a value, its node is left by the `next`, the loop
goes on with its condition, and the method ends with the value of the loop. -/
theorem skipping_stays_in_method :
    let events := skipping.record 6 (.method skipper ⟨0⟩ {} none) (.initial .unlimited [])
    skipping.IsTight events ∧
    (∃ m', skipping.perform 6 (.method skipper ⟨0⟩ {} none) (.initial .unlimited []) =
      some (.ok .nil, m')) ∧
    (∃ m', events[4]? = some (.leave (.node ⟨1⟩) (.error (.next .nil)) m') ∧
      (Passage.inMethod skipping).Journey (.next .nil) m'.calls.frames (events.drop 5)) ∧
    (∃ m', events[7]? = some (.leave (.node ⟨3⟩) (.error (.next .nil)) m')) ∧
    ∃ m', events[8]? = some (.enter (.node ⟨0⟩) m') := by
  intro events
  have quiet : ∀ id, skipping.nodes.Leaks true id → id ≠ ⟨0⟩ := by
    rintro id leaks rfl
    cases leaks with
    | operand lookup _ mem => cases lookup; cases mem
    | next lookup | redo lookup | condition lookup => cases lookup
  have tight : skipping.IsTight events := by
    refine .of_opened _ _ ?_ rfl
    rintro ⟨child, hchild, leaks⟩
    cases List.mem_singleton.mp hchild
    cases leaks with
    | condition lookup leaks =>
      cases lookup
      exact quiet _ leaks rfl
    | operand lookup noLoop =>
      cases lookup
      exact noLoop _ _ _ _ rfl
  obtain ⟨-, stays, -⟩ := methods_confine_iteration skipping 6 skipper ⟨0⟩ {} none _ tight
  refine ⟨tight, ⟨_, rfl⟩, ⟨_, rfl, ?_⟩, ⟨_, rfl⟩, _, rfl⟩
  exact (stays 4 _ _ _ rfl trivial).2 _ rfl rfl

/-- The program `def m; while next; end; end; begin; m; x = 5; end while false; x`, where `m` and
`x` are the first names that are not reserved. -/
def escaping : Program where
  names := .initial
  nodes := ⟨#[.nextWith none, .nil, .loop .whileTrue ⟨0⟩ ⟨1⟩ false, .define ⟨34⟩ [] ⟨2⟩,
    .call ⟨34⟩ [] none, .int 5, .assign ⟨35⟩ [.plain ⟨5⟩], .seq [⟨4⟩, ⟨6⟩], .bool false,
    .loop .whileTrue ⟨8⟩ ⟨7⟩ true, .ident ⟨35⟩, .seq [⟨3⟩, ⟨9⟩, ⟨10⟩]]⟩

/-- A `next` in the condition of a loop leaves the method and makes the loop of the caller go on, so
that the assignment after the call is skipped. -/
theorem escaping_leaves_method :
    (∃ callee id given block m, (escaping.session 12 [⟨11⟩] (.initial .unlimited []))[12]? =
      some (.leave (.method callee id given block) (.error (.next .nil)) m)) ∧
    (∃ m, (escaping.session 12 [⟨11⟩] (.initial .unlimited []))[15]? =
      some (.enter (.node ⟨8⟩) m)) ∧
    ∃ m, escaping.evaluateWith 12 ⟨11⟩ (.initial .unlimited []) = some (.ok .nil, m) :=
  ⟨⟨_, _, _, _, _, rfl⟩, ⟨_, rfl⟩, _, rfl⟩

/-- A run in which no task leaks, of a closure: it does not end in a `next` or `redo`.  Inside, a
`next` that has left a node in the activation of a closure outside of any loop leaves the nodes
around it, also after a cleanup part that has a value, until the closure is left with the value of
the `next` or a cleanup part ends in an exit of its own. -/
theorem closures_confine_iteration (program : Program) (fuel : Nat) (proc : ProcId) (id : FrameId)
    (given : CallArgs) (block : Option ProcId) (m : Machine)
    (tight : program.IsTight (program.record fuel (.closure proc id given block) m)) :
    (∀ e m', program.perform fuel (.closure proc id given block) m = some (.error e, m') →
      ¬ e.IsIteration) ∧
    ∀ i task value m' frame, (program.record fuel (.closure proc id given block) m)[i]? =
        some (.leave task (.error (.next value)) m') →
      m'.frame? = some frame → frame.loopDepth = 0 →
      (Passage.inClosure program).Journey (.next value) m'.calls.frames
        ((program.record fuel (.closure proc id given block) m).drop (i + 1)) := by
  have hprogram : ¬ (Task.closure proc id given block).IsProgram := nofun
  refine ⟨fun e m' h => not_iteration_of_perform rfl hprogram tight h, ?_⟩
  intro i task value m' frame hleave hframe noLoop
  exact journey_inClosure hprogram tight hleave ⟨frame, hframe, noLoop⟩

/-- The lambda `lambda { begin; next 5; ensure; nil; end; 7 }`. -/
def answering : Program where
  names := .initial
  nodes := ⟨#[.int 5, .nextWith (some ⟨0⟩), .nil, .begin ⟨1⟩ [] none (some ⟨2⟩), .int 7,
    .seq [⟨3⟩, ⟨4⟩], .lambda [] ⟨5⟩]⟩

/-- The machine on which the lambda of `answering` was made. -/
def answerer : Machine :=
  ((Machine.initial .unlimited []).makeClosure ⟨6⟩ [] ⟨5⟩ true none).2

/-- The cleanup part has a value, its node is left by the `next`, and the value of the `next` is
that of the call. -/
theorem answering_confines :
    let events := answering.record 6 (.closure ⟨0⟩ ⟨0⟩ {} none) answerer
    answering.IsTight events ∧
    (∃ m, answering.perform 6 (.closure ⟨0⟩ ⟨0⟩ {} none) answerer = some (.ok (.int 5), m)) ∧
    (∃ m, events[6]? = some (.leave (.node ⟨1⟩) (.error (.next (.int 5))) m) ∧
      (Passage.inClosure answering).Journey (.next (.int 5)) m.calls.frames (events.drop 7)) ∧
    (∃ m, events[9]? = some (.leave (.node ⟨3⟩) (.error (.next (.int 5))) m)) ∧
    ∃ m, events[11]? = some (.leave (.closure ⟨0⟩ ⟨0⟩ {} none) (.ok (.int 5)) m) := by
  intro events
  have tight : answering.IsTight events := by
    refine .of_opened _ _ ?_ rfl
    rintro ⟨closure, found, child, hchild, -⟩
    cases found
    cases hchild
  obtain ⟨-, answers⟩ := closures_confine_iteration answering 6 ⟨0⟩ ⟨0⟩ {} none answerer tight
  refine ⟨tight, ⟨_, rfl⟩, ⟨_, rfl, ?_⟩, ⟨_, rfl⟩, _, rfl⟩
  exact answers 6 _ _ _ _ rfl rfl rfl

/-- The program `lambda { |a = (next 5)| 1 }.call`, where `a` is the first name that is not
reserved. -/
def unanswered : Program where
  names := .initial
  nodes := ⟨#[.int 5, .nextWith (some ⟨0⟩), .int 1, .lambda [⟨⟨34⟩, .optional ⟨1⟩⟩] ⟨2⟩,
    .callValue ⟨3⟩ [] none]⟩

/-- A `next` in the fallback of a parameter leaves the closure, and the host receives an error. -/
theorem unanswered_leaves_closure :
    (∃ proc id given block m, (unanswered.session 6 [⟨4⟩] (.initial .unlimited []))[9]? =
      some (.leave (.closure proc id given block) (.error (.next (.int 5))) m)) ∧
    ∃ error m, unanswered.evaluateWith 6 ⟨4⟩ (.initial .unlimited []) =
      some (.error (.error error), m) ∧
      error.cause = .invalidControlTransfer .next "unexpected next" :=
  ⟨⟨_, _, _, _, _, rfl⟩, _, _, rfl, rfl⟩

end Program

end ScriptSemantics
