/-!
# Depth policies

How deep calls may nest.

## Main Definitions

* `DepthPolicy` — unlimited, for test suites, or chosen by the host
* `DepthPolicy.limit` — the largest number of live frames
-/

namespace ScriptSemantics

/-- How deep calls may nest. -/
inductive DepthPolicy
  | unlimited
  /-- A fixed limit for test suites. -/
  | testRun
  /-- A limit chosen by the host. -/
  | budgeted (maxDepth : Nat)
deriving DecidableEq

/-- The largest number of live frames; none when there is no limit. -/
def DepthPolicy.limit : DepthPolicy → Option Nat
  | unlimited => none
  | testRun => some 500
  | budgeted maxDepth => some maxDepth

end ScriptSemantics
