/-!
# Ranges of code points

Character properties are given as lists of ranges in ascending order.

## Main Definitions

* `CodeRanges` — ranges of code points, both ends included
* `CodeRanges.contains` — membership, which stops at the first range that lies above
-/

namespace ScriptSemantics.Text

/-- Ranges of code points in ascending order, both ends included. -/
abbrev CodeRanges := List (Nat × Nat)

/-- Whether a code point lies in one of the ranges. -/
def CodeRanges.contains : CodeRanges → Nat → Bool
  | [], _ => false
  | (low, high) :: rest, code =>
    if code < low then false else decide (code ≤ high) || CodeRanges.contains rest code

end ScriptSemantics.Text
