import Midend.Checker

/-!
# Failures

Why a method could not be optimized.  A failure is reported and the method is kept as it was; a fault,
by contrast, stops everything.  `Halt` is either.
-/

namespace Midend

/-- Why a method could not be optimized. -/
inductive Failure where
  /-- The graph was not well formed before the first pass (`input`) or after one. -/
  | invariantViolation (pass : String) (violations : List Violation)
  /-- A pass ran without an analysis it relies on. -/
  | missingAnalysis (pass analysis : String)
  /-- An iteration did not settle. -/
  | fixpointNotReached (pass : String) (iterations : Nat)
deriving DecidableEq, Repr

namespace Failure

/-- The first violation, and how many there are beside it. -/
def summary : List Violation → String
  | [] => "graph invariants violated"
  | [v] => v.text
  | v :: vs => v.text ++ " (and " ++ toString vs.length ++ " more)"

/-- The text of a failure. -/
def text : Failure → String
  | invariantViolation pass vs => pass ++ ": " ++ summary vs
  | missingAnalysis pass analysis =>
    pass ++ ": required analysis `" ++ analysis ++ "` is not available"
  | fixpointNotReached pass n => pass ++ ": no fixed point after " ++ toString n ++ " iteration(s)"

end Failure

/-- Why the work on a method ended early. -/
inductive Halt where
  | failed (failure : Failure)
  | faulted (fault : Fault)
deriving DecidableEq, Repr

end Midend
