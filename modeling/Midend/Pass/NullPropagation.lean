import Midend.Pass.Basic

/-!
# The null-propagation pass

Publishes what is known about the nullability of a unit's values.  It never changes the graph.
-/

namespace Midend

namespace NullPropagation

def run : Work Bool := do
  let doms ← Work.dominators
  let g := (← get).graph
  match ← Work.ofChecked (NullFacts.ofGraph g doms) with
  | some facts =>
    Work.modifyAnalyses fun a => { a with nullability := some facts }
    return false
  | none =>
    let phis ← Work.ofChecked (do NullFacts.referencePhis g (← NullFacts.reachableInsts g doms))
    Work.fail (.fixpointNotReached PassId.nullPropagation.name (NullFacts.sweepLimit phis))

def pass : Pass where
  name := PassId.nullPropagation.name
  State := Unit
  initial := ()
  gate := fun _ => true
  start := fun _ => return ()
  body := .wholeGraph fun _ => return ((), ← run)
  finish := fun _ => return ((), false)
  preserved := Analysis.all

end NullPropagation

end Midend
