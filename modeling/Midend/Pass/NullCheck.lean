import Midend.Pass.Basic

/-!
# Null-check elimination

A null check of a value that is proven not null where the check stands does nothing; its uses read the
value it checks.  The checks are found first and removed afterwards, in layout order.
-/

namespace Midend

namespace NullCheck

/-- The checks that do nothing, each with the value it checks. -/
def redundant (g : Graph) (doms : DomTree) (facts : NullFacts) : Checked (List (InstId × InstId)) :=
  g.attached.filterMapM fun check => do
    if (← g.kind check).isNullCheck then
      let object ← g.input check 0
      return if ← facts.isNonNullAt g doms object check then some (check, object) else none
    else
      return none

/-- Remove one check. -/
def removeCheck (g : Graph) : InstId × InstId → Checked Graph
  | (check, object) => (g.replaceUses check object).removeInst check

def run : Work Bool := do
  let doms ← Work.dominators
  let u ← get
  match u.analyses.nullability with
  | none => Work.fail (.missingAnalysis PassId.nullCheck.name Analysis.nullability.name)
  | some facts =>
    let checks ← Work.ofChecked (redundant u.graph doms facts)
    let g ← Work.ofChecked (checks.foldlM removeCheck u.graph)
    Work.setGraph g
    if !checks.isEmpty then
      let facts := facts.retainDerefs (!g.isRemoved ·)
      Work.modifyAnalyses fun a => { a with nullability := some facts }
    Work.record .removedNullCheck checks.length
    return !checks.isEmpty

def pass : Pass where
  name := PassId.nullCheck.name
  State := Unit
  initial := ()
  gate := fun u => u.analyses.nullability.isSome
  start := fun _ => return ()
  body := .wholeGraph fun _ => return ((), ← run)
  finish := fun _ => return ((), false)
  preserved := [.dominators, .loops, .nullability]

end NullCheck

namespace DeadCode

/-- Remove dead code from the unit's graph. -/
def run : Work Bool := do
  let u ← get
  let (g, outcome) ← Work.ofChecked (eliminate u.graph u.settings.maxSweeps)
  Work.setGraph g
  Work.record .removedDead outcome.removed
  return outcome.removed > 0

def pass : Pass where
  name := PassId.deadCode.name
  State := Unit
  initial := ()
  gate := fun _ => true
  start := fun _ => return ()
  body := .wholeGraph fun _ => return ((), ← run)
  finish := fun _ => return ((), false)
  preserved := [.dominators, .loops, .nullability]

end DeadCode

end Midend
