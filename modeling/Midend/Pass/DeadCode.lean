import Midend.Flow.Dominators
import Midend.Graph.Edit
import Midend.Heap.Effects

/-!
# Dead code

An instruction is dead when nobody uses its value, it writes no memory and it cannot throw.  Removing it
may make its operands dead, so the reachable blocks are swept, from the end of the method to its front,
until a sweep removes nothing or the allowed number of sweeps is used up.
-/

namespace Midend

namespace DeadCode

/-- The number of sweeps allowed when none is given. -/
def defaultSweeps : Nat := 100

/-- What a run removed. -/
structure Outcome where
  removed : Nat
  sweeps : Nat
  /-- Did the last sweep find nothing to remove? -/
  reachedFixpoint : Bool
deriving DecidableEq, Repr

/-- Is an instruction dead? -/
def isDead (g : Graph) (i : InstId) : Checked Bool := do
  let kind ← g.kind i
  if kind.isTerminator || kind.isParam || g.hasUses i || kind.canThrow then
    return false
  else
    return !(← g.effectsOf i).anyWrite

/-- Remove an instruction if it is dead, counting removals. -/
def removeIfDead (st : Graph × Nat) (i : InstId) : Checked (Graph × Nat) := do
  let (g, n) := st
  if ← isDead g i then return (← g.removeInst i, n + 1) else return (g, n)

/-- Remove the dead instructions of a block, last one first. -/
def sweepBlock (st : Graph × Nat) (b : BlockId) : Checked (Graph × Nat) := do
  (← st.1.block b).body.reverse.foldlM removeIfDead st

/-- Sweep blocks until nothing is dead, or the sweeps run out. -/
def sweepAll (blocks : List BlockId) :
    (left done removed : Nat) → Graph → Checked (Graph × Outcome)
  | 0, done, removed, g => return (g, ⟨removed, done, false⟩)
  | left + 1, done, removed, g => do
    let (g, n) ← blocks.foldlM sweepBlock (g, 0)
    if n = 0 then return (g, ⟨removed, done + 1, true⟩)
    else sweepAll blocks left (done + 1) (removed + n) g

/-- Remove dead code, with a limit on the sweeps; no limit is the default one. -/
def eliminate (g : Graph) (maxSweeps : Nat) : Checked (Graph × Outcome) := do
  let limit := if maxSweeps = 0 then defaultSweeps else maxSweeps
  sweepAll (← DomTree.ofGraph g).postorder limit 0 0 g

end DeadCode

end Midend
