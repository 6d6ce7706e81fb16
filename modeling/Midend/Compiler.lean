import Midend.Pipeline
import Midend.Text.Print

/-!
# Compiling many methods

Each method is optimized on its own.  One that fails is kept as it was, and the others do not notice.  A
fault in any method is the end of all.
-/

namespace Midend

/-- What became of a method. -/
inductive Compiled where
  | optimized (method : Optimized)
  /-- The graph as it was given, and why it could not be optimized. -/
  | fallback (graph : Graph) (reason : Failure)

namespace Compiled

def graph : Compiled → Graph
  | optimized m => m.graph
  | fallback g _ => g

def isOptimized : Compiled → Bool
  | optimized _ => true
  | fallback _ _ => false

def reason? : Compiled → Option Failure
  | optimized _ => none
  | fallback _ r => some r

def nullability? : Compiled → Option NullFacts
  | optimized m => m.nullability
  | fallback _ _ => none

end Compiled

/-- The outcome of a compilation: one entry per method, in order, and the counts over all. -/
structure Report where
  methods : List Compiled
  stats : Stats

/-- Compile one method, with its own counts. -/
def compileMethod (settings : Settings) (g : Graph) : Checked (Compiled × Stats) := do
  let stats ← Stats.zero.record .attempted 1
  match optimize g settings with
  | .ok m => return (.optimized m, ← (← stats.merge m.stats).record .optimized 1)
  | .error (.failed reason) => return (.fallback g reason, ← stats.record .fallback 1)
  | .error (.faulted fault) => throw fault

/-- Compile methods and add up their counts. -/
def compileAll (settings : Settings) (gs : List Graph) : Checked Report := do
  let results ← gs.mapM (compileMethod settings)
  return ⟨results.map (·.1), ← results.foldlM (fun total r => total.merge r.2) .zero⟩

/-- The text of a graph with the nullability of its references as notes. -/
def Graph.printWithNullability (g : Graph) (facts : NullFacts) : Checked String :=
  g.printAnnotated fun i =>
    if g.insts[i.index]?.map (·.ty) = some .ref then some (facts.nullability i).text else none

end Midend
