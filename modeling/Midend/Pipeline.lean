import Midend.Pass.LoadStore
import Midend.Pass.Manager
import Midend.Pass.NullCheck
import Midend.Pass.NullPropagation
import Midend.Pass.SideEffects

/-!
# Optimizing one method

The graph is checked, then the configured passes run over it.
-/

namespace Midend

/-- The pass a name stands for. -/
def PassId.pass : PassId → Pass
  | sideEffects => SideEffects.pass
  | loadStore => LoadStore.pass
  | nullPropagation => NullPropagation.pass
  | nullCheck => NullCheck.pass
  | deadCode => DeadCode.pass

/-- The passes that settings ask for, in order. -/
def Settings.pipeline (s : Settings) : List Pass := s.active.map PassId.pass

/-- A method after all passes. -/
structure Optimized where
  graph : Graph
  stats : Stats
  /-- What is known about the nullability of the graph's values, if it still holds. -/
  nullability : Option NullFacts

/-- The name failures give to the check before the first pass. -/
def inputName : String := "input"

/-- Check a graph and run the passes that settings ask for. -/
def optimize (g : Graph) (settings : Settings) : Except Halt Optimized :=
  let work : Work Unit := do
    Manager.check inputName
    Manager.runAll settings.verify settings.pipeline
  match work.run (CompUnit.new g settings) with
  | (.ok _, u) => .ok ⟨u.graph, u.stats, u.analyses.nullability⟩
  | (.error halt, _) => .error halt

end Midend
