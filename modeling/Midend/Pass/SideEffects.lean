import Midend.Pass.Basic

/-!
# The side-effects pass

Publishes the effect summary of a unit.  It never changes the graph.
-/

namespace Midend

namespace SideEffects

/-- Begin a new summary. -/
def start (_ : EffectSummary) : Work EffectSummary := return .start (← Work.loops)

/-- Summarize one block. -/
def worker (s : EffectSummary) (b : BlockId) : Work (EffectSummary × Bool) := do
  return (← Work.ofChecked (s.addBlock (← get).graph b), false)

/-- Publish the summary; nothing of it is kept. -/
def finish (s : EffectSummary) : Work (EffectSummary × Bool) := do
  let summary := s.finish (← get).graph
  Work.modifyAnalyses fun a => { a with sideEffects := some summary }
  return (.empty, false)

def pass : Pass where
  name := PassId.sideEffects.name
  State := EffectSummary
  initial := .empty
  gate := fun _ => true
  start := start
  body := .perBlock .reversePostorder worker
  finish := finish
  preserved := Analysis.all

end SideEffects

end Midend
