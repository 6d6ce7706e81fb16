import Midend.Pass.Basic

/-!
# Running passes

A manager runs passes over a unit, in order, each exactly once.  A pass whose gate is closed is skipped.
After a pass that changed the graph, the analyses it does not preserve are dropped, and if the manager
verifies, the graph is checked.  Every hook call is noted in the unit's journal.
-/

namespace Midend

namespace Manager

/-- Note a hook call. -/
def note (place : Nat) (hook : Hook) : Work Unit :=
  modify fun u => { u with journal := ⟨place, hook⟩ :: u.journal }

/-- The reachable blocks in the order a pass asks for. -/
def blocksIn (order : BlockOrder) : Work (List BlockId) := do
  let doms ← Work.dominators
  return match order with
    | .reversePostorder => doms.rpo
    | .domPreorder => doms.preorder

/-- Run a worker over blocks, saying whether any call changed the graph. -/
def runWorker {σ : Type} (place : Nat) (worker : σ → BlockId → Work (σ × Bool)) (st : σ × Bool)
    (b : BlockId) : Work (σ × Bool) := do
  note place (.worker b)
  let (s, changed) ← worker st.1 b
  return (s, st.2 || changed)

/-- The part of a pass between its start and its finish. -/
def runBody {σ : Type} (place : Nat) (body : PassBody σ) (s : σ) : Work (σ × Bool) := do
  match body with
  | .perBlock order worker => (← blocksIn order).foldlM (runWorker place worker) (s, false)
  | .wholeGraph run =>
    note place .run
    run s

/-- All hooks of a pass after its gate.  Says whether the graph changed. -/
def runPass (place : Nat) (p : Pass) : Work Bool := do
  note place .start
  let s ← p.start p.initial
  let (s, changed) ← runBody place p.body s
  note place .finish
  let (_, changedAtEnd) ← p.finish s
  return changed || changedAtEnd

/-- Fail unless the graph is well formed. -/
def check (name : String) : Work Unit := do
  match ← Work.ofChecked (← get).graph.violations with
  | [] => return ()
  | vs => Work.fail (.invariantViolation name vs)

/-- Run one pass if its gate is open. -/
def runGated (verify : Bool) (place : Nat) (p : Pass) : Work Unit := do
  let u ← get
  let isOpen := p.gate u
  note place (.gate isOpen u.analyses.available)
  if isOpen then
    if ← runPass place p then
      Work.modifyAnalyses (·.invalidate p.preserved)
      if verify then
        check p.name

/-- Run passes in order, the first one having this place. -/
def runFrom (verify : Bool) (place : Nat) : List Pass → Work Unit
  | [] => return ()
  | p :: ps => do
    runGated verify place p
    runFrom verify (place + 1) ps

/-- Run passes in order. -/
def runAll (verify : Bool) (passes : List Pass) : Work Unit := runFrom verify 0 passes

end Manager

end Midend
