import Midend.Failure
import Midend.Heap.Summary
import Midend.Pass.Nullability
import Midend.Settings
import Midend.Stats

/-!
# Passes

A pass does its work through hooks.  The gate decides whether it runs at all; then come `start`, a
worker for every reachable block or one run over the whole graph, and `finish`.  Workers, run and
`finish` say whether they changed the graph.

Passes work on a compilation unit: the graph, the settings, the counters, and the analyses computed for
the graph as it is.  A pass that changed the graph says which analyses are still right; the others are
dropped.

## Shape of the work

`Work` keeps the unit across a failure.  What a pass did before it failed is still there afterwards:
analyses it had computed, changes it had made.
-/

namespace Midend

/-- The analyses a unit can hold. -/
inductive Analysis where
  | dominators | loops | sideEffects | nullability
deriving DecidableEq, Repr

namespace Analysis

def all : List Analysis := [dominators, loops, sideEffects, nullability]

def name : Analysis → String
  | dominators => "dominators"
  | loops => "loops"
  | sideEffects => "side_effects"
  | nullability => "nullability"

def ofName? (s : String) : Option Analysis := all.find? (·.name = s)

end Analysis

/-- The analyses computed so far. -/
structure Analyses where
  dominators : Option DomTree
  loops : Option LoopForest
  sideEffects : Option EffectSummary
  nullability : Option NullFacts

namespace Analyses

def empty : Analyses := ⟨none, none, none, none⟩

/-- Is an analysis there? -/
def has (a : Analyses) : Analysis → Bool
  | .dominators => a.dominators.isSome
  | .loops => a.loops.isSome
  | .sideEffects => a.sideEffects.isSome
  | .nullability => a.nullability.isSome

/-- The analyses that are there. -/
def available (a : Analyses) : List Analysis := Analysis.all.filter a.has

/-- Drop every analysis that is not preserved. -/
def invalidate (a : Analyses) (preserved : List Analysis) : Analyses where
  dominators := if preserved.contains .dominators then a.dominators else none
  loops := if preserved.contains .loops then a.loops else none
  sideEffects := if preserved.contains .sideEffects then a.sideEffects else none
  nullability := if preserved.contains .nullability then a.nullability else none

end Analyses

/-- A hook, with what it was called on or answered. -/
inductive Hook where
  | gate (isOpen : Bool) (available : List Analysis)
  | start
  | worker (block : BlockId)
  | run
  | finish
deriving DecidableEq, Repr

/-- One call of a hook by a manager. -/
structure HookCall where
  /-- The place of the pass among those the manager runs. -/
  place : Nat
  hook : Hook
deriving DecidableEq, Repr

/-- Everything a pass may look at or change. -/
structure CompUnit where
  graph : Graph
  settings : Settings
  stats : Stats
  analyses : Analyses
  /-- The hook calls made so far, the last one first. -/
  journal : List HookCall

namespace CompUnit

def new (g : Graph) (settings : Settings) : CompUnit := ⟨g, settings, .zero, .empty, []⟩

/-- Does the method synchronize on a monitor anywhere? -/
def hasMonitors (u : CompUnit) : Checked Bool := do
  if u.graph.isSynchronized then return true else u.graph.hasMonitorOps

end CompUnit

/-- Work on a unit, which may end early but leaves the unit behind. -/
abbrev Work := ExceptT Halt (StateM CompUnit)

namespace Work

/-- A checked step, its fault being the end of the work. -/
def ofChecked {α : Type} (c : Checked α) : Work α :=
  match c with
  | .ok a => pure a
  | .error f => throw (.faulted f)

/-- End the work with a failure. -/
def fail {α : Type} (f : Failure) : Work α := throw (.failed f)

/-- Change the cached analyses. -/
def modifyAnalyses (f : Analyses → Analyses) : Work Unit :=
  modify fun u => { u with analyses := f u.analyses }

/-- Replace the graph. -/
def setGraph (g : Graph) : Work Unit := modify fun u => { u with graph := g }

/-- Count events. -/
def record (c : Counter) (n : Nat) : Work Unit := do
  let stats ← ofChecked ((← get).stats.record c n)
  modify fun u => { u with stats := stats }

/-- The dominator tree, computed now unless it is cached. -/
def dominators : Work DomTree := do
  let u ← get
  match u.analyses.dominators with
  | some t => return t
  | none =>
    let t ← ofChecked (DomTree.ofGraph u.graph)
    modifyAnalyses fun a => { a with dominators := some t }
    return t

/-- The loop forest, computed now unless it is cached. -/
def loops : Work LoopForest := do
  match (← get).analyses.loops with
  | some f => return f
  | none =>
    let t ← dominators
    let f := LoopForest.ofGraph (← get).graph t
    modifyAnalyses fun a => { a with loops := some f }
    return f

end Work

/-- The order in which a pass visits the reachable blocks. -/
inductive BlockOrder where
  | reversePostorder
  /-- Pre-order of the dominator tree: every block comes after its forward predecessors. -/
  | domPreorder
deriving DecidableEq, Repr

/-- How a pass goes over the graph, given the type of what it keeps between hooks. -/
inductive PassBody (σ : Type) where
  | perBlock (order : BlockOrder) (worker : σ → BlockId → Work (σ × Bool))
  | wholeGraph (run : σ → Work (σ × Bool))

/-- A pass. -/
structure Pass where
  name : String
  /-- What the pass keeps between hooks. -/
  State : Type
  initial : State
  gate : CompUnit → Bool
  start : State → Work State
  body : PassBody State
  finish : State → Work (State × Bool)
  /-- The analyses that are still right after the pass changed the graph. -/
  preserved : List Analysis

end Midend
