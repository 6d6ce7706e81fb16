import Midend.Heap.Escape
import Midend.Pass.Basic

/-!
# Load/store elimination

Blocks are visited in pre-order of the dominator tree, carrying along what is known about memory: for
some locations, the value that is stored there.  A load from such a location is replaced by the value.
A store of the value a location already holds is redundant.  A store that is overwritten before anyone
could see it is dead.

## Shape of the argument

A store is pending while it is the last write to its location and nobody has observed it.  Whatever
might observe it marks it as kept: a load that may alias, a call, an instruction that may throw, the end
of the method, a join of paths that do not agree on it.  A store that was pending once and never kept is
dead, and so it is removed at the end.

Every block is visited once.  What a block knows at its end is remembered for its successors; a block
that is reached by a retreating edge from a block not visited yet starts from nothing, and a block with
an edge to a visited one gives up its pending stores.
-/

namespace Midend

namespace LoadStore

/-- What is known about a location: its value, and the store that put it there while that is
unobserved. -/
structure Known where
  value : InstId
  pending : Option InstId
deriving DecidableEq, Repr

/-- What is known about memory.  A location occurs at most once. -/
abbrev Knowledge := List (Location × Known)

namespace Knowledge

/-- What is known about one location. -/
def get? (k : Knowledge) (l : Location) : Option Known := k.lookup l

def contains (k : Knowledge) (l : Location) : Bool := (k.get? l).isSome

/-- Learn about a location, forgetting what was known about it. -/
def insert (k : Knowledge) (l : Location) (known : Known) : Knowledge :=
  (l, known) :: k.filter (·.1 ≠ l)

/-- The pending stores of the locations that satisfy a condition. -/
def pendingWhere (k : Knowledge) (p : Location → Bool) : List InstId :=
  k.filterMap fun (l, known) => if p l then known.pending else none

/-- Forget the locations that satisfy a condition. -/
def forget (k : Knowledge) (p : Location → Bool) : Knowledge := k.filter (!p ·.1)

/-- What one entry becomes where another path joins: the value stays if both agree on it, and so does
the pending store. -/
def joinEntry (other : Knowledge) : Location × Known → Option (Location × Known)
  | (l, mine) =>
    match other.get? l with
    | some theirs =>
      if theirs.value = mine.value then
        some (l, if theirs.pending = mine.pending then mine else { mine with pending := none })
      else none
    | none => none

/-- Is a location known on both paths, with the same value and the same pending store? -/
def agree (a b : Knowledge) (l : Location) : Bool :=
  match a.get? l, b.get? l with
  | some x, some y => x = y
  | _, _ => false

/-- What is known where two paths join. -/
def join (a b : Knowledge) : Knowledge := a.filterMap (joinEntry b)

/-- The stores that a join observes: those on whose location the paths do not agree. -/
def joinObserves (a b : Knowledge) : List InstId :=
  a.pendingWhere (!agree a b ·) ++ b.pendingWhere (!agree a b ·)

end Knowledge

/-- What the pass keeps between blocks. -/
structure State where
  /-- What was known at the end of each visited block. -/
  exits : Table (Option Knowledge)
  escapes : Table Escape
  /-- The values that replace loads. -/
  substitutions : Table (Option InstId)
  removedLoads : List InstId
  /-- The stores that were pending at some time. -/
  candidates : List InstId
  kept : Table Bool
  redundant : List InstId
  hasMonitors : Bool

namespace State

def empty : State := ⟨Table.empty, Table.empty, Table.empty, [], [], Table.empty, [], false⟩

/-- Follow substitutions, at most so many. -/
def resolveWithin (s : State) : Nat → InstId → InstId
  | 0, i => i
  | depth + 1, i =>
    match s.substitutions.get i.index with
    | some j => s.resolveWithin depth j
    | none => i

/-- The value that stands for a value in the end.  A chain of substitutions is no longer than the table
that holds them. -/
def resolve (s : State) (i : InstId) : InstId := s.resolveWithin s.substitutions.entries.size i

def isSingleton (s : State) (i : InstId) : Bool := (s.escapes.get i.index).isSingleton

/-- Does a location lie in an object that nobody outside the method can see? -/
def isPrivate (s : State) (l : Location) : Bool :=
  match l.object with
  | some r => (s.escapes.get r.index).isPrivate
  | none => false

/-- Mark stores as observed. -/
def keep (s : State) (stores : List InstId) : State :=
  { s with kept := stores.foldl (fun t i => t.set i.index true) s.kept }

/-- Mark the pending stores of some locations as observed. -/
def keepWhere (s : State) (k : Knowledge) (p : Location → Bool) : State := s.keep (k.pendingWhere p)

/-- What was known at the end of a block, if it was visited. -/
def exit? (s : State) (b : BlockId) : Option Knowledge := s.exits.get b.index

end State

/-! ## The start of a block -/

/-- The predecessors whose knowledge flows into a block: reachable ones, back edges left out. -/
def forwardPreds (g : Graph) (doms : DomTree) (loops : LoopForest) (b : BlockId) : List BlockId :=
  (g.preds b).filter fun p => doms.isReachable p && !loops.isBackEdge p b

/-- Join what one more predecessor knows. -/
def joinExit (st : State × Knowledge) (exit : Knowledge) : State × Knowledge :=
  (st.1.keep (st.2.joinObserves exit), st.2.join exit)

/-- Join what all predecessors know. -/
def joinExits (s : State) : List Knowledge → State × Knowledge
  | [] => (s, [])
  | first :: others => others.foldl joinExit (s, first)

/-- Forget some locations; what was pending there counts as observed. -/
def forgetWhere (st : State × Knowledge) (p : Location → Bool) : State × Knowledge :=
  (st.1.keepWhere st.2 p, st.2.forget p)

/-- What is known at the start of a block.  At a loop header, what the loop may write is not. -/
def enter (g : Graph) (doms : DomTree) (summary : EffectSummary) (s : State) (b : BlockId) :
    State × Knowledge :=
  let exits := (forwardPreds g doms summary.loops b).map s.exit?
  if exits.contains none then
    (s.keep (exits.reduceOption.flatMap (·.pendingWhere fun _ => true)), [])
  else
    let st := joinExits s exits.reduceOption
    if summary.loops.isHeader b then
      forgetWhere st fun l => (summary.ofHeader b).mayWrite (l.category g)
    else
      st

/-! ## Instructions -/

/-- Is a reference known not to be null?  New objects and the receiver are not, and neither is one
through which memory was reached. -/
def isKnownNonNull (g : Graph) (k : Knowledge) (i : InstId) : Checked Bool := do
  let kind ← g.kind i
  return kind.isAllocation || (kind = .param 0 && !g.isStatic) || k.any (·.1.object = some i)

/-- May an instruction throw, given what is known here?  An access through a reference that is known not
to be null does not; neither does an access to an array element that was accessed already. -/
def mayThrow (g : Graph) (k : Knowledge) (i : InstId) : Checked Bool := do
  let kind ← g.kind i
  if !kind.canThrow then
    return false
  else
    match kind with
    | .instanceGet _ | .instanceSet _ | .nullCheck | .arrayLength =>
      return !(← isKnownNonNull g k (← g.unchecked (← g.input i 0)))
    | .arrayGet | .arraySet =>
      match ← g.location? i with
      | some l => return !k.contains l
      | none => return true
    | _ => return true

/-- A load: replaced by the known value if the types agree, else it observes what it may alias and its
result becomes known. -/
def visitLoad (g : Graph) (st : State × Knowledge) (load : InstId) (l : Location) :
    Checked (State × Knowledge) := do
  let (s, k) := st
  let fresh := (s.keepWhere k (·.mayAlias g s.isSingleton l), k.insert l ⟨load, none⟩)
  match k.get? l with
  | none => return fresh
  | some known =>
    let value := s.resolve known.value
    if (← g.ty value) = (← g.ty load) then
      return ({ s with
        substitutions := s.substitutions.set load.index (some value)
        removedLoads := s.removedLoads ++ [load] }, k)
    else
      return fresh

/-- A store: redundant if the location holds the value, else it makes the locations it may overwrite
unknown and becomes pending at its own.  Overwriting the very location does not observe what was
pending there. -/
def visitStore (g : Graph) (st : State × Knowledge) (store : InstId) (l : Location) (mustKeep : Bool) :
    Checked (State × Knowledge) := do
  let (s, k) := st
  match (← g.inputs store).getLast? with
  | none => throw .subOverflow
  | some operand =>
    let value := s.resolve operand
    if (k.get? l).any (fun known => s.resolve known.value = value) && !mustKeep then
      return ({ s with redundant := s.redundant ++ [store] }, k)
    else
      let (s, k) := forgetWhere (s, k) fun other => other ≠ l && other.mayAlias g s.isSingleton l
      let s := { s with candidates := s.candidates ++ [store] }
      return (if mustKeep then s.keep [store] else s, k.insert l ⟨value, some store⟩)

/-- Any other instruction: leaving the method observes everything that is not private, and memory that
is read or written is observed or forgotten, private objects excepted unless they are handed over. -/
def visitOther (g : Graph) (summary : EffectSummary) (st : State × Knowledge) (i : InstId) :
    Checked (State × Knowledge) := do
  let (s, k) := st
  let inst ← g.inst i
  let s := if inst.kind.isExit then s.keepWhere k (!s.isPrivate ·) else s
  let effects := summary.ofInst i
  let exempt := fun (l : Location) =>
    s.isPrivate l && (match l.object with
      | some r => !inst.inputs.contains r
      | none => false)
  let s := if effects.anyRead then
      s.keepWhere k fun l => effects.mayRead (l.category g) && !exempt l
    else s
  if effects.anyWrite then
    return forgetWhere (s, k) fun l => effects.mayWrite (l.category g) && !exempt l
  else
    return (s, k)

/-- One instruction, with the one after it. -/
def visit (g : Graph) (summary : EffectSummary) (st : State × Knowledge) (i : InstId)
    (next : Option InstId) : Checked (State × Knowledge) := do
  let (s, k) := st
  let throws ← mayThrow g k i
  let s := if throws then s.keepWhere k (!s.isPrivate ·) else s
  match ← g.kind i, ← g.location? i with
  | .instanceGet _, some l | .staticGet _, some l | .arrayGet, some l => visitLoad g (s, k) i l
  | .instanceSet _, some l | .staticSet _, some l | .arraySet, some l =>
    let beforeMonitorExit := s.hasMonitors && next.any fun n => g.kind? n = some .monitorExit
    visitStore g (s, k) i l (beforeMonitorExit || throws)
  | _, _ => visitOther g summary (s, k) i

/-- The instructions of a block in order. -/
def visitAll (g : Graph) (summary : EffectSummary) (st : State × Knowledge) :
    List InstId → Checked (State × Knowledge)
  | [] => return st
  | i :: rest => do visitAll g summary (← visit g summary st i rest.head?) rest

/-- One block: what is known at its start, its instructions, and what is known at its end. -/
def visitBlock (g : Graph) (doms : DomTree) (summary : EffectSummary) (s : State) (b : BlockId) :
    Checked State := do
  let block ← g.block b
  let (s, k) ← visitAll g summary (enter g doms summary s b) block.insts
  let s := if block.succs.any fun t => (s.exit? t).isSome then s.keepWhere k fun _ => true else s
  return { s with exits := s.exits.set b.index (some k) }

/-! ## Changing the graph -/

/-- The stores to remove: the redundant ones, then the candidates that were never kept. -/
def removableStores (s : State) : List InstId :=
  s.redundant ++ s.candidates.filter fun i => !s.kept.get i.index

/-- Replace the removed loads by their values, and remove them and the stores. -/
def applyTo (s : State) (g : Graph) : Checked Graph := do
  let g := s.removedLoads.foldl (fun g load => g.replaceUses load (s.resolve load)) g
  let g ← s.removedLoads.foldlM Graph.removeInst g
  (removableStores s).foldlM Graph.removeInst g

/-! ## The pass -/

/-- What is known about the allocations of a method. -/
def escapesOf (g : Graph) : Table Escape :=
  g.attached.foldl (fun t i => t.set i.index (g.escapeOf i)) Table.empty

/-- Forget an earlier run and look at the allocations. -/
def start (_ : State) : Work State := do
  let u ← get
  let hasMonitors ← Work.ofChecked u.hasMonitors
  let _ ← Work.dominators
  return { State.empty with escapes := escapesOf u.graph, hasMonitors := hasMonitors }

/-- Visit one block; the effect summary and the dominators must be there. -/
def worker (s : State) (b : BlockId) : Work (State × Bool) := do
  let u ← get
  match u.analyses.sideEffects, u.analyses.dominators with
  | none, _ => Work.fail (.missingAnalysis PassId.loadStore.name Analysis.sideEffects.name)
  | some _, none => Work.fail (.missingAnalysis PassId.loadStore.name Analysis.dominators.name)
  | some summary, some doms => return (← Work.ofChecked (visitBlock u.graph doms summary s b), false)

/-- Change the graph and count what was removed. -/
def finish (s : State) : Work (State × Bool) := do
  Work.setGraph (← Work.ofChecked (applyTo s (← get).graph))
  let loads := s.removedLoads.length
  let stores := (removableStores s).length
  Work.record .removedLoad loads
  Work.record .removedStore stores
  return (s, loads > 0 || stores > 0)

def pass : Pass where
  name := PassId.loadStore.name
  State := State
  initial := .empty
  gate := fun u => (u.analyses.sideEffects.map (·.isComplete)).getD false
  start := start
  body := .perBlock .domPreorder worker
  finish := finish
  preserved := [.dominators, .loops]

end LoadStore

end Midend
