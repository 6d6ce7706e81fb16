import Midend.Flow.Dominators

/-!
# Natural loops

An edge is a back edge when its target dominates its source: the source is a latch, the target a
header.  The loop of a header holds the header and every block that reaches one of its latches without
passing through it; back edges to one header make one loop.

Headers are taken in reverse post-order, so an enclosing loop is numbered before the loops inside it.
An edge that goes back in that order without being a back edge belongs to no loop: such flow is
irreducible.
-/

namespace Midend

/-- A natural loop. -/
structure Loop where
  header : BlockId
  /-- The sources of the back edges, in predecessor order. -/
  latches : List BlockId
  /-- The blocks of the loop, the header included, in reverse post-order. -/
  blocks : List BlockId
  /-- The innermost enclosing loop. -/
  parent : Option LoopId
deriving DecidableEq, Repr, Inhabited

/-- The loops of a graph. -/
structure LoopForest where
  loops : Array Loop
  headerLoops : Table (Option LoopId)
  innermost : Table (Option LoopId)
  isIrreducible : Bool
deriving Inhabited

namespace LoopForest

/-- The forest without loops. -/
def empty : LoopForest := ⟨#[], Table.empty, Table.empty, false⟩

/-- Does an edge go back in reverse post-order without its target dominating its source? -/
def isIrreducibleEdge (doms : DomTree) (source target : BlockId) : Bool :=
  doms.isReachable source && !doms.dominates target source
    && (doms.rpoNumber? target).getD 0 ≤ (doms.rpoNumber? source).getD 0

/-- The predecessors that a block dominates. -/
def latchesOf (g : Graph) (doms : DomTree) (header : BlockId) : List BlockId :=
  (g.preds header).filter (doms.dominates header)

/-- Mark blocks in a table. -/
def marks (bs : List BlockId) : Table Bool :=
  bs.foldl (fun t b => t.set b.index true) Table.empty

/-- The blocks of the loop with this header and these latches. -/
def bodyOf (g : Graph) (doms : DomTree) (header : BlockId) (latches : List BlockId) : List BlockId :=
  let inside := marks (header :: g.reaching [header] latches)
  doms.rpo.filter fun b => inside.get b.index

/-- Take the next block in reverse post-order into account. -/
def addHeader (g : Graph) (doms : DomTree) (forest : LoopForest) (header : BlockId) : LoopForest :=
  let forest := { forest with
    isIrreducible := forest.isIrreducible || (g.preds header).any (isIrreducibleEdge doms · header) }
  match latchesOf g doms header with
  | [] => forest
  | latches =>
    let id : LoopId := ⟨forest.loops.size⟩
    let blocks := bodyOf g doms header latches
    { forest with
      loops := forest.loops.push ⟨header, latches, blocks, forest.innermost.get header.index⟩
      headerLoops := forest.headerLoops.set header.index (some id)
      innermost := blocks.foldl (fun t b => t.set b.index (some id)) forest.innermost }

/-- Find the loops of a graph. -/
def ofGraph (g : Graph) (doms : DomTree) : LoopForest := doms.rpo.foldl (addHeader g doms) empty

/-- The loop a block heads. -/
def loopOfHeader? (f : LoopForest) (b : BlockId) : Option LoopId := f.headerLoops.get b.index

def isHeader (f : LoopForest) (b : BlockId) : Bool := (f.loopOfHeader? b).isSome

/-- The innermost loop a block is in. -/
def innermost? (f : LoopForest) (b : BlockId) : Option LoopId := f.innermost.get b.index

/-- A loop and the loops around it, innermost first.  An enclosing loop has a smaller number. -/
def outward (f : LoopForest) (l : LoopId) : List LoopId :=
  match f.loops[l.index]? with
  | none => [l]
  | some loop =>
    match loop.parent with
    | none => [l]
    | some p => if p.index < l.index then l :: f.outward p else [l]
termination_by l.index

/-- The loops a block is in, innermost first. -/
def enclosing (f : LoopForest) (b : BlockId) : List LoopId :=
  match f.innermost? b with
  | none => []
  | some l => f.outward l

def contains (f : LoopForest) (l : LoopId) (b : BlockId) : Bool := (f.enclosing b).contains l

/-- Is the edge a back edge of a loop? -/
def isBackEdge (f : LoopForest) (source target : BlockId) : Bool :=
  match f.loopOfHeader? target with
  | none => false
  | some l => ((f.loops[l.index]?.map (·.latches)).getD []).contains source

end LoopForest

end Midend
