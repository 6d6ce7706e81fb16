import Midend.Flow.Search

/-!
# Dominators

A block dominates another when every path from the entry to the other passes through it.  The closest
strict dominators of all blocks make a tree.  It is found by iteration: a table of parents is swept in
reverse post-order until nothing changes, and each time a block gets the closest block above all those of
its predecessors that have a parent already.

## Shape of the orders

`rpo` lists the reachable blocks in reverse post-order of a depth-first search that takes successors in
order.  A parent comes before its children there, so two ways up meet if the block with the larger number
always takes the next step.  The children of a block in the tree are kept in `rpo` order.  A tour of the
tree lists the blocks in pre-order and numbers the first and the last block below each; one block dominates
another when its numbers enclose those of the other.
-/

namespace Midend

/-- The dominator tree of a graph.  An unreachable block neither dominates nor is dominated. -/
structure DomTree where
  entry : BlockId
  /-- The reachable blocks in reverse post-order. -/
  rpo : List BlockId
  rpoNumbers : Table (Option Nat)
  idoms : Table (Option BlockId)
  childLists : Table (List BlockId)
  /-- The reachable blocks in pre-order of the tree. -/
  preorder : List BlockId
  /-- The numbers in pre-order of the first and of the last block below a block, itself included. -/
  first : Table Nat
  last : Table Nat
deriving Inhabited

namespace DomTree

/-! ## Immediate dominators -/

/-- One step up in a tree; a block without a parent stays where it is. -/
def up (parents : Table (Option BlockId)) (b : BlockId) : BlockId := (parents.get b.index).getD b

/-- The table to begin with: while parents are looked for, the entry is its own. -/
def seed (entry : BlockId) : Table (Option BlockId) := Table.empty.set entry.index (some entry)

section

variable (number : BlockId → Nat)

/-- Where two ways up meet, in so many steps: the block with the larger number goes up until both are
the same. -/
def meetWithin (parents : Table (Option BlockId)) : Nat → BlockId → BlockId → BlockId
  | 0, a, _ => a
  | steps + 1, a, b =>
    if a = b then
      a
    else if number b < number a then
      meetWithin parents steps (up parents a) b
    else
      meetWithin parents steps a (up parents b)

/-- Where two ways up meet.  Every step lowers a number. -/
def meet (parents : Table (Option BlockId)) (a b : BlockId) : BlockId :=
  meetWithin number parents (number a + number b) a b

/-- Where the ways up from those blocks meet that have a parent; none if there is no such block. -/
def meetAll (parents : Table (Option BlockId)) (bs : List BlockId) : Option BlockId :=
  bs.foldl (fun found b =>
    if (parents.get b.index).isSome then
      some (found.elim b (meet number parents b))
    else
      found) none

variable (entry : BlockId) (preds : BlockId → List BlockId)

/-- Give a block the parent its predecessors call for, and note whether that is a change.  The entry
keeps its own. -/
def update (s : Table (Option BlockId) × Bool) (b : BlockId) : Table (Option BlockId) × Bool :=
  if b = entry then
    s
  else
    match meetAll number s.1 (preds b) with
    | none => s
    | some a => if s.1.get b.index = some a then s else (s.1.set b.index (some a), true)

/-- Go over all blocks once. -/
def sweep (rpo : List BlockId) (parents : Table (Option BlockId)) : Table (Option BlockId) × Bool :=
  rpo.foldl (update number entry preds) (parents, false)

/-- Sweep until nothing changes, at most so many times. -/
def settle (rpo : List BlockId) : Nat → Table (Option BlockId) → Table (Option BlockId)
  | 0, parents => parents
  | sweeps + 1, parents =>
    let s := sweep number entry preds rpo parents
    if s.2 then settle rpo sweeps s.1 else s.1

/-- The immediate dominators.  A change brings the number of a parent down, which bounds the number of
sweeps. -/
def idomsOf (rpo : List BlockId) : Table (Option BlockId) :=
  (settle number entry preds rpo (rpo.length * rpo.length + 1) (seed entry)).set entry.index none

end

/-! ## The tree -/

/-- A tour of a tree, as far as it has got. -/
structure Tour where
  /-- The blocks it has come to, in order. -/
  blocks : Array BlockId
  /-- The number of a block among them. -/
  first : Table Nat
  /-- The number of the last block below a block. -/
  last : Table Nat

namespace Tour

def start : Tour := ⟨#[], Table.empty, Table.empty⟩

/-- Come to a block. -/
def enter (s : Tour) (b : BlockId) : Tour :=
  { s with blocks := s.blocks.push b, first := s.first.set b.index s.blocks.size }

/-- Leave a block for good. -/
def leave (s : Tour) (b : BlockId) : Tour :=
  { s with last := s.last.set b.index (s.blocks.size - 1) }

/-- Go through everything below a block, at most so many levels deep. -/
def visit (childLists : Table (List BlockId)) : Nat → Tour → BlockId → Tour
  | 0, s, _ => s
  | depth + 1, s, b => ((childLists.get b.index).foldl (visit childLists depth) (s.enter b)).leave b

end Tour

/-- Compute the dominator tree.  The entry has to exist. -/
def ofGraph (g : Graph) : Checked DomTree := do
  let _ ← g.block g.entry
  let rpo := g.reachable
  let rpoNumbers := rpo.zipIdx.foldl (fun t (b, n) => t.set b.index (some n)) Table.empty
  let number := fun b : BlockId => (rpoNumbers.get b.index).getD rpo.length
  let idoms := idomsOf number g.entry g.preds rpo
  let childLists := rpo.foldl (fun t b =>
    match idoms.get b.index with
    | some a => t.modify a.index (· ++ [b])
    | none => t) Table.empty
  let tour := Tour.visit childLists rpo.length .start g.entry
  return {
    entry := g.entry
    rpo := rpo
    rpoNumbers := rpoNumbers
    idoms := idoms
    childLists := childLists
    preorder := tour.blocks.toList
    first := tour.first
    last := tour.last }

/-- The reachable blocks in post-order. -/
def postorder (t : DomTree) : List BlockId := t.rpo.reverse

/-- A block's place in reverse post-order, none if it is unreachable. -/
def rpoNumber? (t : DomTree) (b : BlockId) : Option Nat := t.rpoNumbers.get b.index

def isReachable (t : DomTree) (b : BlockId) : Bool := (t.rpoNumber? b).isSome

/-- The immediate dominator; the entry and unreachable blocks have none. -/
def idom? (t : DomTree) (b : BlockId) : Option BlockId := t.idoms.get b.index

/-- The blocks immediately dominated by a block, in reverse post-order. -/
def children (t : DomTree) (b : BlockId) : List BlockId := t.childLists.get b.index

def dominates (t : DomTree) (a b : BlockId) : Bool :=
  t.isReachable a && t.isReachable b && t.first.get a.index ≤ t.first.get b.index
    && t.last.get b.index ≤ t.last.get a.index

def strictlyDominates (t : DomTree) (a b : BlockId) : Bool := a ≠ b && t.dominates a b

/-- Does one instruction come before another, or is it that other one, on every path that reaches the
other?  Detached instructions are on no path. -/
def instDominates (t : DomTree) (g : Graph) (a b : InstId) : Checked Bool := do
  match ← g.blockOf a, ← g.blockOf b with
  | some ba, some bb =>
    if ba ≠ bb then
      return t.dominates ba bb
    else
      match ← g.position? a, ← g.position? b with
      | some pa, some pb => return pa ≤ pb
      | some _, none => return false
      | none, _ => return true
  | _, _ => return false

end DomTree

end Midend
