import Midend.Graph.Basic

/-!
# Depth-first search

A search over blocks that follows edges in the order they are listed.  A block is done once everything
the search reaches through it is done; the list of done blocks, last one first, is the reverse
post-order.  Blocks that are marked as seen beforehand are closed to the search, which is how "without
passing through" is asked.

The search is recursive with a bound on its depth.  Each level marks one more block, so the number of
blocks is always bound enough.
-/

namespace Midend

/-- How far a search has got. -/
structure Search where
  /-- The blocks that are closed to the rest of the search. -/
  seen : Table Bool
  /-- The blocks that are done, the last one first. -/
  done : List BlockId

namespace Search

/-- A search that has not begun, with some blocks closed to it. -/
def avoiding (closed : List BlockId) : Search :=
  ⟨closed.foldl (fun t b => t.set b.index true) Table.empty, []⟩

/-- Search from a block, at most so many blocks deep. -/
def visit (next : BlockId → List BlockId) : Nat → Search → BlockId → Search
  | 0, s, _ => s
  | depth + 1, s, b =>
    if s.seen.get b.index then
      s
    else
      let s := (next b).foldl (visit next depth) { s with seen := s.seen.set b.index true }
      { s with done := b :: s.done }

end Search

namespace Graph

/-- The blocks reachable from the entry, in reverse post-order. -/
def reachable (g : Graph) : List BlockId :=
  (Search.visit g.succs g.blocks.size (.avoiding []) g.entry).done

/-- The blocks from which some blocks are reachable without passing through others. -/
def reaching (g : Graph) (closed targets : List BlockId) : List BlockId :=
  (targets.foldl (Search.visit g.preds g.blocks.size) (.avoiding closed)).done

end Graph

end Midend
