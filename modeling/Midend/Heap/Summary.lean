import Midend.Flow.Loops
import Midend.Heap.Effects

/-!
# Effects of blocks and loops

The effect of a block is the union of its instructions' effects, and the effect of a loop the union of
its blocks', those of inner loops included.  The summary is made block by block: `start`, then
`addBlock` for each reachable block, then `finish`, which adds up the loops.
-/

namespace Midend

/-- The effects of a method, by instruction, by block and by loop header. -/
structure EffectSummary where
  insts : Table Effects
  blocks : Table Effects
  headers : Table Effects
  loops : LoopForest
  /-- Have the loops been added up? -/
  isComplete : Bool

namespace EffectSummary

/-- The summary that knows nothing. -/
def empty : EffectSummary := ⟨Table.empty, Table.empty, Table.empty, LoopForest.empty, false⟩

instance : Inhabited EffectSummary := ⟨empty⟩

/-- Begin a summary over the loops of a graph. -/
def start (loops : LoopForest) : EffectSummary := { empty with loops := loops }

/-- The effect of an instruction; none if its block was not added. -/
def ofInst (s : EffectSummary) (i : InstId) : Effects := s.insts.get i.index

def ofBlock (s : EffectSummary) (b : BlockId) : Effects := s.blocks.get b.index

/-- The effect of the loop a block heads; none if it heads none. -/
def ofHeader (s : EffectSummary) (b : BlockId) : Effects := s.headers.get b.index

/-- Take one instruction into account, adding to the effect of its block so far. -/
def addInst (g : Graph) (st : EffectSummary × Effects) (i : InstId) :
    Checked (EffectSummary × Effects) := do
  let e ← g.effectsOf i
  return ({ st.1 with insts := st.1.insts.set i.index e }, st.2.union e)

/-- Take one block into account. -/
def addBlock (g : Graph) (s : EffectSummary) (b : BlockId) : Checked EffectSummary := do
  let (s, e) ← (← g.block b).body.foldlM (addInst g) (s, .none)
  return { s with blocks := s.blocks.set b.index e }

/-- Add the effect of a block to a loop around it. -/
def addToLoop (e : Effects) (s : EffectSummary) (l : LoopId) : EffectSummary :=
  match s.loops.loops[l.index]? with
  | some loop => { s with headers := s.headers.modify loop.header.index (·.union e) }
  | none => s

/-- Add the effect of every block to the loops around it. -/
def finish (g : Graph) (s : EffectSummary) : EffectSummary :=
  let s := g.blockIds.foldl (fun s b => (s.loops.enclosing b).foldl (addToLoop (s.ofBlock b)) s) s
  { s with isComplete := true }

end EffectSummary

end Midend
