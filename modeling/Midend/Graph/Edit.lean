import Midend.Graph.Basic

/-!
# Edits of a graph

The operations that change a graph.  Each keeps operands and use chains inverse to each other, and
predecessor and successor lists too; an edit that could not is a fault.  Checks come before changes,
in the order of the code, because the first failing one decides the fault.  The changes themselves are
total functions of their own (`link`, `addInst`, `placeInst`, `placePhi`, `feed`), for callers that know
the checks to hold.
-/

namespace Midend

namespace Graph

/-! ## Blocks, edges and fields -/

/-- Add an empty block. -/
def createBlock (g : Graph) : Graph × BlockId :=
  ({ g with blocks := g.blocks.push Block.empty }, ⟨g.blocks.size⟩)

/-- Make a block the entry.  Nothing is checked: a graph may have a bad entry while it is built. -/
def setEntry (g : Graph) (b : BlockId) : Graph := { g with entry := b }

/-- Apply a function to the block in a slot. -/
def modifyBlock (g : Graph) (b : BlockId) (f : Block → Block) : Graph :=
  { g with blocks := g.blocks.modify b.index f }

/-- Apply a function to the instruction in a slot. -/
def modifyInst (g : Graph) (i : InstId) (f : Inst → Inst) : Graph :=
  { g with insts := g.insts.modify i.index f }

/-- Join two existing blocks by an edge, last among the successors of one and the predecessors of the
other. -/
def link (g : Graph) (source target : BlockId) : Graph :=
  (g.modifyBlock source fun b => { b with succs := b.succs ++ [target] }).modifyBlock target
    fun b => { b with preds := b.preds ++ [source] }

/-- Add an edge between blocks that have to exist. -/
def addEdge (g : Graph) (source target : BlockId) : Checked Graph := do
  let _ ← g.block source
  let _ ← g.block target
  return g.link source target

/-- The entry of the field table for a declaration: the one with the same slot if there is one,
else a new one. -/
def internField (g : Graph) (f : Field) : Graph × FieldId :=
  match g.fields.findIdx? (·.sameSlot f) with
  | some k => (g, ⟨k⟩)
  | none => ({ g with fields := g.fields.push f }, ⟨g.fields.size⟩)

/-! ## Instructions -/

/-- Record one more use of a value. -/
def addUse (g : Graph) (value : InstId) (use : Use) : Graph :=
  { g with useChains := g.useChains.modify value.index (· ++ [use]) }

/-- Put a detached instruction into the arena and record its uses of its operands. -/
def addInst (g : Graph) (kind : Kind) (ty : Ty) (inputs : List InstId) : Graph × InstId :=
  let i : InstId := ⟨g.insts.size⟩
  let g := { g with insts := g.insts.push ⟨kind, ty, inputs, none, false⟩ }
  (inputs.zipIdx.foldl (fun g (input, k) => g.addUse input ⟨i, k⟩) g, i)

/-- Create a detached instruction; none of its operands may have been removed. -/
def createInst (g : Graph) (kind : Kind) (ty : Ty) (inputs : List InstId) :
    Checked (Graph × InstId) := do
  inputs.forM fun input => Checked.require (!g.isRemoved input) (.removedOperand input)
  return g.addInst kind ty inputs

/-- Only an instruction that has a slot, was not removed and is in no block can be placed. -/
def requireDetached (g : Graph) (edit : Placement) (i : InstId) : Checked Inst := do
  Checked.require (!g.isRemoved i) (.placedRemoved edit i)
  let inst ← g.inst i
  match inst.block with
  | some b => throw (.placedTwice edit i b)
  | none => return inst

/-- Put a detached instruction at the end of a block. -/
def placeInst (g : Graph) (b : BlockId) (i : InstId) : Graph :=
  (g.modifyInst i fun inst => { inst with block := some b }).modifyBlock b
    fun block => { block with insts := block.insts ++ [i] }

/-- Put a detached phi at the end of a block's phis. -/
def placePhi (g : Graph) (b : BlockId) (i : InstId) : Graph :=
  (g.modifyInst i fun inst => { inst with block := some b }).modifyBlock b
    fun block => { block with phis := block.phis ++ [i] }

/-- Append an instruction, which must be detached and no phi, to a block. -/
def appendInst (g : Graph) (b : BlockId) (i : InstId) : Checked Graph := do
  let inst ← g.requireDetached .appendInst i
  Checked.require (!inst.kind.isPhi) (.phiAmongInsts i)
  let _ ← g.block b
  return g.placeInst b i

/-- Append a phi, which must be detached, to a block's phis. -/
def appendPhi (g : Graph) (b : BlockId) (i : InstId) : Checked Graph := do
  let inst ← g.requireDetached .appendPhi i
  Checked.require inst.kind.isPhi (.instAmongPhis i)
  let _ ← g.block b
  return g.placePhi b i

/-- Insert an instruction right before another. -/
def insertBefore (g : Graph) (anchor i : InstId) : Checked Graph := do
  let _ ← g.requireDetached .insertBefore i
  match ← g.blockOf anchor with
  | none => throw (.detachedAnchor anchor)
  | some b =>
    match (← g.block b).insts.findIdx? (· = anchor) with
    | none => throw (.anchorNotFound anchor b)
    | some k =>
      let g := g.modifyBlock b fun block =>
        { block with insts := block.insts.take k ++ i :: block.insts.drop k }
      return g.modifyInst i fun inst => { inst with block := some b }

/-- Give an instruction in the arena one more operand. -/
def feed (g : Graph) (i value : InstId) : Graph :=
  let arity := (g.insts[i.index]?.map (·.inputs.length)).getD 0
  (g.modifyInst i fun inst => { inst with inputs := inst.inputs ++ [value] }).addUse value ⟨i, arity⟩

/-- Give an instruction, which has to exist, one more operand. -/
def pushInput (g : Graph) (i value : InstId) : Checked Graph := do
  let _ ← g.inst i
  return g.feed i value

/-- Take an instruction out of its block and out of the use chains of its operands, and mark its slot.
Its value must have no uses left. -/
def removeInst (g : Graph) (i : InstId) : Checked Graph := do
  Checked.require (g.uses i).isEmpty (.stillUsed i (g.uses i).length)
  let inst ← g.inst i
  let g := match inst.block with
    | none => g
    | some b => g.modifyBlock b fun block =>
      { block with phis := block.phis.filter (· ≠ i), insts := block.insts.filter (· ≠ i) }
  let g := inst.inputs.zipIdx.foldl (fun g (input, k) =>
    { g with useChains := g.useChains.modify input.index (·.filter (· ≠ ⟨i, k⟩)) }) g
  return g.modifyInst i fun inst => { inst with block := none, inputs := [], removed := true }

/-- Let every use of one value read another instead.  The uses go to the end of the new value's chain,
in their order. -/
def replaceUses (g : Graph) (old new : InstId) : Graph :=
  if old = new then
    g
  else
    let moved := g.uses old
    let g := { g with useChains := g.useChains.set old.index [] }
    moved.foldl (fun g use =>
      (g.modifyInst use.user fun inst => { inst with inputs := inst.inputs.set use.index new }).addUse
        new use) g

end Graph

end Midend
