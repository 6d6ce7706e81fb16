import Midend.Fault
import Midend.Table

/-!
# The graph of a method

A method is a control-flow graph of basic blocks whose instructions are in single-assignment form.
Instructions, blocks and fields live in arenas and refer to each other by position; an arena only
grows, so a name stays valid for the life of the graph.  Removing an instruction takes it out of its
block and marks its slot.

## Shape of the use chains

Beside the operands of every instruction the graph keeps the inverse relation: for each value, the
operand positions that read it, oldest first.  The chains are a `Table`, not a part of the arena,
because an operand may name an instruction that does not exist yet.

The questions of this module come in two kinds.  Those about an arena slot are `Checked`: they fault
when the slot does not exist.  Those about use chains and edges answer for any name.
-/

namespace Midend

/-- One use of a value: who reads it, at which operand position. -/
structure Use where
  user : InstId
  index : Nat
deriving DecidableEq, Repr, Inhabited

/-- An instruction in its arena slot. -/
structure Inst where
  kind : Kind
  ty : Ty
  inputs : List InstId
  /-- The block that lists the instruction, none while it is detached. -/
  block : Option BlockId
  /-- Has the instruction been removed for good? -/
  removed : Bool
deriving DecidableEq, Repr, Inhabited

/-- A basic block: its phis, its other instructions with the terminator last, and its edges in the
order they were added. -/
structure Block where
  phis : List InstId
  insts : List InstId
  preds : List BlockId
  succs : List BlockId
deriving DecidableEq, Repr, Inhabited

namespace Block

/-- A block without instructions and edges. -/
def empty : Block := ⟨[], [], [], []⟩

/-- Everything the block executes, phis first. -/
def body (b : Block) : List InstId := b.phis ++ b.insts

end Block

/-- The graph of one method. -/
structure Graph where
  name : String
  isStatic : Bool
  isSynchronized : Bool
  insts : Array Inst
  blocks : Array Block
  fields : Array Field
  useChains : Table (List Use)
  entry : BlockId
deriving Repr

namespace Graph

/-- A graph that has an empty entry block and nothing else. -/
def new (name : String) : Graph where
  name := name
  isStatic := false
  isSynchronized := false
  insts := #[]
  blocks := #[Block.empty]
  fields := #[]
  useChains := Table.empty
  entry := ⟨0⟩

/-! ## Arena slots -/

def inst (g : Graph) (i : InstId) : Checked Inst := .ofOption g.insts[i.index]?

def block (g : Graph) (b : BlockId) : Checked Block := .ofOption g.blocks[b.index]?

def field (g : Graph) (f : FieldId) : Checked Field := .ofOption g.fields[f.index]?

def kind (g : Graph) (i : InstId) : Checked Kind := return (← g.inst i).kind

def ty (g : Graph) (i : InstId) : Checked Ty := return (← g.inst i).ty

def inputs (g : Graph) (i : InstId) : Checked (List InstId) := return (← g.inst i).inputs

def blockOf (g : Graph) (i : InstId) : Checked (Option BlockId) := return (← g.inst i).block

/-- The operand at a position. -/
def input (g : Graph) (i : InstId) (k : Nat) : Checked InstId := do
  .ofOption (← g.inputs i)[k]?

/-! ## Use chains, marks and edges, for any name -/

/-- The kind of an instruction, if there is one. -/
def kind? (g : Graph) (i : InstId) : Option Kind := g.insts[i.index]?.map (·.kind)

/-- The uses of a value, oldest first. -/
def uses (g : Graph) (i : InstId) : List Use := g.useChains.get i.index

def hasUses (g : Graph) (i : InstId) : Bool := !(g.uses i).isEmpty

/-- Only an instruction that exists can have been removed. -/
def isRemoved (g : Graph) (i : InstId) : Bool := (g.insts[i.index]?.map (·.removed)).getD false

/-- The blocks control may go to from a block. -/
def succs (g : Graph) (b : BlockId) : List BlockId := (g.blocks[b.index]?.map (·.succs)).getD []

/-- The blocks control may come from, in the order the edges were added. -/
def preds (g : Graph) (b : BlockId) : List BlockId := (g.blocks[b.index]?.map (·.preds)).getD []

/-! ## The method as a whole -/

/-- All blocks, in layout order. -/
def blockIds (g : Graph) : List BlockId := (List.range g.blocks.size).map BlockId.mk

/-- Every arena slot for an instruction, removed ones included. -/
def instIds (g : Graph) : List InstId := (List.range g.insts.size).map InstId.mk

/-- The instructions that are in a block, in layout order, phis first in each block. -/
def attached (g : Graph) : List InstId := g.blocks.toList.flatMap Block.body

/-- The parameters among the entry block's instructions, by parameter index. -/
def parameters (g : Graph) : Checked (List InstId) := do
  let entry ← g.block g.entry
  let indexed ← entry.insts.filterMapM fun i => do
    match ← g.kind i with
    | .param index => return some (index, i)
    | _ => return none
  return (indexed.mergeSort fun a b => a.1 ≤ b.1).map (·.2)

/-- Does any instruction acquire or release a monitor? -/
def hasMonitorOps (g : Graph) : Checked Bool := g.attached.anyM fun i => return (← g.kind i).isMonitor

/-- The place of an instruction in its block, phis counted first. -/
def position? (g : Graph) (i : InstId) : Checked (Option Nat) := do
  match ← g.blockOf i with
  | none => return none
  | some b => return (← g.block b).body.findIdx? (· = i)

/-- The block's last instruction, if it is one that ends a block. -/
def terminator? (g : Graph) (b : BlockId) : Checked (Option InstId) := do
  match (← g.block b).insts.getLast? with
  | none => return none
  | some i => return if (← g.kind i).isTerminator then some i else none

/-- The first place of a block among another's predecessors. -/
def predIndex? (g : Graph) (b pred : BlockId) : Checked (Option Nat) :=
  return (← g.block b).preds.findIdx? (· = pred)

end Graph

end Midend
