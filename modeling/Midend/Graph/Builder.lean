import Midend.Graph.Edit

/-!
# Building a graph in order

A `Builder` holds a graph and the block at whose end new instructions go.  Each operation returns the
new instruction and the builder after it.  Those that end a block also add its edges, so the phis of a
target block get their operands once all edges into it exist.
-/

namespace Midend

/-- A graph under construction, with the block that new instructions are appended to. -/
structure Builder where
  graph : Graph
  current : BlockId
  /-- The index of the next parameter. -/
  paramCount : Nat

namespace Builder

/-- Continue a graph at its entry block. -/
def ofGraph (g : Graph) : Checked Builder := do
  return ⟨g, g.entry, (← g.parameters).length⟩

/-- Go on in another block. -/
def switchTo (b : Builder) (block : BlockId) : Builder := { b with current := block }

/-- Append an instruction to the current block. -/
def push (b : Builder) (kind : Kind) (ty : Ty) (inputs : List InstId) : Checked (Builder × InstId) := do
  let (g, i) ← b.graph.createInst kind ty inputs
  return ({ b with graph := ← g.appendInst b.current i }, i)

/-- Add the next parameter.  It goes behind the parameters of the entry block, wherever the current
block is. -/
def param (b : Builder) (ty : Ty) : Checked (Builder × InstId) := do
  let (g, i) ← b.graph.createInst (.param b.paramCount) ty []
  let entry ← g.block g.entry
  let anchor ← entry.insts.findM? fun j => return !(← g.kind j).isParam
  let g ← match anchor with
    | some a => g.insertBefore a i
    | none => g.appendInst g.entry i
  return ({ b with graph := g, paramCount := b.paramCount + 1 }, i)

def const (b : Builder) (value : Int) (ty : Ty) : Checked (Builder × InstId) :=
  b.push (.const value) ty []

def null (b : Builder) : Checked (Builder × InstId) := b.push .null .ref []

/-- Add a phi to any block. -/
def phi (b : Builder) (block : BlockId) (ty : Ty) (inputs : List InstId) :
    Checked (Builder × InstId) := do
  let (g, i) ← b.graph.createInst .phi ty inputs
  return ({ b with graph := ← g.appendPhi block i }, i)

/-- An operation on two values has the type of the left one. -/
def binary (b : Builder) (op : BinaryOp) (lhs rhs : InstId) : Checked (Builder × InstId) := do
  b.push (.binary op) (← b.graph.ty lhs) [lhs, rhs]

def compare (b : Builder) (op : CompareOp) (lhs rhs : InstId) : Checked (Builder × InstId) :=
  b.push (.compare op) .bool [lhs, rhs]

def newInstance (b : Builder) (owner : String) : Checked (Builder × InstId) :=
  b.push (.newInstance owner) .ref []

def newArray (b : Builder) (component : Ty) (length : InstId) : Checked (Builder × InstId) :=
  b.push (.newArray component) .ref [length]

/-- A field load has the declared type of the field. -/
def instanceGet (b : Builder) (object : InstId) (field : FieldId) : Checked (Builder × InstId) := do
  b.push (.instanceGet field) (← b.graph.field field).ty [object]

def instanceSet (b : Builder) (object : InstId) (field : FieldId) (value : InstId) :
    Checked (Builder × InstId) :=
  b.push (.instanceSet field) .void [object, value]

def staticGet (b : Builder) (field : FieldId) : Checked (Builder × InstId) := do
  b.push (.staticGet field) (← b.graph.field field).ty []

def staticSet (b : Builder) (field : FieldId) (value : InstId) : Checked (Builder × InstId) :=
  b.push (.staticSet field) .void [value]

def arrayGet (b : Builder) (array index : InstId) (component : Ty) : Checked (Builder × InstId) :=
  b.push .arrayGet component [array, index]

def arraySet (b : Builder) (array index value : InstId) : Checked (Builder × InstId) :=
  b.push .arraySet .void [array, index, value]

def arrayLength (b : Builder) (array : InstId) : Checked (Builder × InstId) :=
  b.push .arrayLength .int [array]

def nullCheck (b : Builder) (object : InstId) : Checked (Builder × InstId) :=
  b.push .nullCheck .ref [object]

/-- Append a call.  A call that has a receiver takes it as its first argument. -/
def invoke (b : Builder) (mode : CallMode) (callee : String) (args : List InstId) (ty : Ty) :
    Checked (Builder × InstId) := do
  Checked.require (!mode.hasReceiver || !args.isEmpty) (.missingReceiver mode)
  b.push (.invoke mode callee) ty args

def monitorEnter (b : Builder) (object : InstId) : Checked (Builder × InstId) :=
  b.push .monitorEnter .void [object]

def monitorExit (b : Builder) (object : InstId) : Checked (Builder × InstId) :=
  b.push .monitorExit .void [object]

/-- Append an operation about which nothing is known. -/
def unknown (b : Builder) (name : String) (args : List InstId) (ty : Ty) :
    Checked (Builder × InstId) :=
  b.push (.unknown name) ty args

/-- End the current block with a jump. -/
def jump (b : Builder) (target : BlockId) : Checked (Builder × InstId) := do
  let (b, i) ← b.push .jump .void []
  return ({ b with graph := ← b.graph.addEdge b.current target }, i)

/-- End the current block with a two-way branch. -/
def branch (b : Builder) (cond : InstId) (whenTrue whenFalse : BlockId) :
    Checked (Builder × InstId) := do
  let (b, i) ← b.push .branch .void [cond]
  let g ← b.graph.addEdge b.current whenTrue
  return ({ b with graph := ← g.addEdge b.current whenFalse }, i)

def ret (b : Builder) (value : InstId) : Checked (Builder × InstId) := b.push .ret .void [value]

def retVoid (b : Builder) : Checked (Builder × InstId) := b.push .retVoid .void []

def raise (b : Builder) (exception : InstId) : Checked (Builder × InstId) :=
  b.push .raise .void [exception]

end Builder

end Midend
