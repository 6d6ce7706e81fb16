import Midend.Flow.Dominators

/-!
# Checking a graph

A graph is well formed when its blocks end as they must, its phis have one operand per predecessor, its
use chains agree with its operands, and every operand is defined before it is used.  The checker lists
what is wrong, in a fixed order: blocks in layout order, then uses, then definitions in pre-order of the
dominator tree.
-/

namespace Midend

/-- One thing wrong with a graph. -/
inductive Violation where
  | phiInputCount (phi : InstId) (block : BlockId) (expected found : Nat)
  | missingTerminator (block : BlockId)
  | misplacedTerminator (inst : InstId) (block : BlockId)
  | successorCount (block : BlockId) (expected found : Nat)
  | notDominated (user : InstId) (index : Nat) (definition : InstId)
  | blockMismatch (inst : InstId) (recorded : Option BlockId) (actual : BlockId)
  | removedInput (user : InstId) (index : Nat) (input : InstId)
  | useChain (message : String)
  | entryHasPredecessors (block : BlockId)
deriving DecidableEq, Repr

namespace Violation

/-- The text of a violation. -/
def text : Violation → String
  | phiInputCount p b e f =>
    "phi " ++ p.text ++ " in " ++ b.text ++ " has " ++ toString f ++ " input(s) for " ++ toString e
      ++ " predecessor(s)"
  | missingTerminator b => b.text ++ " does not end with a terminator"
  | misplacedTerminator i b =>
    "terminator " ++ i.text ++ " is not the last instruction of " ++ b.text
  | successorCount b e f =>
    b.text ++ " has " ++ toString f ++ " successor(s) but its terminator requires " ++ toString e
  | notDominated u k d =>
    "input #" ++ toString k ++ " of " ++ u.text ++ " is " ++ d.text ++ ", which does not dominate it"
  | blockMismatch i r b =>
    i.text ++ " is listed in " ++ b.text ++ " but records "
      ++ (match r with
        | none => "None"
        | some b => "Some(" ++ b.text ++ ")") ++ " as its block"
  | removedInput u k i =>
    "input #" ++ toString k ++ " of " ++ u.text ++ " refers to removed instruction " ++ i.text
  | useChain m => "use-chain mismatch: " ++ m
  | entryHasPredecessors b => "entry block " ++ b.text ++ " has predecessors"

/-- The report on a list of violations. -/
def report : List Violation → String
  | [] => "validation passed"
  | vs => toString vs.length ++ " invariant violation(s) found:\n"
      ++ String.join (vs.map fun v => "  - " ++ v.text ++ "\n")

end Violation

namespace Checker

/-! ## Blocks -/

/-- The entry must have no predecessors. -/
def entryViolations (g : Graph) : Checked (List Violation) := do
  let entry ← g.block g.entry
  return if entry.preds.isEmpty then [] else [.entryHasPredecessors g.entry]

/-- What is listed in a block must say so itself. -/
def membershipViolations (g : Graph) (b : BlockId) (block : Block) : Checked (List Violation) :=
  block.body.filterMapM fun i => do
    let recorded ← g.blockOf i
    return if recorded = some b then none else some (.blockMismatch i recorded b)

/-- A phi must have one operand per predecessor. -/
def phiViolations (g : Graph) (b : BlockId) (block : Block) : Checked (List Violation) :=
  block.phis.filterMapM fun i => do
    let found := (← g.inputs i).length
    let expected := block.preds.length
    return if found = expected then none else some (.phiInputCount i b expected found)

/-- A block must end with its only terminator, and have the successors it asks for. -/
def endViolations (g : Graph) (b : BlockId) (block : Block) : Checked (List Violation) := do
  match block.insts.getLast? with
  | none => return [.missingTerminator b]
  | some last =>
    let misplaced ← block.insts.dropLast.filterMapM fun i => do
      return if (← g.kind i).isTerminator then some (.misplacedTerminator i b) else none
    match (← g.kind last).successorCount? with
    | none => return misplaced ++ [.missingTerminator b]
    | some expected =>
      let found := block.succs.length
      return misplaced ++ if found = expected then [] else [.successorCount b expected found]

def blockViolations (g : Graph) (b : BlockId) : Checked (List Violation) := do
  let block ← g.block b
  return (← membershipViolations g b block) ++ (← phiViolations g b block) ++ (← endViolations g b block)

/-! ## Uses -/

/-- An operand must not have been removed, and its use must be recorded. -/
def inputViolation? (g : Graph) (user : InstId) : InstId × Nat → Option Violation
  | (input, k) =>
    if g.isRemoved input then
      some (.removedInput user k input)
    else if (g.uses input).contains ⟨user, k⟩ then
      none
    else
      some (.useChain ("input #" ++ toString k ++ " of " ++ user.text ++ " is missing from the uses of "
        ++ input.text))

/-- A recorded use must exist. -/
def useViolation? (g : Graph) (value : InstId) (u : Use) : Checked (Option Violation) := do
  let bad := .useChain (value.text ++ " records a use by " ++ u.user.text ++ " at #" ++ toString u.index
    ++ " that does not exist")
  if g.isRemoved u.user then
    return some bad
  else
    return if (← g.inputs u.user)[u.index]? = some value then none else some bad

def useViolations (g : Graph) (i : InstId) : Checked (List Violation) := do
  let inputs := (← g.inputs i).zipIdx.filterMap (inputViolation? g i)
  return inputs ++ (← (g.uses i).filterMapM (useViolation? g i))

/-! ## Definitions before uses -/

/-- The place of every listed instruction in its block. -/
def positions (g : Graph) : Table Nat :=
  g.blocks.toList.foldl (fun t block =>
    block.body.zipIdx.foldl (fun t (i, n) => t.set i.index n) t) Table.empty

/-- Is a value defined before an instruction that uses it? -/
def definedBefore (g : Graph) (doms : DomTree) (places : Table Nat) (definition user : InstId) :
    Checked Bool := do
  match ← g.blockOf definition, ← g.blockOf user with
  | some db, some ub =>
    return if db = ub then places.get definition.index < places.get user.index else doms.dominates db ub
  | _, _ => return false

/-- A phi's operand must be defined at the end of its predecessor. -/
def phiInputViolation? (g : Graph) (doms : DomTree) (phi : InstId) :
    (InstId × BlockId) × Nat → Checked (Option Violation)
  | ((definition, pred), k) => do
    if g.isRemoved definition || !doms.isReachable pred then
      return none
    else
      match ← g.blockOf definition with
      | some db => return if doms.dominates db pred then none else some (.notDominated phi k definition)
      | none => return some (.notDominated phi k definition)

/-- Any other operand must be defined before the instruction. -/
def operandViolation? (g : Graph) (doms : DomTree) (places : Table Nat) (user : InstId) :
    InstId × Nat → Checked (Option Violation)
  | (definition, k) => do
    if g.isRemoved definition then
      return none
    else
      return if ← definedBefore g doms places definition user then none
        else some (.notDominated user k definition)

def definitionViolations (g : Graph) (doms : DomTree) (places : Table Nat) (b : BlockId) :
    Checked (List Violation) := do
  let block ← g.block b
  let phis ← block.phis.mapM fun phi => do
    ((← g.inputs phi).zip block.preds).zipIdx.filterMapM (phiInputViolation? g doms phi)
  let insts ← block.insts.mapM fun user => do
    (← g.inputs user).zipIdx.filterMapM (operandViolation? g doms places user)
  return phis.flatten ++ insts.flatten

end Checker

namespace Graph

/-- Everything that is wrong with a graph. -/
def violations (g : Graph) : Checked (List Violation) := do
  let entry ← Checker.entryViolations g
  let blocks ← g.blockIds.mapM (Checker.blockViolations g)
  let uses ← g.attached.mapM (Checker.useViolations g)
  let doms ← DomTree.ofGraph g
  let places := Checker.positions g
  let definitions ← doms.preorder.mapM (Checker.definitionViolations g doms places)
  return entry ++ blocks.flatten ++ uses.flatten ++ definitions.flatten

end Graph

end Midend
