import Midend.Flow.Dominators
import Midend.Heap.Location

/-!
# Nullability

For every value, whether it is proven not to be null.  New objects, the results of null checks and the
receiver of an instance method never are.  A value that was dereferenced is not null at any point the
dereference dominates, since a null would have faulted there.

## Shape of the iteration

A phi is not null when each of its operands is, at the end of its predecessor.  Phis start as not null
and are swept in order, each sweep using what it has just found; a phi can only change to maybe null, so
at most one sweep per phi changes anything, and one more sees that nothing did.
-/

namespace Midend

/-- Whether a value may be null. -/
inductive Nullability where
  | notNull | maybeNull
deriving DecidableEq, Repr

namespace Nullability

instance : Inhabited Nullability := ⟨maybeNull⟩

/-- Not null only if both are. -/
def join : Nullability → Nullability → Nullability
  | notNull, notNull => notNull
  | _, _ => maybeNull

def text : Nullability → String
  | notNull => "not null"
  | maybeNull => "maybe null"

end Nullability

/-- What is known about the values of a method. -/
structure NullFacts where
  values : Table Nullability
  /-- For each value, the instructions that fault when it is null. -/
  derefs : Table (List InstId)
  /-- The sweeps it took, the last one changing nothing. -/
  sweeps : Nat

namespace NullFacts

/-- Nothing is known. -/
def empty : NullFacts := ⟨Table.empty, Table.empty, 0⟩

def nullability (f : NullFacts) (i : InstId) : Nullability := f.values.get i.index

def isNonNull (f : NullFacts) (i : InstId) : Bool := f.nullability i = .notNull

def derefPoints (f : NullFacts) (i : InstId) : List InstId := f.derefs.get i.index

/-- What an instruction alone says about its value.  A value that is no reference is never null. -/
def seed (isStatic : Bool) (inst : Inst) : Nullability :=
  if inst.ty ≠ .ref then .notNull
  else match inst.kind with
    | .newInstance _ | .newArray _ | .nullCheck | .phi => .notNull
    | .param n => if n = 0 && !isStatic then .notNull else .maybeNull
    | _ => .maybeNull

/-- Record that an instruction dereferences a value. -/
def addDeref (f : NullFacts) (value point : InstId) : NullFacts :=
  { f with derefs := f.derefs.modify value.index (· ++ [point]) }

/-- Take one instruction into account: its seed, and the operand it dereferences, both as written and
behind null checks. -/
def addInst (g : Graph) (f : NullFacts) (i : InstId) : Checked NullFacts := do
  let inst ← g.inst i
  let f := { f with values := f.values.set i.index (seed g.isStatic inst) }
  match inst.kind.dereferencedInput? with
  | none => return f
  | some k =>
    let reference ← g.input i k
    let behind ← g.unchecked reference
    let f := f.addDeref reference i
    return if behind = reference then f else f.addDeref behind i

/-- Is a value dereferenced in a block that dominates another? -/
def derefDominates (g : Graph) (doms : DomTree) (f : NullFacts) (value : InstId) (b : BlockId) :
    Checked Bool :=
  (f.derefPoints value).anyM fun d => do
    match ← g.blockOf d with
    | some db => return doms.dominates db b
    | none => return false

/-- What a phi's operand is at the end of its predecessor. -/
def edgeState (g : Graph) (doms : DomTree) (f : NullFacts) (input : InstId) (pred : BlockId) :
    Checked Nullability := do
  return if ← derefDominates g doms f input pred then .notNull else f.nullability input

/-- What a phi's operands say about it, unreachable predecessors left out. -/
def phiState (g : Graph) (doms : DomTree) (f : NullFacts) (phi : InstId) : Checked Nullability := do
  let inst ← g.inst phi
  match inst.block with
  | none => return .maybeNull
  | some b =>
    let live := (inst.inputs.zip (g.preds b)).filter fun (_, pred) => doms.isReachable pred
    live.foldlM (fun acc (input, pred) => return acc.join (← edgeState g doms f input pred)) .notNull

/-- Bring one phi up to date, noting whether it changed. -/
def sweepPhi (g : Graph) (doms : DomTree) (st : NullFacts × Bool) (phi : InstId) :
    Checked (NullFacts × Bool) := do
  let (f, changed) := st
  let state ← phiState g doms f phi
  if state = f.nullability phi then return (f, changed)
  else return ({ f with values := f.values.set phi.index state }, true)

/-- Bring every phi up to date once, noting whether any changed. -/
def sweep (g : Graph) (doms : DomTree) (phis : List InstId) (f : NullFacts) :
    Checked (NullFacts × Bool) :=
  phis.foldlM (sweepPhi g doms) (f, false)

/-- Sweep until nothing changes; nothing is returned if the sweeps run out first. -/
def settle (g : Graph) (doms : DomTree) (phis : List InstId) :
    (left done : Nat) → NullFacts → Checked (Option NullFacts)
  | 0, _, _ => return none
  | left + 1, done, f => do
    let (f, changed) ← sweep g doms phis f
    if changed then settle g doms phis left (done + 1) f
    else return some { f with sweeps := done + 1 }

/-- The instructions of the reachable blocks, in reverse post-order. -/
def reachableInsts (g : Graph) (doms : DomTree) : Checked (List InstId) := do
  return (← doms.rpo.mapM fun b => return (← g.block b).body).flatten

/-- The phis that define references. -/
def referencePhis (g : Graph) (insts : List InstId) : Checked (List InstId) :=
  insts.filterM fun i => do
    let inst ← g.inst i
    return inst.kind.isPhi && inst.ty = .ref

/-- How often the phis are swept at most. -/
def sweepLimit (phis : List InstId) : Nat := phis.length + 1

/-- Find out what is known about the values of a graph.  Nothing is returned if the iteration does not
settle. -/
def ofGraph (g : Graph) (doms : DomTree) : Checked (Option NullFacts) := do
  let insts ← reachableInsts g doms
  let phis ← referencePhis g insts
  let f ← insts.foldlM (addInst g) empty
  settle g doms phis (sweepLimit phis) 0 f

/-- Is a value proven not null whenever an instruction executes? -/
def isNonNullAt (f : NullFacts) (g : Graph) (doms : DomTree) (value point : InstId) : Checked Bool := do
  if f.isNonNull value then return true
  else (f.derefPoints value).anyM fun d => do
    if d = point then return false else doms.instDominates g d point

/-- The attached instructions at which a value is known not to be null. -/
def nonNullPoints (f : NullFacts) (g : Graph) (doms : DomTree) (value : InstId) : Checked (List InstId) :=
  g.attached.filterM (f.isNonNullAt g doms value)

/-- Forget the dereferences by instructions that do not satisfy a condition. -/
def retainDerefs (f : NullFacts) (keep : InstId → Bool) : NullFacts :=
  { f with derefs := f.derefs.map (·.filter keep) }

end NullFacts

end Midend
