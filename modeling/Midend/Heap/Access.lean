import Midend.Heap.Escape
import Midend.Heap.Location

/-!
# The memory accesses of a method

The instructions that have a heap location, in layout order, and which of them may touch the same
memory when singletons are taken into account.
-/

namespace Midend

/-- An instruction and the memory it names. -/
structure Access where
  inst : InstId
  location : Location
deriving DecidableEq, Repr

namespace Graph

/-- The accesses of a method, in layout order. -/
def accesses (g : Graph) : Checked (List Access) :=
  g.attached.filterMapM fun i => return (← g.location? i).map (⟨i, ·⟩)

/-- Every null check, with the reference behind it. -/
def uncheckedPairs (g : Graph) : Checked (List (InstId × InstId)) :=
  g.attached.filterMapM fun i => do
    if (← g.kind i).isNullCheck then return some (i, ← g.unchecked i) else return none

/-- The index of an array element has to exist before elements can be compared. -/
def requireIndex (g : Graph) (l : Location) : Checked Unit := do
  match l.slot with
  | .arrayElement index _ =>
    let _ ← g.inst index
  | _ => return ()

/-- For every two accesses, whether they may touch the same memory. -/
def aliasRows (g : Graph) (accesses : List Access) : Checked (List (List Bool)) := do
  accesses.forM fun a => g.requireIndex a.location
  let isSingleton := fun i => (g.escapeOf i).isSingleton
  return accesses.map fun a => accesses.map fun b => a.location.mayAlias g isSingleton b.location

end Graph

end Midend
