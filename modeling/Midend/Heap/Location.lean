import Midend.Heap.Effects

/-!
# Heap locations

The memory slot an access names: a field of an object, a static field, or the element of an array at
an index.  Objects are named by the instruction that defines the reference, with null checks looked
through, since a check yields the reference it was given.
-/

namespace Midend

/-- Which slot of an object, or which static field. -/
inductive Slot where
  | instanceField (field : FieldId)
  | staticField (field : FieldId)
  | arrayElement (index : InstId) (component : Ty)
deriving DecidableEq, Repr

/-- A memory slot; only static fields belong to no object. -/
structure Location where
  object : Option InstId
  slot : Slot
deriving DecidableEq, Repr

namespace Graph

/-- Look through at most so many null checks. -/
def uncheckedWithin (g : Graph) : Nat → InstId → Checked InstId
  | 0, i => return i
  | depth + 1, i => do
    if (← g.kind i).isNullCheck then g.uncheckedWithin depth (← g.input i 0) else return i

/-- The reference behind any number of null checks.  A chain of checks is no longer than the arena. -/
def unchecked (g : Graph) (i : InstId) : Checked InstId := g.uncheckedWithin (g.insts.size + 1) i

/-- The slot of a field access; a volatile field has none. -/
def fieldLocation? (g : Graph) (f : FieldId) (object : Checked (Option InstId)) (slot : FieldId → Slot) :
    Checked (Option Location) := do
  if (← g.field f).isVolatile then return none else return some ⟨← object, slot f⟩

/-- The slot a memory access reads or writes; none for every other instruction and for volatile
fields. -/
def location? (g : Graph) (i : InstId) : Checked (Option Location) := do
  let object : Checked (Option InstId) := do return some (← g.unchecked (← g.input i 0))
  match ← g.kind i with
  | .instanceGet f | .instanceSet f => g.fieldLocation? f object .instanceField
  | .staticGet f | .staticSet f => g.fieldLocation? f (return none) .staticField
  | .arrayGet => return some ⟨← object, .arrayElement (← g.input i 1) (← g.ty i)⟩
  | .arraySet => return some ⟨← object, .arrayElement (← g.input i 1) (← g.ty (← g.input i 2))⟩
  | _ => return none

/-- The declared type of a field. -/
def fieldTy (g : Graph) (f : FieldId) : Ty := (g.fields[f.index]?.map (·.ty)).getD .void

/-- The number an instruction stands for, if it is a constant. -/
def constant? (g : Graph) (i : InstId) : Option Int :=
  match g.kind? i with
  | some (.const v) => some v
  | _ => none

/-- Are both instructions constants, of different value? -/
def distinctConstants (g : Graph) (i j : InstId) : Bool :=
  match g.constant? i, g.constant? j with
  | some a, some b => a ≠ b
  | _, _ => false

end Graph

namespace Location

/-- The part of memory a location lies in. -/
def category (g : Graph) (l : Location) : Category :=
  match l.slot with
  | .instanceField f => .instanceField (g.fieldTy f)
  | .staticField f => .staticField (g.fieldTy f)
  | .arrayElement _ component => .arrayElement component

/-- May two slots coincide in one object? -/
def slotsOverlap (g : Graph) : Slot → Slot → Bool
  | .instanceField f, .instanceField f' => f = f'
  | .arrayElement i c, .arrayElement j c' => c = c' && !g.distinctConstants i j
  | _, _ => false

/-- May two locations be the same memory?  Different references denote different objects if one of them
is a singleton. -/
def mayAlias (g : Graph) (isSingleton : InstId → Bool) (l l' : Location) : Bool :=
  match l.slot, l'.slot with
  | .staticField f, .staticField f' => f = f'
  | s, s' =>
    slotsOverlap g s s' &&
      match l.object, l'.object with
      | some a, some b => a = b || (!isSingleton a && !isSingleton b)
      | _, _ => false

end Location

end Midend
