import Midend.Graph.Basic

/-!
# Escape of allocations

An allocation is a singleton when its instruction is the only name for the object in the method: no
other value, no memory and no callee can refer to it.  Two references then never denote the same object
if one of them is a singleton.  A singleton that is returned or thrown is still one inside the method,
but its object outlives it.

The analysis looks at the uses of the allocation alone, wherever they are.
-/

namespace Midend

/-- What is known about an allocation. -/
structure Escape where
  /-- Is the instruction the only name for the object? -/
  isSingleton : Bool
  /-- Does the object, besides, never leave the method? -/
  isPrivate : Bool
deriving DecidableEq, Repr

namespace Escape

/-- Nothing is known. -/
def escaped : Escape := ⟨false, false⟩

instance : Inhabited Escape := ⟨escaped⟩

/-- What a use does with an object. -/
inductive Fate where
  /-- The object stays known by its allocation alone. -/
  | contained
  /-- The object leaves the method. -/
  | leaves
  /-- The object gets another name, or is handed to code that cannot be seen. -/
  | shared
deriving DecidableEq, Repr

/-- What an instruction does with the object at one of its operands. -/
def fate : Kind → Nat → Fate
  | .phi, _ | .nullCheck, _ | .invoke _ _, _ | .unknown _, _ | .monitorEnter, _ | .monitorExit, _
  | .staticSet _, _ => .shared
  | .instanceSet _, k => if k = 1 then .shared else .contained
  | .arraySet, k => if k = 2 then .shared else .contained
  | .ret, _ | .raise, _ => .leaves
  | _, _ => .contained

end Escape

namespace Graph

/-- What one use does with the object it reads. -/
def fateOf (g : Graph) (u : Use) : Escape.Fate :=
  match g.kind? u.user with
  | some kind => Escape.fate kind u.index
  | none => .contained

/-- What is known about the object an instruction creates; nothing if it creates none. -/
def escapeOf (g : Graph) (i : InstId) : Escape :=
  if ((g.kind? i).map Kind.isAllocation).getD false then
    let fates := (g.uses i).map g.fateOf
    let isSingleton := !fates.contains .shared
    ⟨isSingleton, isSingleton && !fates.contains .leaves⟩
  else
    .escaped

end Graph

end Midend
