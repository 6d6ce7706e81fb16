import Midend.Kind

/-!
# Faults

A fault stops the work on a method for good: an edit that would break the graph, a reference to
something that does not exist, a counter that leaves its range.  It is a cause, not a text; `message`
is the one place that words it.  Operations that can fault return in `Checked`.
-/

namespace Midend

/-- The edits that insist on a detached instruction. -/
inductive Placement where
  | appendInst | appendPhi | insertBefore
deriving DecidableEq, Repr

/-- How a placement is written in messages. -/
def Placement.text : Placement → String
  | appendInst => "append_inst"
  | appendPhi => "append_phi"
  | insertBefore => "insert_before"

/-- Why the work on a method cannot go on. -/
inductive Fault where
  /-- An instruction, block, field or operand that does not exist was asked for. -/
  | outOfBounds
  /-- A counter grew beyond 64 bits. -/
  | addOverflow
  /-- A count went below zero. -/
  | subOverflow
  /-- A new instruction was given an operand that had been removed. -/
  | removedOperand (input : InstId)
  /-- A removed instruction was to be placed in a block. -/
  | placedRemoved (edit : Placement) (inst : InstId)
  /-- An instruction was to be placed that already has a place. -/
  | placedTwice (edit : Placement) (inst : InstId) (block : BlockId)
  /-- A phi was to be placed among the ordinary instructions. -/
  | phiAmongInsts (inst : InstId)
  /-- An ordinary instruction was to be placed among the phis. -/
  | instAmongPhis (inst : InstId)
  /-- The anchor of an insertion is in no block. -/
  | detachedAnchor (anchor : InstId)
  /-- The anchor of an insertion is not among the ordinary instructions of its block. -/
  | anchorNotFound (anchor : InstId) (block : BlockId)
  /-- An instruction was to be removed while its value is used. -/
  | stillUsed (inst : InstId) (count : Nat)
  /-- A call that needs a receiver was built without one. -/
  | missingReceiver (mode : CallMode)
deriving DecidableEq, Repr

/-- The text of a fault. -/
def Fault.message : Fault → String
  | outOfBounds => "index out of bounds"
  | addOverflow => "attempt to add with overflow"
  | subOverflow => "attempt to subtract with overflow"
  | removedOperand i => "create_inst: input " ++ i.text ++ " has been removed from the graph"
  | placedRemoved e i => e.text ++ ": " ++ i.text ++ " has been removed from the graph"
  | placedTwice e i b =>
    e.text ++ ": " ++ i.text ++ " already belongs to " ++ b.text ++ "; remove it first"
  | phiAmongInsts i => "append_inst: " ++ i.text ++ " is a phi; use append_phi"
  | instAmongPhis i => "append_phi: " ++ i.text ++ " is not a phi"
  | detachedAnchor a => "insert_before: anchor " ++ a.text ++ " is not in a block"
  | anchorNotFound a b => "insert_before: anchor " ++ a.text ++ " not found in " ++ b.text
  | stillUsed i n =>
    "remove_inst: " ++ i.text ++ " still has " ++ toString n
      ++ " use(s); replace all uses before removing it"
  | missingReceiver m => "invoke: " ++ m.mnemonic ++ " requires a receiver argument"

/-- A value, or the fault that kept it from being made. -/
abbrev Checked (α : Type) := Except Fault α

/-- The thing at hand, or the fault that it does not exist. -/
def Checked.ofOption {α : Type} : Option α → Checked α
  | some a => .ok a
  | none => .error .outOfBounds

/-- Go on only if a condition holds. -/
def Checked.require (p : Bool) (fault : Fault) : Checked Unit :=
  if p then .ok () else .error fault

@[simp] theorem Checked.ofOption_eq_ok {α : Type} {o : Option α} {a : α} :
    Checked.ofOption o = .ok a ↔ o = some a := by
  cases o <;> simp [Checked.ofOption]

@[simp] theorem Checked.require_eq_ok {p : Bool} {fault : Fault} {u : Unit} :
    Checked.require p fault = .ok u ↔ p = true := by
  cases p <;> simp [Checked.require]

end Midend
