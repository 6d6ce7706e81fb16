import Midend.Graph.Basic

/-!
# Memory effects

Memory is divided into categories: instance fields, static fields and array elements, each by the type
of the value kept there, and one category for memory that cannot be named.  Accesses in different
categories never touch the same memory, except that the unnamed category overlaps every other.

A set of categories has one bit per category.  An effect is a pair of such sets, what may be written and
what may be read, packed into the two halves of one word.
-/

namespace Midend

/-- A part of memory. -/
inductive Category where
  | instanceField (ty : Ty)
  | staticField (ty : Ty)
  | arrayElement (ty : Ty)
  | unknown
deriving DecidableEq, Repr

/-- A set of categories: bits 0 to 8 for instance fields by type, 9 to 17 for static fields, 18 to 26
for array elements, and bit 27 for unnamed memory. -/
abbrev CategorySet := BitVec 28

namespace Category

/-- The bit of unnamed memory. -/
def unknownBit : Nat := 27

/-- The bit of a category.  There is no memory of type `void`, so it counts as unnamed. -/
def bit : Category → Nat
  | instanceField ty => (ty.valueIndex?.map (0 + ·)).getD unknownBit
  | staticField ty => (ty.valueIndex?.map (9 + ·)).getD unknownBit
  | arrayElement ty => (ty.valueIndex?.map (18 + ·)).getD unknownBit
  | unknown => unknownBit

/-- The set that holds one category. -/
def singleton (c : Category) : CategorySet := BitVec.twoPow 28 c.bit

/-- May a set touch memory of a category?  Asking about unnamed memory asks whether the set touches any
memory at all. -/
def isTouched (c : Category) (s : CategorySet) : Bool :=
  if c = unknown then s != 0#28 else s &&& (c.singleton ||| unknown.singleton) != 0#28

/-- How a category is written. -/
def text : Category → String
  | instanceField ty => "instance " ++ ty.text
  | staticField ty => "static " ++ ty.text
  | arrayElement ty => "array " ++ ty.text
  | unknown => "unknown"

/-- Every category, the one that stands for anything first. -/
def all : List Category :=
  unknown :: Ty.all.map instanceField ++ Ty.all.map staticField ++ Ty.all.map arrayElement

end Category

namespace Effects

/-- How far up the half of the reads is. -/
def readShift : Nat := 32

/-- The bits of the categories in the low half. -/
def halfMask : BitVec 64 := 1#64 <<< (Category.unknownBit + 1) - 1#64

/-- The bits of the categories in both halves. -/
def mask : BitVec 64 := halfMask ||| halfMask <<< readShift

end Effects

/-- What may be written and what may be read: one word with the writes in its low half and the reads in
its high half.  Bits that stand for no category are clear. -/
structure Effects where
  word : BitVec 64
  masked : word &&& Effects.mask = word
deriving DecidableEq, Repr

namespace Effects

/-- No effect. -/
def none : Effects := ⟨0#64, by decide⟩

instance : Inhabited Effects := ⟨none⟩

/-- Everything may be read and written. -/
def all : Effects := ⟨mask, by decide⟩

/-- The bit of a category is its own in either half. -/
theorem masked_twoPow (c : Category) :
    BitVec.twoPow 64 c.bit &&& mask = BitVec.twoPow 64 c.bit ∧
      BitVec.twoPow 64 (c.bit + readShift) &&& mask = BitVec.twoPow 64 (c.bit + readShift) := by
  cases c with
  | instanceField ty | staticField ty | arrayElement ty => cases ty <;> decide
  | unknown => decide

theorem masked_union (a b : Effects) : (a.word ||| b.word) &&& mask = a.word ||| b.word := by
  rw [BitVec.and_or_distrib_right, a.masked, b.masked]

/-- A read of one category. -/
def read (c : Category) : Effects := ⟨BitVec.twoPow 64 (c.bit + readShift), (masked_twoPow c).2⟩

/-- A write of one category. -/
def write (c : Category) : Effects := ⟨BitVec.twoPow 64 c.bit, (masked_twoPow c).1⟩

/-- The category of a field of this type. -/
def fieldCategory (ty : Ty) (isStatic : Bool) : Category :=
  if isStatic then .staticField ty else .instanceField ty

def fieldRead (ty : Ty) (isStatic : Bool) : Effects := read (fieldCategory ty isStatic)

def fieldWrite (ty : Ty) (isStatic : Bool) : Effects := write (fieldCategory ty isStatic)

def arrayRead (component : Ty) : Effects := read (.arrayElement component)

def arrayWrite (component : Ty) : Effects := write (.arrayElement component)

/-- Both effects together. -/
def union (a b : Effects) : Effects := ⟨a.word ||| b.word, masked_union a b⟩

/-- What may be written. -/
def writes (e : Effects) : CategorySet := (e.word &&& halfMask).setWidth 28

/-- What may be read. -/
def reads (e : Effects) : CategorySet := (e.word >>> readShift &&& halfMask).setWidth 28

theorem writes_union (a b : Effects) : (a.union b).writes = a.writes ||| b.writes := by
  rw [writes, writes, writes, union, BitVec.and_or_distrib_right, BitVec.setWidth_or]

theorem reads_union (a b : Effects) : (a.union b).reads = a.reads ||| b.reads := by
  rw [reads, reads, reads, union, BitVec.ushiftRight_or_distrib, BitVec.and_or_distrib_right,
    BitVec.setWidth_or]

def isNone (e : Effects) : Bool := e.word == 0#64

def anyWrite (e : Effects) : Bool := e.writes != 0#28

def anyRead (e : Effects) : Bool := e.reads != 0#28

def mayWrite (e : Effects) (c : Category) : Bool := c.isTouched e.writes

def mayRead (e : Effects) (c : Category) : Bool := c.isTouched e.reads

/-- May the first effect read what the second writes? -/
def mayDependOn (a b : Effects) : Bool :=
  let unnamed := Category.unknown.singleton
  (a.reads &&& unnamed != 0#28 && b.anyWrite) || (b.writes &&& unnamed != 0#28 && a.anyRead)
    || a.reads &&& b.writes != 0#28

/-- Is every access of the second effect one of the first? -/
def includes (a b : Effects) : Bool := a.word &&& b.word == b.word

/-- A set as a hexadecimal number. -/
def hex (s : CategorySet) : String := "0x" ++ String.ofList (Nat.toDigits 16 s.toNat)

/-- How an effect is written. -/
def text (e : Effects) : String := "SideEffects(w=" ++ hex e.writes ++ ", r=" ++ hex e.reads ++ ")"

end Effects

namespace Graph

/-- The effect of a field access: everything for a volatile field, which orders all memory around it. -/
def fieldEffects (g : Graph) (f : FieldId) (access : Ty → Bool → Effects) : Checked Effects := do
  let field ← g.field f
  return if field.isVolatile then .all else access field.ty field.isStatic

/-- The effect of one instruction. -/
def effectsOf (g : Graph) (i : InstId) : Checked Effects := do
  match ← g.kind i with
  | .instanceGet f | .staticGet f => g.fieldEffects f .fieldRead
  | .instanceSet f | .staticSet f => g.fieldEffects f .fieldWrite
  | .arrayGet => return .arrayRead (← g.ty i)
  | .arraySet => return .arrayWrite (← g.ty (← g.input i 2))
  | .invoke _ _ | .monitorEnter | .monitorExit | .unknown _ => return .all
  | _ => return .none

end Graph

end Midend
