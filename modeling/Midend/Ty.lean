/-!
# Value types and field declarations

The type of an instruction says what kind of value it defines: nine value types, and `void` for an
instruction that defines none.  A field declaration names a slot of an object, or of a class.
-/

namespace Midend

/-- The type of a value; `void` is the absence of one. -/
inductive Ty where
  | bool | byte | char | short | int | long | float | double | ref | void
deriving DecidableEq, Repr, Inhabited

namespace Ty

/-- Every type, in declaration order. -/
def all : List Ty := [bool, byte, char, short, int, long, float, double, ref, void]

/-- How a type is written. -/
def text : Ty → String
  | bool => "bool"
  | byte => "byte"
  | char => "char"
  | short => "short"
  | int => "int"
  | long => "long"
  | float => "float"
  | double => "double"
  | ref => "ref"
  | void => "void"

/-- The type written so, if there is one. -/
def ofText? (s : String) : Option Ty := all.find? (·.text = s)

/-- The place of a value type among the nine; `void` has none. -/
def valueIndex? : Ty → Option Nat
  | bool => some 0
  | byte => some 1
  | char => some 2
  | short => some 3
  | int => some 4
  | long => some 5
  | float => some 6
  | double => some 7
  | ref => some 8
  | void => none

/-- Reading a type's text gives the type back. -/
@[simp] theorem ofText?_text (t : Ty) : ofText? t.text = some t := by
  cases t <;> decide

end Ty

/-- A declared field: the class it belongs to, its name and type, and where it lies. -/
structure Field where
  owner : String
  name : String
  ty : Ty
  offset : Nat
  isStatic : Bool
  isVolatile : Bool
deriving DecidableEq, Repr, Inhabited

namespace Field

/-- The field's name with its class in front: `Obj.f`. -/
def qualified (f : Field) : String := f.owner ++ "." ++ f.name

/-- Two declarations denote the same slot when class, offset and static-ness agree. -/
def sameSlot (f g : Field) : Bool :=
  f.owner == g.owner && f.offset == g.offset && f.isStatic == g.isStatic

end Field

end Midend
