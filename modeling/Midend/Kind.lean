import Midend.Ident
import Midend.Ty

/-!
# Instruction kinds

What an instruction does.  The kinds form a closed set, so every analysis decides how it treats each of
them.  Operands are not part of the kind; each kind expects them in a fixed order:

* a phi has one per predecessor of its block, in predecessor order;
* `binary`, `compare`: left, right;
* `newArray`: the length;
* `instanceGet`: object; `instanceSet`: object, value; `staticSet`: value;
* `arrayGet`: array, index; `arraySet`: array, index, value;
* `arrayLength`, `nullCheck`, `monitorEnter`, `monitorExit`: the object;
* `invoke`: the receiver unless the call is static, then the arguments;
* `branch`: the condition; `ret`, `raise`: the value.
-/

namespace Midend

/-- How a call selects its callee. -/
inductive CallMode where
  | static | direct | virtual | interface
deriving DecidableEq, Repr

namespace CallMode

/-- How a call of this mode is written. -/
def mnemonic : CallMode → String
  | static => "invoke_static"
  | direct => "invoke_direct"
  | virtual => "invoke_virtual"
  | interface => "invoke_interface"

/-- Only static calls have no receiver. -/
def hasReceiver (m : CallMode) : Bool := m != static

end CallMode

/-- Arithmetic and logical operations on two values. -/
inductive BinaryOp where
  | add | sub | mul | div | rem | and | or | xor | shl | shr
deriving DecidableEq, Repr

namespace BinaryOp

def all : List BinaryOp := [add, sub, mul, div, rem, and, or, xor, shl, shr]

def mnemonic : BinaryOp → String
  | add => "add"
  | sub => "sub"
  | mul => "mul"
  | div => "div"
  | rem => "rem"
  | and => "and"
  | or => "or"
  | xor => "xor"
  | shl => "shl"
  | shr => "shr"

def ofMnemonic? (s : String) : Option BinaryOp := all.find? (·.mnemonic = s)

/-- Mnemonics of binary operations are read back. -/
@[simp] theorem ofMnemonic?_mnemonic (o : BinaryOp) : ofMnemonic? o.mnemonic = some o := by
  cases o <;> decide

end BinaryOp

/-- Comparisons of two values. -/
inductive CompareOp where
  | eq | ne | lt | le | gt | ge
deriving DecidableEq, Repr

namespace CompareOp

def all : List CompareOp := [eq, ne, lt, le, gt, ge]

def mnemonic : CompareOp → String
  | eq => "eq"
  | ne => "ne"
  | lt => "lt"
  | le => "le"
  | gt => "gt"
  | ge => "ge"

def ofMnemonic? (s : String) : Option CompareOp := all.find? (·.mnemonic = s)

/-- Mnemonics of comparisons are read back. -/
@[simp] theorem ofMnemonic?_mnemonic (o : CompareOp) : ofMnemonic? o.mnemonic = some o := by
  cases o <;> decide

end CompareOp

/-- What an instruction does.  `unknown` is an operation about which nothing is known, so it has to be
taken to read and write everything; `jump`, `branch`, `ret`, `retVoid` and `raise` end a block. -/
inductive Kind where
  | param (index : Nat)
  | const (value : Int)
  | null
  | phi
  | binary (op : BinaryOp)
  | compare (op : CompareOp)
  | newInstance (owner : String)
  | newArray (component : Ty)
  | instanceGet (field : FieldId)
  | instanceSet (field : FieldId)
  | staticGet (field : FieldId)
  | staticSet (field : FieldId)
  | arrayGet
  | arraySet
  | arrayLength
  | nullCheck
  | invoke (mode : CallMode) (callee : String)
  | monitorEnter
  | monitorExit
  | unknown (name : String)
  | jump
  | branch
  | ret
  | retVoid
  | raise
deriving DecidableEq, Repr, Inhabited

namespace Kind

/-- The word an instruction of this kind is written with. -/
def mnemonic : Kind → String
  | param _ => "param"
  | const _ => "const"
  | null => "null"
  | phi => "phi"
  | binary op => op.mnemonic
  | compare op => op.mnemonic
  | newInstance _ => "new_instance"
  | newArray _ => "new_array"
  | instanceGet _ => "instance_get"
  | instanceSet _ => "instance_set"
  | staticGet _ => "static_get"
  | staticSet _ => "static_set"
  | arrayGet => "array_get"
  | arraySet => "array_set"
  | arrayLength => "array_length"
  | nullCheck => "null_check"
  | invoke mode _ => mode.mnemonic
  | monitorEnter => "monitor_enter"
  | monitorExit => "monitor_exit"
  | unknown name => name
  | jump => "goto"
  | branch => "if"
  | ret => "return"
  | retVoid => "return"
  | raise => "throw"

def isPhi : Kind → Bool
  | phi => true
  | _ => false

def isParam : Kind → Bool
  | param _ => true
  | _ => false

def isNullCheck : Kind → Bool
  | nullCheck => true
  | _ => false

def isInvoke : Kind → Bool
  | invoke _ _ => true
  | _ => false

/-- Does the kind acquire or release a monitor? -/
def isMonitor : Kind → Bool
  | monitorEnter | monitorExit => true
  | _ => false

/-- How many successors a block ended by this kind has; `none` for kinds that end no block. -/
def successorCount? : Kind → Option Nat
  | jump => some 1
  | branch => some 2
  | ret | retVoid | raise => some 0
  | _ => none

/-- Kinds that end a block. -/
def isTerminator (k : Kind) : Bool := k.successorCount?.isSome

/-- Kinds that leave the method. -/
def isExit : Kind → Bool
  | ret | retVoid | raise => true
  | _ => false

/-- Kinds that create an object. -/
def isAllocation : Kind → Bool
  | newInstance _ | newArray _ => true
  | _ => false

/-- May executing the instruction raise an exception? -/
def canThrow : Kind → Bool
  | binary op => op == .div || op == .rem
  | newInstance _ | newArray _ | instanceGet _ | instanceSet _ | arrayGet | arraySet | arrayLength
  | nullCheck | invoke _ _ | monitorEnter | monitorExit | unknown _ | raise => true
  | _ => false

/-- Does the kind call with a receiver as its first operand? -/
def hasReceiver : Kind → Bool
  | invoke mode _ => mode.hasReceiver
  | _ => false

/-- The operand the instruction faults on when it is null. -/
def dereferencedInput? : Kind → Option Nat
  | instanceGet _ | instanceSet _ | arrayGet | arraySet | arrayLength | nullCheck | monitorEnter
  | monitorExit => some 0
  | invoke mode _ => if mode.hasReceiver then some 0 else none
  | _ => none

/-- The field a field access names. -/
def field? : Kind → Option FieldId
  | instanceGet f | instanceSet f | staticGet f | staticSet f => some f
  | _ => none

end Kind

end Midend
