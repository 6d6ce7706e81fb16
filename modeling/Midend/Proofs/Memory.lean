import Midend.Heap.Effects
import Midend.Proofs.Execution

/-!
# Memory at run time

The memory that runs work on, and what every kind of instruction does with it.  A cell is a field of an
object, a static field, or the element of an array at an index, apart for each component type.

## Shape of the memory

Calls, unknown operations, monitor operations and volatile accesses are code that cannot be seen: they
may read and change any cell, except those of objects that this run has allocated and has not let out.
An object is let out when it is an operand of a call, of an unknown operation or of a monitor operation,
or when it is stored anywhere.  The object that a volatile access goes through is open to that access
alone.  What such code returns or leaves in memory is never an object that is still hidden from it.

A new object is different from all that exist, and holds no objects.  Arrays keep their length.
-/

namespace Midend

/-- A cell of memory. -/
inductive Cell where
  | field (object : Nat) (f : FieldId)
  | static (f : FieldId)
  | element (array : Nat) (component : Ty) (index : Val)
deriving DecidableEq, Repr

/-- The object a cell belongs to; static fields belong to none. -/
def Cell.object? : Cell → Option Nat
  | field o _ => some o
  | static _ => none
  | element o _ _ => some o

/-- The state of memory. -/
structure Memory where
  cell : Cell → Val
  /-- The objects that exist. -/
  live : Nat → Prop
  /-- The objects that the run has allocated and not let out. -/
  hidden : Nat → Prop
  length : Nat → Int

namespace Memory

/-- What memory may be like when a run starts: nothing is hidden, and there are no dangling
references. -/
def Initial (m : Memory) : Prop := (∀ o, ¬ m.hidden o) ∧ ∀ c o, m.cell c = .obj o → m.live o

/-- A memory with one object, and with numbers in all cells. -/
def zero : Memory := ⟨fun _ => .num 0, fun o => o = 0, fun _ => False, fun _ => 0⟩

theorem initial_zero : zero.Initial :=
  ⟨fun _ => id, fun _ _ h => by cases h⟩

/-- An index lies inside an array. -/
def InBounds (m : Memory) (array : Nat) (index : Val) : Prop :=
  ∃ n, index = .num n ∧ 0 ≤ n ∧ n < m.length array

/-- A value that code outside the run may come up with. -/
def Outside (m : Memory) (v : Val) : Prop := ∀ o, v = .obj o → m.live o ∧ ¬ m.hidden o

theorem outside_num (m : Memory) (n : Int) : m.Outside (.num n) := fun _ h => by cases h

theorem outside_obj_zero : zero.Outside (.obj 0) := fun _ h => by
  cases h
  exact ⟨rfl, id⟩

/-- A cell that code which cannot be seen may touch, given the operands handed to it. -/
def Exposed (m : Memory) (args : List Val) (c : Cell) : Prop :=
  ∀ o, c.object? = some o → m.hidden o → .obj o ∈ args

end Memory

/-! ## Kinds of instructions -/

namespace Kind

def isLoad : Kind → Bool
  | instanceGet _ | staticGet _ | arrayGet => true
  | _ => false

def isStore : Kind → Bool
  | instanceSet _ | staticSet _ | arraySet => true
  | _ => false

/-- What loads does not store. -/
theorem isStore_eq_false {k : Kind} (h : k.isLoad = true) : k.isStore = false := by
  cases k <;> simp_all [isLoad, isStore]

/-- Calls, unknown operations and monitor operations run code outside the method. -/
def isForeign : Kind → Bool
  | invoke _ _ | unknown _ | monitorEnter | monitorExit => true
  | _ => false

/-- Does an instruction let out the object at one of its operands? -/
def letsOut : Kind → Nat → Bool
  | invoke _ _, _ | unknown _, _ | monitorEnter, _ | monitorExit, _ | staticSet _, _ | ret, _ | raise, _ => true
  | instanceSet _, k => k == 1
  | arraySet, k => k == 2
  | _, _ => false

/-- The object is among the operands that an instruction lets out. -/
def LetsOut (k : Kind) (args : List Val) (o : Nat) : Prop :=
  ∃ n, k.letsOut n = true ∧ args[n]? = some (.obj o)

end Kind

namespace Graph

def isVolatile (g : Graph) (f : FieldId) : Bool := (g.fields[f.index]?.map (·.isVolatile)).getD false

/-- Operations that cannot be seen through: foreign ones, and accesses to volatile fields. -/
def isOpen (g : Graph) (k : Kind) : Bool := k.isForeign || (k.field?.map g.isVolatile).getD false

theorem isVolatile_congr {g g' : Graph} (hfields : g'.fields = g.fields) : g'.isVolatile = g.isVolatile := by
  funext f
  rw [isVolatile, isVolatile, hfields]

/-- What can be seen through depends on the fields alone. -/
theorem isOpen_congr {g g' : Graph} (hfields : g'.fields = g.fields) : g'.isOpen = g.isOpen := by
  funext k
  rw [isOpen, isOpen, isVolatile_congr hfields]

/-- The type of the instruction that gives an operand. -/
def operandTy (g : Graph) (inst : Inst) (n : Nat) : Ty :=
  ((inst.inputs[n]?.bind fun x => g.insts[x.index]?).map (·.ty)).getD .void

end Graph

/-- The cell a plain access touches, given the values of its operands. -/
inductive Accesses (g : Graph) (inst : Inst) : List Val → Cell → Prop
  | instanceGet {f : FieldId} {o : Nat} : inst.kind = .instanceGet f → g.isVolatile f = false →
    Accesses g inst [.obj o] (.field o f)
  | instanceSet {f : FieldId} {o : Nat} {v : Val} : inst.kind = .instanceSet f → g.isVolatile f = false →
    Accesses g inst [.obj o, v] (.field o f)
  | staticGet {f : FieldId} : inst.kind = .staticGet f → g.isVolatile f = false →
    Accesses g inst [] (.static f)
  | staticSet {f : FieldId} {v : Val} : inst.kind = .staticSet f → g.isVolatile f = false →
    Accesses g inst [v] (.static f)
  | arrayGet {o : Nat} {i : Val} : inst.kind = .arrayGet → Accesses g inst [.obj o, i] (.element o inst.ty i)
  | arraySet {o : Nat} {i v : Val} : inst.kind = .arraySet →
    Accesses g inst [.obj o, i, v] (.element o (g.operandTy inst 2) i)

/-! ## Execution -/

/-- A cell of an array lies inside it. -/
def Memory.Has (m : Memory) : Cell → Prop
  | .element o _ i => m.InBounds o i
  | _ => True

/-- What an instruction that leaves memory alone may evaluate to. -/
inductive Computes (g : Graph) (m : Memory) : Kind → List Val → Val → Prop
  | param {n : Nat} {v : Val} :
    m.Outside v → (n = 0 → g.isStatic = false → v ≠ .null) → Computes g m (.param n) [] v
  | const {n : Int} : Computes g m (.const n) [] (.num n)
  | null : Computes g m .null [] .null
  | binary {op : BinaryOp} {a b : Val} {n : Int} : Computes g m (.binary op) [a, b] (.num n)
  | compare {op : CompareOp} {a b : Val} {n : Int} : Computes g m (.compare op) [a, b] (.num n)
  | arrayLength {o : Nat} : Computes g m .arrayLength [.obj o] (.num (m.length o))
  | nullCheck {v : Val} : v ≠ .null → Computes g m .nullCheck [v] v
  | jump {n : Int} : Computes g m .jump [] (.num n)
  | branch {a : Val} {n : Int} : Computes g m .branch [a] (.num n)

/-- Memory with a new object in it. -/
structure Allocates (m : Memory) (o : Nat) (m' : Memory) : Prop where
  fresh : ¬ m.live o
  live : ∀ p, m'.live p ↔ m.live p ∨ p = o
  hidden : ∀ p, m'.hidden p ↔ m.hidden p ∨ p = o
  cells : ∀ c, c.object? ≠ some o → m'.cell c = m.cell c
  contents : ∀ c p, c.object? = some o → m'.cell c ≠ .obj p
  length : ∀ p, p ≠ o → m'.length p = m.length p

/-- What code that cannot be seen may do. -/
structure Disturbs (k : Kind) (args : List Val) (m : Memory) (v : Val) (m' : Memory) : Prop where
  live : ∀ o, m.live o → m'.live o
  hidden : ∀ o, m'.hidden o ↔ m.hidden o ∧ ¬ k.LetsOut args o
  cells : ∀ c, ¬ m.Exposed args c → m'.cell c = m.cell c
  contents : ∀ c, m'.cell c = m.cell c ∨ m'.Outside (m'.cell c)
  result : m'.Outside v
  length : ∀ o, m.live o → m'.length o = m.length o

/-- What an instruction may do. -/
inductive Executes (g : Graph) : Inst → List Val → Memory → Val → Memory → Prop
  | computes {inst : Inst} {args : List Val} {m : Memory} {v : Val} :
    Computes g m inst.kind args v → Executes g inst args m v m
  | allocates {inst : Inst} {args : List Val} {m m' : Memory} {o : Nat} :
    inst.kind.isAllocation = true → Allocates m o m' →
    (∀ component, inst.kind = .newArray component → args = [.num (m'.length o)] ∧ 0 ≤ m'.length o) →
    Executes g inst args m (.obj o) m'
  | load {inst : Inst} {args : List Val} {m : Memory} {c : Cell} :
    inst.kind.isLoad = true → Accesses g inst args c → m.Has c → Executes g inst args m (m.cell c) m
  | store {inst : Inst} {args : List Val} {m : Memory} {c : Cell} {v : Val} {n : Int} :
    inst.kind.isStore = true → Accesses g inst args c → m.Has c → args.getLast? = some v →
    Executes g inst args m (.num n)
      { m with cell := Function.update m.cell c v, hidden := fun o => m.hidden o ∧ v ≠ .obj o }
  | disturbs {inst : Inst} {args : List Val} {m m' : Memory} {v : Val} :
    g.isOpen inst.kind = true →
    ¬ inst.kind.FaultsOnNull args → Disturbs inst.kind args m v m' → Executes g inst args m v m'

/-- The semantics with memory. -/
def memorySemantics (g : Graph) : Semantics Memory where
  exec := Executes g
  phi _ _ := True

/-- May an instruction end the run by throwing?  Accesses do so through null and outside an array; of
the others, those that can throw may do so at any time. -/
def Throws (m : Memory) (k : Kind) (args : List Val) : Prop :=
  match k with
  | .instanceGet _ | .instanceSet _ | .nullCheck | .arrayLength => args[0]? = some .null
  | .arrayGet | .arraySet => args[0]? = some .null ∨
    ∃ o i, args[0]? = some (.obj o) ∧ args[1]? = some i ∧ ¬ m.InBounds o i
  | k => k.canThrow = true

/-- Only what can throw throws. -/
theorem Throws.canThrow {m : Memory} {k : Kind} {args : List Val} (h : Throws m k args) :
    k.canThrow = true := by
  cases k <;> first | rfl | exact h

end Midend
