import Midend.Proofs.Arena
import Midend.Proofs.Memory

/-!
# What a graph does that can be seen

A run as it is observed: which instruction was executed with which operands, what it did to memory and came
to, along which edge control went, and how the run ended.  Two graphs mean the same when the same can be
observed of both.

## Shape of the semantics

What an instruction does is determined by its operands and by memory, except where code outside the method
acts and where an object gets its name.  Arithmetic, conditions and the parameters of the method are a
`Meaning`, about which nothing is assumed.  A branch goes to the successor that its condition says, and
of several edges between two blocks each has its own place among the predecessors.

A fault is stated by what makes an instruction fail, kind by kind, and ends the run.  Values that were not
computed yet are whatever the run starts with, so no run hangs for want of an operand.  Where the operands
are there, runs as they are observed are the runs of the semantics with memory (`Behaves.exists_run`).
-/

namespace Midend

namespace Behaviour

/-- What the parameters are, what arithmetic comes to and where conditions lead. -/
structure Meaning where
  param : Nat → Val
  binary : BinaryOp → List Val → Val
  compare : CompareOp → List Val → Val
  /-- The value of a phi that stands among the ordinary instructions. -/
  phi : List Val → Val
  /-- Does a branch go to the first successor? -/
  taken : List Val → Bool

/-- What an instruction does besides coming to a value. -/
inductive Deed where
  | compute
  | read (c : Cell)
  | write (c : Cell) (v : Val)
  | allocate (o : Nat)
  /-- Code outside the method ran, and left memory so. -/
  | outside (after : Memory)

/-- The cell that a plain access touches. -/
inductive Touches (g : Graph) (inst : Inst) (args : List Val) : Cell → Prop
  | field {f : FieldId} {o : Nat} : inst.kind = .instanceGet f ∨ inst.kind = .instanceSet f →
    g.isVolatile f = false → args[0]? = some (.obj o) → Touches g inst args (.field o f)
  | static {f : FieldId} : inst.kind = .staticGet f ∨ inst.kind = .staticSet f → g.isVolatile f = false →
    Touches g inst args (.static f)
  | load {o : Nat} {i : Val} : inst.kind = .arrayGet → args[0]? = some (.obj o) → args[1]? = some i →
    Touches g inst args (.element o inst.ty i)
  | store {o : Nat} {i : Val} : inst.kind = .arraySet → args[0]? = some (.obj o) → args[1]? = some i →
    Touches g inst args (.element o (g.operandTy inst 2) i)

/-- What makes an instruction fail.  Code outside the method may do so at any time. -/
inductive Faults (m : Memory) (k : Kind) (args : List Val) : Prop
  | divisor {op : BinaryOp} : k = .binary op → op = .div ∨ op = .rem → args[1]? = some (.num 0) →
    Faults m k args
  | null : k.FaultsOnNull args → Faults m k args
  | bounds {o : Nat} {i : Val} : k = .arrayGet ∨ k = .arraySet → args[0]? = some (.obj o) →
    args[1]? = some i → ¬ m.InBounds o i → Faults m k args
  | exhausted : k.isAllocation = true → Faults m k args
  | outside : k.isForeign = true → Faults m k args

/-- What an instruction that does not fail may do and come to, and the memory it leaves. -/
inductive Acts (g : Graph) (M : Meaning) (inst : Inst) (args : List Val) (m : Memory) :
    Deed → Val → Memory → Prop
  | param {n : Nat} : inst.kind = .param n → Acts g M inst args m .compute (M.param n) m
  | const {n : Int} : inst.kind = .const n → Acts g M inst args m .compute (.num n) m
  | null : inst.kind = .null → Acts g M inst args m .compute .null m
  | phi : inst.kind = .phi → Acts g M inst args m .compute (M.phi args) m
  | binary {op : BinaryOp} : inst.kind = .binary op → ¬ Faults m inst.kind args →
    Acts g M inst args m .compute (M.binary op args) m
  | compare {op : CompareOp} : inst.kind = .compare op → Acts g M inst args m .compute (M.compare op args) m
  | arrayLength {o : Nat} : inst.kind = .arrayLength → args[0]? = some (.obj o) →
    Acts g M inst args m .compute (.num (m.length o)) m
  | nullCheck {v : Val} : inst.kind = .nullCheck → args[0]? = some v → v ≠ .null →
    Acts g M inst args m .compute v m
  | allocate {o : Nat} {m' : Memory} : inst.kind.isAllocation = true → Allocates m o m' →
    (∀ component, inst.kind = .newArray component → args[0]? = some (.num (m'.length o)) ∧ 0 ≤ m'.length o) →
    Acts g M inst args m (.allocate o) (.obj o) m'
  | load {c : Cell} : inst.kind.isLoad = true → Touches g inst args c → m.Has c →
    Acts g M inst args m (.read c) (m.cell c) m
  | store {c : Cell} {v : Val} : inst.kind.isStore = true → Touches g inst args c → m.Has c →
    args.getLast? = some v → Acts g M inst args m (.write c v) (.num 0)
      { m with cell := Function.update m.cell c v, hidden := fun o => m.hidden o ∧ v ≠ .obj o }
  | outside {v : Val} {m' : Memory} : g.isOpen inst.kind = true → ¬ inst.kind.FaultsOnNull args →
    Disturbs inst.kind args m v m' → Acts g M inst args m (.outside m') v m'

/-- The place of the successor that the end of a block goes to. -/
def leadsTo (M : Meaning) : Kind → List Val → Option Nat
  | .jump, _ => some 0
  | .branch, args => some (if M.taken args then 0 else 1)
  | _, _ => none

/-- Where a run is: the block, the place among its ordinary instructions, the values so far and memory. -/
structure Point where
  block : BlockId
  pos : Nat
  env : InstId → Val
  mem : Memory

/-- What a step shows. -/
inductive Event where
  | acts (i : InstId) (args : List Val) (deed : Deed) (result : Val)
  | goes (source target : BlockId) (place : Nat)

/-- Is an event one of the instructions of a graph, or does control go along an edge? -/
def Event.isOf (g : Graph) : Event → Bool
  | acts i _ _ _ => i ∈ g.attached
  | goes _ _ _ => true

@[simp] theorem Event.isOf_goes (g : Graph) (source target : BlockId) (n : Nat) :
    (goes source target n).isOf g = true := rfl

/-- How a run ends. -/
inductive Ending where
  | returned (args : List Val)
  | thrown (args : List Val)
  | faulted (i : InstId) (args : List Val)

/-- The value that a phi takes on the edge at a place. -/
def incoming (g : Graph) (env : InstId → Val) (n : Nat) (x : InstId) : Val :=
  ((g.operandsOf x)[n]?.map env).getD (env x)

/-- The instruction that comes next, with the values of its operands. -/
def Point.Next (g : Graph) (s : Point) (i : InstId) (inst : Inst) (args : List Val) : Prop :=
  ∃ block, g.block s.block = .ok block ∧ block.insts[s.pos]? = some i ∧ g.inst i = .ok inst ∧
    args = inst.inputs.map s.env

/-- One step.  The phis of a block that is entered take their values all at once. -/
inductive Step (g : Graph) (M : Meaning) (s : Point) : Event → Point → Prop
  | acts {i : InstId} {inst : Inst} {args : List Val} {deed : Deed} {v : Val} {m : Memory} :
    s.Next g i inst args → Acts g M inst args s.mem deed v m →
    Step g M s (.acts i args deed v) ⟨s.block, s.pos + 1, Function.update s.env i v, m⟩
  | goes {i : InstId} {inst : Inst} {args : List Val} {target : Block} {t : BlockId} {k n : Nat} :
    s.Next g i inst args → leadsTo M inst.kind args = some k → (g.succs s.block)[k]? = some t →
    g.block t = .ok target → target.preds[n]? = some s.block →
    (target.preds.take n).count s.block = ((g.succs s.block).take k).count t →
    Step g M s (.goes s.block t n)
      ⟨t, 0, fun x => if x ∈ target.phis then incoming g s.env n x else s.env x, s.mem⟩

/-- The ways in which a run may end where it is. -/
inductive Ends (g : Graph) (s : Point) : Ending → Prop
  | returned {i : InstId} {inst : Inst} {args : List Val} : s.Next g i inst args →
    inst.kind = .ret ∨ inst.kind = .retVoid → Ends g s (.returned args)
  | thrown {i : InstId} {inst : Inst} {args : List Val} : s.Next g i inst args → inst.kind = .raise →
    Ends g s (.thrown args)
  | faulted {i : InstId} {inst : Inst} {args : List Val} : s.Next g i inst args →
    Faults s.mem inst.kind args → Ends g s (.faulted i args)

/-- What the steps from one point to another show. -/
inductive Trace (g : Graph) (M : Meaning) (s₀ : Point) : List Event → Point → Prop
  | nil : Trace g M s₀ [] s₀
  | snoc {τ : List Event} {s s' : Point} {e : Event} : Trace g M s₀ τ s → Step g M s e s' →
    Trace g M s₀ (τ ++ [e]) s'

/-- Traces can be put together. -/
theorem Trace.trans {g : Graph} {M : Meaning} {s₀ s s' : Point} {τ τ' : List Event} (h : Trace g M s₀ τ s)
    (h' : Trace g M s τ' s') : Trace g M s₀ (τ ++ τ') s' := by
  induction h' with
  | nil => rwa [List.append_nil]
  | snoc _ hstep ih =>
    rw [← List.append_assoc]
    exact ih.snoc hstep

theorem Step.trace {g : Graph} {M : Meaning} {s s' : Point} {e : Event} (h : Step g M s e s') :
    Trace g M s [e] s' := Trace.nil.snoc h

/-- A run from the entry may show this much, with memory so in the end, and end so if it ends. -/
def Behaves (g : Graph) (M : Meaning) (env : InstId → Val) (m : Memory) (τ : List Event) (after : Memory)
    (o : Option Ending) : Prop :=
  ∃ s, Trace g M ⟨g.entry, 0, env, m⟩ τ s ∧ s.mem = after ∧ ∀ e, o = some e → Ends g s e

end Behaviour

end Midend
