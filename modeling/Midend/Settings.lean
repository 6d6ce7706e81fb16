import Midend.Pass.DeadCode

/-!
# Settings of the pipeline

Which passes run, in which order, and how.  A pass may be listed more than once, and it may be listed
and switched off.
-/

namespace Midend

/-- The passes there are. -/
inductive PassId where
  | sideEffects | loadStore | nullPropagation | nullCheck | deadCode
deriving DecidableEq, Repr

namespace PassId

/-- Every pass, in the order they run unless settings say otherwise. -/
def all : List PassId := [sideEffects, loadStore, nullPropagation, nullCheck, deadCode]

def name : PassId → String
  | sideEffects => "side_effects"
  | loadStore => "load_store_elimination"
  | nullPropagation => "null_propagation"
  | nullCheck => "null_check_elimination"
  | deadCode => "dead_code_elimination"

def ofName? (s : String) : Option PassId := all.find? (·.name = s)

/-- Names of passes are read back. -/
@[simp] theorem ofName?_name (p : PassId) : ofName? p.name = some p := by
  cases p <;> decide

/-- The bit of a pass in a set of passes. -/
def flag : PassId → Nat
  | sideEffects => 1
  | loadStore => 2
  | nullPropagation => 4
  | nullCheck => 8
  | deadCode => 16

end PassId

/-- How methods are optimized. -/
structure Settings where
  /-- The passes, in the order they run. -/
  passes : List PassId
  /-- The passes that are left out even where they are listed. -/
  disabled : List PassId
  /-- Is the graph checked after every pass that changed it? -/
  verify : Bool
  /-- The sweeps allowed to the removal of dead code; 0 stands for the default. -/
  maxSweeps : Nat
deriving DecidableEq, Repr

namespace Settings

def default : Settings := ⟨PassId.all, [], true, DeadCode.defaultSweeps⟩

instance : Inhabited Settings := ⟨default⟩

/-- The passes that run, in order. -/
def active (s : Settings) : List PassId := s.passes.filter (!s.disabled.contains ·)

def isEnabled (s : Settings) (p : PassId) : Bool := s.active.contains p

/-- The disabled passes as a number, one bit each. -/
def disabledBits (s : Settings) : Nat :=
  (PassId.all.filter s.disabled.contains).foldl (fun n p => n + p.flag) 0

end Settings

end Midend
