import Midend.Fault
import Midend.Table

/-!
# Counters

What happened to a method, or to many, as counts of events.  A counter has 64 bits; one that would grow
beyond them is a fault.
-/

namespace Midend

/-- A counted event. -/
inductive Counter where
  | attempted | optimized | fallback | removedLoad | removedStore | removedNullCheck | removedDead
deriving DecidableEq, Repr

namespace Counter

/-- Every counter, in the order of reports. -/
def all : List Counter :=
  [attempted, optimized, fallback, removedLoad, removedStore, removedNullCheck, removedDead]

def index : Counter → Nat
  | attempted => 0
  | optimized => 1
  | fallback => 2
  | removedLoad => 3
  | removedStore => 4
  | removedNullCheck => 5
  | removedDead => 6

def name : Counter → String
  | attempted => "attempted_compilation"
  | optimized => "compiled_optimized"
  | fallback => "fallback_unoptimized"
  | removedLoad => "removed_load"
  | removedStore => "removed_store"
  | removedNullCheck => "removed_null_check"
  | removedDead => "removed_dead_instruction"

end Counter

/-- A count for every event. -/
structure Stats where
  counts : Table Nat

namespace Stats

/-- Nothing happened. -/
def zero : Stats := ⟨Table.empty⟩

instance : Inhabited Stats := ⟨zero⟩

def get (s : Stats) (c : Counter) : Nat := s.counts.get c.index

/-- Count some more events. -/
def record (s : Stats) (c : Counter) (n : Nat) : Checked Stats :=
  if s.get c + n < UInt64.size then .ok ⟨s.counts.set c.index (s.get c + n)⟩ else .error .addOverflow

/-- Add the counts of one method to those of others. -/
def merge (s t : Stats) : Checked Stats := Counter.all.foldlM (fun s c => s.record c (t.get c)) s

def isZero (s : Stats) : Bool := Counter.all.all fun c => s.get c = 0

/-- One line per event that happened. -/
def text (s : Stats) : String :=
  String.join (Counter.all.map fun c =>
    if s.get c = 0 then "" else c.name ++ ": " ++ toString (s.get c) ++ "\n")

end Stats

end Midend
