import Midend.Config.Document
import Midend.Settings

/-!
# Settings from text

```
passes = ["side_effects", "load_store_elimination", "dead_code_elimination"]
disabled = ["dead_code_elimination"]
verify = true

[dce]
max_iterations = 50
```

Every key is optional and stands for the default when it is missing; a key that is not one of these is
an error, and so is a value of the wrong type.

A pass may also be written as a table whose one key is its name and whose value is empty, and the section
on dead code as an array of its values.
-/

namespace Midend

namespace Settings

/-- Is a value an array or a table with nothing in it? -/
def isVacant : Toml → Bool
  | .array [] | .tables [] | .table _ [] => true
  | _ => false

/-- The items of an array, however it was written. -/
def itemsOf? : Toml → Option (List Toml)
  | .array items | .tables items => some items
  | _ => none

/-- A pass: its name, or its name with an empty value. -/
def passOf? : Toml → Option PassId
  | .str name => PassId.ofName? name
  | .table _ [(name, v)] => if isVacant v then PassId.ofName? name else none
  | _ => none

def passesOf? (v : Toml) : Option (List PassId) := do (← itemsOf? v).mapM passOf?

def boolOf? : Toml → Option Bool
  | .bool b => some b
  | _ => none

/-- A count: an integer that is not negative. -/
def countOf? : Toml → Option Nat
  | .int n => if 0 ≤ n then some n.toNat else none
  | _ => none

/-- Set what one key of the section on dead code says. -/
def setDeadCodeKey? (s : Settings) : String × Toml → Option Settings
  | ("max_iterations", v) => (countOf? v).map fun n => { s with maxSweeps := n }
  | _ => none

/-- Set what the section on dead code says.  Of an array, what follows the values there are keys for does
not matter. -/
def setDeadCode? (s : Settings) : Toml → Option Settings
  | .table _ entries => entries.foldlM setDeadCodeKey? s
  | v => do
    match ← itemsOf? v with
    | [] => return s
    | n :: _ => s.setDeadCodeKey? ("max_iterations", n)

/-- Set what one key says. -/
def setKey? (s : Settings) : String × Toml → Option Settings
  | ("passes", v) => (passesOf? v).map fun ps => { s with passes := ps }
  | ("disabled", v) => (passesOf? v).map fun ps => { s with disabled := ps }
  | ("verify", v) => (boolOf? v).map fun b => { s with verify := b }
  | ("dce", v) => s.setDeadCode? v
  | _ => none

/-- The settings a text gives, if it is a settings file. -/
def ofText? (text : String) : Option Settings := do
  (← Toml.ofText? text).foldlM setKey? Settings.default

end Settings

end Midend
