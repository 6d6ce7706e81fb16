/-!
# Settings documents

Settings files are TOML documents.  A document is a tree of tables: headers open tables and add tables to
lists of them, and a key of several parts names a place some tables further down.

## Shape of the tables

What may still be added to a table depends on how it came to be.

* A table written in braces is complete.
* A table that a header opened is filled by the lines after the header, and no other header opens it.
* A table that a header only passed on its way down may still be opened, once.
* A table that the parts of a key made is filled by more such keys, and no header opens it; headers may
  still open tables below it.

No key is given a second value.  A path that meets a list of tables goes on in the last of them.
-/

namespace Midend

/-- How a table came to be. -/
inductive TableForm where
  | braces | opened | passed | dotted
deriving DecidableEq, Repr

/-- A value in a document. -/
inductive Toml where
  | str (value : String)
  | int (value : Int)
  | bool (value : Bool)
  /-- A number with a fraction or an exponent, or a date or time.  No setting takes one, so it is enough
  to know that it is well formed. -/
  | other
  | array (items : List Toml)
  /-- The tables that headers in double brackets added, in order. -/
  | tables (items : List Toml)
  | table (form : TableForm) (entries : List (String × Toml))

namespace Toml

/-- The keys of a table with their values, in the order they were first named. -/
abbrev Entries := List (String × Toml)

namespace Entries

/-- Give a key a value, in its place if it has one. -/
def put (key : String) (v : Toml) : Entries → Entries
  | [] => [(key, v)]
  | (k, w) :: es => if k = key then (k, v) :: es else (k, w) :: put key v es

/-- What was put under a key is found. -/
theorem lookup_put_self (key : String) (v : Toml) (es : Entries) :
    (put key v es).lookup key = some v := by
  induction es with
  | nil => simp [put]
  | cons e es ih =>
    obtain ⟨k, w⟩ := e
    by_cases h : k = key
    · simp [put, h]
    · have h' : (key == k) = false := by simpa using Ne.symm h
      simp [put, h, List.lookup_cons, h', ih]

/-- Putting a value under a key leaves the other keys. -/
theorem lookup_put_ne {key other : String} (h : other ≠ key) (v : Toml) (es : Entries) :
    (put key v es).lookup other = es.lookup other := by
  induction es with
  | nil =>
    have h' : (other == key) = false := by simpa using h
    simp [put, List.lookup_cons, h']
  | cons e es ih =>
    obtain ⟨k, w⟩ := e
    by_cases hk : k = key
    · subst hk
      have h' : (other == k) = false := by simpa using h
      simp [put, List.lookup_cons, h']
    · simp only [put, hk, if_false, List.lookup_cons, ih]

/-- Give a key its first value. -/
def add? (key : String) (v : Toml) (es : Entries) : Option Entries :=
  if (es.lookup key).isSome then none else some (es.put key v)

end Entries

/-- Change the last table of a list of tables. -/
def onLast? (f : Entries → Option Entries) : List Toml → Option (List Toml)
  | [] => none
  | [.table form es] => (f es).map fun es => [.table form es]
  | [_] => none
  | t :: ts => (onLast? f ts).map (t :: ·)

/-- Give the place that a key of several parts names its first value, making tables on the way.  The table
that gets the value is one that such keys made. -/
def assign? (v : Toml) : List String → Entries → Option Entries
  | [], _ => none
  | [key], es => es.add? key v
  | key :: next :: rest, es =>
    let below := assign? v (next :: rest)
    match es.lookup key with
    | none => (below []).map fun sub => es.put key (.table .dotted sub)
    | some (.table .dotted sub) => (below sub).map fun sub => es.put key (.table .dotted sub)
    | some (.table .passed sub) =>
      if rest.isEmpty then none else (below sub).map fun sub => es.put key (.table .passed sub)
    | some (.tables ts) =>
      if rest.isEmpty then none else (onLast? below ts).map fun ts => es.put key (.tables ts)
    | some _ => none

/-- Change the table that a path of a header leads to, making tables on the way. -/
def under? (f : Entries → Option Entries) : List String → Entries → Option Entries
  | [], es => f es
  | key :: rest, es =>
    match es.lookup key with
    | none => (under? f rest []).map fun sub => es.put key (.table .passed sub)
    | some (.table .braces _) => none
    | some (.table form sub) => (under? f rest sub).map fun sub => es.put key (.table form sub)
    | some (.tables ts) => (onLast? (under? f rest) ts).map fun ts => es.put key (.tables ts)
    | some _ => none

/-- Open a table: a new one, or one that headers only passed. -/
def open? (key : String) (es : Entries) : Option Entries :=
  match es.lookup key with
  | none => some (es.put key (.table .opened []))
  | some (.table .passed sub) => some (es.put key (.table .opened sub))
  | some _ => none

/-- Add an empty table to a list of tables, or start the list. -/
def extend? (key : String) (es : Entries) : Option Entries :=
  match es.lookup key with
  | none => some (es.put key (.tables [.table .opened []]))
  | some (.tables ts) => some (es.put key (.tables (ts ++ [.table .opened []])))
  | some _ => none

end Toml

end Midend
