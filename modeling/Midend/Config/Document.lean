import Midend.Config.Numbers
import Midend.Config.Toml

/-!
# Reading settings documents

The grammar of documents: keys, values, and the lines that are made of them.

## Shape of a value

Values nest at most so deep, and keys have at most so many parts; the bound on nesting is also what the
reader of values recurs on.
-/

namespace Midend

namespace Toml

open Scan

/-- How deep arrays and tables in braces nest, and how many parts a key has, at most. -/
def maxNesting : Nat := 79

/-! ## Blanks and keys -/

def blanks : Scan Unit := do
  let _ ← takeWhile isBlank

def comment : Scan Unit := do
  char '#'
  let _ ← takeWhile isPrintable

/-- Blanks, comments and line ends, between the parts of an array. -/
def filler : Scan Unit := do
  let _ ← many (orElse (do let _ ← takeWhile1 isBlank) (orElse newline comment))

def isBareKeyChar (c : Char) : Bool :=
  isDigit c || ('a' ≤ c && c ≤ 'z') || ('A' ≤ c && c ≤ 'Z') || c = '_' || c = '-'

def simpleKey : Scan String :=
  orElse (do return String.ofList (← takeWhile1 isBareKeyChar)) shortString

/-- A key, perhaps of several parts with dots between them. -/
def key : Scan (List String) := do
  let parts ← separated1 (do blanks; let k ← simpleKey; blanks; return k) (char '.')
  if parts.length ≤ maxNesting then return parts else fail

/-! ## Values -/

def boolean : Scan Bool :=
  orElse (do word "true".toList; return true) (do word "false".toList; return false)

/-- A value that holds no others. -/
def scalar : Scan Toml :=
  orElse (do return .str (← string)) <|
  orElse (do return .bool (← boolean)) <|
  orElse (do dateTime; return .other) <|
  orElse (do fractional; return .other) <|
  orElse (do special; return .other) <|
  (do return .int (← integer))

/-- Items between brackets, with commas between them and perhaps one after the last. -/
def arrayOf (item : Scan Toml) : Scan Toml := do
  char '['
  let items ← separated (do filler; let v ← item; filler; return v) (char ',')
  let _ ← if items.isEmpty then pure none else optional (char ',')
  filler
  char ']'
  return .array items

/-- Keys with their values between braces, with commas between them, all on one line. -/
def tableOf (item : Scan Toml) : Scan Toml := do
  char '\x7b'
  let assignments ← separated (do
    let path ← key
    char '='
    blanks
    let v ← item
    blanks
    return (path, v)) (char ',')
  blanks
  char '\x7d'
  match assignments.foldlM (fun es (path, v) => assign? v path es) [] with
  | some es => return .table .braces es
  | none => fail

/-- A value, nested at most so deep. -/
def value : Nat → Scan Toml
  | 0 => scalar
  | depth + 1 => orElse (arrayOf (value depth)) (orElse (tableOf (value depth)) scalar)

/-! ## Lines -/

/-- What a line says. -/
inductive Statement where
  | nothing
  /-- The lines that follow are about this table. -/
  | header (path : List String)
  /-- The lines that follow are about one more table of this list. -/
  | listHeader (path : List String)
  | assignment (path : List String) (value : Toml)

def header : Scan Statement :=
  orElse (do
    word ['[', '[']
    let path ← key
    word [']', ']']
    return .listHeader path) do
  char '['
  let path ← key
  char ']'
  return .header path

def assignment : Scan Statement := do
  let path ← key
  char '='
  blanks
  return .assignment path (← value maxNesting)

/-- One line with its end. -/
def statement : Scan Statement := do
  blanks
  let s ← optional (orElse header assignment)
  blanks
  let _ ← optional comment
  if (← remaining).isEmpty then
    return s.getD .nothing
  else
    newline
    return s.getD .nothing

/-! ## Documents -/

/-- The document so far, and the path of the table that lines are about. -/
structure Document where
  root : Entries
  current : List String

/-- Do something to the last part of a header's path, in the table that the other parts lead to. -/
def Document.enter? (f : String → Entries → Option Entries) (path : List String) (d : Document) :
    Option Document := do
  let last ← path.getLast?
  let root ← under? (f last) path.dropLast d.root
  return ⟨root, path⟩

/-- Take one line into account. -/
def Document.add? (d : Document) : Statement → Option Document
  | .nothing => some d
  | .header path => d.enter? open? path
  | .listHeader path => d.enter? extend? path
  | .assignment path v =>
    (under? (assign? v path) d.current d.root).map fun root => { d with root := root }

/-- The table a text describes, if it is a document; a byte order mark in front is skipped. -/
def ofText? (text : String) : Option Entries := do
  let chars := match text.toList with
    | '\ufeff' :: rest => rest
    | cs => cs
  match manyWhile (fun s => !s.isEmpty) statement chars with
  | .ok statements _ => (← statements.foldlM Document.add? ⟨[], []⟩).root
  | .failed _ => none

end Toml

end Midend
