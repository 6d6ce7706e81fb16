import Midend.Text.Scan

/-!
# The written form of methods

What the text of a method says before its names are resolved, and the grammar that reads it:

```
method @name(%a: type, ...) [static] [synchronized] {
  field @Class.name : type {offset = 8, ...}
^label:
  [%result =] op [%operand, ... | [^label: %value, ...]] [[^label, ...]] [{key = value, ...}] [: type]
}
```

Blanks and `//` comments may stand between tokens, except that the operands, successors, attributes
and type of an instruction begin on the line of the word before them.
-/

namespace Midend

namespace Source

/-- The value of an attribute. -/
inductive Attr where
  | bool (value : Bool)
  | int (value : Int)
  | symbol (name : String)
  | ident (name : String)
deriving DecidableEq, Repr

/-- An instruction as written. -/
structure Line where
  result : Option String
  op : String
  operands : List String
  /-- Label and value per predecessor; only a phi has them. -/
  phiEntries : List (String × String)
  succs : List String
  attrs : List (String × Attr)
  ty : Option String
deriving DecidableEq, Repr

/-- A block as written. -/
structure Block where
  label : String
  lines : List Line
deriving DecidableEq, Repr

/-- A field declaration as written. -/
structure FieldDecl where
  qualified : String
  ty : String
  attrs : List (String × Attr)
deriving DecidableEq, Repr

/-- A method as written. -/
structure Method where
  name : String
  params : List (String × String)
  isStatic : Bool
  isSynchronized : Bool
  fields : List FieldDecl
  blocks : List Block
deriving DecidableEq, Repr

open Scan

/-! ## Blanks and names -/

def isDigit (c : Char) : Bool := '0' ≤ c && c ≤ '9'

def isLetter (c : Char) : Bool := ('a' ≤ c && c ≤ 'z') || ('A' ≤ c && c ≤ 'Z')

def isAlphanum (c : Char) : Bool := isLetter c || isDigit c

/-- Space, tab, line feed, form feed and carriage return. -/
def isBlank (c : Char) : Bool :=
  c = ' ' || c = '\t' || c = '\n' || c = '\x0c' || c = '\r'

/-- The characters of values and labels. -/
def isNameChar (c : Char) : Bool := isAlphanum c || c = '_'

/-- The characters of symbols: classes, members and methods. -/
def isSymbolChar (c : Char) : Bool := isNameChar c || c = '.' || c = '$' || c = '<' || c = '>'

/-- The text after the blanks and comments at its front; a comment runs to the end of its line. -/
def skipBlank (inComment : Bool) : List Char → List Char
  | [] => []
  | c :: rest =>
    if inComment then skipBlank (c ≠ '\n') rest
    else if isBlank c then skipBlank false rest
    else if c = '/' && rest.head? = some '/' then skipBlank true rest
    else c :: rest

/-- Skip blanks and comments. -/
def blank : Scan Unit := fun s => .ok () (skipBlank false s)

/-- Skip spaces and tabs, staying on the line. -/
def space : Scan Unit := do
  let _ ← takeWhile fun c => c = ' ' || c = '\t'

/-- A word: a letter or underscore, then letters, digits, underscores and dots. -/
def ident : Scan String := do
  let first ← satisfy fun c => isLetter c || c = '_'
  let others ← takeWhile fun c => isNameChar c || c = '.'
  return String.ofList (first :: others)

/-- A value's name, written after `%`. -/
def valueName : Scan String := do
  char '%'
  return String.ofList (← takeWhile1 isNameChar)

/-- A symbol, written after `@`. -/
def symbol : Scan String := do
  char '@'
  return String.ofList (← takeWhile1 isSymbolChar)

/-- A block's label, written after `^`. -/
def label : Scan String := do
  char '^'
  return String.ofList (← takeWhile1 isNameChar)

/-! ## Attributes -/

/-- The number written by decimal digits. -/
def digitsToNat (digits : List Char) : Nat :=
  digits.foldl (fun n c => 10 * n + (c.toNat - '0'.toNat)) 0

/-- A 64-bit integer: a sign or none and digits that do not start with zero, or a zero alone. -/
def integer : Scan Int := fun s =>
  let (negative, unsigned) := match s with
    | '-' :: rest => (true, rest)
    | '+' :: rest => (false, rest)
    | rest => (false, rest)
  let digits := unsigned.takeWhile isDigit
  match digits with
  | [] => .failed s
  | c :: _ =>
    if c = '0' then
      match s with
      | '0' :: rest => .ok 0 rest
      | _ => .failed s
    else
      let magnitude : Int := digitsToNat digits
      let value := if negative then -magnitude else magnitude
      if Int64.minValue.toInt ≤ value && value ≤ Int64.maxValue.toInt then
        .ok value (unsigned.dropWhile isDigit)
      else .failed s

/-- An attribute's value.  `true` and `false` are recognized by their letters alone, whatever
follows. -/
def attrValue : Scan Attr :=
  orElse (do word "true".toList; return .bool true) <|
  orElse (do word "false".toList; return .bool false) <|
  orElse (do return .symbol (← symbol)) <|
  orElse (do return .int (← integer)) <|
  (do return .ident (← ident))

def attrEntry : Scan (String × Attr) := do
  blank
  let key ← ident
  blank
  char '='
  blank
  let value ← attrValue
  blank
  return (key, value)

/-- Attributes in braces. -/
def attrDict : Scan (List (String × Attr)) := do
  char '\x7b'
  blank
  let entries ← separated attrEntry (char ',')
  blank
  char '\x7d'
  return entries

/-! ## Instructions -/

/-- Operands, separated by commas, all on one line. -/
def operandList : Scan (List String) :=
  separated1 (do space; let v ← valueName; space; return v) (char ',')

/-- Successors in brackets, at least one. -/
def successorList : Scan (List String) := do
  char '['
  blank
  let labels ← separated1 (do blank; let l ← label; blank; return l) (char ',')
  blank
  char ']'
  return labels

def phiEntry : Scan (String × String) := do
  blank
  let l ← label
  blank
  char ':'
  blank
  let v ← valueName
  blank
  return (l, v)

/-- A phi's label and value pairs in brackets, possibly none. -/
def phiEntryList : Scan (List (String × String)) := do
  char '['
  blank
  let entries ← separated phiEntry (char ',')
  blank
  char ']'
  return entries

def typeAnnotation : Scan String := do
  space
  char ':'
  space
  ident

/-- The name an instruction gives its value, with the equals sign after it. -/
def resultName : Scan String := do
  let v ← valueName
  blank
  char '='
  blank
  return v

/-- What stands between the word of an instruction and its successors: a phi's entries, or operands if
any begin here. -/
def arguments (op : String) : Scan (List String × List (String × String)) := do
  if op = "phi" then
    return ([], ← phiEntryList)
  else if (← remaining).head? = some '%' then
    return (← operandList, [])
  else
    return ([], [])

/-- One instruction. -/
def line : Scan Line := do
  let result ← optional resultName
  let op ← ident
  space
  let (operands, phiEntries) ← arguments op
  let succs ← optional (do space; successorList)
  let attrs ← optional (do space; attrDict)
  let ty ← optional typeAnnotation
  return ⟨result, op, operands, phiEntries, succs.getD [], attrs.getD [], ty⟩

/-! ## Blocks and methods -/

/-- Instructions follow until the text, the method or the block ends. -/
def atLine (s : List Char) : Bool :=
  match s with
  | [] => false
  | c :: _ => c ≠ '^' && c ≠ '\x7d'

/-- A labelled block. -/
def blockText : Scan Block := do
  let l ← label
  blank
  char ':'
  blank
  let lines ← manyWhile atLine do
    let i ← line
    blank
    return i
  return ⟨l, lines⟩

/-- A field declaration. -/
def fieldDecl : Scan FieldDecl := do
  word "field".toList
  blank
  let qualified ← symbol
  blank
  char ':'
  blank
  let ty ← ident
  blank
  let attrs ← attrDict
  return ⟨qualified, ty, attrs⟩

def paramDecl : Scan (String × String) := do
  blank
  let name ← valueName
  blank
  char ':'
  blank
  let ty ← ident
  blank
  return (name, ty)

/-- Parameters in parentheses. -/
def paramList : Scan (List (String × String)) := do
  char '('
  blank
  let params ← separated paramDecl (char ',')
  blank
  char ')'
  return params

/-- A word after the parameters: true for `static`, false for `synchronized`. -/
def methodFlag : Scan Bool := do
  blank
  orElse (do word "static".toList; return true) (do word "synchronized".toList; return false)

/-- A whole method. -/
def method : Scan Method := do
  word "method".toList
  blank
  let name ← symbol
  blank
  let params ← paramList
  let flags ← many methodFlag
  blank
  char '\x7b'
  blank
  let fields ← manyWhile ("field".toList.isPrefixOf ·) do
    let f ← fieldDecl
    blank
    return f
  let blocks ← manyWhile (·.head? = some '^') do
    let b ← blockText
    blank
    return b
  blank
  char '\x7d'
  return ⟨name, params, flags.contains true, flags.contains false, fields, blocks⟩

/-- Every method of a text. -/
def methods : Scan (List Method) := do
  blank
  manyWhile (fun s => !s.isEmpty) do
    let m ← method
    blank
    return m

end Source

end Midend
