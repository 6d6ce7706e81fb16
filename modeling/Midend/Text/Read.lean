import Midend.Graph.Edit
import Midend.Text.Source

/-!
# Reading methods

From the written form of a method to its graph.  Reading has two stages: the whole text is scanned
first, and only a text that is well formed from end to end has its names resolved, method by method.
A scan that fails says at which byte; a name that cannot be resolved has no place, so its offset is 0.

## Shape of the resolution

Fields, blocks and parameters are declared before any instruction, so a branch may go forward.  The
instructions follow in text order, and an operand has to be defined above its use.  Phis alone may use
what comes later: they are created without operands and filled at the end, when every edge is known.
-/

namespace Midend

/-- Why a text is not a list of methods. -/
inductive ReadError where
  /-- The text stops making sense at this byte. -/
  | malformed (offset : Nat)
  | unqualifiedField (qualified : String)
  | unknownType (name : String)
  | offsetOutOfRange (value : Int)
  | unexpectedAttr (key qualified : String)
  | missingOffset (qualified : String)
  | duplicateField (qualified : String)
  | noBlocks (method : String)
  | duplicateLabel (label : String)
  | redefinedValue (name : String)
  | undefinedValue (name : String)
  | unknownLabel (label : String)
  | undeclaredField (qualified : String)
  | missingType (value : String)
  | successorCount (op : String) (expected found : Nat)
  | paramInBody
  | constWithoutValue
  | arrayWithoutComponent
  | missingReceiver (op : String)
  | missingSymbol (op key : String)
  | phiInputCount (value : String) (found preds : Nat)
  | phiInputMissing (value : String) (pred : BlockId)
  | methodCount (found : Nat)
deriving DecidableEq, Repr

namespace ReadError

/-- The byte a text stops making sense at; 0 when the fault is not in its form. -/
def offset : ReadError → Nat
  | malformed n => n
  | _ => 0

/-- The text of the error, without its place. -/
def message : ReadError → String
  | malformed _ => "parse error: Parsing Error: ContextError \x7b context: [], cause: None \x7d"
  | unqualifiedField q => "field '@" ++ q ++ "' must be written as @Class.name"
  | unknownType t => "unknown type '" ++ t ++ "'"
  | offsetOutOfRange n => "field offset " ++ toString n ++ " out of range"
  | unexpectedAttr k q => "unexpected attribute '" ++ k ++ "' on field '@" ++ q ++ "'"
  | missingOffset q => "field '@" ++ q ++ "' has no offset"
  | duplicateField q => "duplicate field declaration '@" ++ q ++ "'"
  | noBlocks m => "method '@" ++ m ++ "' has no blocks"
  | duplicateLabel l => "duplicate block label '^" ++ l ++ "'"
  | redefinedValue v => "value '%" ++ v ++ "' is defined more than once"
  | undefinedValue v => "use of undefined value '%" ++ v ++ "'"
  | unknownLabel l => "unknown block '^" ++ l ++ "'"
  | undeclaredField q => "undeclared field '@" ++ q ++ "'"
  | missingType v => "value '%" ++ v ++ "' has no type annotation"
  | successorCount op e f =>
    "'" ++ op ++ "' expects " ++ toString e ++ " successor(s), found " ++ toString f
  | paramInBody => "parameters are declared in the method signature"
  | constWithoutValue => "'const' requires \x7bvalue = <int>\x7d"
  | arrayWithoutComponent => "'new_array' requires \x7bcomponent = <type>\x7d"
  | missingReceiver op => "'" ++ op ++ "' requires a receiver operand"
  | missingSymbol op key => "'" ++ op ++ "' requires \x7b" ++ key ++ " = @symbol\x7d"
  | phiInputCount v f p =>
    "phi '%" ++ v ++ "' has " ++ toString f ++ " input(s) but its block has " ++ toString p
      ++ " predecessor(s)"
  | phiInputMissing v p => "phi '%" ++ v ++ "' has no input for predecessor " ++ p.text
  | methodCount n => "expected exactly one method, found " ++ toString n

/-- The text of the error with its place. -/
def text (e : ReadError) : String :=
  "parse error at offset " ++ toString e.offset ++ ": " ++ e.message

/-- The error with its place and the whole text it is about. -/
def explained (e : ReadError) (source : String) : String :=
  "Failed to parse test IR at offset " ++ toString e.offset ++ ":\n  " ++ e.message
    ++ "\n\nInput:\n" ++ source

end ReadError

/-- A value read from text, or why it could not be read. -/
abbrev Reading (α : Type) := Except ReadError α

/-- Names declared so far, and the graph they name parts of. -/
structure Scope where
  graph : Graph
  values : List (String × InstId)
  labels : List (String × BlockId)
  fields : List (String × FieldId)
  /-- Phis that wait for their operands, in text order. -/
  pendingPhis : List (InstId × BlockId × Source.Line)

namespace Scope

/-- The thing at hand, or the error that there is none. -/
def orError {α : Type} (o : Option α) (e : ReadError) : Reading α :=
  match o with
  | some a => .ok a
  | none => .error e

def readType (name : String) : Reading Ty := orError (Ty.ofText? name) (.unknownType name)

/-- Name a value.  A name is given once. -/
def define (s : Scope) (name : String) (i : InstId) : Reading Scope :=
  match s.values.lookup name with
  | some _ => .error (.redefinedValue name)
  | none => .ok { s with values := (name, i) :: s.values }

/-- Name a value if the text gives it a name. -/
def defineResult (s : Scope) (name? : Option String) (i : InstId) : Reading Scope :=
  match name? with
  | some name => s.define name i
  | none => .ok s

def value (s : Scope) (name : String) : Reading InstId :=
  orError (s.values.lookup name) (.undefinedValue name)

def target (s : Scope) (label : String) : Reading BlockId :=
  orError (s.labels.lookup label) (.unknownLabel label)

/-! ## Declarations -/

/-- What the attributes of a field say. -/
structure FieldAttrs where
  offset : Option Nat
  isStatic : Bool
  isVolatile : Bool

/-- Take one attribute of a field into account; a later one overrides an earlier one. -/
def fieldAttr (qualified : String) (acc : FieldAttrs) : String × Source.Attr → Reading FieldAttrs
  | ("offset", .int n) =>
    if 0 ≤ n && n.toNat < UInt32.size then .ok { acc with offset := some n.toNat }
    else .error (.offsetOutOfRange n)
  | ("static", .bool b) => .ok { acc with isStatic := b }
  | ("volatile", .bool b) => .ok { acc with isVolatile := b }
  | (key, _) => .error (.unexpectedAttr key qualified)

/-- Split a qualified name at its last dot. -/
def splitQualified (qualified : String) : Option (String × String) :=
  let reversed := qualified.toList.reverse
  match reversed.dropWhile (· ≠ '.') with
  | [] => none
  | _ :: owner =>
    some (String.ofList owner.reverse, String.ofList (reversed.takeWhile (· ≠ '.')).reverse)

def declareField (s : Scope) (decl : Source.FieldDecl) : Reading Scope := do
  let (owner, name) ← orError (splitQualified decl.qualified) (.unqualifiedField decl.qualified)
  let ty ← readType decl.ty
  let attrs ← decl.attrs.foldlM (fieldAttr decl.qualified) ⟨none, false, false⟩
  let offset ← orError attrs.offset (.missingOffset decl.qualified)
  let (g, f) := s.graph.internField ⟨owner, name, ty, offset, attrs.isStatic, attrs.isVolatile⟩
  match s.fields.lookup decl.qualified with
  | some _ => throw (.duplicateField decl.qualified)
  | none => return { s with graph := g, fields := (decl.qualified, f) :: s.fields }

/-- Give a label to a block. -/
def declareLabel (s : Scope) (label : String) (b : BlockId) : Reading Scope :=
  match s.labels.lookup label with
  | some _ => .error (.duplicateLabel label)
  | none => .ok { s with labels := (label, b) :: s.labels }

/-- Create the blocks of a method.  The first one is the entry, which the graph has already. -/
def declareBlocks (s : Scope) : List Source.Block → Reading Scope
  | [] => .error (.noBlocks s.graph.name)
  | first :: others => do
    let s ← s.declareLabel first.label s.graph.entry
    others.foldlM (fun s block => do
      let (g, b) := s.graph.createBlock
      { s with graph := g }.declareLabel block.label b) s

def declareParam (s : Scope) : (String × String) × Nat → Reading Scope
  | ((name, ty), index) => do
    let ty ← readType ty
    let (g, i) := s.graph.addInst (.param index) ty []
    { s with graph := g.placeInst g.entry i }.define name i

/-! ## Instructions -/

def attr? (line : Source.Line) (key : String) : Option Source.Attr := line.attrs.lookup key

/-- The symbol that an attribute has to give. -/
def symbolAttr (line : Source.Line) (key : String) : Reading String :=
  match attr? line key with
  | some (.symbol name) => .ok name
  | _ => .error (.missingSymbol line.op key)

def fieldOf (s : Scope) (line : Source.Line) : Reading FieldId := do
  let name ← symbolAttr line "field"
  orError (s.fields.lookup name) (.undeclaredField name)

def callOf (mode : CallMode) (line : Source.Line) : Reading Kind := do
  if mode.hasReceiver && line.operands.isEmpty then
    throw (.missingReceiver line.op)
  return .invoke mode (← symbolAttr line "method")

/-- The kind a line's word stands for, with what its attributes say.  A word that stands for none is an
operation about which nothing is known. -/
def kindOf (s : Scope) (line : Source.Line) : Reading Kind :=
  match BinaryOp.ofMnemonic? line.op, CompareOp.ofMnemonic? line.op with
  | some op, _ => .ok (.binary op)
  | none, some op => .ok (.compare op)
  | none, none =>
    match line.op with
    | "param" => .error .paramInBody
    | "const" =>
      match attr? line "value" with
      | some (.int v) => .ok (.const v)
      | some (.bool b) => .ok (.const (if b then 1 else 0))
      | _ => .error .constWithoutValue
    | "null" => .ok .null
    | "new_instance" => return .newInstance (← symbolAttr line "class")
    | "new_array" =>
      match attr? line "component" with
      | some (.ident name) => return .newArray (← readType name)
      | _ => .error .arrayWithoutComponent
    | "instance_get" => return .instanceGet (← s.fieldOf line)
    | "instance_set" => return .instanceSet (← s.fieldOf line)
    | "static_get" => return .staticGet (← s.fieldOf line)
    | "static_set" => return .staticSet (← s.fieldOf line)
    | "array_get" => .ok .arrayGet
    | "array_set" => .ok .arraySet
    | "array_length" => .ok .arrayLength
    | "null_check" => .ok .nullCheck
    | "invoke_static" => callOf .static line
    | "invoke_direct" => callOf .direct line
    | "invoke_virtual" => callOf .virtual line
    | "invoke_interface" => callOf .interface line
    | "monitor_enter" => .ok .monitorEnter
    | "monitor_exit" => .ok .monitorExit
    | "goto" => .ok .jump
    | "if" => .ok .branch
    | "return" => .ok (if line.operands.isEmpty then .retVoid else .ret)
    | "throw" => .ok .raise
    | other => .ok (.unknown other)

/-- The type of a line's value: written for a line that names its value, `void` for one that does
not, whatever is written there. -/
def typeOf (line : Source.Line) : Reading Ty :=
  match line.result, line.ty with
  | some _, some ty => readType ty
  | some name, none => .error (.missingType name)
  | none, _ => .ok .void

/-- Add a phi without operands. -/
def addPhi (s : Scope) (b : BlockId) (line : Source.Line) (ty : Ty) : Reading Scope :=
  let (g, i) := s.graph.addInst .phi ty []
  { s with graph := g.placePhi b i, pendingPhis := s.pendingPhis ++ [(i, b, line)] }.defineResult
    line.result i

/-- Add the edge from a block to a labelled one. -/
def addTarget (b : BlockId) (s : Scope) (label : String) : Reading Scope := do
  return { s with graph := s.graph.link b (← s.target label) }

/-- Add an instruction other than a phi, and the edges it makes. -/
def addOrdinary (s : Scope) (b : BlockId) (line : Source.Line) (ty : Ty) : Reading Scope := do
  let kind ← s.kindOf line
  let inputs ← line.operands.mapM s.value
  match kind.successorCount? with
  | some expected =>
    if expected ≠ line.succs.length then
      throw (.successorCount line.op expected line.succs.length)
  | none => pure ()
  let (g, i) := s.graph.addInst kind ty inputs
  let s ← line.succs.foldlM (addTarget b) { s with graph := g.placeInst b i }
  s.defineResult line.result i

/-- Add the instruction of one line to a block. -/
def addLine (b : BlockId) (s : Scope) (line : Source.Line) : Reading Scope := do
  let ty ← typeOf line
  if line.op = "phi" then s.addPhi b line ty else s.addOrdinary b line ty

def addBlock (s : Scope) (block : Source.Block) : Reading Scope := do
  let b ← s.target block.label
  block.lines.foldlM (addLine b) s

/-! ## Phis -/

/-- Take the first element that satisfies a condition out of a list. -/
def takeFirst {α : Type} (p : α → Bool) : List α → Option (α × List α)
  | [] => none
  | a :: as => if p a then some (a, as) else (takeFirst p as).map fun (x, rest) => (x, a :: rest)

/-- Give a phi its operand for one predecessor: the first entry left that is labelled so. -/
def fillPhi (line : Source.Line) (i : InstId) (st : Scope × List (String × String)) (pred : BlockId) :
    Reading (Scope × List (String × String)) := do
  let (s, entries) := st
  let ((_, name), entries) ← orError (takeFirst (fun e => s.labels.lookup e.1 = some pred) entries)
    (.phiInputMissing (line.result.getD "?") pred)
  return ({ s with graph := s.graph.feed i (← s.value name) }, entries)

/-- Give a phi one operand per predecessor of its block, matched by label. -/
def fillPhis (s : Scope) : InstId × BlockId × Source.Line → Reading Scope
  | (i, b, line) => do
    let preds := s.graph.preds b
    if preds.length ≠ line.phiEntries.length then
      throw (.phiInputCount (line.result.getD "?") line.phiEntries.length preds.length)
    return (← preds.foldlM (fillPhi line i) (s, line.phiEntries)).1

/-- The names known before the first declaration of a method. -/
def initial (m : Source.Method) : Scope :=
  let g := Graph.new m.name
  ⟨{ g with isStatic := m.isStatic, isSynchronized := m.isSynchronized }, [], [], [], []⟩

end Scope

namespace Graph

/-- The graph of a method as written. -/
def ofSource (m : Source.Method) : Reading Graph := do
  let s ← m.fields.foldlM Scope.declareField (Scope.initial m)
  let s ← s.declareBlocks m.blocks
  let s ← m.params.zipIdx.foldlM Scope.declareParam s
  let s ← m.blocks.foldlM Scope.addBlock s
  return (← s.pendingPhis.foldlM Scope.fillPhis s).graph

end Graph

/-- How many bytes a text takes in UTF-8. -/
def utf8Length (s : List Char) : Nat := s.foldl (fun n c => n + c.utf8Size) 0

/-- The methods of a text as written. -/
def scanMethods (text : String) : Reading (List Source.Method) :=
  match Source.methods.run text.toList with
  | .ok ms _ => .ok ms
  | .failed rest => .error (.malformed (utf8Length text.toList - utf8Length rest))

/-- The methods of a text. -/
def readMethods (text : String) : Reading (List Graph) := do
  (← scanMethods text).mapM Graph.ofSource

/-- The only method of a text. -/
def readMethod (text : String) : Reading Graph := do
  match ← readMethods text with
  | [g] => return g
  | gs => throw (.methodCount gs.length)

end Midend
