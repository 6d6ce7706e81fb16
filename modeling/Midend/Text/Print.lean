import Midend.Graph.Basic

/-!
# Printing methods

The text of a graph.  Values are numbered anew in the order they are printed, parameters first, so a
removed instruction leaves no gap.  A note may be attached to an instruction; it becomes a comment at
the end of its line.
-/

namespace Midend

namespace Graph

/-- The numbers values are printed with. -/
structure Names where
  numbers : Table (Option Nat)

/-- A value's printed name; `%?` for one that is not printed. -/
def Names.value (names : Names) (i : InstId) : String :=
  match names.numbers.get i.index with
  | some n => "%" ++ toString n
  | none => "%?"

/-- Number values in the order given. -/
def Names.ofOrder (order : List InstId) : Names :=
  ⟨order.zipIdx.foldl (fun t (i, n) => t.set i.index (some n)) Table.empty⟩

/-- Strings with a separator between them. -/
def commaSeparated (parts : List String) : String := String.intercalate ", " parts

def fieldText (f : Field) : String :=
  "  field @" ++ f.qualified ++ " : " ++ f.ty.text ++ " \x7boffset = " ++ toString f.offset
    ++ (if f.isStatic then ", static = true" else "")
    ++ (if f.isVolatile then ", volatile = true" else "") ++ "\x7d\n"

/-- A phi's operands, each with the label of its predecessor. -/
def phiText (names : Names) (inputs : List InstId) (preds : List BlockId) : String :=
  " [" ++ commaSeparated (inputs.zipIdx.map fun (v, k) =>
    (match preds[k]? with
      | some p => p.text
      | none => "^bb?") ++ ": " ++ names.value v) ++ "]"

def operandText (names : Names) : List InstId → String
  | [] => ""
  | inputs => " " ++ commaSeparated (inputs.map names.value)

/-- What an instruction's attributes say about its kind. -/
def attrText (g : Graph) : Kind → Checked String
  | .const v => return " \x7bvalue = " ++ toString v ++ "\x7d"
  | .newInstance c => return " \x7bclass = @" ++ c ++ "\x7d"
  | .newArray t => return " \x7bcomponent = " ++ t.text ++ "\x7d"
  | .instanceGet f | .instanceSet f | .staticGet f | .staticSet f =>
    return " \x7bfield = @" ++ (← g.field f).qualified ++ "\x7d"
  | .invoke _ m => return " \x7bmethod = @" ++ m ++ "\x7d"
  | _ => return ""

/-- The successors a jump or a branch is printed with. -/
def succText (g : Graph) (inst : Inst) : String :=
  match inst.kind with
  | .jump | .branch =>
    let succs := (inst.block.map g.succs).getD []
    " [" ++ commaSeparated (succs.map BlockId.text) ++ "]"
  | _ => ""

/-- The text of one instruction, without indentation and line end. -/
def instText (g : Graph) (names : Names) (i : InstId) : Checked String := do
  let inst ← g.inst i
  let result := if inst.ty = .void then "" else names.value i ++ " = "
  let operands :=
    if inst.kind.isPhi then phiText names inst.inputs ((inst.block.map g.preds).getD [])
    else operandText names inst.inputs
  let ty := if inst.ty = .void then "" else " : " ++ inst.ty.text
  return result ++ inst.kind.mnemonic ++ operands ++ g.succText inst ++ (← g.attrText inst.kind) ++ ty

/-- The line of one instruction, with its note. -/
def lineText (g : Graph) (names : Names) (annotate : InstId → Option String) (i : InstId) :
    Checked String := do
  let note := match annotate i with
    | some note => "  // " ++ note
    | none => ""
  return "  " ++ (← g.instText names i) ++ note ++ "\n"

/-- The text of a graph, with notes. -/
def printAnnotated (g : Graph) (annotate : InstId → Option String) : Checked String := do
  let params ← g.parameters
  let defined ← g.attached.filterM fun i => return !params.contains i && (← g.ty i) ≠ .void
  let names := Names.ofOrder (params ++ defined)
  let paramTexts ← params.mapM fun p => return names.value p ++ ": " ++ (← g.ty p).text
  let header := "method @" ++ g.name ++ "(" ++ commaSeparated paramTexts ++ ")"
    ++ (if g.isStatic then " static" else "")
    ++ (if g.isSynchronized then " synchronized" else "") ++ " \x7b\n"
  let blockTexts ← g.blocks.toList.zipIdx.mapM fun (block, k) => do
    let lines ← (block.body.filter (!params.contains ·)).mapM (g.lineText names annotate)
    return BlockId.text ⟨k⟩ ++ ":\n" ++ String.join lines
  return header ++ String.join (g.fields.toList.map fieldText) ++ String.join blockTexts ++ "\x7d\n"

/-- The text of a graph. -/
def print (g : Graph) : Checked String := g.printAnnotated fun _ => none

end Graph

/-- The texts of several methods, with an empty line between them. -/
def printMethods (gs : List Graph) : Checked String := do
  return String.intercalate "\n" (← gs.mapM Graph.print)

end Midend
