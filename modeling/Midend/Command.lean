import Midend.CommandLine
import Midend.Compiler
import Midend.Config.Read
import Midend.Text.Read

/-!
# Running commands

What a command prints and how it ends, given what its files hold.  `opt` prints the optimized methods;
`check` says of each method whether it is well formed.
-/

namespace Midend

/-- What a command leaves behind. -/
structure Output where
  exitCode : Nat
  stdout : String
  stderr : String
deriving DecidableEq, Repr

namespace Output

/-- An error message and exit code 1. -/
def failure (message : String) : Output := ⟨1, "", "error: " ++ message ++ "\n"⟩

/-- A fault ends the program at once. -/
def ofFault (_ : Fault) : Output := ⟨101, "", "panic"⟩

def ofUsage (e : UsageError) : Output := ⟨2, "", e.message⟩

/-- A settings file that makes no sense. -/
def badSettings : Output := ⟨1, "", "error: invalid config file:"⟩

end Output

namespace Command

/-- The contents of a file, or what the system says about it. -/
abbrev Files := String → Except String String

/-- The methods of a file. -/
def readMethodsOf (files : Files) (path : String) : Except Output (List Graph) :=
  match files path with
  | .error reason => .error (.failure ("cannot read " ++ path ++ ": " ++ reason))
  | .ok text =>
    match readMethods text with
    | .error e => .error (.failure (path ++ ": " ++ e.text))
    | .ok gs => .ok gs

/-- The settings of a file; the default ones if no file is named. -/
def readSettings (files : Files) : Option String → Except Output Settings
  | none => .ok Settings.default
  | some path =>
    match files path with
    | .error reason => .error (.failure ("cannot read config file: " ++ reason))
    | .ok text =>
      match Settings.ofText? text with
      | some s => .ok s
      | none => .error .badSettings

/-- A checked step, its fault being the end of the command. -/
def checked {α : Type} (c : Checked α) : Except Output α :=
  match c with
  | .ok a => .ok a
  | .error f => .error (.ofFault f)

/-- The text of a compiled method, with nullability as notes if asked for and known. -/
def compiledText (withNullability : Bool) (m : Compiled) : Checked String :=
  match m.nullability? with
  | some facts => if withNullability then m.graph.printWithNullability facts else m.graph.print
  | none => m.graph.print

/-- What the checker says about a method. -/
def checkText (g : Graph) : Checked (Bool × String) := do
  match ← g.violations with
  | [] => return (true, "@" ++ g.name ++ ": ok\n")
  | vs => return (false, "@" ++ g.name ++ ": " ++ Violation.report vs)

def runOpt (files : Files) (file : String) (config : Option String) (disable : List PassId)
    (noVerify nullability stats : Bool) : Except Output Output := do
  let s ← readSettings files config
  let s := { s with disabled := s.disabled ++ disable, verify := s.verify && !noVerify }
  let gs ← readMethodsOf files file
  let report ← checked (compileAll s gs)
  let texts ← checked (report.methods.mapM (compiledText nullability))
  return ⟨0, String.intercalate "\n" texts, if stats then report.stats.text else ""⟩

def runCheck (files : Files) (file : String) : Except Output Output := do
  let gs ← readMethodsOf files file
  let results ← checked (gs.mapM checkText)
  return ⟨if results.all (·.1) then 0 else 1, String.join (results.map (·.2)), ""⟩

/-- Run a command on files. -/
def run (files : Files) (c : Command) : Output :=
  let outcome := match c with
    | .opt file config disable noVerify nullability stats =>
      runOpt files file config disable noVerify nullability stats
    | .check file => runCheck files file
    | .help topic => .ok ⟨0, topic.text, ""⟩
  match outcome with
  | .ok o => o
  | .error o => o

end Command

/-- Run the command that arguments make. -/
def runCommandLine (files : Command.Files) (args : List String) : Output :=
  match CommandLine.read args with
  | .error e => .ofUsage e
  | .ok c => c.run files

end Midend
