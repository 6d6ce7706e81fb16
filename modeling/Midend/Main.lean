import Midend.Command

/-!
# The program

Reads the files that a command names, runs it and prints what it leaves behind.
-/

namespace Midend

/-- What the system says about a file that cannot be read. -/
def fileErrorText : IO.Error → String
  | .noFileOrDirectory _ code details => details ++ " (os error " ++ toString code ++ ")"
  | .permissionDenied _ code details => details ++ " (os error " ++ toString code ++ ")"
  | .inappropriateType _ code details => details ++ " (os error " ++ toString code ++ ")"
  | .userError _ => "stream did not contain valid UTF-8"
  | e => toString e

/-- A path with the contents of its file. -/
def readNamed (path : String) : IO (String × Except String String) := do
  try
    return (path, .ok (← IO.FS.readFile path))
  catch e =>
    return (path, .error (fileErrorText e))

/-- The files that a command reads. -/
def Command.paths : Command → List String
  | .opt file config _ _ _ _ => file :: config.toList
  | .check file => [file]
  | .help _ => []

end Midend

open Midend in
def main (args : List String) : IO UInt32 := do
  let paths := match CommandLine.read args with
    | .ok c => c.paths
    | .error _ => []
  let contents ← paths.mapM readNamed
  let o := runCommandLine (fun path => (contents.lookup path).getD (.error "not read")) args
  IO.print o.stdout
  IO.eprint o.stderr
  return o.exitCode.toUInt32
