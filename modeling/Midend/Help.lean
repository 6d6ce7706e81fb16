/-!
# Help texts

What the program says about itself, as a whole or about one of its commands: what it is for, how it is
called, and its arguments and options in two columns.
-/

namespace Midend

/-- What help is about. -/
inductive HelpTopic where
  | program | opt | check | help
deriving DecidableEq, Repr

namespace HelpTopic

/-- A section: its title, and what there is with what it is for, in two columns. -/
def sectionText (title : String) (rows : List (String × String)) : String :=
  let width := rows.foldl (fun w r => max w r.1.length) 0
  title ++ ":\n" ++ String.join (rows.map fun (name, what) =>
    "  " ++ name ++ String.ofList (List.replicate (width - name.length) ' ') ++ "  " ++ what ++ "\n")

def about : HelpTopic → String
  | program => "SSA optimizer for textual method graphs"
  | opt => "Optimize every method in an IR file and print the result"
  | check => "Parse an IR file and check graph invariants"
  | help => "Print this message or the help of the given subcommand(s)"

def usage : HelpTopic → String
  | program => "ember <COMMAND>"
  | opt => "ember opt [OPTIONS] <FILE>"
  | check => "ember check <FILE>"
  | help => "ember help [COMMAND]..."

/-- The option that asks for help. -/
def helpRow : String × String := ("-h, --help", "Print help")

def sections : HelpTopic → List String
  | program => [
      sectionText "Commands" [("opt", opt.about), ("check", check.about), ("help", help.about)],
      sectionText "Options" [helpRow]]
  | opt => [
      sectionText "Arguments" [("<FILE>", "IR file to optimize")],
      sectionText "Options" [
        ("    --config <CONFIG>", "Pipeline configuration file (TOML)"),
        ("    --disable <PASS>", "Skip a pass; may be given more than once"),
        ("    --no-verify", "Do not check graph invariants between passes"),
        ("    --nullability", "Annotate reference values with their nullability"),
        ("    --stats", "Print optimization counters to stderr"),
        ("-j, --jobs <JOBS>", "Number of worker threads"),
        helpRow]]
  | check => [
      sectionText "Arguments" [("<FILE>", "IR file to check")],
      sectionText "Options" [helpRow]]
  | help => [sectionText "Arguments" [("[COMMAND]...", "Print help for the subcommand(s)")]]

/-- The whole text. -/
def text (t : HelpTopic) : String :=
  String.intercalate "\n" ((t.about ++ "\n") :: ("Usage: " ++ t.usage ++ "\n") :: t.sections)

/-- The topic of a command's name. -/
def ofName? : String → Option HelpTopic
  | "opt" => some opt
  | "check" => some check
  | "help" => some help
  | _ => none

end HelpTopic

end Midend
