import Midend.Help
import Midend.Settings

/-!
# The command line

```
opt <FILE> [--config <CONFIG>] [--disable <PASS>]... [--no-verify] [--nullability] [--stats] [-j <JOBS>]
check <FILE>
help [COMMAND]...
```

Options and the file may come in any order; an option's value follows it, or is attached to it by an
equals sign, or, for `-j`, directly.  After `--` everything is taken as it is.  `--help` or `-h` asks for
help instead, once the arguments before it are in order.

## Shape of the scan

A value that stands apart from its option is looked at when the next option or the file is, so an
argument that is not known is reported before a bad value that stands right before it.
-/

namespace Midend

/-- Why the arguments make no command. -/
inductive UsageError where
  /-- No command is named; help is the answer. -/
  | noCommand
  | unknownCommand (word : String)
  | unexpectedArgument (arg : String)
  | unexpectedValue (value arg : String)
  | repeatedArgument (arg : String)
  | missingValue (arg : String)
  | badValue (value arg reason : String)
  | missingFile
deriving DecidableEq, Repr

/-- The first line of a usage error. -/
def UsageError.message : UsageError → String
  | noCommand => HelpTopic.program.about
  | unknownCommand w => "error: unrecognized subcommand '" ++ w ++ "'"
  | unexpectedArgument a => "error: unexpected argument '" ++ a ++ "' found"
  | unexpectedValue v a =>
    "error: unexpected value '" ++ v ++ "' for '" ++ a ++ "' found; no more were expected"
  | repeatedArgument a => "error: the argument '" ++ a ++ "' cannot be used multiple times"
  | missingValue a => "error: a value is required for '" ++ a ++ "' but none was supplied"
  | badValue v a r => "error: invalid value '" ++ v ++ "' for '" ++ a ++ "': " ++ r
  | missingFile => "error: the following required arguments were not provided:"

/-- What to do: something with a file of methods, or tell about the program. -/
inductive Command where
  | opt (file : String) (config : Option String) (disable : List PassId)
      (noVerify nullability stats : Bool)
  | check (file : String)
  | help (topic : HelpTopic)
deriving DecidableEq, Repr

namespace CommandLine

/-- The options there are. -/
inductive Flag where
  | config | disable | noVerify | nullability | stats | jobs
deriving DecidableEq, Repr

namespace Flag

def all : List Flag := [config, disable, noVerify, nullability, stats, jobs]

def long : Flag → String
  | config => "config"
  | disable => "disable"
  | noVerify => "no-verify"
  | nullability => "nullability"
  | stats => "stats"
  | jobs => "jobs"

/-- How messages write the value an option takes; nothing if it takes none. -/
def valueName? : Flag → Option String
  | config => some "<CONFIG>"
  | disable => some "<PASS>"
  | jobs => some "<JOBS>"
  | _ => none

/-- How messages write an option. -/
def display (f : Flag) : String :=
  "--" ++ f.long ++ (match f.valueName? with
    | some v => " " ++ v
    | none => "")

end Flag

/-- The options given so far. -/
structure Options where
  file : Option String
  config : Option String
  disable : List PassId
  noVerify : Bool
  nullability : Bool
  stats : Bool
  jobs : Option Nat

/-- An argument whose value has not been looked at: an option without its value so far, an option and its
value, or the file. -/
inductive Pending where
  | awaiting (flag : Flag)
  | valued (flag : Flag) (value : String)
  | file (path : String)

/-- The arguments that have been read. -/
structure State where
  options : Options
  pending : Option Pending

/-- How messages write the file. -/
def fileDisplay : String := "<FILE>"

/-- A count of workers: digits after an optional plus sign, below 2^64. -/
def readJobs (s : String) : Except String Nat :=
  let digits := match s.toList with
    | '+' :: rest => if rest.isEmpty then ['+'] else rest
    | cs => cs
  if digits.isEmpty then
    .error "cannot parse integer from empty string"
  else if digits.all fun c => '0' ≤ c && c ≤ '9' then
    let n := digits.foldl (fun n c => 10 * n + (c.toNat - '0'.toNat)) 0
    if n < UInt64.size then .ok n else .error "number too large to fit in target type"
  else
    .error "invalid digit found in string"

/-- The passes there are, for the message about one that is not. -/
def knownPasses : String := String.intercalate ", " (PassId.all.map PassId.name)

/-- Set an option that takes a value. -/
def setValue (o : Options) (f : Flag) (v : String) : Except UsageError Options :=
  match f with
  | .config =>
    if o.config.isSome then .error (.repeatedArgument f.display)
    else if v.isEmpty then .error (.missingValue f.display)
    else .ok { o with config := some v }
  | .disable =>
    match PassId.ofName? v with
    | some p => .ok { o with disable := o.disable ++ [p] }
    | none => .error (.badValue v f.display
        ("unknown pass '" ++ v ++ "' (expected one of: " ++ knownPasses ++ ")"))
  | .jobs =>
    if o.jobs.isSome then .error (.repeatedArgument f.display)
    else match readJobs v with
      | .error reason => .error (.badValue v f.display reason)
      | .ok n => .ok { o with jobs := some n }
  | _ => .ok o

/-- Set an option that takes no value. -/
def setFlag (o : Options) (f : Flag) : Except UsageError Options :=
  match f with
  | .noVerify =>
    if o.noVerify then .error (.repeatedArgument f.display) else .ok { o with noVerify := true }
  | .nullability =>
    if o.nullability then .error (.repeatedArgument f.display) else .ok { o with nullability := true }
  | .stats => if o.stats then .error (.repeatedArgument f.display) else .ok { o with stats := true }
  | _ => .ok o

/-- Look at the argument that waits, if one does. -/
def State.settle (st : State) : Except UsageError Options :=
  match st.pending with
  | none => .ok st.options
  | some (.awaiting f) => .error (.missingValue f.display)
  | some (.valued f v) => setValue st.options f v
  | some (.file path) =>
    if path.isEmpty then .error (.missingValue fileDisplay)
    else .ok { st.options with file := some path }

/-- An option that is known, with the value attached to it, if any. -/
def State.takeFlag (st : State) (f : Flag) (attached : Option String) : Except UsageError State := do
  match f.valueName?, attached with
  | some _, some v => return ⟨← setValue (← st.settle) f v, none⟩
  | some _, none => return ⟨← st.settle, some (.awaiting f)⟩
  | none, some v => throw (.unexpectedValue v f.display)
  | none, none => return ⟨← setFlag (← st.settle) f, none⟩

/-- Is a file given, or waiting to be looked at? -/
def State.hasFile (st : State) : Bool :=
  st.options.file.isSome || (match st.pending with
    | some (.file _) => true
    | _ => false)

/-- An argument that stands for itself: the value of the option before it, or the file. -/
def State.takeWord (st : State) (raw : Bool) (s : String) : Except UsageError State :=
  match st.pending, raw with
  | some (.awaiting f), false => .ok { st with pending := some (.valued f s) }
  | _, _ =>
    if st.hasFile then .error (.unexpectedArgument s)
    else do return ⟨← st.settle, some (.file s)⟩

/-- Split at the first equals sign. -/
def splitAttached (cs : List Char) : List Char × Option String :=
  let (name, rest) := cs.span (· ≠ '=')
  (name, match rest with
    | [] => none
    | _ :: v => some (String.ofList v))

/-- One argument before any `--`, among the options a command has. -/
def State.take (known : List Flag) (st : State) (arg : String) : Except UsageError State :=
  match arg.toList with
  | '-' :: '-' :: name =>
    let (name, attached) := splitAttached name
    let name := String.ofList name
    match known.find? (fun f => f.long = name), attached with
    | some f, _ => st.takeFlag f attached
    | none, some v =>
      if name = "help" then .error (.unexpectedValue v "--help")
      else .error (.unexpectedArgument ("--" ++ name))
    | none, none => .error (.unexpectedArgument ("--" ++ name))
  | '-' :: c :: rest =>
    if c = 'j' && known.contains .jobs then
      st.takeFlag .jobs (match rest with
        | [] => none
        | '=' :: v => some (String.ofList v)
        | v => some (String.ofList v))
    else
      .error (.unexpectedArgument (String.ofList ['-', c]))
  | _ => st.takeWord false arg

/-- Does an argument ask for help? -/
def asksHelp (arg : String) : Bool := arg = "--help" || arg.toList.take 2 = ['-', 'h']

/-- All arguments of a command; nothing if they ask for help. -/
def readOptions (known : List Flag) : State → List String → Except UsageError (Option Options)
  | st, [] => do return some (← st.settle)
  | st, "--" :: rest => do return some (← (← rest.foldlM (State.takeWord · true) st).settle)
  | st, arg :: rest => do
    if asksHelp arg then
      let _ ← st.settle
      return none
    else
      readOptions known (← st.take known arg) rest

/-- No options yet. -/
def noOptions : State := ⟨⟨none, none, [], false, false, false, none⟩, none⟩

/-- A command on a file, from the arguments after its name. -/
def readCommand (topic : HelpTopic) (known : List Flag) (make : String → Options → Command)
    (args : List String) : Except UsageError Command := do
  match ← readOptions known noOptions args with
  | none => return .help topic
  | some o =>
    match o.file with
    | some file => return make file o
    | none => throw .missingFile

/-- The topic that the words after `help` name.  Commands have no commands of their own. -/
def readTopic : List String → Except UsageError HelpTopic
  | [] => .ok .program
  | word :: rest =>
    match HelpTopic.ofName? word, rest with
    | none, _ => .error (.unknownCommand word)
    | some t, [] => .ok t
    | some _, word :: _ => .error (.unknownCommand word)

/-- What an argument that is no command is refused for. -/
def refuseWord (word : String) : UsageError :=
  match word.toList with
  | '-' :: '-' :: name =>
    match splitAttached name with
    | (['h', 'e', 'l', 'p'], some v) => .unexpectedValue v "--help"
    | (name, _) => .unexpectedArgument ("--" ++ String.ofList name)
  | '-' :: c :: _ => .unexpectedArgument (String.ofList ['-', c])
  | _ => .unknownCommand word

/-- The command that arguments make. -/
def read : List String → Except UsageError Command
  | [] | ["--"] => .error .noCommand
  | "opt" :: args => readCommand .opt Flag.all
      (fun file o => .opt file o.config o.disable o.noVerify o.nullability o.stats) args
  | "check" :: args => readCommand .check [] (fun file _ => .check file) args
  | "help" :: words => return .help (← readTopic words)
  | "--" :: word :: _ =>
    if (HelpTopic.ofName? word).isSome then .error (.unexpectedArgument word)
    else .error (.unknownCommand word)
  | word :: _ => if asksHelp word then .ok (.help .program) else .error (refuseWord word)

end CommandLine

end Midend
