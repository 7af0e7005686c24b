import Recast.Path.Basic
import Recast.Text.Pieces

/-!
# Arguments of the command line

Options may be written short or long, and a value may be attached to its option. Reading stops at the first
argument that asks for help or that does not fit.
-/

namespace Recast.CommandLine

/-- What the program can be told to do. -/
inductive Command where
  | build
  | watch
deriving DecidableEq, Repr, Inhabited

namespace Command

def name : Command → String
  | build => "build"
  | watch => "watch"

def summary : Command → String
  | build => "Compile every root file for every active target"
  | watch => "Compile, then recompile on file changes until Ctrl+C"

def all : List Command := [build, watch]

def ofName? (name : String) : Option Command :=
  all.find? (·.name = name)

end Command

/-- What a command is told about its work. -/
structure Arguments where
  json : Bool := false
  verbosity : Nat := 0
  project : Path := .ofString "."
  config : Option Path := none
  targets : List String := []
  addons : Option String := none
  addonDir : Option Path := none
  outDir : Option Path := none
  sourceMap : Bool := false
  transpileOnly : Bool := false
  debug : Bool := false
deriving DecidableEq, Repr, Inhabited

/-- The options. -/
inductive Flag where
  | json
  | verbose
  | project
  | config
  | target
  | addons
  | addonDir
  | outDir
  | sourceMap
  | transpileOnly
  | debug
  | help
  | version
deriving DecidableEq, Repr, Inhabited

namespace Flag

def long : Flag → String
  | json => "json"
  | verbose => "verbose"
  | project => "project"
  | config => "config"
  | target => "target"
  | addons => "addons"
  | addonDir => "addon-dir"
  | outDir => "out-dir"
  | sourceMap => "source-map"
  | transpileOnly => "transpile-only"
  | debug => "debug"
  | help => "help"
  | version => "version"

def short? : Flag → Option Char
  | verbose => some 'v'
  | project => some 'p'
  | config => some 'c'
  | target => some 't'
  | help => some 'h'
  | version => some 'V'
  | _ => none

/-- How the value of an option is called; options without one take no value. -/
def valueName? : Flag → Option String
  | project => some "PROJECT"
  | config => some "CONFIG"
  | target => some "TARGETS"
  | addons => some "ADDONS"
  | addonDir => some "ADDON_DIR"
  | outDir => some "OUT_DIR"
  | _ => none

def takesValue (flag : Flag) : Bool :=
  flag.valueName?.isSome

/-- Options that may be written more than once. -/
def isRepeatable : Flag → Bool
  | verbose => true
  | target => true
  | _ => false

def summary : Flag → String
  | json => "Emit diagnostics as NDJSON on stdout"
  | verbose => "Verbosity level (-v, -vv, -vvv)"
  | project => "Project root directory [default: .]"
  | config => "Configuration file (defaults to <project>/tspipe.toml)"
  | target => "Targets to build (repeatable, comma separated; \x60*\x60 for untargeted)"
  | addons => "Comma separated addons to run instead of the configured ones"
  | addonDir => "Directory scanned for addon manifests"
  | outDir => "Output directory override"
  | sourceMap => "Emit source maps"
  | transpileOnly => "Skip checking and transpile each file on its own"
  | debug => "Debug mode (implies verbose logging)"
  | help => "Print help"
  | version => "Print version"

/-- The options in front of the command. -/
def global : List Flag := [json, verbose, help, version]

/-- The options behind the command, in the order in which help lists them. -/
def ofCommand : List Flag :=
  [json, project, config, verbose, target, addons, addonDir, outDir, sourceMap, transpileOnly, debug, help]

end Flag

/-- Why arguments cannot be read. -/
inductive UsageError where
  | noCommand
  | unknownOption (text : String)
  | unexpectedArgument (text : String)
  | unexpectedValue (flag : Flag)
  | missingValue (flag : Flag)
  | emptyValue (flag : Flag)
  | repeated (flag : Flag)
deriving DecidableEq, Repr, Inhabited

/-- The wording of a usage error. -/
def UsageError.message : UsageError → String
  | noCommand => "a subcommand is required but none was given"
  | unknownOption text => "unexpected argument '" ++ text ++ "' found"
  | unexpectedArgument text => "unexpected argument '" ++ text ++ "' found"
  | unexpectedValue flag => "unexpected value for '--" ++ flag.long ++ "'"
  | missingValue flag => "a value is required for '--" ++ flag.long ++ "' but none was supplied"
  | emptyValue flag => "a value is required for '--" ++ flag.long ++ "' but none was supplied"
  | repeated flag => "the argument '--" ++ flag.long ++ "' cannot be used multiple times"

/-- What help explains. -/
inductive Topic where
  | program
  | command (command : Command)
  | help
deriving DecidableEq, Repr, Inhabited

/-- The topic at a place of the command line. -/
def Topic.ofCommand? : Option Command → Topic
  | some chosen => .command chosen
  | none => .program

/-- What the arguments ask for. -/
inductive Request where
  | run (command : Command) (arguments : Arguments)
  | help (topic : Topic)
  | version
  | wrong (error : UsageError)
deriving DecidableEq, Repr, Inhabited

/-- What was read so far, and which options it came from. -/
structure Reading where
  command : Option Command := none
  arguments : Arguments := {}
  given : List Flag := []
deriving Inhabited

namespace Reading

/-- The options that may be written here. -/
def flags (reading : Reading) : List Flag :=
  if reading.command.isNone then Flag.global else Flag.ofCommand

/-- A path, which may not be empty. -/
def pathValue (flag : Flag) (value : String) : Except Request Path :=
  if value.isEmpty then .error (.wrong (.emptyValue flag)) else .ok (.ofString value)

/-- The arguments with one more option. -/
def withFlag (reading : Reading) (flag : Flag) (value : String) : Except Request Arguments := do
  let arguments := reading.arguments
  match flag with
  | .json => return { arguments with json := true }
  | .verbose => return { arguments with verbosity := arguments.verbosity + 1 }
  | .project => return { arguments with project := ← pathValue flag value }
  | .config => return { arguments with config := some (← pathValue flag value) }
  | .target => return { arguments with targets := arguments.targets ++ Text.split ',' value }
  | .addons => return { arguments with addons := some value }
  | .addonDir => return { arguments with addonDir := some (← pathValue flag value) }
  | .outDir => return { arguments with outDir := some (← pathValue flag value) }
  | .sourceMap => return { arguments with sourceMap := true }
  | .transpileOnly => return { arguments with transpileOnly := true }
  | .debug => return { arguments with debug := true }
  | .help => throw (.help (.ofCommand? reading.command))
  | .version => throw .version

/-- Takes in one option. -/
def accept (reading : Reading) (flag : Flag) (value : String) : Except Request Reading := do
  if reading.given.contains flag && !flag.isRepeatable then throw (.wrong (.repeated flag))
  return { reading with arguments := ← reading.withFlag flag value, given := flag :: reading.given }

/-- Reads short options. The last one may still wait for its value. -/
def short (reading : Reading) : List Char → Except Request (Reading × Option Flag)
  | [] => .ok (reading, none)
  | c :: cs =>
    match reading.flags.find? (·.short? = some c) with
    | none => .error (.wrong (.unknownOption (String.ofList ['-', c])))
    | some flag =>
      if flag.takesValue then
        match cs with
        | [] => .ok (reading, some flag)
        | '=' :: value => return (← reading.accept flag (String.ofList value), none)
        | value => return (← reading.accept flag (String.ofList value), none)
      else do (← reading.accept flag "").short cs

/-- Reads a long option. It may still wait for its value. -/
def long (reading : Reading) (text : List Char) : Except Request (Reading × Option Flag) :=
  let name := String.ofList (text.takeWhile (· ≠ '='))
  match reading.flags.find? (·.long = name), text.dropWhile (· ≠ '=') with
  | none, _ => .error (.wrong (.unknownOption ("--" ++ name)))
  | some flag, [] => if flag.takesValue then .ok (reading, some flag) else return (← reading.accept flag "", none)
  | some flag, _ :: value =>
    if flag.takesValue then return (← reading.accept flag (String.ofList value), none)
    else .error (.wrong (.unexpectedValue flag))

/-- Takes in an argument that is no option: the command, when there is none yet. -/
def word (reading : Reading) (text : String) : Except Request Reading :=
  match reading.command, Command.ofName? text with
  | none, some command => .ok { reading with command := some command, given := [] }
  | _, _ => .error (.wrong (.unexpectedArgument text))

/-- The request at the end. -/
def finish (reading : Reading) : Request :=
  match reading.command with
  | some command => .run command reading.arguments
  | none => .wrong .noCommand

/-- What help is asked for by name; topics have no topics below them. -/
def helpTopic : List String → Request
  | [] => .help .program
  | ["help"] => .help .help
  | [name] =>
    match Command.ofName? name with
    | some command => .help (.command command)
    | none => .wrong (.unexpectedArgument name)
  | _ :: name :: _ => .wrong (.unexpectedArgument name)

/-- Reads arguments; an option may be waiting for its value. -/
def read (reading : Reading) (waiting : Option Flag) : List String → Except Request Reading
  | [] =>
    match waiting with
    | some flag => .error (.wrong (.missingValue flag))
    | none => .ok reading
  | text :: rest =>
    let isOption := text.toList.head? = some '-' && text ≠ "-"
    match waiting with
    | some flag =>
      if isOption then .error (.wrong (.missingValue flag))
      else do (← reading.accept flag text).read none rest
    | none =>
      if isOption then
        match text.toList with
        | ['-', '-'] =>
          match rest with
          | [] => .ok reading
          | next :: _ => .error (.wrong (.unexpectedArgument next))
        | '-' :: '-' :: name => do
          let (reading, waiting) ← reading.long name
          reading.read waiting rest
        | _ :: names => do
          let (reading, waiting) ← reading.short names
          reading.read waiting rest
        | [] => .error (.wrong (.unexpectedArgument text))
      else if reading.command.isNone && text = "help" then .error (helpTopic rest)
      else do (← reading.word text).read none rest

end Reading

/-- What some arguments ask for. -/
def Request.ofArguments (arguments : List String) : Request :=
  match ({} : Reading).read none arguments with
  | .ok reading => reading.finish
  | .error request => request

end Recast.CommandLine
