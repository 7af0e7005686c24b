import Recast.CommandLine.Arguments

/-!
# Help

The texts that explain the command line, in two columns.
-/

namespace Recast.CommandLine

def programName : String := "tspipe"

def programVersion : String := "0.4.1"

def programSummary : String :=
  "Incremental multi-target compilation orchestrator with a pluggable addon pipeline"

/-- How an option is written. -/
def Flag.spelling (flag : Flag) : String :=
  let short := match flag.short? with
    | some c => String.ofList ['-', c, ',', ' ']
    | none => "    "
  let value := (flag.valueName?.map fun name => " <" ++ name ++ ">").getD ""
  short ++ "--" ++ flag.long ++ (if flag = .verbose then "..." else value)

/-- Rows with their second column aligned. -/
def columns (rows : List (String × String)) : String :=
  let width := rows.foldl (fun width row => max width row.1.length) 0
  let line (row : String × String) : String :=
    "  " ++ row.1 ++ String.ofList (List.replicate (width - row.1.length + 2) ' ') ++ row.2 ++ "\n"
  String.join (rows.map line)

def optionRows (flags : List Flag) : List (String × String) :=
  flags.map fun flag => (flag.spelling, flag.summary)

/-- What help says about itself. -/
def helpSummary : String :=
  "Print this message or the help of the given subcommand(s)"

/-- What is printed when help is asked for. -/
def helpText : Topic → String
  | .program =>
    let commands := Command.all.map fun command => (command.name, command.summary)
    programSummary ++ "\n\nUsage: " ++ programName ++ " [OPTIONS] <COMMAND>\n\nCommands:\n" ++
      columns (commands ++ [("help", helpSummary)]) ++ "\nOptions:\n" ++ columns (optionRows Flag.global)
  | .command command =>
    command.summary ++ "\n\nUsage: " ++ programName ++ " " ++ command.name ++ " [OPTIONS]\n\nOptions:\n" ++
      columns (optionRows Flag.ofCommand)
  | .help =>
    helpSummary ++ "\n\nUsage: " ++ programName ++ " help [COMMAND]...\n\nArguments:\n" ++
      columns [("[COMMAND]...", "Print help for the subcommand(s)")]

end Recast.CommandLine
