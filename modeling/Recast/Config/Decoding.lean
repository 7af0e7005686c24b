import Recast.Config.Project
import Recast.Toml.Decoding

/-!
# Reading a configuration
-/

namespace Recast

open Toml

namespace Options

def fields : List String :=
  ["out_dir", "root_dir", "source_map", "no_emit", "emit_bom", "new_line", "transpile_only", "strict"]

def newLineOf (keyword : String) : NewLine :=
  if keyword = NewLine.crlf.keyword then .crlf else .lf

/-- Takes one entry in. -/
def decodeEntry (options : Options) (entry : String × Value) : Decoding Options := do
  let v := entry.2
  match entry.1 with
  | "out_dir" => return { options with outDir := some (← asPath v) }
  | "root_dir" => return { options with rootDir := some (← asPath v) }
  | "source_map" => return { options with sourceMap := some (← asBool v) }
  | "no_emit" => return { options with noEmit := some (← asBool v) }
  | "emit_bom" => return { options with emitBom := some (← asBool v) }
  | "new_line" =>
    let keyword ← asVariant [NewLine.lf.keyword, NewLine.crlf.keyword] v
    return { options with newLine := some (newLineOf keyword) }
  | "transpile_only" => return { options with transpileOnly := some (← asBool v) }
  | "strict" => return { options with strict := some (← asBool v) }
  | key =>
    unexpected key
    return options

def decode (v : Value) : Decoding Options := do
  (← asRecord "ProjectOptions" fields v).foldlM decodeEntry {}

end Options

namespace TargetSettings

def fields : List String :=
  ["addons", "write", "transpile_only", "compiler_options", "settings"]

/-- Takes one entry in. -/
def decodeEntry (target : TargetSettings) (entry : String × Value) : Decoding TargetSettings := do
  let v := entry.2
  match entry.1 with
  | "addons" => return { target with addons := some (← asList asText v) }
  | "write" => return { target with write := some (← asBool v) }
  | "transpile_only" => return { target with transpileOnly := some (← asBool v) }
  | "compiler_options" => return { target with options := ← Options.decode v }
  | "settings" => return { target with settings := ← asTable v }
  | key =>
    unexpected key
    return target

def decode (v : Value) : Decoding TargetSettings := do
  (← asRecord "TargetConfig" fields v).foldlM decodeEntry {}

end TargetSettings

namespace Project

/-- The entries by key; of equal keys the last stays. -/
def sortTargets (entries : List (String × TargetSettings)) : List (String × TargetSettings) :=
  entries.mergeSort fun a b => decide (a.1 ≤ b.1)

/-- Takes one entry in. -/
def decodeEntry (project : Project) (entry : String × Value) : Decoding Project := do
  let v := entry.2
  match entry.1 with
  | "files" => return { project with files := ← asList asPath v }
  | "include" => return { project with includes := ← asList asPath v }
  | "addons" => return { project with addons := some (← asList asText v) }
  | "addon_dir" => return { project with addonDir := some (← asPath v) }
  | "compiler_options" => return { project with options := ← Options.decode v }
  | "targets" => return { project with targets := some (sortTargets (← asMap TargetSettings.decode v)) }
  | key =>
    unexpected key
    return project

/-- The configuration of a document, and the keys that nobody expects. -/
def decode (document : Table) : Except Offence (Project × List String) :=
  (document.foldlM decodeEntry {} : Decoding Project).run []

end Project

end Recast
