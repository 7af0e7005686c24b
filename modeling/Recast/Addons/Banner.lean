import Recast.Addons.Settings
import Recast.Script.Naming

/-!
# The banner addon

Puts a comment line in front of every script.
-/

namespace Recast.Addons

open Recast.Build

namespace Banner

def defaultText : String := "Generated by tspipe (\x7btarget\x7d)"

/-- The line of a template, with the name of the target in its place. -/
def line (template target : String) : String :=
  "// " ++ Text.replace "\x7btarget\x7d" target template ++ "\n"

/-- Puts the line in front of a script; other files stay as they are. -/
def apply (line : String) (path : Path) (source : String) : String :=
  if path.isScript then line ++ source else source

end Banner

/-- The addon that writes banners. -/
def banner (name : String) (options : Toml.Table) : Except Failure Addon := do
  let _ ← textOption name options "text"
  return {
    name := name
    activate := do
      let scope ← activeScope
      let template ← orFail (textOption name (optionsFor name options scope) "text")
      let line := Banner.line (template.getD Banner.defaultText) scope.target
      Activation.registerProcessor fun _ path source => pure (Banner.apply line path source) }

end Recast.Addons
