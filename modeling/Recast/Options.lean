import Recast.Path.Normal

/-!
# Options of a build

Each option may be unset. Options of a target are laid over those of the project, and directories are
resolved before they are used.
-/

namespace Recast

/-- The line ending of written scripts. -/
inductive NewLine where
  | lf
  | crlf
deriving DecidableEq, Repr, Inhabited

namespace NewLine

def text : NewLine → String
  | lf => "\n"
  | crlf => "\r\n"

def keyword : NewLine → String
  | lf => "lf"
  | crlf => "crlf"

end NewLine

/-- What may be said about how scripts are emitted. -/
structure Options where
  outDir : Option Path := none
  rootDir : Option Path := none
  sourceMap : Option Bool := none
  noEmit : Option Bool := none
  emitBom : Option Bool := none
  newLine : Option NewLine := none
  transpileOnly : Option Bool := none
  strict : Option Bool := none
deriving DecidableEq, Repr, Inhabited

namespace Options

/-- The options with others laid over them: what is set there wins. -/
def overlaid (base top : Options) : Options where
  outDir := top.outDir <|> base.outDir
  rootDir := top.rootDir <|> base.rootDir
  sourceMap := top.sourceMap <|> base.sourceMap
  noEmit := top.noEmit <|> base.noEmit
  emitBom := top.emitBom <|> base.emitBom
  newLine := top.newLine <|> base.newLine
  transpileOnly := top.transpileOnly <|> base.transpileOnly
  strict := top.strict <|> base.strict

/-- The options with their directories resolved against a base directory. -/
def resolved (options : Options) (current base : Path) : Options :=
  let resolve (p : Path) := (base.join p).resolveFrom current
  { options with outDir := options.outDir.map resolve, rootDir := options.rootDir.map resolve }

def wantsSourceMap (options : Options) : Bool :=
  options.sourceMap.getD false

def wantsNoEmit (options : Options) : Bool :=
  options.noEmit.getD false

def wantsBom (options : Options) : Bool :=
  options.emitBom.getD false

def wantsTranspileOnly (options : Options) : Bool :=
  options.transpileOnly.getD false

/-- The line ending for what is added to a script. -/
def newLineText (options : Options) : String :=
  (options.newLine.getD .lf).text

theorem overlaid_empty (options : Options) : options.overlaid {} = options := by
  simp [overlaid]

end Options

end Recast
