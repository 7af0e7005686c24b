import Recast.CommandLine.Run
import Std.Time.Format

/-!
# The program

Reads what a run needs from the disk, runs it, prints what it says, and writes what it changed.
-/

namespace Recast.CommandLine

open Recast.Build Recast.Files

/-- The place of a path on the disk. -/
def placeOf (names : List String) : String :=
  "/" ++ "/".intercalate names

/-- What the disk holds at a place; what cannot be read is not there. -/
partial def readNode (place : String) : IO (Option DiskNode) := do
  try
    let entries ← (← IO.FS.realPath place).readDir
    let mut nodes := #[]
    for entry in entries do
      let inner := place ++ "/" ++ entry.fileName
      if let .symlink := (← entry.path.symlinkMetadata).type then
        try nodes := nodes.push (entry.fileName, DiskNode.file (← IO.FS.readBinFile inner)) catch _ => pure ()
      else if let some node ← readNode inner then
        nodes := nodes.push (entry.fileName, node)
    return some (.directory nodes.toList)
  catch _ =>
    try return some (.file (← IO.FS.readBinFile place)) catch _ => return none

/-- The tree with what the disk holds at a path. -/
def loadPath (tree : LocalTree) (path : Path) : IO LocalTree := do
  let names := LocalTree.names path
  match ← readNode (placeOf names) with
  | some node => return { tree with root := tree.root.graft node names }
  | none => return tree

/-- The tree with a file of the disk, if a file is there. -/
def loadFile (tree : LocalTree) (path : Path) : IO LocalTree := do
  let names := LocalTree.names (tree.resolve path)
  try return { tree with root := tree.root.graft (.file (← IO.FS.readBinFile (placeOf names))) names }
  catch _ => return tree

/-- The tree with the ignore files of all directories above a path. -/
def loadRules (tree : LocalTree) (path : Path) : IO LocalTree := do
  let mut tree := tree
  let names := LocalTree.names path
  for depth in List.range names.length do
    for name in ignoreFileNames ++ [".git", ".git/info/exclude"] do
      tree ← loadFile tree (⟨true, names.take depth⟩ / .ofString name)
  return tree

/-- The tree with the exclude files that `.git` files lead to. -/
def loadExcludes (tree : LocalTree) : IO LocalTree := do
  let mut tree := tree
  for (names, bytes) in tree.root.files [] do
    if names.getLast? = some ".git" then
      if let some directory := DiskNode.workTreeDirectory? bytes then
        tree ← loadFile tree (directory / .ofString "commondir")
      if let some path := tree.root.linkedExclude? tree.start bytes then
        tree ← loadFile tree path
  return tree

/-- The tree with all that a run needs. -/
def loadTree (arguments : Arguments) : IO LocalTree := do
  let current := Path.ofString (← IO.currentDir).toString
  let tree : LocalTree := ⟨current, .directory [], LocalTree.names current⟩
  let root := tree.resolve arguments.project
  let file := (arguments.config.map tree.resolve).getD (root.join (.ofString Project.fileName))
  let tree ← loadPath tree file
  let project := match Project.load (.disk tree) file with
    | .ok (project, _) => project
    | .error _ => {}
  let resolve (path : Path) : Path := tree.resolve (root.join path)
  let directories := (project.includes ++ (arguments.addonDir <|> project.addonDir).toList).map resolve
  let mut tree ← (project.files.map resolve ++ directories).foldlM loadPath tree
  for directory in directories do
    tree ← loadRules tree directory
  loadExcludes tree

/-- The bytes of all files of a tree. -/
def filesOf : System → List (List String × ByteArray)
  | .disk tree => tree.root.files []
  | .memory _ => []

/-- Writes the files that differ. -/
def writeChanges (before after : System) : IO Unit := do
  let known := filesOf before
  for (names, bytes) in filesOf after do
    if known.lookup names != some bytes then
      IO.FS.createDirAll (placeOf names.dropLast)
      IO.FS.writeBinFile (placeOf names) bytes

def print (printed : Printed) : IO Unit :=
  match printed.stream with
  | .output => IO.print printed.text
  | .errors => IO.eprint printed.text

/-- Whether the stream of errors shows colours. -/
def showsColors : IO Bool := do
  let isPlain := (← IO.getEnv "NO_COLOR").isSome || (← IO.getEnv "TERM") == some "dumb"
  return !isPlain && (← (← IO.getStderr).isTty)

/-- How reports are printed now. -/
def styleNow (json : Bool) : IO Style := do
  let now ← Std.Time.DateTime.now
  let clock := now.format (if json then "uuuu-MM-dd'T'HH:mm:ss.SSSSSSxxx" else "HH:mm:ss")
  return ⟨json, ← showsColors, clock⟩

/-- What the environment says. -/
def readEnvironment : IO Environment := do
  let mut known : List (String × String) := []
  for name in ["TSPIPE_TARGETS", "TSPIPE_ADDONS", "TSPIPE_OUT_DIR"] do
    if let some value ← IO.getEnv name then known := (name, value) :: known
  return .ofLookup fun name => known.lookup name

/-- Prints and forgets what a compiler reported, and writes what it changed. -/
def settle (json : Bool) (before : System) (compiler : Compiler) : IO Compiler := do
  let style ← styleNow json
  compiler.workspace.reports.forM fun report => print (style.report report)
  writeChanges before compiler.workspace.system
  return { compiler with workspace := { compiler.workspace with reports := [] } }

/-- Ends with a failure. -/
def fail (failure : Failure) : IO UInt32 := do
  print ⟨.errors, failureText failure⟩
  return 1

/-- The tree with the watched files as they are now, and those that differ. -/
def refreshTree (compiler : Compiler) : IO (Compiler × List Path) := do
  let mut compiler := compiler
  let mut changed := []
  for watch in compiler.workspace.watches do
    if let .disk tree := compiler.workspace.system then
      let names := LocalTree.names watch.path
      let known := match tree.root.find names with
        | .ok (.file bytes) => some bytes
        | _ => none
      let found ← try some <$> IO.FS.readBinFile (placeOf names) catch _ => pure none
      if known != found then
        let tree := match found with
          | some bytes => { tree with root := tree.root.graft (.file bytes) names }
          | none => (tree.remove watch.path).getD tree
        compiler := { compiler with workspace := { compiler.workspace with system := .disk tree } }
        changed := changed ++ [watch.path]
  return (compiler, changed)

/-- Handles changes as they settle, until the program is stopped. -/
partial def watchChanges (json : Bool) (compiler : Compiler) (settling : Settling) : IO Unit := do
  IO.sleep 50
  let (compiler, changed) ← refreshTree compiler
  let settling := changed.foldl Settling.add (settling.wait 50)
  if settling.isReady then
    let (paths, settling) := settling.take
    let before := compiler.workspace.system
    match paths.forM Compiler.fileChangedOrReport compiler with
    | .ok _ compiler | .error _ compiler => watchChanges json (← settle json before compiler) settling
  else watchChanges json compiler settling

/-- Watches. -/
def watch (json : Bool) (compiler : Compiler) : IO UInt32 := do
  let before := compiler.workspace.system
  match Compiler.watch compiler with
  | .error failure compiler =>
    let _ ← settle json before compiler
    fail failure
  | .ok seeded compiler =>
    let compiler ← settle json before compiler
    if watchesNothing compiler seeded then return 1
    watchChanges json compiler {}
    return if seeded.skipped then 1 else 0

/-- Prints what a run says, and writes what it changed. -/
def finish (before : System) (outcome : Outcome) : IO UInt32 := do
  outcome.printed.forM print
  writeChanges before outcome.system
  return outcome.exitCode.toUInt32

/-- Runs a command on the disk. -/
def perform (command : Command) (arguments : Arguments) : IO UInt32 := do
  let system : System := .disk (← loadTree arguments)
  let environment ← readEnvironment
  let style ← styleNow arguments.json
  match command with
  | .build => finish system (runCommand .build arguments system environment style)
  | .watch =>
    match prepare system environment arguments true with
    | .error (failure, reports) => finish system (.ofFailure failure (reports.map style.report) system)
    | .ok (reports, none) => finish system (.ofResult false (reports.map style.report) system)
    | .ok (_, some compiler) => watch arguments.json compiler

/-- Runs the program. -/
def start (arguments : List String) : IO UInt32 := do
  match Request.ofArguments arguments with
  | .run command arguments => perform command arguments
  | _ =>
    let nowhere : System := .disk ⟨.empty, .directory [], []⟩
    finish nowhere (run arguments nowhere (fun _ => none) false "")

end Recast.CommandLine

def main (arguments : List String) : IO UInt32 :=
  Recast.CommandLine.start arguments
