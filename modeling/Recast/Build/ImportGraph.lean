import Recast.Path.Map

/-!
# Import graphs

Which scripts import a file that is not a script.
-/

namespace Recast.Build

/-- For each imported file, its importers. -/
abbrev ImportGraph := PathMap PathSet

namespace ImportGraph

/-- The graph without what is known of an importer. -/
def forget (graph : ImportGraph) (importer : Path) : ImportGraph :=
  PathMap.filter (fun importers => !importers.entries.isEmpty) (graph.mapValues (·.erase importer))

/-- Adds one import. -/
def connect (importer : Path) (graph : ImportGraph) (asset : Path) : ImportGraph :=
  graph.insert asset (((graph.get? asset).getD .empty).insertPath importer)

/-- Replaces what an importer imports. -/
def record (graph : ImportGraph) (importer : Path) (assets : List Path) : ImportGraph :=
  assets.foldl (connect importer) (graph.forget importer)

/-- The importers of a file, in path order. -/
def importers (graph : ImportGraph) (asset : Path) : List Path :=
  ((graph.get? asset).map PathMap.keys).getD []

end ImportGraph

end Recast.Build
