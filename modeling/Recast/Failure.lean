import Recast.Path.Basic

/-!
# Failures

The causes for which an operation ends without an answer, and their wording.
-/

namespace Recast

/-- Why a file cannot be read, written or watched. -/
inductive FileError where
  | notFound (path : Path)
  | permissionDenied (path : Path)
  | io (detail : String)
  | other (detail : String)
deriving DecidableEq, Repr, Inhabited

/-- The wording of a file error. -/
def FileError.message : FileError → String
  | notFound path => "File not found: " ++ path.toString
  | permissionDenied path => "Permission denied: " ++ path.toString
  | io detail => "I/O error: " ++ detail
  | other detail => detail

/-- Why an operation failed. -/
inductive Failure where
  | missingContext (target : String)
  | notConfigured
  | config (file : Path) (detail : String)
  | addonLoad (name : String) (path : Path) (detail : String)
  | addon (name : String) (detail : String)
  | watch (path : Path) (detail : String)
  | endlessRoots (target : String)
  | file (error : FileError)
deriving DecidableEq, Repr, Inhabited

/-- The wording of a failure. -/
def Failure.message : Failure → String
  | missingContext target => "no compilation context for target \"" ++ target ++ "\""
  | notConfigured => "compiler options have not been set"
  | config path detail => "invalid configuration in " ++ path.toString ++ ": " ++ detail
  | addonLoad name path detail => "failed to load addon '" ++ name ++ "' from " ++ path.toString ++ ": " ++ detail
  | addon name detail => "addon '" ++ name ++ "' failed: " ++ detail
  | watch path detail => "failed to watch " ++ path.toString ++ ": " ++ detail
  | endlessRoots target => "root files of target \"" ++ target ++ "\" have no end"
  | file error => error.message

end Recast
