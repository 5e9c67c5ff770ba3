import ApiCatalog.Extract.Registry
import ApiCatalog.Scan.Walk
/-!
# Scans

A scan makes a catalog of the files below a folder, or of a single file: each goes to the extractor that
claims it.  Only a missing root, or one that cannot be walked, makes a scan fail.
-/

namespace ApiCatalog

open Ignore (Excludes)

inductive ScanError where
  | rootNotFound (root : Path)
  | walk (root : Path) (cause : OsError)
  deriving Repr, DecidableEq

def ScanError.message : ScanError → String
  | .rootNotFound root => "scan root not found: " ++ root.text
  | .walk root cause => "directory walk failed under " ++ root.text ++ ": " ++ cause.message

/-- The files of a scan: the root itself, if it is a file. -/
def scanFiles (tree : Node) (options : ScanOptions) (root : Path) (excludes : Excludes := .none) :
    Except ScanError (List Path) :=
  if !tree.hasPath root then .error (.rootNotFound root)
  else if tree.hasFile root then .ok [root]
  else (walk tree options root excludes).mapError (.walk root)

def scan (tree : Node) (registry : Registry) (options : ScanOptions) (root : Path) (now : Instant)
    (excludes : Excludes := .none) : Except ScanError Catalog := do
  let files ← scanFiles tree options root excludes
  pure ⟨now, files.filterMap fun file => registry.dispatch tree file options.teamOwner⟩

end ApiCatalog
