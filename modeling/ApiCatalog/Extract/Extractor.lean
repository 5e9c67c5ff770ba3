import ApiCatalog.Catalog.Basic
import ApiCatalog.Files.Tree
/-!
# Extractors

An extractor makes an entry of one kind of file.  It says which files it claims, and fails only on files
that it cannot read as what they should be.
-/

namespace ApiCatalog

inductive ExtractError where
  | unreadable (path : Path) (cause : OsError)
  /-- The document is none. -/
  | malformed (path : Path)
  /-- The document is no mapping. -/
  | notMapping (path : Path)
  deriving Repr, DecidableEq

/-- The text of the error; why a document is none is told by whoever reads it. -/
def ExtractError.message : ExtractError → String
  | .unreadable path cause => "failed to read " ++ path.text ++ ": " ++ cause.message
  | .malformed path => "malformed document " ++ path.text
  | .notMapping path => "malformed document " ++ path.text ++ ": document root must be a mapping"

structure Extractor where
  name : String
  /-- Whether the extractor claims a file; what cannot be decided counts as no. -/
  claims : Node → Path → Bool
  /-- The entry of a file for a team; none if nothing was found. -/
  extract : Node → Path → Option String → Except ExtractError (Option Entry)

def readSource (tree : Node) (path : Path) : Except ExtractError String :=
  match tree.readText path with
  | .ok text => .ok text
  | .error cause => .error (.unreadable path cause)

/-- The time of a file is taken as it is.  The program stops at a file with a time beyond the years that it can tell
apart; what is shown of scans is shown of trees without such files. -/
def Metadata.ofSource (tree : Node) (path : Path) (team : Option String) : Metadata :=
  { Metadata.blank with teamOwner := team, lastUpdated := tree.modified? path, sourceFile := path.text }

def sourceTitle (path : Path) : String := "API from " ++ path.nameText

end ApiCatalog
