import ApiCatalog.Files.Path
/-!
# Configuration

What a scan heeds and where its catalog goes.  Options that are not set have a value in effect.
-/

namespace ApiCatalog

inductive OutputFormat where
  | json
  | html
  deriving Repr, DecidableEq

namespace OutputFormat

def name : OutputFormat → String
  | .json => "json"
  | .html => "html"

def ofName? (name : String) : Option OutputFormat :=
  [json, html].find? fun format => format.name == name

def ofText? (text : String) : Option OutputFormat :=
  ofName? (String.ofList (Text.asciiLower text.toList))

end OutputFormat

structure ScanOptions where
  /-- Descend into folders. -/
  recursive : Option Bool
  /-- Names that are pruned besides the usual ones. -/
  extraIgnore : List String
  respectGitignore : Option Bool
  followSymlinks : Option Bool
  /-- The size in bytes up to which a file is looked at. -/
  maxFileSize : Option Nat
  /-- The team that every entry is marked with. -/
  teamOwner : Option String
  deriving Repr, DecidableEq

namespace ScanOptions

def unset : ScanOptions := ⟨none, [], none, none, none, none⟩

/-- The largest size that is looked at if nothing else is said: a mebibyte. -/
def defaultMaxFileSize : Nat := 1048576

def isRecursive (options : ScanOptions) : Bool := options.recursive.getD true

def respectsGitignore (options : ScanOptions) : Bool := options.respectGitignore.getD false

def followsSymlinks (options : ScanOptions) : Bool := options.followSymlinks.getD false

def sizeLimit (options : ScanOptions) : Nat := options.maxFileSize.getD defaultMaxFileSize

end ScanOptions

structure OutputOptions where
  format : Option OutputFormat
  path : Option Path
  deriving Repr, DecidableEq

namespace OutputOptions

def unset : OutputOptions := ⟨none, none⟩

def formatInEffect (options : OutputOptions) : OutputFormat := options.format.getD .json

/-- The path of the catalog; it is named for its format if nothing is said. -/
def pathInEffect (options : OutputOptions) : Path :=
  options.path.getD (Path.ofText ("catalog." ++ options.formatInEffect.name))

end OutputOptions

structure Config where
  scan : ScanOptions
  output : OutputOptions
  deriving Repr, DecidableEq

def Config.unset : Config := ⟨.unset, .unset⟩

end ApiCatalog
