import ApiCatalog.Config.Basic
import ApiCatalog.Files.Tree
import ApiCatalog.Toml.Document
/-!
# Configuration documents

A configuration as a TOML document.  Unknown keys are passed over and no key is required; a record may also
be given as an array of its fields in order.
-/

namespace ApiCatalog

open Toml (Item Entries)

inductive ConfigError where
  | io (path : Path) (cause : OsError)
  /-- The document is no configuration. -/
  | malformed
  | unsupportedFormat (text : String)
  deriving Repr, DecidableEq

/-- The text of the error; what is wrong with a document is told by whoever reads it. -/
def ConfigError.message : ConfigError → String
  | .io path cause => "failed to read config " ++ path.text ++ ": " ++ cause.message
  | .malformed => "invalid config"
  | .unsupportedFormat text => "unsupported output format: " ++ text ++ " (expected json or html)"

def OutputFormat.ofText (text : String) : Except ConfigError OutputFormat :=
  match ofText? text with
  | some format => .ok format
  | none => .error (.unsupportedFormat text)

namespace Toml.Item

/-- The fields of a record. A moment is a record of unknown fields. -/
def fields? (names : List String) : Item → Option Entries
  | .table _ entries => some entries
  | .array items => some (names.zip items)
  | .tables all => some (names.zip (all.map (.table .header)))
  | .moment => some []
  | _ => none

def bool? : Item → Option Bool
  | .bool b => some b
  | _ => none

def string? : Item → Option String
  | .string s => some s
  | _ => none

/-- A number that is not negative. -/
def size? : Item → Option Nat
  | .integer (.ofNat n) => some n
  | _ => none

def strings? : Item → Option (List String)
  | .array items => items.mapM string?
  | _ => none

/-- Whether an item is an array or a table without content. -/
def isHollow : Item → Bool
  | .array items => items.isEmpty
  | .table _ entries => entries.isEmpty
  | _ => false

/-- A format: its name, or a table with its name as the only key and nothing behind it. -/
def format? : Item → Option OutputFormat
  | .string name => OutputFormat.ofName? name
  | .table _ [(name, item)] => if item.isHollow then OutputFormat.ofName? name else none
  | _ => none

end Toml.Item

namespace Toml.Entries

/-- The field of a name, which may be missing but has to be what is read. -/
def field? {α : Type} (entries : Entries) (name : String) (read : Item → Option α) : Option (Option α) :=
  match entries.get? name with
  | none => some none
  | some item => (read item).map some

end Toml.Entries

def ScanOptions.names : List String :=
  ["recursive", "extra_ignore", "respect_gitignore", "follow_symlinks", "max_file_size", "team_owner"]

def ScanOptions.ofItem? (item : Item) : Option ScanOptions := do
  let fields ← item.fields? names
  pure {
    recursive := ← fields.field? "recursive" Item.bool?
    extraIgnore := (← fields.field? "extra_ignore" Item.strings?).getD []
    respectGitignore := ← fields.field? "respect_gitignore" Item.bool?
    followSymlinks := ← fields.field? "follow_symlinks" Item.bool?
    maxFileSize := ← fields.field? "max_file_size" Item.size?
    teamOwner := ← fields.field? "team_owner" Item.string? }

def OutputOptions.ofItem? (item : Item) : Option OutputOptions := do
  let fields ← item.fields? ["format", "path"]
  pure {
    format := ← fields.field? "format" Item.format?
    path := (← fields.field? "path" Item.string?).map Path.ofText }

namespace Config

def fileName : Name := Name.ofText ".api-cataloger.toml"

def ofToml? (text : String) : Option Config := do
  let entries ← Toml.document? text.toList
  pure {
    scan := (← entries.field? "scan" ScanOptions.ofItem?).getD .unset
    output := (← entries.field? "output" OutputOptions.ofItem?).getD .unset }

def read (text : String) : Except ConfigError Config :=
  match ofToml? text with
  | some config => .ok config
  | none => .error .malformed

/-- Where the configuration for a scan is looked for if nothing is said: in the root, or beside it if it
is a file. -/
def usualPath (tree : Node) (root : Path) : Path :=
  (if tree.hasFile root then root.parent?.getD root else root).child fileName

/-- The configuration for a scan. A file that is asked for has to be there, the usual one need not. -/
def load (tree : Node) (root : Path) (asked : Option Path) : Except ConfigError Config :=
  let path := asked.getD (usualPath tree root)
  if asked.isNone && !tree.hasFile path then .ok .unset
  else
    match tree.readText path with
    | .error cause => .error (.io path cause)
    | .ok text => read text

end Config

end ApiCatalog
