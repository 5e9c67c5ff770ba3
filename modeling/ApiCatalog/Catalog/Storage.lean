import ApiCatalog.Catalog.Document
import ApiCatalog.Catalog.Html
import ApiCatalog.Config.Basic
import ApiCatalog.Files.Tree
/-!
# Stored catalogs

A catalog in a file: as a document, which can be read again, or as a page.
-/

namespace ApiCatalog

inductive OutputError where
  | io (path : Path) (cause : OsError)
  /-- The file holds no catalog. -/
  | document (kind : Json.ErrorKind)
  deriving Repr, DecidableEq

/-- The text of the error; what is wrong with a document is told by whoever reads it. -/
def OutputError.message : OutputError → String
  | .io path cause => "I/O error on " ++ path.text ++ ": " ++ cause.message
  | .document _ => "catalog serialization failed"

namespace Catalog

def render (catalog : Catalog) : OutputFormat → String
  | .json => catalog.toJson
  | .html => Html.page catalog

/-- Writes a catalog to a path and makes the folders around it. Folders that could be made stay also on
failure. -/
def save (catalog : Catalog) (tree : Node) (path : Path) (format : OutputFormat) (now : Instant) :
    Node × Except OutputError Unit :=
  let parent := path.parent?.getD ⟨[]⟩
  match tree.makeFolders parent with
  | (tree, .error cause) => (tree, .error (.io parent cause))
  | (tree, .ok ()) =>
    match tree.write path (catalog.render format).toUTF8 now with
    | .ok tree => (tree, .ok ())
    | .error cause => (tree, .error (.io path cause))

def read (text : String) : Except OutputError Catalog :=
  (ofJson text).mapError .document

def load (tree : Node) (path : Path) : Except OutputError Catalog :=
  match tree.readText path with
  | .error cause => .error (.io path cause)
  | .ok text => read text

end Catalog

end ApiCatalog
