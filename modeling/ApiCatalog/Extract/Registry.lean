import ApiCatalog.Extract.Annotated
import ApiCatalog.Extract.Controller
import ApiCatalog.Extract.Specification
/-!
# Registries

A registry lists extractors in order of priority.  A file goes to the first extractor that claims it and to
no other, also if nothing comes of it.
-/

namespace ApiCatalog

abbrev Registry := List Extractor

namespace Registry

/-- Specifications, then routing files, then annotated sources. -/
def builtin : Registry := [Specification.extractor, Controller.extractor, Annotated.extractor]

def names (registry : Registry) : List String := registry.map (·.name)

def claimant? (registry : Registry) (tree : Node) (path : Path) : Option Nat :=
  registry.findIdx? fun extractor => extractor.claims tree path

/-- The entry of a file, if an extractor claims it and finds endpoints; a failure counts as none. -/
def dispatch (registry : Registry) (tree : Node) (path : Path) (team : Option String) : Option Entry :=
  match registry.find? fun extractor => extractor.claims tree path with
  | none => none
  | some extractor =>
    match extractor.extract tree path team with
    | .ok (some entry) => if entry.endpoints.isEmpty then none else some entry
    | .ok none | .error _ => none

end Registry

end ApiCatalog
