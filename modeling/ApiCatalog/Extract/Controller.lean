import ApiCatalog.Extract.Docs
import ApiCatalog.Extract.Extractor
import ApiCatalog.Extract.Framework
/-!
# Routing files

A file is taken for a routing file by its name alone; its content decides which framework's table is
applied.
-/

namespace ApiCatalog.Controller

def sourceExtensions : List String := ["py", "js", "ts", "java", "kt", "rb", "go"]

/-- The words of which one has to be in the name of a routing file. -/
def keywords : List String := ["controller", "route", "handler", "endpoint", "api"]

def claims (path : Path) : Bool :=
  sourceExtensions.contains path.extension
    && keywords.any fun word => Text.occurs word.toList (Text.lowercase path.nameText.toList)

/-- The endpoint of a route; a declaration that mentions deprecation is deprecated. -/
def endpointOf (route : Route) : Endpoint :=
  let endpoint := Endpoint.plain (String.ofList route.method) (String.ofList route.path)
  if Text.occurs "deprecated".toList (Text.lowercase route.text) then { endpoint with status := .deprecated }
  else endpoint

def endpoints (content : List Char) (extension : String) (framework : Framework) : List Endpoint :=
  (framework.table.routes content extension).map endpointOf

def extractor : Extractor where
  name := "controller"
  claims _ path := claims path
  extract tree path team := do
    let content := (← readSource tree path).toList
    match endpoints content path.extension (Framework.detect content path.extension) with
    | [] => pure none
    | found =>
      let metadata := { Metadata.ofSource tree path team with
        title := some (sourceTitle path)
        description := (Docs.ofFile? content).map String.ofList }
      pure (some ⟨path.id, metadata, found⟩)

end ApiCatalog.Controller
