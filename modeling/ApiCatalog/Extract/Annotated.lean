import ApiCatalog.Extract.Docs
import ApiCatalog.Extract.Extractor
import ApiCatalog.Extract.Language
/-!
# Annotated sources

A source in a known language is looked into if it has any sign of a route annotation.  Each route takes
its documentation from the block before it.
-/

namespace ApiCatalog.Annotated

def indicatorPatterns : List String := [
  "@\\w+\\.(get|post|put|delete|patch)\\(",
  "@(Get|Post|Put|Delete|Patch)Mapping",
  "@RequestMapping",
  "@(Get|Post|Put|Delete|Patch)\\(",
  "@Route\\(",
  "@Path\\(",
  "@api\\."]

/-- Indicators disregard case. -/
def options : Pattern.Options := ⟨true, false⟩

def indicators : List Regex := indicatorPatterns.filterMap (Regex.ofPattern? options)

def hasIndicator (content : List Char) : Bool :=
  indicators.any (·.occursIn content)

def endpointOf (route : Route) : Endpoint :=
  let docs := Docs.before route.start.passed
  { Endpoint.plain (String.ofList route.method) (String.ofList route.path) with
    summary := docs.summary.map String.ofList
    description := docs.description.map String.ofList
    tags := docs.tags.map String.ofList }

def endpoints (content : List Char) (extension : String) (language : Language) : List Endpoint :=
  (language.table.routes content extension).map endpointOf

/-- Whether the file at a path is in a known language and has a sign of route annotations. -/
def claims (tree : Node) (path : Path) : Bool :=
  (Language.ofExtension? path.extension).isSome
    && match readSource tree path with
      | .ok content => hasIndicator content.toList
      | .error _ => false

def extractor : Extractor where
  name := "annotation"
  claims := claims
  extract tree path team := do
    match Language.ofExtension? path.extension with
    | none => pure none
    | some language =>
      let content := (← readSource tree path).toList
      match endpoints content path.extension language with
      | [] => pure none
      | found =>
        let metadata := { Metadata.ofSource tree path team with
          title := some (sourceTitle path)
          description := ((Docs.ofClass? content).or (Docs.ofFile? content)).map String.ofList }
        pure (some ⟨path.id, metadata, found⟩)

end ApiCatalog.Annotated
