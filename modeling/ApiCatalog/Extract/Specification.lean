import ApiCatalog.Extract.Extractor
import ApiCatalog.Json.Decode
import ApiCatalog.Yaml.Value
/-!
# API specifications

JSON and YAML documents that describe an API.  A document is taken for a specification if it has one of the
marking keys at its top; its endpoints are the operations below its paths.
-/

namespace ApiCatalog.Specification

open Json (Value Members)

def methods : List String := ["GET", "POST", "PUT", "DELETE", "PATCH", "HEAD", "OPTIONS"]

def documentExtensions : List String := ["json", "yaml", "yml"]

def markers : List String := ["openapi", "swagger"]

/-- Reads a document: JSON by its extension, YAML otherwise. -/
def parse? (content extension : String) : Option Value :=
  if extension = "json" then (Json.parse content.toList).toOption
  else (Yaml.Value.ofText? content.toList).map Yaml.Value.toJson

def isSpecification (document : Value) : Bool :=
  document.object?.any fun root => markers.any fun key => (root.get? key).isSome

/-- The text of a scalar other than null. -/
def scalarText? : Value → Option String
  | .string s => some s
  | .number n => some (String.ofList n.text)
  | .bool b => some (if b then "true" else "false")
  | _ => none

/-- The URL of the first server, or else one made of scheme, host and base path. -/
def baseUrl? (root : Members) : Option String :=
  match (root.get? "servers").bind Value.array? with
  | some (first :: _) => (first.get? "url").bind Value.string?
  | _ => do
    let host ← (root.get? "host").bind scalarText?
    let scheme := (((root.get? "schemes").bind Value.array?).bind (·.head?)).bind Value.string?
    let path := (root.get? "basePath").bind Value.string?
    pure (scheme.getD "https" ++ "://" ++ host ++ path.getD "")

/-- Deprecation comes first, then the tags `beta` and `internal`. -/
def statusOf (deprecated : Bool) (tags : List String) : Status :=
  if deprecated then .deprecated
  else if tags.contains "beta" then .beta
  else if tags.contains "internal" then .internal
  else .active

def endpointOf (path method : String) (operation : Members) : Endpoint :=
  let tags := (((operation.get? "tags").bind Value.array?).getD []).filterMap Value.string?
  let deprecated := ((operation.get? "deprecated").bind Value.bool?).getD false
  { path, method
    description := (operation.get? "description").bind Value.string?
    summary := (operation.get? "summary").bind Value.string?
    parameters := ((operation.get? "parameters").bind Value.array?).getD []
    responses := ((operation.get? "responses").bind Value.object?).getD []
    tags
    status := statusOf deprecated tags }

def operation? (path : String) (member : String × Value) : Option Endpoint :=
  let method := String.ofList (Text.asciiUpper member.1.toList)
  if methods.contains method then member.2.object?.map (endpointOf path method) else none

/-- The endpoints of a specification: path after path, operation after operation. -/
def endpoints (root : Members) : List Endpoint :=
  (((root.get? "paths").bind Value.object?).getD []).flatMap fun (path, item) =>
    (item.object?.getD []).filterMap (operation? path)

def load (tree : Node) (path : Path) : Except ExtractError Value := do
  match parse? (← readSource tree path) path.extension with
  | some document => pure document
  | none => throw (.malformed path)

def claims (tree : Node) (path : Path) : Bool :=
  documentExtensions.contains path.extension
    && match load tree path with
      | .ok document => isSpecification document
      | .error _ => false

/-- The entry of a specification; none if it has no operation. -/
def described? (tree : Node) (path : Path) (team : Option String) (root : Members) : Option Entry :=
  match endpoints root with
  | [] => none
  | found =>
    let info (key : String) : Option String := ((root.get? "info").bind (·.get? key)).bind scalarText?
    let metadata := { Metadata.ofSource tree path team with
      title := info "title"
      version := info "version"
      description := info "description"
      baseUrl := baseUrl? root }
    some ⟨path.id, metadata, found⟩

def extractor : Extractor where
  name := "openapi"
  claims := claims
  extract tree path team := do
    match (← load tree path).object? with
    | some root => pure (described? tree path team root)
    | none => throw (.notMapping path)

end ApiCatalog.Specification
