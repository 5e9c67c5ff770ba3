import ApiCatalog.Catalog.Basic
import ApiCatalog.Json.Decode
import ApiCatalog.Json.Print
/-!
# Catalog documents

A catalog as a JSON document.  All fields are written, in the order of their declaration.  When a document
is read, unknown keys are passed over, the fields that have a default may be left out, no field may come
twice, and a record may also be given as an array of its fields in order.
-/

namespace ApiCatalog

open Json (Value Reader Doc ErrorKind)

/-! ## Writing -/

namespace Json

def ofText (text : String) : Value := .string text

def ofOption (text : Option String) : Value := text.elim .null .string

/-- A timestamp ends in `Z` in a document. -/
def ofInstant (instant : Instant) : Value := .string (String.ofList (instant.text .letter))

end Json

open Json in
def Endpoint.toValue (endpoint : Endpoint) : Value :=
  .object [
    ("path", ofText endpoint.path),
    ("method", ofText endpoint.method),
    ("description", ofOption endpoint.description),
    ("summary", ofOption endpoint.summary),
    ("parameters", .array endpoint.parameters),
    ("responses", .object endpoint.responses),
    ("tags", .array (endpoint.tags.map ofText)),
    ("status", ofText endpoint.status.text)]

open Json in
def Metadata.toValue (metadata : Metadata) : Value :=
  .object [
    ("team_owner", ofOption metadata.teamOwner),
    ("last_updated", metadata.lastUpdated.elim .null ofInstant),
    ("version", ofOption metadata.version),
    ("title", ofOption metadata.title),
    ("description", ofOption metadata.description),
    ("source_file", ofText metadata.sourceFile),
    ("base_url", ofOption metadata.baseUrl)]

open Json in
def Entry.toValue (entry : Entry) : Value :=
  .object [
    ("id", ofText entry.id),
    ("metadata", entry.metadata.toValue),
    ("endpoints", .array (entry.endpoints.map Endpoint.toValue))]

open Json in
def Catalog.toValue (catalog : Catalog) : Value :=
  .object [
    ("generated_at", ofInstant catalog.generatedAt),
    ("entries", .array (catalog.entries.map Entry.toValue))]

def Catalog.toJson (catalog : Catalog) : String := catalog.toValue.pretty

/-! ## Reading -/

open Json.Reader

def Instant.reader : Reader Instant := fun depth doc => do
  match Instant.ofText? (← string depth doc).toList with
  | some instant => pure instant
  | none => throw .shape

/-- The error met where a status has to come and the text breaks off; only a string or an object can
start one. -/
def Status.fault : Json.Fault → ErrorKind
  | .broken (.string spoiled atEnd) => (Json.Broken.string spoiled atEnd).wanted
  | .ended => .ended
  | _ => .grammar

/-- The status that a key names, and `null` behind it. -/
def Status.variant (key : Json.Key) (content : Option Doc) (fault : Option Json.Fault) : Except ErrorKind Status := do
  match Status.ofText? (← Json.Reader.key key) with
  | none => throw .shape
  | some status =>
    match content, fault with
    | some (.scalar .null), _ => pure status
    | some doc, _ => throw (mismatch doc)
    | none, some fault => throw fault.wanted
    | none, none => throw .grammar

/-- The error of an object for a status that breaks off before its key, or has none. -/
def Status.keyError : Option Json.Cut → ErrorKind
  | none => .grammar
  | some ⟨_, _, .misplaced (.broken b)⟩ => b.wanted
  | some ⟨_, _, .misplaced (.scalar (.number none))⟩ => .grammar
  | some ⟨_, _, .misplaced (.scalar _)⟩ => .shape
  | some ⟨_, _, .misplaced .openArray⟩ | some ⟨_, _, .misplaced .openObject⟩ => .shape
  | some cut => cut.fault.wanted

/-- Reads a status: its name, or an object with its name as the only key and `null` as the value. -/
def Status.reader : Reader Status
  | _, .scalar (.string text) => do
    match Status.ofText? (← key text) with
    | some status => pure status
    | none => throw .shape
  | 0, .object _ _ => .error .grammar
  | _ + 1, .object [] (some ⟨_, some name, fault⟩) => Status.variant name none (some fault)
  | _ + 1, .object [] cut => .error (Status.keyError cut)
  | _ + 1, .object ((name, doc) :: more) cut => do
    let status ← Status.variant name (some doc) none
    if !more.isEmpty then throw .grammar
    match cut with
    | none => pure status
    | some ⟨_, some _, _⟩ | some ⟨true, _, _⟩ => throw .grammar
    | some cut => throw (if cut.fault matches .ended then .ended else .grammar)
  | _, _ => .error .grammar

structure Endpoint.Draft where
  path : Option String := none
  method : Option String := none
  description : Option (Option String) := none
  summary : Option (Option String) := none
  parameters : Option (List Value) := none
  responses : Option Json.Members := none
  tags : Option (List String) := none
  status : Option Status := none

def Endpoint.fields : List (Slot Endpoint.Draft) := [
  slot "path" (·.path) (fun d a => { d with path := some a }) string,
  slot "method" (·.method) (fun d a => { d with method := some a }) string,
  slot "description" (·.description) (fun d a => { d with description := some a }) (optional string),
  slot "summary" (·.summary) (fun d a => { d with summary := some a }) (optional string),
  slot "parameters" (·.parameters) (fun d a => { d with parameters := some a }) (list value),
  slot "responses" (·.responses) (fun d a => { d with responses := some a }) members,
  slot "tags" (·.tags) (fun d a => { d with tags := some a }) (list string),
  { slot "status" (·.status) (fun d a => { d with status := some a }) Status.reader with fault := Status.fault }]

/-- Only path and method are required. -/
def Endpoint.Draft.finish (draft : Endpoint.Draft) : Option Endpoint := do
  let path ← draft.path
  let method ← draft.method
  pure {
    path, method
    description := draft.description.getD none
    summary := draft.summary.getD none
    parameters := draft.parameters.getD []
    responses := draft.responses.getD []
    tags := draft.tags.getD []
    status := draft.status.getD .active }

def Endpoint.reader : Reader Endpoint := record Endpoint.fields {} Endpoint.Draft.finish

structure Metadata.Draft where
  teamOwner : Option (Option String) := none
  lastUpdated : Option (Option Instant) := none
  version : Option (Option String) := none
  title : Option (Option String) := none
  description : Option (Option String) := none
  sourceFile : Option String := none
  baseUrl : Option (Option String) := none

def Metadata.fields : List (Slot Metadata.Draft) := [
  slot "team_owner" (·.teamOwner) (fun d a => { d with teamOwner := some a }) (optional string),
  slot "last_updated" (·.lastUpdated) (fun d a => { d with lastUpdated := some a }) (optional Instant.reader),
  slot "version" (·.version) (fun d a => { d with version := some a }) (optional string),
  slot "title" (·.title) (fun d a => { d with title := some a }) (optional string),
  slot "description" (·.description) (fun d a => { d with description := some a }) (optional string),
  slot "source_file" (·.sourceFile) (fun d a => { d with sourceFile := some a }) string,
  slot "base_url" (·.baseUrl) (fun d a => { d with baseUrl := some a }) (optional string)]

/-- Nothing is required. -/
def Metadata.Draft.finish (draft : Metadata.Draft) : Option Metadata :=
  some {
    teamOwner := draft.teamOwner.getD none
    lastUpdated := draft.lastUpdated.getD none
    version := draft.version.getD none
    title := draft.title.getD none
    description := draft.description.getD none
    sourceFile := draft.sourceFile.getD ""
    baseUrl := draft.baseUrl.getD none }

def Metadata.reader : Reader Metadata := record Metadata.fields {} Metadata.Draft.finish

structure Entry.Draft where
  id : Option String := none
  metadata : Option Metadata := none
  endpoints : Option (List Endpoint) := none

def Entry.fields : List (Slot Entry.Draft) := [
  slot "id" (·.id) (fun d a => { d with id := some a }) string,
  slot "metadata" (·.metadata) (fun d a => { d with metadata := some a }) Metadata.reader,
  slot "endpoints" (·.endpoints) (fun d a => { d with endpoints := some a }) (list Endpoint.reader)]

/-- Only the endpoints may be left out. -/
def Entry.Draft.finish (draft : Entry.Draft) : Option Entry := do
  pure { id := ← draft.id, metadata := ← draft.metadata, endpoints := draft.endpoints.getD [] }

def Entry.reader : Reader Entry := record Entry.fields {} Entry.Draft.finish

structure Catalog.Draft where
  generatedAt : Option Instant := none
  entries : Option (List Entry) := none

def Catalog.fields : List (Slot Catalog.Draft) := [
  slot "generated_at" (·.generatedAt) (fun d a => { d with generatedAt := some a }) Instant.reader,
  slot "entries" (·.entries) (fun d a => { d with entries := some a }) (list Entry.reader)]

/-- Only the entries may be left out. -/
def Catalog.Draft.finish (draft : Catalog.Draft) : Option Catalog := do
  pure { generatedAt := ← draft.generatedAt, entries := draft.entries.getD [] }

def Catalog.reader : Reader Catalog := record Catalog.fields {} Catalog.Draft.finish

def Catalog.ofJson (text : String) : Except ErrorKind Catalog :=
  Json.Reader.run Catalog.reader text.toList

/-- Reads an entry from a value, which can only have the wrong shape. -/
def Entry.ofValue (value : Value) : Except ErrorKind Entry :=
  (Entry.reader Json.Reader.maxDepth (Doc.ofValue value)).mapError fun _ => .shape

end ApiCatalog
