import ApiCatalog.Json.Value
import ApiCatalog.Time.Instant
/-!
# Catalogs

A catalog lists the sources in which endpoints were found, in the order in which they were added, and
the endpoints of each in the order in which they were found.
-/

namespace ApiCatalog

inductive Status where
  | active
  | deprecated
  | beta
  | internal
  deriving Repr, DecidableEq

namespace Status

def text : Status → String
  | .active => "active"
  | .deprecated => "deprecated"
  | .beta => "beta"
  | .internal => "internal"

def all : List Status := [.active, .deprecated, .beta, .internal]

def ofText? (text : String) : Option Status :=
  all.find? fun status => status.text == text

theorem ofText?_text (status : Status) : ofText? status.text = some status := by
  cases status <;> decide

end Status

/-- One HTTP route with its documentation. Parameters and responses are kept as they stand in the
specification they come from. -/
structure Endpoint where
  path : String
  method : String
  description : Option String
  summary : Option String
  parameters : List Json.Value
  responses : Json.Members
  tags : List String
  status : Status

/-- An endpoint without documentation. -/
def Endpoint.plain (method path : String) : Endpoint :=
  { path, method, description := none, summary := none, parameters := [], responses := [], tags := []
    status := .active }

structure Metadata where
  teamOwner : Option String
  lastUpdated : Option Instant
  version : Option String
  title : Option String
  description : Option String
  sourceFile : String
  baseUrl : Option String

def Metadata.blank : Metadata := ⟨none, none, none, none, none, "", none⟩

structure Entry where
  id : String
  metadata : Metadata
  endpoints : List Endpoint

structure Catalog where
  generatedAt : Instant
  entries : List Entry

namespace Catalog

def empty (generatedAt : Instant) : Catalog := ⟨generatedAt, []⟩

def add (catalog : Catalog) (entry : Entry) : Catalog :=
  { catalog with entries := catalog.entries ++ [entry] }

def endpoints (catalog : Catalog) : List Endpoint :=
  catalog.entries.flatMap (·.endpoints)

def endpointCount (catalog : Catalog) : Nat :=
  catalog.entries.foldl (fun n entry => n + entry.endpoints.length) 0

theorem endpointCount_eq (catalog : Catalog) : catalog.endpointCount = catalog.endpoints.length := by
  suffices h : ∀ (entries : List Entry) (n : Nat),
      entries.foldl (fun n entry => n + entry.endpoints.length) n = n + (entries.flatMap (·.endpoints)).length by
    simpa [endpointCount, endpoints] using h catalog.entries 0
  intro entries
  induction entries with
  | nil => simp
  | cons entry entries ih => intro n; simp [ih, Nat.add_assoc]

end Catalog

end ApiCatalog
