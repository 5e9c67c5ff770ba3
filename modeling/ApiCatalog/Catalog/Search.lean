import ApiCatalog.Catalog.Basic
import ApiCatalog.Text.Case
/-!
# Searching a catalog

A query is found in an endpoint if, both lowered, it occurs in the path, the description, the summary or
one of the tags.  Hits come in the order of the catalog.
-/

namespace ApiCatalog

/-- Whether a text holds a query that has been lowered. -/
def holdsLowered (needle : List Char) (text : String) : Bool :=
  Text.occurs needle (Text.lowercase text.toList)

def Endpoint.searched (endpoint : Endpoint) : List String :=
  endpoint.path :: (endpoint.description.toList ++ endpoint.summary.toList ++ endpoint.tags)

def Endpoint.holds (endpoint : Endpoint) (needle : List Char) : Bool :=
  endpoint.searched.any (holdsLowered needle)

namespace Catalog

def rows (catalog : Catalog) : List (Entry × Endpoint) :=
  catalog.entries.flatMap fun entry => entry.endpoints.map fun endpoint => (entry, endpoint)

def searchEntries (catalog : Catalog) (query : String) : List (Entry × Endpoint) :=
  let needle := Text.lowercase query.toList
  catalog.rows.filter fun row => row.2.holds needle

/-- The endpoints that hold a query, or whose method does, with their entries. -/
def searchEntriesWithMethod (catalog : Catalog) (query : String) : List (Entry × Endpoint) :=
  let needle := Text.lowercase query.toList
  catalog.rows.filter fun row => holdsLowered needle row.2.method || row.2.holds needle

def search (catalog : Catalog) (query : String) : List Endpoint :=
  (catalog.searchEntries query).map (·.2)

end Catalog

end ApiCatalog
