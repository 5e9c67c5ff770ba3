import ApiCatalog.Catalog.Basic
/-!
# Statistics

How many endpoints of a catalog there are, by method and by status.
-/

namespace ApiCatalog

/-- How often each text was met, in ascending order of the texts. -/
abbrev Tally := List (String × Nat)

namespace Tally

def count (text : String) : Tally → Tally
  | [] => [(text, 1)]
  | (other, n) :: tally =>
    if text < other then (text, 1) :: (other, n) :: tally
    else if text = other then (other, n + 1) :: tally
    else (other, n) :: count text tally

def get (tally : Tally) (text : String) : Nat :=
  ((tally.find? (·.1 == text)).map (·.2)).getD 0

end Tally

structure Stats where
  sources : Nat
  endpoints : Nat
  byMethod : Tally
  byStatus : Tally
  deriving Repr, DecidableEq

namespace Stats

def tally (stats : Stats) (endpoint : Endpoint) : Stats :=
  { stats with
    endpoints := stats.endpoints + 1
    byMethod := stats.byMethod.count endpoint.method
    byStatus := stats.byStatus.count endpoint.status.text }

def active (stats : Stats) : Nat :=
  stats.byStatus.get Status.active.text

end Stats

def Catalog.stats (catalog : Catalog) : Stats :=
  catalog.endpoints.foldl Stats.tally ⟨catalog.entries.length, 0, [], []⟩

end ApiCatalog
