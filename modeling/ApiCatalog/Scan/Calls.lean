import ApiCatalog.Scan.Basic
/-!
# Calls of extractors

A scan that keeps a record of its calls: which extractor was called for which file.  The extractors of a registry are
asked in their order whether they claim a file, and one that does is called.
-/

namespace ApiCatalog

structure Call where
  position : Nat
  file : Path
  deriving Repr, DecidableEq

/-- What is done while the calls are recorded, in their order. -/
abbrev Recorded := StateM (List Call)

def Extractor.call (extractor : Extractor) (position : Nat) (tree : Node) (file : Path) (team : Option String) :
    Recorded (Except ExtractError (Option Entry)) := do
  modify (· ++ [⟨position, file⟩])
  pure (extractor.extract tree file team)

namespace Registry

/-- Hands a file over to the first extractor from a position on that claims it. -/
def dispatchFrom (tree : Node) (file : Path) (team : Option String) (position : Nat) :
    Registry → Recorded (Option Entry)
  | [] => pure none
  | extractor :: registry =>
    if extractor.claims tree file then do
      match ← extractor.call position tree file team with
      | .ok (some entry) => pure (if entry.endpoints.isEmpty then none else some entry)
      | .ok none | .error _ => pure none
    else dispatchFrom tree file team (position + 1) registry

def gather (registry : Registry) (tree : Node) (team : Option String) (catalog : Catalog) :
    List Path → Recorded Catalog
  | [] => pure catalog
  | file :: files => do
    match ← registry.dispatchFrom tree file team 0 with
    | some entry => gather registry tree team (catalog.add entry) files
    | none => gather registry tree team catalog files

end Registry

def scanRecorded (tree : Node) (registry : Registry) (options : ScanOptions) (root : Path) (now : Instant)
    (excludes : Ignore.Excludes := .none) : Recorded (Except ScanError Catalog) :=
  match scanFiles tree options root excludes with
  | .error e => pure (.error e)
  | .ok files => do pure (.ok (← registry.gather tree options.teamOwner (.empty now) files))

end ApiCatalog
