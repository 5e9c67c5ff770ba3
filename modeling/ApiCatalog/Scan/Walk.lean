import ApiCatalog.Config.Basic
import ApiCatalog.Ignore.Scope
/-!
# Walking a folder

The files below a folder that a scan looks at.  Hidden files and folders, folders with a pruned name, large
files and what ignore files rule out are passed over, and so is what is in a folder that cannot be entered.
The files come in ascending order of the names that lead to them.
-/

namespace ApiCatalog

open Ignore (Excludes Level Scope)

def usuallyPruned : List String := [
  "node_modules", ".git", "dist", "build", "target", ".next", ".nuxt", "__pycache__", ".pytest_cache",
  "coverage", ".nyc_output", "vendor", ".venv", "venv", ".tox", ".mypy_cache", "bin", "obj"]

namespace Walk

/-- What holds for a whole walk. -/
structure Plan where
  tree : Node
  options : ScanOptions
  /-- Folders of these names are not entered. -/
  pruned : List Name
  excludes : Excludes

/-- The user's list counts only for a scan that heeds the rules of repositories. -/
def Plan.of (tree : Node) (options : ScanOptions) (excludes : Excludes) : Plan :=
  ⟨tree, options, (usuallyPruned ++ options.extraIgnore).map Name.ofText,
    if options.respectsGitignore then excludes else .none⟩

/-- A folder on the way. -/
structure Stand where
  /-- The path that the walk took to it. -/
  path : Path
  /-- The names that lead to it from the root of the tree, free of links. -/
  place : List Name
  /-- The places of the folders that the walk came through. -/
  passed : List (List Name)
  scope : Scope

namespace Stand

/-- Whether what is ignored and the name allow to look at something in the folder. -/
def admits (stand : Stand) (plan : Plan) (name : Name) (isFolder : Bool) : Bool :=
  match (stand.scope.verdict name isFolder).or (plan.excludes (stand.path.child name) isFolder) with
  | .ignored => false
  | .kept => true
  | .undecided => name.head? != some Path.dot

/-- The folder in the folder; `place` is where it is in the tree. -/
def enter (plan : Plan) (stand : Stand) (name : Name) (place : List Name) : Stand where
  path := stand.path.child name
  place := place
  passed := stand.place :: stand.passed
  scope := stand.scope.enter name (Level.load plan.tree plan.options.respectsGitignore place)

end Stand

def looksAt (plan : Plan) (stand : Stand) (name : Name) (size : Nat) : Bool :=
  stand.admits plan name false && size ≤ plan.options.sizeLimit

def enters (plan : Plan) (stand : Stand) (name : Name) : Bool :=
  plan.options.isRecursive && stand.admits plan name true && !plan.pruned.contains name

/-- What a link in the folder leads to; nothing if it is broken or leads back to a folder on the way. -/
def target? (plan : Plan) (stand : Stand) (name : Name) : Option (List Name × Node) :=
  match plan.tree.locate (stand.path.child name) with
  | .error _ => none
  | .ok (place, node) =>
    if node.isFolder && (stand.place :: stand.passed).contains place then none else some (place, node)

section
variable (plan : Plan) (beyond : Stand → Node → List (List Name))

mutual

/-- The files below a folder, by the names that lead to them from it; `beyond` lists those below a
folder that a link leads to. -/
def filesBelow (stand : Stand) : Node → List (List Name)
  | .folder entries => filesAmong stand entries
  | _ => []

def filesAmong (stand : Stand) : List (Name × Node) → List (List Name)
  | [] => []
  | entry :: entries => filesAt stand entry ++ filesAmong stand entries

def filesAt (stand : Stand) : Name × Node → List (List Name)
  | (name, .file content _) => if looksAt plan stand name content.size then [[name]] else []
  | (name, .sealed size _ _) => if looksAt plan stand name size then [[name]] else []
  | (_, .barred _) => []
  | (name, .folder entries) =>
    if enters plan stand name then
      (filesAmong (stand.enter plan name (stand.place ++ [name])) entries).map (name :: ·)
    else []
  | (name, .link _) =>
    if plan.options.followsSymlinks then
      match target? plan stand name with
      | some (_, .file content _) => if looksAt plan stand name content.size then [[name]] else []
      | some (_, .sealed size _ _) => if looksAt plan stand name size then [[name]] else []
      | some (place, .folder inner) =>
        if enters plan stand name then (beyond (stand.enter plan name place) (.folder inner)).map (name :: ·) else []
      | _ => []
    else []

end

end

/-- The files below a folder, with at most so many links to folders on the way. -/
def filesUpTo (plan : Plan) : Nat → Stand → Node → List (List Name)
  | 0 => filesBelow plan fun _ _ => []
  | links + 1 => filesBelow plan (filesUpTo plan links)

/-- Each link on the way leads to a folder that was not passed yet. -/
def maxLinks (tree : Node) : Nat := tree.folderCount + 1

def levelsAround (tree : Node) (place : List Name) : Scope :=
  (List.range place.length).reverse.map fun n => (Level.load tree true (place.take n), place.drop n)

/-- The folder where a walk starts. Folders around it count only for a scan that heeds the rules of
repositories. -/
def start (plan : Plan) (root : Path) (place : List Name) : Stand where
  path := root
  place := place
  passed := []
  scope :=
    let git := plan.options.respectsGitignore
    (Level.load plan.tree git place, []) :: (if git then levelsAround plan.tree place else [])

/-- Ascending order of names, step by step. -/
def precedes (a b : List Name) : Bool := !decide (b < a)

/-- A single hyphen stands for no folder. -/
def isHyphen (root : Path) : Bool :=
  root.steps = [[45]] && root.bytes.head? = some 45

/-- The files that a scan of a folder looks at, by the names that lead to them from it. -/
def names (tree : Node) (options : ScanOptions) (root : Path) (excludes : Excludes := .none) :
    Except OsError (List (List Name)) :=
  match tree.locate root with
  | .error e => .error e
  | .ok (_, .barred refusal) => .error (.refused refusal)
  | .ok (place, node) =>
    if !node.isFolder then .error .notDirectory
    else if isHyphen root then .ok []
    else
      let plan := Plan.of tree options excludes
      .ok ((filesUpTo plan (maxLinks tree) (start plan root place) node).mergeSort precedes)

end Walk

/-- Lists the files that a scan of a folder looks at. -/
def walk (tree : Node) (options : ScanOptions) (root : Path) (excludes : Excludes := .none) :
    Except OsError (List Path) :=
  (Walk.names tree options root excludes).map (·.map root.below)

end ApiCatalog
