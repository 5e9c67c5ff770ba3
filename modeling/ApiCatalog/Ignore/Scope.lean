import ApiCatalog.Ignore.Rules
/-!
# Scopes of ignore rules

Ignore files speak about all that lies below their folders.  For what lies in a folder the files of the
folder itself come first, then those of the folders around it; a catalog's own ignore files go before those
of a repository, and the rules of a folder before its repository's list of excluded files.  Last comes the
list of files that a user excludes from every repository.
-/

namespace ApiCatalog.Ignore

structure Level where
  custom : Rules
  git : Rules
  exclude : Rules

namespace Level

/-- The ignore file that always counts. -/
def customName : Name := Name.ofText ".catalogignore"

def gitName : Name := Name.ofText ".gitignore"

/-- Where a repository lists what it excludes. -/
def excludeNames : List Name := [".git", "info", "exclude"].map Name.ofText

/-- Reads the ignore files of the folder where the names lead; those of a repository only if `git` says so. -/
def load (tree : Node) (git : Bool) (place : List Name) : Level :=
  let rules (names : List Name) : Rules := Rules.load tree (Path.below ⟨[]⟩ (place ++ names))
  { custom := rules [customName]
    git := if git then rules [gitName] else []
    exclude := if git then rules excludeNames else [] }

end Level

/-- The levels around a folder, nearest first, each with the names that lead from it to the folder. -/
abbrev Scope := List (Level × List Name)

namespace Scope

/-- What one kind of rules says about something in the folder: the nearest level decides. -/
def verdictOf (kind : Level → Rules) (scope : Scope) (name : Name) (isFolder : Bool) : Verdict :=
  scope.foldl (fun verdict (level, names) =>
    verdict.or ((kind level).verdict ((names ++ [name]).intersperse [Path.slash]).flatten isFolder)) .undecided

def verdict (scope : Scope) (name : Name) (isFolder : Bool) : Verdict :=
  ((verdictOf Level.custom scope name isFolder).or (verdictOf Level.git scope name isFolder)).or
    (verdictOf Level.exclude scope name isFolder)

/-- The scope of a folder in the folder, which has a level of its own. -/
def enter (scope : Scope) (name : Name) (level : Level) : Scope :=
  (level, []) :: scope.map fun (outer, names) => (outer, names ++ [name])

end Scope

/-- What a user's list of excluded files says about a path, of a folder or not. The list is no file of a
tree. -/
abbrev Excludes := Path → Bool → Verdict

/-- Nothing is excluded. -/
def Excludes.none : Excludes := fun _ _ => .undecided

end ApiCatalog.Ignore
