import ApiCatalog.Files.Path
import ApiCatalog.Time.Instant
/-!
# File trees

A tree of files, folders and symbolic links, and what paths mean in it.  A path is followed step by
step from the root of the tree; links on the way are replaced by their targets, forty times at most.
The system may refuse to open a file or a folder that can be seen.

Nothing lies outside of the tree: an absolute path, a link to one, and a path that goes up from the root of
the tree lead nowhere.  What is refused is refused whole: there is no file that can be read but not written,
and no folder that can be entered but not listed.
-/

namespace ApiCatalog

/-- Why the system does not open what is there, in its own words: that it is not permitted, or any other failure. -/
structure Refusal where
  words : String
  code : Nat
  deriving Repr, DecidableEq

inductive OsError where
  | notFound
  | notDirectory
  | isDirectory
  | alreadyExists
  | tooManyLinks
  | refused (refusal : Refusal)
  | notUtf8
  deriving Repr, DecidableEq

def OsError.message : OsError → String
  | .notFound => "No such file or directory (os error 2)"
  | .notDirectory => "Not a directory (os error 20)"
  | .isDirectory => "Is a directory (os error 21)"
  | .alreadyExists => "File exists (os error 17)"
  | .tooManyLinks => "Too many levels of symbolic links (os error 40)"
  | .refused refusal => refusal.words ++ " (os error " ++ toString refusal.code ++ ")"
  | .notUtf8 => "stream did not contain valid UTF-8"

/-- The entries of a folder have different names. -/
inductive Node where
  | file (content : ByteArray) (modified : Instant)
  | folder (entries : List (Name × Node))
  | link (target : Path)
  /-- A file that cannot be opened. -/
  | sealed (size : Nat) (modified : Instant) (refusal : Refusal)
  /-- A folder that cannot be entered. -/
  | barred (refusal : Refusal)
  deriving Inhabited

namespace Node

def emptyFolder : Node := .folder []

def isFile : Node → Bool
  | .file _ _ | .sealed _ _ _ => true
  | _ => false

/-- Whether the node is a folder that can be entered. -/
def isFolder : Node → Bool
  | .folder _ => true
  | _ => false

def isBarred : Node → Bool
  | .barred _ => true
  | _ => false

mutual

def folderCount : Node → Nat
  | .folder entries => foldersAmong entries + 1
  | _ => 0

def foldersAmong : List (Name × Node) → Nat
  | [] => 0
  | entry :: entries => foldersAt entry + foldersAmong entries

def foldersAt : Name × Node → Nat
  | (_, node) => node.folderCount

end

/-- What a folder holds under a name. -/
def named? (name : Name) (entries : List (Name × Node)) : Option Node :=
  (entries.find? (·.1 == name)).map Prod.snd

def setEntry (name : Name) (node : Node) : List (Name × Node) → List (Name × Node)
  | [] => [(name, node)]
  | e :: entries => if e.1 = name then (name, node) :: entries else e :: setEntry name node entries

/-- Puts a node where the names lead, making folders on the way where there is nothing. -/
def put : Node → List Name → Node → Node
  | _, [], new => new
  | .folder entries, name :: names, new =>
    let old := (named? name entries).getD emptyFolder
    .folder (setEntry name (put old names new) entries)
  | other, _ :: _, _ => other

def remove : Node → List Name → Node
  | .folder entries, [name] => .folder (entries.filter (·.1 ≠ name))
  | .folder entries, name :: names =>
    match named? name entries with
    | some inner => .folder (setEntry name (remove inner names) entries)
    | none => .folder entries
  | other, _ => other
termination_by _ names => names

/-! ## Following paths -/

inductive Step where
  /-- For a single dot, unlike for nothing at all, the folder has to be entered. -/
  | stay (dotted : Bool)
  | up
  | into (name : Name)
  deriving Repr, DecidableEq

def Step.ofPiece (piece : Name) : Step :=
  if piece = [] then .stay false
  else if piece = [Path.dot] then .stay true
  else if piece = [Path.dot, Path.dot] then .up
  else .into piece

/-- Where a path leads: to a node, or to a place in a folder where there is nothing. Names are those from
the root of the tree on, free of links. -/
inductive Spot where
  | node (names : List Name) (node : Node)
  | vacant (around : List Name) (name : Name)

/-- Follows steps from the end of `trail`, the nodes entered below the root, the last one first. A link at
the very end is followed only if `through` says so; how it goes on behind a link is up to `beyond`. -/
def followUpTo (root : Node) (through : Bool) (beyond : List (Name × Node) → List Step → Except OsError Spot)
    (trail : List (Name × Node)) : List Step → Except OsError Spot
  | [] => .ok (.node (trail.map (·.1)).reverse ((trail.head?.map (·.2)).getD root))
  | step :: steps =>
    match (trail.head?.map (·.2)).getD root with
    | .folder entries =>
      match step with
      | .stay _ => followUpTo root through beyond trail steps
      | .up =>
        match trail with
        | [] => .error .notFound
        | _ :: trail => followUpTo root through beyond trail steps
      | .into name =>
        match named? name entries with
        | none =>
          if steps.isEmpty then .ok (.vacant (trail.map (·.1)).reverse name) else .error .notFound
        | some (.link target) =>
          if steps.isEmpty && !through then .ok (.node (name :: trail.map (·.1)).reverse (.link target))
          -- the tree is all there is: nothing lies at an absolute place
          else if target.isAbsolute || target.bytes.isEmpty then .error .notFound
          else beyond trail (target.pieces.map Step.ofPiece ++ steps)
        | some node => followUpTo root through beyond ((name, node) :: trail) steps
    | .barred refusal =>
      if step = .stay false then followUpTo root through beyond trail steps else .error (.refused refusal)
    | _ => .error .notDirectory

/-- Follows steps through as many links as `links` says. -/
def follow (root : Node) (through : Bool) : Nat → List (Name × Node) → List Step → Except OsError Spot
  | 0 => followUpTo root through fun _ _ => .error .tooManyLinks
  | links + 1 => followUpTo root through (follow root through links)

def maxLinks : Nat := 40

/-- Where a path leads. -/
def spot (root : Node) (through : Bool) (path : Path) : Except OsError Spot :=
  if path.isAbsolute || path.bytes.isEmpty then .error .notFound
  else follow root through maxLinks [] (path.pieces.map Step.ofPiece)

/-- The node a path leads to, with the names that lead there without links. -/
def locate (root : Node) (path : Path) : Except OsError (List Name × Node) :=
  match spot root true path with
  | .ok (.node names node) => .ok (names, node)
  | .ok (.vacant _ _) => .error .notFound
  | .error e => .error e

def node? (root : Node) (path : Path) : Option Node :=
  (locate root path).toOption.map (·.2)

def hasPath (root : Node) (path : Path) : Bool := (root.node? path).isSome

def hasFile (root : Node) (path : Path) : Bool := (root.node? path).any isFile

def hasFolder (root : Node) (path : Path) : Bool := (root.node? path).any isFolder

def hasBarred (root : Node) (path : Path) : Bool := (root.node? path).any isBarred

def readText (root : Node) (path : Path) : Except OsError String :=
  match locate root path with
  | .error e => .error e
  | .ok (_, .file content _) =>
    match String.fromUTF8? content with
    | some text => .ok text
    | none => .error .notUtf8
  | .ok (_, .sealed _ _ refusal) | .ok (_, .barred refusal) => .error (.refused refusal)
  | .ok _ => .error .isDirectory

def modified? (root : Node) (path : Path) : Option Instant :=
  match root.node? path with
  | some (.file _ modified) | some (.sealed _ modified _) => some modified
  | _ => none

/-! ## Changes -/

def bare (path : Path) : Path :=
  ⟨(path.bytes.reverse.dropWhile (· == Path.slash)).reverse⟩

/-- Makes a folder; nothing may be there yet. -/
def makeFolder (root : Node) (path : Path) : Except OsError Node :=
  match spot root false (bare path) with
  | .error e => .error e
  | .ok (.node _ _) => .error .alreadyExists
  | .ok (.vacant around name) => .ok (root.put (around ++ [name]) emptyFolder)

/-- Makes a folder and those around it that are missing; `fuel` bounds how many. What could be made stays
also on failure. -/
def makeFoldersUpTo (root : Node) : Nat → Path → Node × Except OsError Unit
  | 0, _ => (root, .error .notFound)
  | fuel + 1, path =>
    if path.bytes.isEmpty then (root, .ok ())
    else
      let settle (root : Node) (e : OsError) : Node × Except OsError Unit :=
        (root, if root.hasFolder path || root.hasBarred path then .ok () else .error e)
      match makeFolder root path with
      | .ok root => (root, .ok ())
      | .error .notFound =>
        match path.parent? with
        | none => (root, .error .notFound)
        | some parent =>
          match makeFoldersUpTo root fuel parent with
          | (root, .error e) => (root, .error e)
          | (root, .ok ()) =>
            match makeFolder root path with
            | .ok root => (root, .ok ())
            | .error e => settle root e
      | .error e => settle root e

def makeFolders (root : Node) (path : Path) : Node × Except OsError Unit :=
  makeFoldersUpTo root (path.bytes.length + 1) path

def write (root : Node) (path : Path) (content : ByteArray) (now : Instant) : Except OsError Node :=
  if path.bytes.getLast? == some Path.slash then
    match spot root false (bare path) with
    | .error e => .error e
    | .ok _ => .error .isDirectory
  else
    match spot root true path with
    | .error e => .error e
    | .ok (.node names (.file _ _)) => .ok (root.put names (.file content now))
    | .ok (.node _ (.sealed _ _ refusal)) => .error (.refused refusal)
    | .ok (.node _ _) => .error .isDirectory
    | .ok (.vacant around name) => .ok (root.put (around ++ [name]) (.file content now))

end Node

end ApiCatalog
