import ApiCatalog.Text.Basic
import ApiCatalog.Text.Utf8
import ApiCatalog.Hash.XXH3
/-!
# Paths

A path is a sequence of bytes, in which slashes part the steps.  It need not be UTF-8: it is shown with
U+FFFD where it is not.
-/

namespace ApiCatalog

abbrev Name := List UInt8

def Name.ofText (text : String) : Name := Utf8.encode text.toList

/-- A name as text; nothing if it is not UTF-8. -/
def Name.text? (name : Name) : Option String := (Utf8.decode? name).map String.ofList

structure Path where
  bytes : List UInt8
  deriving Repr, DecidableEq

namespace Path

def slash : UInt8 := 47

def dot : UInt8 := 46

def ofText (text : String) : Path := ⟨Utf8.encode text.toList⟩

def text (path : Path) : String := String.ofList (Utf8.decodeLossy path.bytes)

/-- Cuts at slashes; `piece` and `done` are held nearest first. -/
def splitFrom (piece : Name) (done : List Name) : List UInt8 → List Name
  | [] => (piece.reverse :: done).reverse
  | b :: bytes => if b = slash then splitFrom [] (piece.reverse :: done) bytes else splitFrom (b :: piece) done bytes

/-- What stands between slashes. -/
def pieces (path : Path) : List Name := splitFrom [] [] path.bytes

/-- The steps that are not idle: neither empty nor a single dot. -/
def steps (path : Path) : List Name :=
  path.pieces.filter fun piece => piece ≠ [] && piece ≠ [dot]

/-- The name that the path ends with; none if it ends going up or has no step. -/
def name? (path : Path) : Option Name :=
  match path.steps.getLast? with
  | none => none
  | some name => if name = [dot, dot] then none else some name

/-- The name as text, empty if there is none or it is not UTF-8. -/
def nameText (path : Path) : String :=
  (path.name?.bind Name.text?).getD ""

/-- What stands behind the last dot of a name, unless the dot is its first byte. -/
def Name.extension? (name : Name) : Option Name :=
  let behind := name.reverse.takeWhile (· ≠ dot)
  if behind.length + 1 < name.length then some behind.reverse else none

/-- The extension in lower case, without the dot; empty if there is none or it is not UTF-8. -/
def extension (path : Path) : String :=
  ((path.name?.bind Name.extension?).bind Name.text?).elim "" fun e => String.ofList (Text.asciiLower e.toList)

def isAbsolute (path : Path) : Bool := path.bytes.head? == some slash

def child (path : Path) (name : Name) : Path :=
  if path.bytes.isEmpty then ⟨name⟩
  else if path.bytes.getLast? == some slash then ⟨path.bytes ++ name⟩
  else ⟨path.bytes ++ slash :: name⟩

/-- A name below a name below … the path. -/
def below (path : Path) (names : List Name) : Path :=
  names.foldl child path

/-- Drops idle steps and slashes at the end, with the bytes held in reverse; `fuel` is the length. -/
def dropIdle : Nat → List UInt8 → List UInt8
  | 0, bytes => bytes
  | fuel + 1, b :: c :: bytes =>
    if b = slash then dropIdle fuel (c :: bytes)
    else if b = dot ∧ c = slash then dropIdle fuel (c :: bytes)
    else b :: c :: bytes
  | _, bytes => bytes

/-- The path without its last step; none if there is no step to take off. -/
def parent? (path : Path) : Option Path :=
  let trimmed := dropIdle path.bytes.length path.bytes.reverse
  let front := trimmed.dropWhile (· ≠ slash)
  if trimmed.isEmpty || trimmed = [slash] then none
  else some ⟨(dropIdle front.length front).reverse⟩

/-- The identifier of the file at a path: twelve hexadecimal digits that depend on the path as shown. -/
def id (path : Path) : String :=
  let hash := XXH3.hash (Utf8.encode (Utf8.decodeLossy path.bytes)).toArray
  let digits := Nat.toDigits 16 hash.toNat
  String.ofList ((List.replicate (16 - digits.length) '0' ++ digits).take 12)

end Path

end ApiCatalog
