import ApiCatalog.Files.Tree
import ApiCatalog.Ignore.Glob
/-!
# Ignore rules

The lines of ignore files and what they say about a path below the folder they are in.  Of the rules of a
file the last one that matches decides.
-/

namespace ApiCatalog.Ignore

inductive Verdict where
  | undecided
  | ignored
  | kept
  deriving Repr, DecidableEq

def Verdict.or : Verdict → Verdict → Verdict
  | .undecided, other => other
  | verdict, _ => verdict

structure Rule where
  glob : Glob
  /-- The rule keeps what it matches. -/
  keeps : Bool
  /-- The rule is about folders alone. -/
  foldersOnly : Bool

def Rule.applies (rule : Rule) (path : List UInt8) (isFolder : Bool) : Bool :=
  (!rule.foldersOnly || isFolder) && rule.glob.matches_ path

abbrev Rules := List Rule

/-- What the last rule that matches says. -/
def Rules.verdict (rules : Rules) (path : List UInt8) (isFolder : Bool) : Verdict :=
  match rules.reverse.find? (·.applies path isFolder) with
  | none => .undecided
  | some rule => if rule.keeps then .kept else .ignored

/-! ## Reading -/

def endsWith (text last : List Char) : Bool := (Text.stripStart? last.reverse text.reverse).isSome

/-- The marks around a pattern: whether it keeps, whether a slash ties it to the folder of the file, whether
it is about folders alone, and the pattern itself. -/
structure Line where
  keeps : Bool
  anchored : Bool
  foldersOnly : Bool
  pattern : List Char

def Line.ofText (text : List Char) : Line :=
  let (keeps, anchored, pattern) := match text with
    | '\\' :: '!' :: rest => (false, false, '!' :: rest)
    | '\\' :: '#' :: rest => (false, false, '#' :: rest)
    | '!' :: '/' :: rest => (true, true, rest)
    | '!' :: rest => (true, false, rest)
    | '/' :: rest => (false, true, rest)
    | rest => (false, false, rest)
  match pattern.reverse with
  | '/' :: '\\' :: rest => ⟨keeps, anchored, true, rest.reverse⟩
  | '/' :: rest => ⟨keeps, anchored, true, rest.reverse⟩
  | _ => ⟨keeps, anchored, false, pattern⟩

/-- The pattern for whole paths: one without a slash may match at any depth, and one for all that is below
a folder does not match the folder. -/
def Line.whole (line : Line) : List Char :=
  let starred := (Text.stripStart? "**/".toList line.pattern).isSome || line.pattern = "**".toList
  let pattern :=
    if !line.anchored && !line.pattern.contains '/' && !starred then "**/".toList ++ line.pattern else line.pattern
  if endsWith pattern "/**".toList then pattern ++ "/*".toList else pattern

/-- The rule of a line; comments, blank lines and lines with a bad pattern have none. -/
def Rule.ofText? (text : List Char) : Option Rule := do
  if text.head? = some '#' then none
  else
    let text := if endsWith text "\\ ".toList then text else Text.trimEnd text
    if text.isEmpty then none
    else
      let line := Line.ofText text
      pure ⟨← Glob.ofText? line.whole, line.keeps, line.foldersOnly⟩

/-- The lines of a file up to the first one that is not UTF-8. -/
def readableLines (content : List UInt8) : List (List Char) :=
  let lines := linesFrom [] [] content
  let texts := (lines.map Utf8.decode?).takeWhile Option.isSome
  texts.filterMap id
where
  linesFrom (line : List UInt8) (done : List (List UInt8)) : List UInt8 → List (List UInt8)
    | [] => (if line.isEmpty then done else line.reverse :: done).reverse
    | b :: bytes =>
      if b = 10 then
        let line := match line with
          | 13 :: line => line
          | line => line
        linesFrom [] (line.reverse :: done) bytes
      else linesFrom (b :: line) done bytes

/-- The rules of a file; a byte order mark in front of it does not count. -/
def Rules.ofBytes (content : List UInt8) : Rules :=
  match readableLines content with
  | [] => []
  | first :: lines => (first.dropWhile (· == '\uFEFF') :: lines).filterMap Rule.ofText?

/-- The rules of the file at a path; none if there is no such file. -/
def Rules.load (tree : Node) (path : Path) : Rules :=
  match tree.node? path with
  | some (.file content _) => Rules.ofBytes content.toList
  | _ => []

end ApiCatalog.Ignore
