import ApiCatalog.Text.Basic
/-!
# YAML text

Where a reader of a YAML text stands, and the classes of characters that decide how it goes on.
-/

namespace ApiCatalog.Yaml

def isAllowed (c : Char) : Bool :=
  let n := c.toNat
  n == 0x09 || n == 0x0A || n == 0x0D || (0x20 ≤ n && n ≤ 0x7E) || n == 0x85 || (0xA0 ≤ n && n ≤ 0xD7FF)
    || (0xE000 ≤ n && n ≤ 0xFFFD) || 0x10000 ≤ n

def isBreak (c : Char) : Bool :=
  c == '\n' || c == '\r' || c == '\x85' || c == '\u2028' || c == '\u2029'

def isBlank (c : Char) : Bool := c == ' ' || c == '\t'

/-- A blank, a break, or the end of the text. -/
def isSpacing : Option Char → Bool
  | none => true
  | some c => isBlank c || isBreak c

def isNameChar (c : Char) : Bool := c.isAlphanum || c == '_' || c == '-'

/-- A place in a text: the length of the text, what is left of it, how many characters were read, and line
and column. -/
structure Source where
  size : Nat
  rest : List Char
  index : Nat
  line : Nat
  column : Nat

namespace Source

def ofText (text : List Char) : Source := ⟨text.length, text, 0, 0, 0⟩

def peek (src : Source) (n : Nat) : Option Char := src.rest[n]?

def at_ (src : Source) (n : Nat) (c : Char) : Bool := src.rest[n]? == some c

/-- Passes over characters that are not breaks. -/
def skip (src : Source) (n : Nat) : Source :=
  { src with rest := src.rest.drop n, index := src.index + n, column := src.column + n }

/-- Passes over a break; the two characters of a Windows line end are one. -/
def skipBreak (src : Source) : Source :=
  match src.rest with
  | '\r' :: '\n' :: rest => { src with rest, index := src.index + 2, line := src.line + 1, column := 0 }
  | c :: rest =>
    if isBreak c then { src with rest, index := src.index + 1, line := src.line + 1, column := 0 } else src
  | [] => src

/-- The break that is passed over as it is kept in a scalar: line and paragraph separators stay, all
others are line feeds. -/
def breakText (src : Source) : List Char :=
  match src.rest with
  | [] => []
  | c :: _ =>
    if c == '\u2028' || c == '\u2029' then [c] else if isBreak c then ['\n'] else []

/-- The longest run of characters of a class, none of them a break, and the place behind it. -/
def takeWhile (src : Source) (p : Char → Bool) : List Char × Source :=
  let run := src.rest.takeWhile p
  (run, src.skip run.length)

def skipWhile (src : Source) (p : Char → Bool) : Source := (src.takeWhile p).2

/-- Passes over a byte order mark at the start of a line, which takes a column. -/
def skipOrderMark (src : Source) : Source :=
  if src.column == 0 && src.at_ 0 '\uFEFF' then src.skip 1 else src

def skipBlanks (src : Source) : Source := src.skipWhile isBlank

def skipComment (src : Source) : Source :=
  if src.at_ 0 '#' then src.skipWhile (!isBreak ·) else src

/-- Passes over blanks, a comment and the end of the line; nothing else may stand there. -/
def endLine? (src : Source) : Option Source :=
  let src := src.skipBlanks.skipComment
  match src.rest with
  | [] => some src
  | c :: _ => if isBreak c then some src.skipBreak else none

/-- Whether a mark of three equal characters, followed by spacing, starts the line here. -/
def marks (src : Source) (c : Char) : Bool :=
  src.column == 0 && src.at_ 0 c && src.at_ 1 c && src.at_ 2 c && isSpacing (src.peek 3)

def atDocumentMark (src : Source) : Bool := src.marks '-' || src.marks '.'

end Source

end ApiCatalog.Yaml
