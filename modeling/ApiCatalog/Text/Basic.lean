/-!
# Text operations

Operations on texts as lists of characters: blanks and trimming, prefixes and suffixes, first
occurrences, lines.  Functions that walk a whole document collect their result in an accumulator,
so that the length of a document does not bound what can be read.
-/

namespace ApiCatalog.Text

/-- The characters with the White_Space property. -/
def isBlank (c : Char) : Bool :=
  let n := c.toNat
  (9 ≤ n && n ≤ 13) || n == 0x20 || n == 0x85 || n == 0xA0 || n == 0x1680 || (0x2000 ≤ n && n ≤ 0x200A)
    || n == 0x2028 || n == 0x2029 || n == 0x202F || n == 0x205F || n == 0x3000

def trimStartBy (p : Char → Bool) (text : List Char) : List Char :=
  text.dropWhile p

def trimEndBy (p : Char → Bool) (text : List Char) : List Char :=
  (text.reverse.dropWhile p).reverse

def trimBy (p : Char → Bool) (text : List Char) : List Char :=
  trimEndBy p (trimStartBy p text)

def trimStart : List Char → List Char := trimStartBy isBlank

def trimEnd : List Char → List Char := trimEndBy isBlank

def trim : List Char → List Char := trimBy isBlank

/-- The text after a given beginning. -/
def stripStart? : (start text : List Char) → Option (List Char)
  | [], text => some text
  | _ :: _, [] => none
  | s :: start, c :: text => if s = c then stripStart? start text else none

/-- The text before the first occurrence of `mark` and the text after it; `passed` holds what was read
so far, nearest first. -/
def breakAtFrom? (mark passed : List Char) : List Char → Option (List Char × List Char)
  | [] => if mark.isEmpty then some (passed.reverse, []) else none
  | c :: text =>
    match stripStart? mark (c :: text) with
    | some rest => some (passed.reverse, rest)
    | none => breakAtFrom? mark (c :: passed) text

def breakAt? (mark text : List Char) : Option (List Char × List Char) :=
  breakAtFrom? mark [] text

def occurs (part : List Char) : List Char → Bool
  | [] => part.isEmpty
  | c :: text => part.isPrefixOf (c :: text) || occurs part text

/-- Cuts at each separator; `piece` and `done` hold the open piece and the closed ones, nearest first. -/
def splitFrom (sep : Char) (piece : List Char) (done : List (List Char)) : List Char → List (List Char)
  | [] => (piece.reverse :: done).reverse
  | c :: text =>
    if c = sep then splitFrom sep [] (piece.reverse :: done) text else splitFrom sep (c :: piece) done text

/-- The pieces between separators: one more than there are separators. -/
def split (sep : Char) (text : List Char) : List (List Char) :=
  splitFrom sep [] [] text

/-- A line reads up to a line feed, which with a carriage return before it belongs to neither line. -/
def linesFrom (line : List Char) (done : List (List Char)) : List Char → List (List Char)
  | [] => (if line.isEmpty then done else line.reverse :: done).reverse
  | '\n' :: text =>
    let line := match line with
      | '\r' :: line => line
      | line => line
    linesFrom [] (line.reverse :: done) text
  | c :: text => linesFrom (c :: line) done text

/-- The lines of a text without their ends; nothing after the last line feed is no line. -/
def lines (text : List Char) : List (List Char) :=
  linesFrom [] [] text

def join (sep : List Char) (pieces : List (List Char)) : List Char :=
  (pieces.intersperse sep).flatten

def byteLength (text : List Char) : Nat :=
  text.foldl (fun n c => n + c.utf8Size) 0

/-- Capitals A to Z lowered, all else kept. -/
def asciiLower (text : List Char) : List Char :=
  text.map Char.toLower

/-- Letters a to z raised, all else kept. -/
def asciiUpper (text : List Char) : List Char :=
  text.map Char.toUpper

def ofNat (n : Nat) : List Char :=
  Nat.toDigits 10 n

def padded (width n : Nat) : List Char :=
  let digits := ofNat n
  List.replicate (width - digits.length) '0' ++ digits

def filled (width : Nat) (text : List Char) : List Char :=
  text ++ List.replicate (width - text.length) ' '

end ApiCatalog.Text
