import ApiCatalog.Yaml.Source
import ApiCatalog.Text.Utf8
/-!
# Scalars of YAML texts

The text that quoted, plain and block scalars stand for.  Each reader is given the place where the scalar
starts and gives back its text and the place behind it, or nothing if the scalar is not well formed.  The
number of rounds of a loop is bounded by the length of the text.
-/

namespace ApiCatalog.Yaml

namespace Scalar

/-! ## Folding -/

/-- Blanks and breaks between two words: the blanks if there was no break, the first break, and those after
it.  Blanks and later breaks are held nearest first. -/
structure Gap where
  blanks : List Char
  lead : List Char
  trail : List Char
  broken : Bool

def Gap.none : Gap := ⟨[], [], [], false⟩

/-- What a gap stands for: one line feed is a space, of more of them the first is dropped. -/
def Gap.text (gap : Gap) : List Char :=
  if !gap.broken then gap.blanks.reverse
  else if gap.lead = ['\n'] then (if gap.trail.isEmpty then [' '] else gap.trail.reverse)
  else gap.lead ++ gap.trail.reverse

/-- Reads the gap onto one that has been begun.  In a plain scalar no tab may stand before the column
`indent` of a line. -/
def readGap (indent : Option Int) : Nat → Gap → Source → Option (Gap × Source)
  | 0, gap, src => some (gap, src)
  | fuel + 1, gap, src =>
    match src.rest with
    | [] => some (gap, src)
    | c :: _ =>
      if isBlank c then
        if gap.broken && c == '\t' && indent.any ((src.column : Int) < ·) then Option.none
        else if gap.broken then readGap indent fuel gap (src.skip 1)
        else readGap indent fuel { gap with blanks := c :: gap.blanks } (src.skip 1)
      else if isBreak c then
        if gap.broken then readGap indent fuel { gap with trail := src.breakText ++ gap.trail } src.skipBreak
        else readGap indent fuel ⟨[], src.breakText, [], true⟩ src.skipBreak
      else some (gap, src)

/-! ## Quoted scalars -/

def hexDigit? (c : Char) : Option Nat :=
  if c.isDigit then some (c.toNat - 48)
  else if 'a' ≤ c && c ≤ 'f' then some (c.toNat - 87)
  else if 'A' ≤ c && c ≤ 'F' then some (c.toNat - 55)
  else Option.none

def hex? (n : Nat) (text : List Char) : Option Nat :=
  if text.length < n then Option.none
  else (text.take n).foldlM (fun value c => (hexDigit? c).map (value * 16 + ·)) 0

def escape? : Char → Option Char
  | '0' => some '\x00'
  | 'a' => some '\x07'
  | 'b' => some '\x08'
  | 't' | '\t' => some '\t'
  | 'n' => some '\n'
  | 'v' => some '\x0b'
  | 'f' => some '\x0c'
  | 'r' => some '\r'
  | 'e' => some '\x1b'
  | ' ' => some ' '
  | '"' => some '"'
  | '/' => some '/'
  | '\\' => some '\\'
  | 'N' => some '\x85'
  | '_' => some '\xa0'
  | 'L' => some '\u2028'
  | 'P' => some '\u2029'
  | _ => Option.none

def escapeLength? : Char → Option Nat
  | 'x' => some 2
  | 'u' => some 4
  | 'U' => some 8
  | _ => Option.none

/-- Reads an escape that starts here with a backslash, other than an escaped break. -/
def readEscape (src : Source) : Option (Char × Source) := do
  let letter ← src.peek 1
  match escape? letter with
  | some c => pure (c, src.skip 2)
  | Option.none =>
    let n ← escapeLength? letter
    let value ← hex? n (src.rest.drop 2)
    if (0xD800 ≤ value ∧ value ≤ 0xDFFF) ∨ 0x10FFFF < value then failure
    else pure (Char.ofNat value, src.skip (2 + n))

/-- Reads a word of a quoted scalar onto `text`, held nearest first. The result tells whether the word ended
in an escaped break. -/
def readQuotedWord (single : Bool) : Nat → List Char → Source → Option (List Char × Source × Bool)
  | 0, text, src => some (text, src, false)
  | fuel + 1, text, src =>
    match src.rest with
    | [] => some (text, src, false)
    | c :: next =>
      if isBlank c || isBreak c then some (text, src, false)
      else if single then
        if c = '\'' then
          if next.head? = some '\'' then readQuotedWord single fuel ('\'' :: text) (src.skip 2)
          else some (text, src, false)
        else readQuotedWord single fuel (c :: text) (src.skip 1)
      else if c = '"' then some (text, src, false)
      else if c = '\\' then
        if next.head?.any isBreak then some (text, (src.skip 1).skipBreak, true)
        else
          match readEscape src with
          | some (c, src) => readQuotedWord single fuel (c :: text) src
          | Option.none => Option.none
      else readQuotedWord single fuel (c :: text) (src.skip 1)

def readQuotedFrom (single : Bool) : Nat → List Char → Source → Option (List Char × Source)
  | 0, _, _ => Option.none
  | fuel + 1, text, src =>
    if src.atDocumentMark || src.rest.isEmpty then Option.none
    else
      match readQuotedWord single src.size text src with
      | Option.none => Option.none
      | some (text, src, escaped) =>
        if src.at_ 0 (if single then '\'' else '"') then some (text.reverse, src.skip 1)
        else
          match readGap Option.none src.size ⟨[], [], [], escaped⟩ src with
          | Option.none => Option.none
          | some (gap, src) => readQuotedFrom single fuel (gap.text.reverse ++ text) src

def readQuoted (single : Bool) (src : Source) : Option (List Char × Source) :=
  readQuotedFrom single (src.size + 1) [] (src.skip 1)

/-! ## Plain scalars -/

def isFlowMark (c : Char) : Bool := c == ',' || c == '[' || c == ']' || c == '\x7b' || c == '\x7d'

def readPlainWord (flow : Bool) : Nat → List Char → Source → Option (List Char × Source)
  | 0, text, src => some (text, src)
  | fuel + 1, text, src =>
    match src.rest with
    | [] => some (text, src)
    | c :: next =>
      if isBlank c || isBreak c then some (text, src)
      else if flow && c == ':' && next.head?.any (fun d => isFlowMark d || d == '?') then Option.none
      else if (c == ':' && isSpacing next.head?) || (flow && isFlowMark c) then some (text, src)
      else readPlainWord flow fuel (c :: text) (src.skip 1)

/-- A plain scalar: its text, the place behind it and the gap after it, and whether that gap has a break. -/
structure Plain where
  text : List Char
  next : Source
  broken : Bool

/-- Reads the rest of a plain scalar onto `text`, held nearest first, behind a gap. -/
def readPlainFrom (flow : Bool) (indent : Int) : Nat → List Char → Gap → Source → Option Plain
  | 0, _, _, _ => Option.none
  | fuel + 1, text, gap, src =>
    if src.atDocumentMark || src.at_ 0 '#' then some ⟨text.reverse, src, gap.broken⟩
    else
      match readPlainWord flow src.size [] src with
      | Option.none => Option.none
      | some (word, src) =>
        let (text, gap) := if word.isEmpty then (text, gap) else (word ++ (gap.text.reverse ++ text), Gap.none)
        match src.rest with
        | [] => some ⟨text.reverse, src, gap.broken⟩
        | c :: _ =>
          if !(isBlank c || isBreak c) then some ⟨text.reverse, src, gap.broken⟩
          else
            match readGap (some indent) src.size gap src with
            | Option.none => Option.none
            | some (gap, src) =>
              if !flow && (src.column : Int) < indent then some ⟨text.reverse, src, gap.broken⟩
              else readPlainFrom flow indent fuel text gap src

/-- Reads a plain scalar; its lines after the first are indented by `indent` columns at least. -/
def readPlain (flow : Bool) (indent : Int) (src : Source) : Option Plain :=
  readPlainFrom flow indent (src.size + 1) [] Gap.none src

/-! ## Block scalars -/

inductive Chomping where
  | strip
  | clip
  | keep
  deriving DecidableEq

/-- Reads the chomping mark and the indentation digit of a block scalar, in any order. -/
def readHeader (src : Source) : Option (Chomping × Option Nat × Source) :=
  let chomping (c : Char) : Option Chomping :=
    if c = '+' then some .keep else if c = '-' then some .strip else Option.none
  let digit (c : Char) : Option (Option Nat) :=
    if c = '0' then some Option.none else if c.isDigit then some (some (c.toNat - 48)) else Option.none
  match src.rest with
  | a :: rest =>
    match chomping a, digit a, rest.head?.bind digit, rest.head?.bind chomping with
    | some _, _, some Option.none, _ => Option.none
    | some mark, _, some (some n), _ => some (mark, some n, src.skip 2)
    | some mark, _, Option.none, _ => some (mark, Option.none, src.skip 1)
    | Option.none, some Option.none, _, _ => Option.none
    | Option.none, some (some n), _, some mark => some (mark, some n, src.skip 2)
    | Option.none, some (some n), _, Option.none => some (.clip, some n, src.skip 1)
    | Option.none, Option.none, _, _ => some (.clip, Option.none, src)
  | [] => some (.clip, Option.none, src)

/-- Reads the indentation of lines and the breaks of empty ones onto `breaks`, nearest first.  While the
indentation of the scalar is not known (0), `widest` is the widest one met. -/
def readBreaks (indent : Nat) : Nat → Nat → List Char → Source → Option (Nat × List Char × Source)
  | 0, widest, breaks, src => some (widest, breaks, src)
  | fuel + 1, widest, breaks, src =>
    let spaces := (src.rest.takeWhile (· == ' ')).length
    let src := src.skip (if indent = 0 then spaces else min spaces (indent - src.column))
    let widest := max widest src.column
    match src.rest with
    | [] => some (widest, breaks, src)
    | c :: _ =>
      if (indent = 0 || src.column < indent) && c == '\t' then Option.none
      else if isBreak c then readBreaks indent fuel widest (src.breakText ++ breaks) src.skipBreak
      else some (widest, breaks, src)

/-- Reads the lines of a block scalar onto `text`, held nearest first.  `lead` is the break that ended the
last line, `breaks` those of the empty lines after it, nearest first, and `blankBefore` tells that the last
line started with a blank. -/
def readLines (folded : Bool) (indent : Nat) : Nat → List Char → List Char → List Char → Bool → Source →
    Option (List Char × List Char × List Char × Source)
  | 0, text, lead, breaks, _, src => some (text, lead, breaks, src)
  | fuel + 1, text, lead, breaks, blankBefore, src =>
    match src.rest with
    | [] => some (text, lead, breaks, src)
    | c :: _ =>
      if src.column ≠ indent then some (text, lead, breaks, src)
      else
        let joint :=
          -- lines that start with a blank keep their breaks, on both sides
          if folded && lead == ['\n'] && !blankBefore && !isBlank c then
            if breaks.isEmpty then [' '] else breaks.reverse
          else lead ++ breaks.reverse
        let (line, src) := src.takeWhile (!isBreak ·)
        let text := line.reverse ++ (joint.reverse ++ text)
        let lead := src.breakText
        match readBreaks indent (src.size + 1) 0 [] src.skipBreak with
        | Option.none => Option.none
        | some (_, breaks, src) => readLines folded indent fuel text lead breaks (isBlank c) src

/-- Reads a block scalar inside of a collection that is indented by `around` columns. -/
def readBlock (folded : Bool) (around : Int) (src : Source) : Option (List Char × Source) := do
  let (chomping, increment, src) ← readHeader (src.skip 1)
  let src ← src.endLine?
  let given : Nat := match increment with
    | Option.none => 0
    | some n => (max around 0).toNat + n
  let (widest, breaks, src) ← readBreaks given (src.size + 1) 0 [] src
  let indent := if given = 0 then max widest (max (around + 1).toNat 1) else given
  let (text, lead, breaks, src) ← readLines folded indent (src.size + 1) [] [] breaks false src
  let tail := match chomping with
    | .strip => []
    | .clip => lead
    | .keep => lead ++ breaks.reverse
  pure (text.reverse ++ tail, src)

end Scalar

end ApiCatalog.Yaml
