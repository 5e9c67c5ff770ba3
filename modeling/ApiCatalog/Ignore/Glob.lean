import ApiCatalog.Text.Utf8
/-!
# Globs

The patterns of ignore files.  They are matched byte by byte against whole relative paths: a question mark
and a star stay within a step of the path, two stars between slashes stand for any number of steps, brackets
for one byte of a set, and braces for a choice.
-/

namespace ApiCatalog

/-- A bracketed set: inclusive ranges of bytes, or all bytes outside of them. -/
structure ByteSet where
  negated : Bool
  ranges : List (UInt8 × UInt8)
  deriving Repr, DecidableEq

def ByteSet.has (set : ByteSet) (b : UInt8) : Bool :=
  set.ranges.any (fun range => range.1 ≤ b && b ≤ range.2) != set.negated

namespace Glob

inductive Part where
  | literal (bytes : List UInt8)
  /-- One byte other than a slash. -/
  | one
  /-- Any bytes other than slashes. -/
  | star
  /-- Two stars at the front with a slash behind them: any steps, or none. -/
  | stepsBefore
  /-- Two stars between slashes: a slash, any steps with slashes between them, and a slash. -/
  | stepsBetween
  /-- A slash and two stars at the end: anything below. -/
  | stepsAfter
  | set (set : ByteSet)
  | choice (branches : List (List Part))
  deriving Repr

end Glob

/-- A glob: its parts in order. -/
structure Glob where
  parts : List Glob.Part
  deriving Repr

namespace Glob

def slash : UInt8 := 47

/-! ## Matching -/

/-- Whether some end of a text, the whole and the empty one included, is accepted. -/
def anyEnd (k : List UInt8 → Bool) : List UInt8 → Bool
  | [] => k []
  | b :: text => k (b :: text) || anyEnd k text

/-- Whether what follows some slash of a text is accepted. -/
def afterSlash (k : List UInt8 → Bool) : List UInt8 → Bool
  | [] => false
  | b :: text => (b == slash && k text) || afterSlash k text

/-- Whether some end of a text is accepted before which there is no slash. -/
def anyEndOfStep (k : List UInt8 → Bool) : List UInt8 → Bool
  | [] => k []
  | b :: text => k (b :: text) || (b != slash && anyEndOfStep k text)

/-- What follows a text at the front. -/
def after? : List UInt8 → List UInt8 → Option (List UInt8)
  | [], text => some text
  | _ :: _, [] => none
  | a :: start, b :: text => if a = b then after? start text else none

mutual

/-- Whether the part matches a front of the text of which the rest is accepted. -/
def Part.accepts (text : List UInt8) (k : List UInt8 → Bool) : Part → Bool
  | .literal bytes => (after? bytes text).any k
  | .one =>
    match text with
    | b :: rest => b != slash && k rest
    | [] => false
  | .star => anyEndOfStep k text
  | .stepsBefore => k text || afterSlash k text
  | .stepsBetween =>
    match text with
    | b :: rest => b == slash && (k rest || afterSlash k rest)
    | [] => false
  | .stepsAfter =>
    match text with
    | b :: rest => b == slash && anyEnd k rest
    | [] => false
  | .set set =>
    match text with
    | b :: rest => set.has b && k rest
    | [] => false
  | .choice branches => if branches.isEmpty then k text else acceptsSome text k branches

/-- Whether parts in order match a front of the text of which the rest is accepted. -/
def acceptsAll (text : List UInt8) (k : List UInt8 → Bool) : List Part → Bool
  | [] => k text
  | part :: parts => part.accepts text fun rest => acceptsAll rest k parts

def acceptsSome (text : List UInt8) (k : List UInt8 → Bool) : List (List Part) → Bool
  | [] => false
  | branch :: branches => acceptsAll text k branch || acceptsSome text k branches

end

/-- Whether the glob matches a whole text; two stars alone match everything. -/
def matches_ (glob : Glob) (text : List UInt8) : Bool :=
  match glob.parts with
  | [.stepsBefore] => true
  | parts => acceptsAll text List.isEmpty parts

/-! ## Reading -/

/-- A branch of a choice that stands for nothing. -/
def isVoid (branch : List Part) : Bool :=
  branch.all fun part => part matches .choice []

/-- The ranges of a set for a range of characters: outside of ASCII the bytes of both are taken one by one,
the middle two of them as a range. -/
def byteRanges (first last : Char) : List (UInt8 × UInt8) :=
  let single (b : UInt8) : UInt8 × UInt8 := (b, b)
  let firsts := Utf8.encodeChar first
  let lasts := Utf8.encodeChar last
  if first = last then firsts.map single
  else
    firsts.dropLast.map single ++ [(firsts.getLast?.getD 0, lasts.head?.getD 0)] ++ (lasts.drop 1).map single

/-- A bracketed set that is being read: the ranges so far, nearest first, and whether a hyphen waits for the
end of a range. -/
structure OpenSet where
  negated : Bool
  ranges : List (Char × Char)
  first : Bool
  inRange : Bool

/-- What the end of a set makes of it; a hyphen at the end stands for itself. -/
def OpenSet.close (s : OpenSet) : Part :=
  let ranges := (if s.inRange then ('-', '-') :: s.ranges else s.ranges).reverse
  .set ⟨s.negated, ranges.flatMap fun (first, last) => byteRanges first last⟩

/-- Takes the next character into a set; nothing if it ends a range before its start. -/
def OpenSet.push? (s : OpenSet) (c : Char) : Option OpenSet :=
  if s.inRange then
    match s.ranges with
    | (first, _) :: ranges =>
      if c < first then none else some { s with ranges := (first, c) :: ranges, first := false, inRange := false }
    | [] => none
  else if c = '-' ∧ !s.first then some { s with inRange := true }
  else some { s with ranges := (c, c) :: s.ranges, first := false }

/-- Reads a set behind its bracket: the set and the text behind it. The inner option is empty if the set is
not closed, the outer one if a range is upside down. -/
def readSet : OpenSet → List Char → Option (Option (Part × List Char))
  | _, [] => some none
  | s, c :: text =>
    if c = ']' ∧ !s.first then some (some (s.close, text))
    else
      match s.push? c with
      | none => none
      | some s => readSet s text

/-- A glob that is being read: the branches of the innermost choice and those around it, nearest first, each
with its parts nearest first; how many branches belong to each open choice; the last character read; and
whether a bracket was met that is not closed, after which brackets stand for themselves. -/
structure Reader where
  branches : List (List Part)
  choices : List Nat
  previous : Option Char
  unclosed : Bool

def Reader.push (r : Reader) (part : Part) : Reader :=
  match r.branches with
  | branch :: branches => { r with branches := (part :: branch) :: branches }
  | [] => r

/-- Two stars, given the character before them and the text behind them: the parts and what is left to
read. -/
def Reader.twoStars (r : Reader) (text : List Char) : Reader × List Char :=
  let plain : Reader × List Char := ({ (r.push .star).push .star with previous := some '*' }, text)
  let inChoice := !r.choices.isEmpty
  match r.branches with
  | [] => plain
  | [] :: _ =>
    match text with
    | [] => (r.push .stepsBefore, [])
    | c :: rest => if c = '/' then ({ r.push .stepsBefore with previous := some '/' }, rest) else plain
  | (last :: branch) :: branches =>
    if r.previous ≠ some '/' then plain
    else
      let replace (part : Part) : Reader :=
        let part := match last with
          | .stepsBefore => .stepsBefore
          | .stepsAfter => .stepsAfter
          | _ => part
        { r with branches := (part :: branch) :: branches, previous := some '*' }
      match text with
      | [] => (replace .stepsAfter, [])
      | c :: rest =>
        if c = '/' then ({ replace .stepsBetween with previous := some '/' }, rest)
        else if inChoice && (c = ',' || c = '\x7d') then (replace .stepsAfter, text)
        else plain

def Reader.openChoice (r : Reader) : Reader :=
  { r with branches := [] :: r.branches, choices := 1 :: r.choices }

/-- Closes a choice; branches that stand for nothing are dropped. -/
def Reader.closeChoice? (r : Reader) : Option Reader :=
  match r.choices with
  | [] => none
  | count :: choices =>
    let all := ((r.branches.take count).map List.reverse).reverse
    let part := Part.choice (all.filter fun branch => !isVoid branch)
    some ({ r with branches := r.branches.drop count, choices }.push part)

/-- Reads the rest of a pattern; each round reads at least one character. -/
def Reader.run? (r : Reader) : Nat → List Char → Option Reader
  | 0, _ => some r
  | _, [] => some r
  | fuel + 1, c :: text =>
    let onward (r : Reader) (text : List Char) : Option Reader :=
      run? { r with previous := some c } fuel text
    match c with
    | '?' => onward (r.push .one) text
    | '*' =>
      match text with
      | '*' :: text =>
        let (r, text) := r.twoStars text
        run? r fuel text
      | text => onward (r.push .star) text
    | '\x7b' => onward r.openChoice text
    | '\x7d' => r.closeChoice?.bind (onward · text)
    | ',' =>
      match r.choices with
      | [] => onward (r.push (.literal (Utf8.encodeChar ','))) text
      | count :: choices => onward { r with branches := [] :: r.branches, choices := (count + 1) :: choices } text
    | '\\' =>
      match text with
      | [] => none
      | c :: text => run? { r.push (.literal (Utf8.encodeChar c)) with previous := some c } fuel text
    | '[' =>
      -- once a bracket was never closed, no later one can be: each stands for itself
      if r.unclosed then onward (r.push (.literal (Utf8.encodeChar '['))) text
      else
        let (negated, inner) := match text with
          | '!' :: rest | '^' :: rest => (true, rest)
          | rest => (false, rest)
        match readSet ⟨negated, [], true, false⟩ inner with
        | none => none
        | some none => onward ({ r with unclosed := true }.push (.literal (Utf8.encodeChar '['))) text
        | some (some (part, text)) => run? { r.push part with previous := some ']' } fuel text
    | c => onward (r.push (.literal (Utf8.encodeChar c))) text

/-- The glob of a pattern; nothing if the pattern is not well formed. -/
def ofText? (pattern : List Char) : Option Glob := do
  let r ← Reader.run? ⟨[[]], [], none, false⟩ pattern.length pattern
  if r.choices.isEmpty then pure ⟨(r.branches.head?.getD []).reverse⟩ else none

end Glob

end ApiCatalog
