import ApiCatalog.Regex.Basic
/-!
# Matching

A match is looked for by trying the alternatives in order of preference and going back when what
follows does not fit: the left branch before the right one, more repetitions before fewer.
`Regex.step` takes what has to follow as a function, so that it can be followed clause by clause.
-/

namespace ApiCatalog

/-- A place in a text: what was read, nearest first, what is left, and how far the place is from the
start, in characters and in bytes of UTF-8. -/
structure Cursor where
  passed : List Char
  rest : List Char
  index : Nat
  offset : Nat

namespace Cursor

def ofText (text : List Char) : Cursor :=
  ⟨[], text, 0, 0⟩

def next? : Cursor → Option (Char × Cursor)
  | ⟨_, [], _, _⟩ => none
  | ⟨passed, c :: rest, index, offset⟩ => some (c, ⟨c :: passed, rest, index + 1, offset + c.utf8Size⟩)

/-- The text between a cursor and a later one. -/
def upTo (start stop : Cursor) : List Char :=
  start.rest.take (stop.index - start.index)

/-- The places that a run of characters of a set can end at, the longest run first; `shorter` holds
those already passed. -/
def runsFrom (set : CharSet) (passed : List Char) (index offset : Nat) (shorter : List Cursor) :
    List Char → List Cursor
  | [] => ⟨passed, [], index, offset⟩ :: shorter
  | c :: rest =>
    if set.has c then
      runsFrom set (c :: passed) (index + 1) (offset + c.utf8Size)
        (⟨passed, c :: rest, index, offset⟩ :: shorter) rest
    else ⟨passed, c :: rest, index, offset⟩ :: shorter

/-- The places that a run of characters of a set can end at, the longest run first. -/
def runs (set : CharSet) (start : Cursor) : List Cursor :=
  runsFrom set start.passed start.index start.offset [] start.rest

end Cursor

structure Span where
  start : Cursor
  stop : Cursor

def Span.text (span : Span) : List Char :=
  span.start.upTo span.stop

/-- How far a match has come: the place, and the stretches of the groups, the latest first. -/
structure Progress where
  cursor : Cursor
  groups : List (Nat × Span)

namespace Regex

/-- Repeats `body` greedily; `fuel` is the text left at the first round, and a round that reads nothing
is not counted as one. -/
def iterate {α : Type} (body : Progress → (Progress → Option α) → Option α) :
    List Char → Progress → (Progress → Option α) → Option α
  | [], progress, k => k progress
  | _ :: fuel, progress, k =>
    match body progress fun later =>
        if later.cursor.index = progress.cursor.index then none else iterate body fuel later k with
    | some found => some found
    | none => k progress

/-- What `k` finds after the preferred match that it accepts. -/
def step {α : Type} : Regex → Progress → (Progress → Option α) → Option α
  | .empty, progress, k => k progress
  | .place anchor, progress, k =>
    if anchor.holds progress.cursor.passed.head? progress.cursor.rest.head? then k progress else none
  | .oneOf set, progress, k =>
    match progress.cursor.next? with
    | some (c, cursor) => if set.has c then k { progress with cursor } else none
    | none => none
  | .run set, progress, k =>
    (progress.cursor.runs set).findSome? fun cursor => k { progress with cursor }
  | .seq first second, progress, k => step first progress fun later => step second later k
  | .either first second, progress, k =>
    match step first progress k with
    | some found => some found
    | none => step second progress k
  | .star body, progress, k => iterate (step body) progress.cursor.rest progress k
  | .group number body, progress, k =>
    step body progress fun later =>
      k { later with groups := (number, ⟨progress.cursor, later.cursor⟩) :: later.groups }

end Regex

/-- A match: the stretch it covers and those of its groups. -/
structure Found where
  whole : Span
  groups : List (Nat × Span)

/-- The text of a group, group 0 being the whole match; `none` if the group took no part. -/
def Found.group? (found : Found) (number : Nat) : Option (List Char) :=
  if number = 0 then some found.whole.text
  else (found.groups.find? (·.1 == number)).map (·.2.text)

namespace Regex

def matchAt? (regex : Regex) (start : Cursor) : Option Found :=
  regex.step ⟨start, []⟩ fun progress => some ⟨⟨start, progress.cursor⟩, progress.groups⟩

/-- Collects matches onto `done`, nearest first.  A match starts where the one before it ended or
later; an empty one does not start right there (`barred`).  Each round reads at least one character,
so `fuel`, the text left at the first round, is never used up early. -/
def findFrom (regex : Regex) (barred : Bool) (done : List Found) : List Char → Cursor → List Found
  | [], start =>
    match regex.matchAt? start with
    | none => done.reverse
    | some found => if barred then done.reverse else (found :: done).reverse
  | _ :: fuel, start =>
    let onward (done : List Found) := match start.next? with
      | some (_, next) => findFrom regex false done fuel next
      | none => done.reverse
    match regex.matchAt? start with
    | none => onward done
    | some found =>
      if found.whole.stop.index = start.index then onward (if barred then done else found :: done)
      else findFrom regex true (found :: done) fuel found.whole.stop

/-- The matches in a text from left to right, none overlapping the one before it. -/
def findAll (regex : Regex) (text : List Char) : List Found :=
  regex.findFrom false [] text (.ofText text)

def occursFrom (regex : Regex) : List Char → Cursor → Bool
  | [], start => (regex.matchAt? start).isSome
  | _ :: fuel, start =>
    (regex.matchAt? start).isSome ||
      match start.next? with
      | some (_, next) => occursFrom regex fuel next
      | none => false

def occursIn (regex : Regex) (text : List Char) : Bool :=
  regex.occursFrom text (.ofText text)

end Regex

end ApiCatalog
