import ApiCatalog.Text.Basic
/-!
# Instants

A point in time in UTC and its RFC 3339 text.  Reading is lenient: blanks may stand between the parts,
month, day and times may have one digit, and any offset from UTC is taken into account.  A second 60
is kept as such.
-/

namespace ApiCatalog

/-- Seconds since 1970 and nanoseconds within the second; from 10⁹ on they count within a leap second
that follows the second. -/
structure Instant where
  seconds : Int
  nanos : Nat
  deriving Repr, DecidableEq

namespace Calendar

/-- Days from 1 March of year 0 to the first of March of a year. -/
def daysToMarch (year : Int) : Int :=
  365 * year + Int.fdiv year 4 - Int.fdiv year 100 + Int.fdiv year 400

/-- Days since 1970 of a date of the Gregorian calendar. -/
def dayNumber (year : Int) (month day : Nat) : Int :=
  let shifted := (month + 9) % 12
  let year := if month ≤ 2 then year - 1 else year
  daysToMarch year + ((153 * shifted + 2) / 5 : Nat) + day - 1 - 719468

/-- Year, month and day of a day counted from 1970. -/
def dateOf (number : Int) : Int × Nat × Nat :=
  let days := number + 719468
  let era := Int.fdiv days 146097
  let inEra := (days - era * 146097).toNat
  let yearOfEra := (inEra - inEra / 1460 + inEra / 36524 - inEra / 146096) / 365
  let inYear := inEra - (365 * yearOfEra + yearOfEra / 4 - yearOfEra / 100)
  let shifted := (5 * inYear + 2) / 153
  let day := inYear - (153 * shifted + 2) / 5 + 1
  let month := if shifted < 10 then shifted + 3 else shifted - 9
  let year := (yearOfEra : Int) + era * 400
  (if month ≤ 2 then year + 1 else year, month, day)

def isLeapYear (year : Int) : Bool :=
  year % 4 = 0 && (year % 100 ≠ 0 || year % 400 = 0)

def daysInMonth (year : Int) (month : Nat) : Nat :=
  if month = 2 then (if isLeapYear year then 29 else 28)
  else if month = 4 ∨ month = 6 ∨ month = 9 ∨ month = 11 then 30
  else 31

/-- The years that can be told apart. -/
def yearInRange (year : Int) : Bool :=
  -262143 ≤ year && year ≤ 262142

end Calendar

namespace Instant

inductive Zone where
  | letter
  | digits
  deriving Repr, DecidableEq

def Zone.text : Zone → List Char
  | .letter => ['Z']
  | .digits => "+00:00".toList

/-- A year: four digits from 0 to 9999, a sign and at least four digits otherwise. -/
def yearText (year : Int) : List Char :=
  if 0 ≤ year ∧ year ≤ 9999 then Text.padded 4 year.toNat
  else (if year < 0 then '-' else '+') :: Text.padded 4 year.natAbs

/-- A fraction of a second in three, six or nine digits, as few as hold it; none if it is zero. -/
def fractionText (nanos : Nat) : List Char :=
  if nanos = 0 then []
  else if nanos % 1000000 = 0 then '.' :: Text.padded 3 (nanos / 1000000)
  else if nanos % 1000 = 0 then '.' :: Text.padded 6 (nanos / 1000)
  else '.' :: Text.padded 9 nanos

def text (zone : Zone) (instant : Instant) : List Char :=
  let (year, month, day) := Calendar.dateOf (Int.fdiv instant.seconds 86400)
  let second := (Int.fmod instant.seconds 86400).toNat
  let leap := 1000000000 ≤ instant.nanos
  let sec := second % 60 + (if leap then 1 else 0)
  let nanos := if leap then instant.nanos - 1000000000 else instant.nanos
  yearText year ++ '-' :: Text.padded 2 month ++ '-' :: Text.padded 2 day
    ++ 'T' :: Text.padded 2 (second / 3600) ++ ':' :: Text.padded 2 (second / 60 % 60)
    ++ ':' :: Text.padded 2 sec ++ fractionText nanos ++ zone.text

/-! ## Reading -/

/-- A reader of one part of a timestamp: what it stands for and the text behind it. -/
abbrev Part (α : Type) := List Char → Option (α × List Char)

def number (least most : Nat) : Part Nat := fun text =>
  let digits := (text.takeWhile Char.isDigit).take most
  if digits.length < least then none
  else some (digits.foldl (fun n c => n * 10 + (c.toNat - 48)) 0, text.drop digits.length)

/-- A number behind optional blanks, within bounds. -/
def bounded (low high : Nat) : Part Nat := fun text => do
  let (n, rest) ← number 1 2 (Text.trimStart text)
  if low ≤ n ∧ n ≤ high then pure (n, rest) else none

/-- A separator behind optional blanks. -/
def separator (sep : Char) (text : List Char) : Option (List Char) :=
  match Text.trimStart text with
  | c :: rest => if c = sep then some rest else none
  | [] => none

/-- A year: up to four digits, or a sign and any number of them. -/
def year : Part Int := fun text =>
  match Text.trimStart text with
  | '-' :: rest => (number 1 rest.length rest).map fun (n, rest) => (-(n : Int), rest)
  | '+' :: rest => (number 1 rest.length rest).map fun (n, rest) => ((n : Int), rest)
  | rest => (number 1 4 rest).map fun (n, rest) => ((n : Int), rest)

/-- A fraction of a second in nanoseconds; digits after the ninth do not count. -/
def fraction : Part Nat := fun text =>
  match text with
  | '.' :: rest =>
    let digits := rest.takeWhile Char.isDigit
    if digits.isEmpty then none
    else
      let kept := digits.take 9
      let n := kept.foldl (fun n c => n * 10 + (c.toNat - 48)) 0
      some (n * Nat.pow 10 (9 - kept.length), rest.drop digits.length)
  | rest => some (0, rest)

def offset : Part Int := fun text =>
  match text with
  | 'Z' :: rest | 'z' :: rest => some (0, rest)
  | a :: b :: c :: rest =>
    if Text.asciiLower [a, b, c] = ['u', 't', 'c'] then some (0, rest)
    else do
      let negative ← if a = '+' then some false else if a = '-' ∨ a = '\u2212' then some true else none
      let hours ← digits b c
      match rest.dropWhile fun c => c = ':' || Text.isBlank c with
      | d :: e :: rest =>
        let minutes ← digits d e
        if 59 < minutes then none
        else
          let seconds : Int := hours * 3600 + minutes * 60
          pure (if negative then -seconds else seconds, rest)
      | _ => none
  | _ => none
where
  digits (a b : Char) : Option Nat :=
    if a.isDigit && b.isDigit then some ((a.toNat - 48) * 10 + (b.toNat - 48)) else none

def ofText? (text : List Char) : Option Instant := do
  let (year, text) ← year text
  let text ← separator '-' text
  let (month, text) ← bounded 1 12 text
  let text ← separator '-' text
  let (day, text) ← bounded 1 31 text
  let text ← match text with
    | 'T' :: rest | 't' :: rest | ' ' :: rest => some rest
    | _ => none
  let (hour, text) ← bounded 0 23 text
  let text ← separator ':' text
  let (minute, text) ← bounded 0 59 text
  let text ← separator ':' text
  let (second, text) ← bounded 0 60 text
  let (nanos, text) ← fraction text
  let (shift, text) ← offset (Text.trimStart text)
  if !(Text.trimStart text).isEmpty then none
  else if !Calendar.yearInRange year || Calendar.daysInMonth year month < day then none
  else if 86400 ≤ shift.natAbs then none
  else
    -- a leap second is the second before it with a whole second of nanoseconds more
    let leap := second = 60
    let local_ := Calendar.dayNumber year month day * 86400
      + (hour * 3600 + minute * 60 + (if leap then 59 else second) : Nat)
    let instant : Instant := ⟨local_ - shift, if leap then nanos + 1000000000 else nanos⟩
    if Calendar.yearInRange (Calendar.dateOf (Int.fdiv instant.seconds 86400)).1 then pure instant else none

end Instant

end ApiCatalog
