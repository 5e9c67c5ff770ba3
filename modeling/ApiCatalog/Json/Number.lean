import ApiCatalog.Decimal.Shortest
/-!
# Numbers of JSON documents

A number written without fraction and exponent is kept as an integer if 64 bits hold it.  Every other
number is a float, read from at most as many digits as 64 bits hold, scaled by one power of ten.
-/

namespace ApiCatalog.Json

inductive Number where
  | whole (n : Int)
  | real (x : Float)
  deriving Repr

structure NumberText where
  negative : Bool
  whole : List Char
  fraction : List Char
  /-- The sign (negative or not) and the digits behind the exponent mark. -/
  exponent : Option (Bool × List Char)
  deriving Repr, DecidableEq

namespace Number

/-- The greatest integer that is kept as one. -/
def maxWhole : Nat := Nat.pow 2 64 - 1

def digit (c : Char) : Nat := c.toNat - '0'.toNat

/-- Reads integer digits as long as 64 bits hold them and counts the digits after that. -/
def significandOf (n dropped : Nat) : List Char → Nat × Nat
  | [] => (n, dropped)
  | c :: digits =>
    if dropped = 0 ∧ n * 10 + digit c ≤ maxWhole then significandOf (n * 10 + digit c) 0 digits
    else significandOf n (dropped + 1) digits

/-- Reads on with fraction digits as long as 64 bits hold them and counts the digits read. -/
def fractionOf (n read : Nat) : List Char → Nat × Nat
  | [] => (n, read)
  | c :: digits =>
    if n * 10 + digit c ≤ maxWhole then fractionOf (n * 10 + digit c) (read + 1) digits else (n, read)

def isInfinite (x : Float) : Bool :=
  x.toBits.toNat % Nat.pow 2 63 = 2047 * Nat.pow 2 52

def powerOfTen (n : Nat) : Float :=
  Float.ofScientific 1 false n

/-- Divides by a power of ten, in steps of at most 10³⁰⁸. -/
def scaleDown (x : Float) (places : Nat) : Float :=
  if _h : places ≤ 308 then x / powerOfTen places
  else if x == 0 then x
  else scaleDown (x / powerOfTen 308) (places - 308)
termination_by places

/-- Multiplies by a power of ten; nothing if the result is no finite float. -/
def scaleUp? (x : Float) (places : Nat) : Option Float :=
  if places ≤ 308 then
    let y := x * powerOfTen places
    if isInfinite y then none else some y
  else if x == 0 then some x
  else none

/-- The exponents that are read as such are those of 32 bits. -/
def maxExponent : Nat := Nat.pow 2 31 - 1

def clampExponent (e : Int) : Int :=
  if (maxExponent : Int) < e then maxExponent
  else if e < -(maxExponent + 1 : Int) then -(maxExponent + 1 : Int)
  else e

def realOf? (text : NumberText) : Option Float := do
  let (n, dropped) := significandOf 0 0 text.whole
  let (n, places) := fractionOf n 0 text.fraction
  let size ← match text.exponent with
    | none => scale n (dropped - places)
    | some (negative, digits) =>
      let e := digits.foldl (fun e c => if maxExponent < e then e else e * 10 + digit c) 0
      if maxExponent < e then
        if n ≠ 0 ∧ !negative then none else some 0
      else scale n (clampExponent (dropped - places + (if negative then -(e : Int) else e)))
  pure (if text.negative then -size else size)
where
  scale (n : Nat) (e : Int) : Option Float :=
    let x := n.toUInt64.toFloat
    if 0 ≤ e then scaleUp? x e.toNat else some (scaleDown x (-e).toNat)

/-- The number that a text stands for; nothing if it is too large for a float. -/
def ofText? (text : NumberText) : Option Number :=
  let (n, dropped) := significandOf 0 0 text.whole
  if text.fraction.isEmpty && text.exponent.isNone && dropped = 0 then
    if !text.negative then some (.whole n)
    else if 0 < n && n ≤ Nat.pow 2 63 then some (.whole (-(n : Int)))
    else (realOf? text).map .real
  else (realOf? text).map .real

/-- Exponents of numbers in documents always carry a sign. -/
def style : Decimal.Style := ⟨true⟩

def wholeText : Int → List Char
  | .ofNat n => Text.ofNat n
  | .negSucc n => '-' :: Text.ofNat (n + 1)

def text : Number → List Char
  | .whole n => wholeText n
  | .real x => Decimal.floatText style x

end Number

end ApiCatalog.Json
