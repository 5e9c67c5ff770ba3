import ApiCatalog.Text.Basic
/-!
# Shortest decimals

The decimal that stands for a binary number: among the decimals that round to the number the ones
with the fewest digits, and of those the nearest.  A positive number is taken as `m * 2 ^ q`; the
reals that round to it form an interval whose ends belong to it if `m` is even.  All arithmetic is on
naturals, so nothing is rounded on the way.
-/

namespace ApiCatalog.Decimal

/-- A positive binary number `significand * 2 ^ exponent`. `narrow` tells that the number is the least
one with its exponent, so that its lower neighbour is only half as far away as its upper one. -/
structure Binary where
  significand : Nat
  exponent : Int
  narrow : Bool
  deriving Repr, DecidableEq

/-- The decimal `digits * 10 ^ exponent`. -/
structure Scaled where
  digits : Nat
  exponent : Int
  deriving Repr, DecidableEq

/-- The size of a finite float. -/
def Binary.ofFloat (x : Float) : Binary :=
  let bits := x.toBits.toNat
  let fraction := bits % Nat.pow 2 52
  let exponent : Nat := bits / Nat.pow 2 52 % Nat.pow 2 11
  if exponent = 0 then ⟨fraction, -1074, false⟩
  else ⟨fraction + Nat.pow 2 52, (exponent : Int) - 1075, fraction = 0 && exponent > 1⟩

/-- A fraction of naturals `num / den`, scaled by powers of two and ten. -/
def scaled (n : Nat) (two ten : Int) : Nat × Nat :=
  (n * Nat.pow 2 two.toNat * Nat.pow 10 ten.toNat, Nat.pow 2 (-two).toNat * Nat.pow 10 (-ten).toNat)

/-- Whether `digits * 10 ^ exponent` rounds to the number.  Ends and decimal are compared in quarters
of the unit `2 ^ b.exponent`. -/
def Binary.holds (b : Binary) (d : Scaled) : Bool :=
  let (num, den) := scaled (4 * d.digits) (-b.exponent) d.exponent
  let low := 4 * b.significand - (if b.narrow then 1 else 2)
  let high := 4 * b.significand + 2
  if b.significand % 2 = 0 then low * den ≤ num && num ≤ high * den
  else low * den < num && num < high * den

/-- The least `k` with the number below `10 ^ k`; found near an estimate from its binary length. -/
def Binary.decimalLength (b : Binary) : Int :=
  let estimate := (b.exponent + (Nat.log2 b.significand : Int)) * 1233 / 4096
  let below (k : Int) : Bool :=
    let (num, den) := scaled b.significand b.exponent (-k)
    num < den
  ([estimate - 1, estimate, estimate + 1, estimate + 2].find? below).getD (estimate + 2)

/-- The nearest decimal among the two neighbours on the grid `10 ^ exponent` that round to the number;
between equally near ones the even one. -/
def Binary.onGrid? (b : Binary) (exponent : Int) : Option Scaled :=
  let (num, den) := scaled b.significand b.exponent (-exponent)
  let down := num / den
  let lower : Scaled := ⟨down, exponent⟩
  let upper : Scaled := ⟨down + 1, exponent⟩
  match b.holds lower, b.holds upper with
  | false, false => none
  | true, false => some lower
  | false, true => some upper
  | true, true =>
    let twice := 2 * (num % den)
    some (if twice < den || (twice = den && down % 2 = 0) then lower else upper)

def Scaled.dropZeros : Nat → Scaled → Scaled
  | 0, d => d
  | fuel + 1, d =>
    if d.digits ≠ 0 ∧ d.digits % 10 = 0 then dropZeros fuel ⟨d.digits / 10, d.exponent + 1⟩ else d

/-- The shortest decimal of a positive number; seventeen digits always suffice. -/
def Binary.shortest (b : Binary) : Scaled :=
  let length := b.decimalLength
  let found := (List.range 17).findSome? fun n => b.onGrid? (length - (n + 1 : Nat))
  (found.getD ⟨b.significand, b.exponent⟩).dropZeros 17

structure Style where
  /-- Exponents of ten that are not negative carry a sign. -/
  plus : Bool

/-- The text of a positive decimal: without an exponent if the first digit stands for 10⁻⁵ to 10¹⁵,
and then with at least one digit on either side of the point. -/
def Scaled.text (style : Style) (d : Scaled) : List Char :=
  let digits := Text.ofNat d.digits
  let lead : Int := (digits.length : Int) + d.exponent - 1
  if -5 ≤ lead ∧ lead < 16 then
    if 0 ≤ d.exponent then digits ++ List.replicate d.exponent.toNat '0' ++ ['.', '0']
    else if 0 ≤ lead then digits.take (lead.toNat + 1) ++ '.' :: digits.drop (lead.toNat + 1)
    else ['0', '.'] ++ List.replicate (-lead - 1).toNat '0' ++ digits
  else
    let mantissa := match digits with
      | [d] => [d]
      | d :: more => d :: '.' :: more
      | [] => []
    let sign := if lead < 0 then ['-'] else if style.plus then ['+'] else []
    mantissa ++ 'e' :: sign ++ Text.ofNat lead.natAbs

def floatText (style : Style) (x : Float) : List Char :=
  let sign := if x.toBits.toNat / Nat.pow 2 63 = 1 then ['-'] else []
  let b := Binary.ofFloat x
  if b.significand = 0 then sign ++ ['0', '.', '0'] else sign ++ b.shortest.text style

end ApiCatalog.Decimal
