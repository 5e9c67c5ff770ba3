import ApiCatalog.Decimal.Shortest
import Mathlib.Algebra.Order.Field.Power
import Mathlib.Tactic.FieldSimp
import Mathlib.Tactic.Linarith
import Mathlib.Tactic.Positivity
import Mathlib.Tactic.Ring
/-!
# The numbers that decimals and binaries stand for

Decimals and binaries as rational numbers.  A number that is held by a binary (`Binary.holds_iff`) is held by no other
one (`Binary.IsDouble.eq_of_holds`).
-/

namespace ApiCatalog.Decimal

def Scaled.value (d : Scaled) : ℚ := d.digits * 10 ^ d.exponent

theorem value_scaled (n : Nat) (two ten : Int) :
    ((scaled n two ten).1 : ℚ) / (scaled n two ten).2 = n * 2 ^ two * 10 ^ ten := by
  have hpow : ∀ (base : ℚ) (e : Int), base ≠ 0 → base ^ e.toNat / base ^ (-e).toNat = base ^ e := by
    intro base e hbase
    rcases Int.le_total 0 e with he | he
    · obtain ⟨k, rfl⟩ := Int.eq_ofNat_of_zero_le he
      simp
    · obtain ⟨k, hk⟩ := Int.eq_ofNat_of_zero_le (Int.neg_nonneg.2 he)
      obtain rfl : e = -(k : Int) := by omega
      simp
  have htwo := hpow 2 two (by norm_num)
  have hten := hpow 10 ten (by norm_num)
  simp only [scaled, Nat.pow_eq, Nat.cast_mul, Nat.cast_pow, Nat.cast_ofNat]
  rw [← htwo, ← hten]
  field_simp

theorem scaled_pos (n : Nat) (two ten : Int) : 0 < (scaled n two ten).2 :=
  Nat.mul_pos (Nat.pow_pos (by decide)) (Nat.pow_pos (by decide))

/-! ## What a division leaves over -/

section
variable (n : Nat) {d : Nat} (hd : 0 < d)
include hd

theorem div_eq_div_add_rest : (n / d : ℚ) = (n / d : Nat) + (n % d : Nat) / d := by
  have hpos : (d : ℚ) ≠ 0 := by exact_mod_cast hd.ne'
  rw [eq_comm, add_div' _ _ _ hpos, div_left_inj' hpos, mul_comm]
  exact_mod_cast Nat.div_add_mod n d

theorem rest_lt_one : ((n % d : Nat) / d : ℚ) < 1 := by
  rw [div_lt_one (by exact_mod_cast hd)]
  exact_mod_cast Nat.mod_lt n hd

theorem rest_lt_half_iff : ((n % d : Nat) / d : ℚ) < 1 / 2 ↔ 2 * (n % d) < d := by
  rw [div_lt_iff₀ (by exact_mod_cast hd), ← @Nat.cast_lt ℚ]
  push_cast
  constructor <;> intro <;> linarith

theorem rest_eq_half_iff : ((n % d : Nat) / d : ℚ) = 1 / 2 ↔ 2 * (n % d) = d := by
  rw [div_eq_iff (by exact_mod_cast hd.ne'), ← @Nat.cast_inj ℚ]
  push_cast
  constructor <;> intro <;> linarith

end

namespace Binary

/-- How far the next greater number is away. -/
def unit (b : Binary) : ℚ := 2 ^ b.exponent

def value (b : Binary) : ℚ := b.significand * b.unit

/-- The least number that may round to the binary. -/
def low (b : Binary) : ℚ := b.value - b.unit / (if b.narrow then 4 else 2)

/-- The greatest number that may round to the binary. -/
def high (b : Binary) : ℚ := b.value + b.unit / 2

/-- The number rounds to the binary; those in the middle between two binaries round to the even one. -/
def Holds (b : Binary) (x : ℚ) : Prop :=
  if b.significand % 2 = 0 then b.low ≤ x ∧ x ≤ b.high else b.low < x ∧ x < b.high

theorem unit_pos (b : Binary) : 0 < b.unit := zpow_pos (by norm_num) _

section
variable {b : Binary} {x y : ℚ}

theorem Holds.low_le (h : b.Holds x) : b.low ≤ x := by
  unfold Holds at h
  split at h
  · exact h.1
  · exact h.1.le

theorem Holds.le_high (h : b.Holds x) : x ≤ b.high := by
  unfold Holds at h
  split at h
  · exact h.2
  · exact h.2.le

theorem Holds.lt_high (h : b.Holds x) (hodd : b.significand % 2 = 1) : x < b.high := by
  rw [Holds, if_neg (by omega)] at h
  exact h.2

theorem Holds.low_lt (h : b.Holds x) (hodd : b.significand % 2 = 1) : b.low < x := by
  rw [Holds, if_neg (by omega)] at h
  exact h.1

theorem low_lt_value (b : Binary) : b.low < b.value := by
  have := b.unit_pos
  unfold low
  split <;> linarith

theorem value_lt_high (b : Binary) : b.value < b.high := by
  have := b.unit_pos
  unfold high
  linarith

/-- What lies strictly between the ends is held. -/
theorem holds_of_lt (hlow : b.low < x) (hhigh : x < b.high) : b.Holds x := by
  unfold Holds
  split
  · exact ⟨hlow.le, hhigh.le⟩
  · exact ⟨hlow, hhigh⟩

/-- What lies between a number that is held and the binary itself is held. -/
theorem Holds.of_between (h : b.Holds x) (hy : x ≤ y ∧ y ≤ b.value ∨ b.value ≤ y ∧ y ≤ x) : b.Holds y := by
  have hlow := b.low_lt_value
  have hhigh := b.value_lt_high
  unfold Holds at h ⊢
  rcases hy with ⟨hxy, hy⟩ | ⟨hy, hyx⟩
  · split <;> rename_i heven
    · rw [if_pos heven] at h
      exact ⟨h.1.trans hxy, (hy.trans_lt hhigh).le⟩
    · rw [if_neg heven] at h
      exact ⟨h.1.trans_le hxy, hy.trans_lt hhigh⟩
  · split <;> rename_i heven
    · rw [if_pos heven] at h
      exact ⟨(hlow.trans_le hy).le, hyx.trans h.2⟩
    · rw [if_neg heven] at h
      exact ⟨hlow.trans_le hy, hyx.trans_lt h.2⟩

theorem holds_iff (hb : b.significand ≠ 0) (d : Scaled) : b.holds d = true ↔ b.Holds d.value := by
  have hpos : (0 : ℚ) < (scaled (4 * d.digits) (-b.exponent) d.exponent).2 := by
    exact_mod_cast scaled_pos _ _ _
  have hvalue : ((scaled (4 * d.digits) (-b.exponent) d.exponent).1 : ℚ) /
      (scaled (4 * d.digits) (-b.exponent) d.exponent).2 = 4 * d.value / b.unit := by
    rw [value_scaled, Scaled.value, unit, zpow_neg]
    push_cast
    ring
  have hlow : ((4 * b.significand - (if b.narrow then 1 else 2) : Nat) : ℚ) = 4 * b.low / b.unit := by
    have hunit := b.unit_pos.ne'
    rw [low, value]
    split
    · rw [Nat.cast_sub (by omega)]
      push_cast
      field_simp
    · rw [Nat.cast_sub (by omega)]
      push_cast
      field_simp
      ring
  have hhigh : ((4 * b.significand + 2 : Nat) : ℚ) = 4 * b.high / b.unit := by
    have hunit := b.unit_pos.ne'
    rw [high, value]
    push_cast
    field_simp
    ring
  have hleft : ∀ m n d : Nat, (0 : ℚ) < d → ((m * d ≤ n ↔ (m : ℚ) ≤ n / d) ∧ (m * d < n ↔ (m : ℚ) < n / d)) := by
    intro m n d hd
    rw [le_div_iff₀ hd, lt_div_iff₀ hd]
    exact ⟨by exact_mod_cast Iff.rfl, by exact_mod_cast Iff.rfl⟩
  have hright : ∀ m n d : Nat, (0 : ℚ) < d → ((n ≤ m * d ↔ (n : ℚ) / d ≤ m) ∧ (n < m * d ↔ (n : ℚ) / d < m)) := by
    intro m n d hd
    rw [div_le_iff₀ hd, div_lt_iff₀ hd]
    exact ⟨by exact_mod_cast Iff.rfl, by exact_mod_cast Iff.rfl⟩
  have hunit := b.unit_pos
  have hscale : ∀ p q : ℚ, (4 * p / b.unit ≤ 4 * q / b.unit ↔ p ≤ q) ∧ (4 * p / b.unit < 4 * q / b.unit ↔ p < q) := by
    intro p q
    rw [div_le_div_iff_of_pos_right hunit, div_lt_div_iff_of_pos_right hunit]
    constructor <;> constructor <;> intro <;> linarith
  simp only [holds, Holds]
  split
  · rw [Bool.and_eq_true, decide_eq_true_iff, decide_eq_true_iff, (hleft _ _ _ hpos).1, (hright _ _ _ hpos).1, hvalue,
      hlow, hhigh, (hscale _ _).1, (hscale _ _).1]
  · rw [Bool.and_eq_true, decide_eq_true_iff, decide_eq_true_iff, (hleft _ _ _ hpos).2, (hright _ _ _ hpos).2, hvalue,
      hlow, hhigh, (hscale _ _).2, (hscale _ _).2]

end

/-- The binary has the form of a float: 53 bits at most, and all of them unless its exponent is the least one.  Floats
have no exponent above 971. -/
structure IsDouble (b : Binary) : Prop where
  small : b.significand < 2 ^ 53
  least : -1074 ≤ b.exponent
  full : b.significand < 2 ^ 52 → b.exponent = -1074
  narrow : b.narrow = true ↔ b.significand = 2 ^ 52 ∧ -1074 < b.exponent

section
variable {b b' : Binary} {x : ℚ}

theorem IsDouble.lt_of_holds (hb : b.IsDouble) (h : b.Holds x) : x < (2 ^ 53 - 1 / 2) * b.unit := by
  have hpos := b.unit_pos
  by_cases hmost : b.significand = 2 ^ 53 - 1
  · have hcast : (b.significand : ℚ) = 2 ^ 53 - 1 := by rw [hmost]; norm_num
    have := h.lt_high (by omega)
    rw [high, value, hcast] at this
    linarith
  · have hcast : (b.significand : ℚ) + 2 ≤ 2 ^ 53 := by
      exact_mod_cast (by have := hb.small; omega : b.significand + 2 ≤ 2 ^ 53)
    have := h.le_high
    rw [high, value] at this
    nlinarith

/-- What a binary holds is above the exponent before its own, unless that is the least one. -/
theorem IsDouble.le_of_holds (hb : b.IsDouble) (h : b.Holds x) (hleast : -1074 < b.exponent) :
    (2 ^ 52 - 1 / 4) * b.unit ≤ x := by
  have hpos := b.unit_pos
  have hfull : 2 ^ 52 ≤ b.significand := by
    by_contra hless
    exact hleast.ne' (hb.full (not_le.1 hless))
  refine le_trans ?_ h.low_le
  have hcast : (2 ^ 52 : ℚ) ≤ b.significand := by exact_mod_cast hfull
  rw [low, value]
  split
  · nlinarith
  · rename_i hwide
    have hne : b.significand ≠ 2 ^ 52 := fun heq => hwide (hb.narrow.2 ⟨heq, hleast⟩)
    have hcast : (2 ^ 52 + 1 : ℚ) ≤ b.significand := by exact_mod_cast (by omega : 2 ^ 52 + 1 ≤ b.significand)
    nlinarith

/-- Binaries with different exponents hold nothing in common. -/
theorem IsDouble.exponent_le (hb : b.IsDouble) (hb' : b'.IsDouble) (h : b.Holds x) (h' : b'.Holds x) :
    b'.exponent ≤ b.exponent := by
  by_contra hlt
  have hleast := hb.least
  have hunit : b.unit * 2 ≤ b'.unit := by
    rw [unit, unit, ← zpow_add_one₀ (by norm_num)]
    exact zpow_le_zpow_right₀ (by norm_num) (by omega)
  have hhigh := hb.lt_of_holds h
  have hlow := hb'.le_of_holds h' (by omega)
  nlinarith

/-- Of two binaries with one exponent the greater one holds the greater numbers. -/
theorem significand_le (hsame : b'.exponent = b.exponent) (h : b.Holds x) (h' : b'.Holds x) :
    b'.significand ≤ b.significand := by
  by_contra hlt
  have hunit : b'.unit = b.unit := by rw [unit, unit, hsame]
  have hpos := b.unit_pos
  have hlow : (b'.significand - 1 / 2 : ℚ) * b.unit ≤ b'.low := by
    rw [low, value, hunit]
    split <;> linarith
  have hhigh : b.high = (b.significand + 1 / 2 : ℚ) * b.unit := by
    rw [high, value]
    ring
  have hcast : (b.significand : ℚ) + 1 ≤ b'.significand := by
    exact_mod_cast (by omega : b.significand + 1 ≤ b'.significand)
  have hends : b.high ≤ b'.low := by
    rw [hhigh]
    nlinarith
  -- Of two neighbours one is odd and does not hold its end.
  by_cases hodd : b.significand % 2 = 1
  · have := h.lt_high hodd
    have := h'.low_le
    linarith
  · by_cases hodd' : b'.significand % 2 = 1
    · have := h.le_high
      have := h'.low_lt hodd'
      linarith
    · have hcast : (b.significand : ℚ) + 2 ≤ b'.significand := by
        exact_mod_cast (by omega : b.significand + 2 ≤ b'.significand)
      have := h.le_high
      have := h'.low_le
      nlinarith

/-- **A number rounds to one float.** -/
theorem IsDouble.eq_of_holds (hb : b.IsDouble) (hb' : b'.IsDouble) (h : b.Holds x) (h' : b'.Holds x) : b' = b := by
  have hexponent : b'.exponent = b.exponent := le_antisymm (hb.exponent_le hb' h h') (hb'.exponent_le hb h' h)
  have hsignificand : b'.significand = b.significand :=
    le_antisymm (significand_le hexponent h h') (significand_le hexponent.symm h' h)
  have hnarrow : b'.narrow = b.narrow := by
    rw [Bool.eq_iff_iff, hb.narrow, hb'.narrow, hexponent, hsignificand]
  cases b
  cases b'
  cases hexponent
  cases hsignificand
  cases hnarrow
  rfl

end

end Binary

end ApiCatalog.Decimal
