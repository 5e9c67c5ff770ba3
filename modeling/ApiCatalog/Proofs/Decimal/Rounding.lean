import ApiCatalog.Proofs.Decimal.Binary
/-!
# Rounding quotients to floats

The quotient of two naturals, as the model of floats divides them, is the binary that holds it.  The bits behind a
mantissa tell enough to round it (`Tells.rounded`), shifting keeps what they tell (`Tells.shift`), and so does
what is left over by a division (`tells_div`).
-/

open Float.Model (Format UnpackedFloat totalExponent)
open Float.Model.UnpackedFloat (Accuracy ExtendedMantissa Sign)

namespace ApiCatalog.Decimal

/-! ## What the bits behind a mantissa tell -/

/-- The mantissa and the half that the round bit stands for. -/
def known (em : ExtendedMantissa) : ℚ := em.mantissa + if em.roundBit then 1 / 2 else 0

/-- The mantissa and the bits behind it are those of a number. -/
structure Tells (em : ExtendedMantissa) (y : ℚ) : Prop where
  le : known em ≤ y
  lt : y < known em + 1 / 2
  sticky : em.stickyBit = false ↔ y = known em

section
variable {em : ExtendedMantissa} {y : ℚ}

theorem Tells.mantissa_le (h : Tells em y) : (em.mantissa : ℚ) ≤ y := by
  have := h.le
  unfold known at this
  split at this <;> linarith

theorem Tells.lt_mantissa (h : Tells em y) : y < em.mantissa + 1 := by
  have := h.lt
  unfold known at this
  split at this <;> linarith

theorem Tells.mantissa_lt (h : Tells em y) {n : Nat} (hy : y < n) : em.mantissa < n := by
  exact_mod_cast h.mantissa_le.trans_lt hy

theorem Tells.le_mantissa (h : Tells em y) {n : Nat} (hy : n ≤ y) : n ≤ em.mantissa := by
  have : (n : ℚ) < em.mantissa + 1 := hy.trans_lt h.lt_mantissa
  exact Nat.lt_succ_iff.1 (by exact_mod_cast this)

theorem Tells.shiftRightOne (h : Tells em y) : Tells em.shiftRightOne (y / 2) := by
  have hknown : known em.shiftRightOne = em.mantissa / 2 := by
    have hsplit : (em.mantissa : ℚ) = 2 * (em.mantissa / 2 : Nat) + (em.mantissa % 2 : Nat) := by
      exact_mod_cast (Nat.div_add_mod em.mantissa 2).symm
    rw [known, ExtendedMantissa.shiftRightOne]
    rcases Nat.mod_two_eq_zero_or_one em.mantissa with hmod | hmod <;> rw [hmod] at hsplit ⊢ <;> norm_num <;>
      push_cast at hsplit <;> linarith
  obtain ⟨hle, hlt, hsticky⟩ := h
  unfold known at hle hlt hsticky
  refine ⟨?_, ?_, ?_⟩
  · rw [hknown]
    split at hle <;> linarith
  · rw [hknown]
    split at hlt <;> linarith
  · rw [hknown, ExtendedMantissa.shiftRightOne]
    cases hround : em.roundBit with
    | false =>
      simp only [hround, Bool.false_or, Bool.false_eq_true, if_false, add_zero] at hsticky ⊢
      rw [hsticky]
      constructor <;> intro <;> linarith
    | true =>
      simp only [hround, Bool.true_or, if_true, Bool.true_eq_false, false_iff] at hle ⊢
      intro heq
      linarith

theorem Tells.shift (h : Tells em y) (s : Nat) : Tells (em >>> s) (y / 2 ^ s) := by
  induction s with
  | zero =>
    rw [pow_zero, div_one]
    exact h
  | succ s ih =>
    have hstep := ih.shiftRightOne
    rwa [div_div, ← pow_succ] at hstep

/-- The rounded mantissa is the nearest one; in the middle it is the even one. -/
theorem Tells.rounded (h : Tells em y) :
    em.mantissa ≤ em.roundedMantissa ∧ em.roundedMantissa ≤ em.mantissa + 1 ∧
    (em.roundedMantissa : ℚ) - 1 / 2 ≤ y ∧ y ≤ em.roundedMantissa + 1 / 2 ∧
    (em.roundedMantissa % 2 = 1 → (em.roundedMantissa : ℚ) - 1 / 2 < y ∧ y < em.roundedMantissa + 1 / 2) := by
  obtain ⟨m, roundBit, stickyBit⟩ := em
  obtain ⟨hle, hlt, hsticky⟩ := h
  unfold known at hle hlt hsticky
  rw [ExtendedMantissa.roundedMantissa]
  cases roundBit with
  | false =>
    have hrounded : (ExtendedMantissa.accuracy ⟨m, false, stickyBit⟩).roundToNearestEven m = m := by
      cases stickyBit <;> rfl
    simp only [hrounded, Bool.false_eq_true, if_false, add_zero] at hle hlt ⊢
    exact ⟨le_rfl, Nat.le_succ m, by linarith, by linarith, fun _ => ⟨by linarith, by linarith⟩⟩
  | true =>
    simp only [if_true] at hle hlt hsticky
    cases stickyBit with
    | false =>
      have hy := hsticky.1 rfl
      have hrounded : (ExtendedMantissa.accuracy ⟨m, true, false⟩).roundToNearestEven m = m + m % 2 := rfl
      rw [hrounded]
      rcases Nat.mod_two_eq_zero_or_one m with hmod | hmod <;> rw [hmod] <;> push_cast
      · exact ⟨by omega, by omega, by linarith, by linarith, fun hodd => by omega⟩
      · exact ⟨by omega, by omega, by linarith, by linarith, fun hodd => by omega⟩
    | true =>
      have hne : (m : ℚ) + 1 / 2 ≠ y := fun heq => Bool.noConfusion (hsticky.2 heq.symm)
      have hmore := lt_of_le_of_ne hle hne
      have hrounded : (ExtendedMantissa.accuracy ⟨m, true, true⟩).roundToNearestEven m = m + 1 := rfl
      rw [hrounded]
      push_cast
      exact ⟨by omega, by omega, by linarith, by linarith, fun _ => ⟨by linarith, by linarith⟩⟩

end

/-- What a division leaves over tells how the quotient goes on. -/
theorem tells_div (n : Nat) {d : Nat} (hd : 0 < d) :
    Tells (.ofMantissaAndAccuracy (n / d) (UnpackedFloat.accuracyOfFraction (n % d) d)) (n / d) := by
  have hpos : (0 : ℚ) < d := by exact_mod_cast hd
  have hless := rest_lt_one n hd
  rw [div_eq_div_add_rest n hd, UnpackedFloat.accuracyOfFraction]
  split
  · rename_i hnone
    rw [hnone, Nat.cast_zero, zero_div, add_zero]
    exact ⟨by simp [known, ExtendedMantissa.ofMantissaAndAccuracy],
      by simp [known, ExtendedMantissa.ofMantissaAndAccuracy],
      by simp [known, ExtendedMantissa.ofMantissaAndAccuracy]⟩
  · rename_i hrest
    have hmore : 0 < ((n % d : Nat) : ℚ) / d := div_pos (by exact_mod_cast Nat.pos_of_ne_zero hrest) hpos
    have hhalf := rest_lt_half_iff n hd
    have hmiddle := rest_eq_half_iff n hd
    generalize ((n % d : Nat) : ℚ) / d = rest at *
    rcases Nat.lt_trichotomy (2 * (n % d)) d with hlt | heq | hgt
    · have hrest := hhalf.2 hlt
      rw [compare_lt_iff_lt.2 hlt]
      constructor <;> simp [known, ExtendedMantissa.ofMantissaAndAccuracy] <;> linarith
    · have hrest := hmiddle.2 heq
      rw [compare_eq_iff_eq.2 heq]
      constructor <;> simp [known, ExtendedMantissa.ofMantissaAndAccuracy, hrest]
    · have hrest : 1 / 2 < rest :=
        lt_of_le_of_ne (not_lt.1 fun h => absurd (hhalf.1 h) hgt.le.not_gt) fun h => hgt.ne' (hmiddle.1 h.symm)
      rw [compare_gt_iff_gt.2 hgt]
      constructor <;> simp [known, ExtendedMantissa.ofMantissaAndAccuracy] <;> linarith

/-! ## Rounding -/

/-- A binary as the model has it before it is packed. -/
def unpacked (b : Binary) : UnpackedFloat :=
  if h : b.significand = 0 then .zero .positive
  else .finite .positive b.significand b.exponent (Nat.pos_of_ne_zero h)

theorem unpacked_none {b : Binary} (h : b.significand = 0) : unpacked b = .zero .positive := dif_pos h

theorem unpacked_some {b : Binary} (h : b.significand ≠ 0) :
    unpacked b = .finite .positive b.significand b.exponent (Nat.pos_of_ne_zero h) := dif_neg h

theorem targetExponent_eq (m : Nat) (e : Int) :
    Format.binary64.targetExponent (totalExponent m e) = max (m.log2 + e - 52) (-1074) := by
  have hleast : Format.binary64.minExponent = -1074 := rfl
  have hbits : (Format.binary64.mantissaBits : Int) = 53 := rfl
  rw [Format.targetExponent, totalExponent, hleast, hbits]
  congr 1
  omega

/-- The first shift leaves 53 bits, or fewer with the least exponent. -/
theorem Tells.exists_shift {m : Nat} {e : Int} {accuracy : Accuracy} {y : ℚ}
    (h : Tells (.ofMantissaAndAccuracy m accuracy) y) (hleast : -1074 ≤ e) (hfull : m < 2 ^ 52 → e = -1074) :
    ∃ em, ∃ s : Nat, UnpackedFloat.shiftToTargetExponent Format.binary64 m e accuracy = (em, e + s) ∧
      Tells em (y / 2 ^ s) ∧ y / 2 ^ s < 2 ^ 53 ∧ (em.mantissa < 2 ^ 52 → e + s = -1074) := by
  have hmantissa : (ExtendedMantissa.ofMantissaAndAccuracy m accuracy).mantissa = m := by
    rcases accuracy with _ | _ | _ <;> rfl
  have hle := h.mantissa_le
  have hlt := h.lt_mantissa
  rw [hmantissa] at hle hlt
  have hlog := Nat.lt_log2_self (n := m)
  obtain ⟨s, hs⟩ : ∃ s, s = (max (m.log2 + e - 52) (-1074) - e).toNat := ⟨_, rfl⟩
  refine ⟨_, s, ?_, h.shift s, ?_, fun hless => ?_⟩
  · rw [UnpackedFloat.shiftToTargetExponent, targetExponent_eq, hs]
    rfl
  · have hmany : (m : ℚ) + 1 ≤ 2 ^ (53 + s) := by
      exact_mod_cast hlog.trans_le (Nat.pow_le_pow_right (by decide) (by omega))
    rw [div_lt_iff₀ (by positivity), ← pow_add]
    exact hlt.trans_le hmany
  · by_contra hne
    have hbits : 52 ≤ m.log2 := by
      by_contra hfew
      have := hfull (hlog.trans_le (Nat.pow_le_pow_right (by decide) (by omega)))
      omega
    have hm : m ≠ 0 := by
      rintro rfl
      simp at hbits
    have hmany : (2 : ℚ) ^ (52 + s) ≤ m := by
      exact_mod_cast (Nat.pow_le_pow_right (by decide) (by omega)).trans (Nat.log2_self_le hm)
    refine hless.not_ge ((h.shift s).le_mantissa ?_)
    rw [le_div_iff₀ (by positivity), Nat.cast_pow, Nat.cast_ofNat, ← pow_add]
    exact hmany.trans hle

theorem shiftToTargetExponent_exact {m : Nat} {e : Int} (hm : m < 2 ^ 53) (he : -1074 ≤ e) :
    UnpackedFloat.shiftToTargetExponent Format.binary64 m e .exact = (⟨m, false, false⟩, e) := by
  have hlog : m.log2 ≤ 52 := by
    by_cases hzero : m = 0
    · simp [hzero]
    · exact Nat.lt_succ_iff.1 ((Nat.log2_lt hzero).2 hm)
  have hs : (max ((m.log2 : Int) + e - 52) (-1074) - e).toNat = 0 := by omega
  rw [UnpackedFloat.shiftToTargetExponent, targetExponent_eq, UnpackedFloat.shiftToExponent, hs]
  simp only [Nat.cast_zero, add_zero]
  rfl

/-- Rounding up can lead to one bit more, which is zero. -/
theorem shiftToTargetExponent_carry {e : Int} (he : -1074 ≤ e) :
    UnpackedFloat.shiftToTargetExponent Format.binary64 (2 ^ 53) e .exact = (⟨2 ^ 52, false, false⟩, e + 1) := by
  have hs : (max (((2 ^ 53 : Nat).log2 : Int) + e - 52) (-1074) - e).toNat = 1 := by
    rw [Nat.log2_two_pow]
    omega
  rw [UnpackedFloat.shiftToTargetExponent, targetExponent_eq, UnpackedFloat.shiftToExponent, hs]
  rfl

theorem holds_of_nearest {r : Nat} {e : Int} {narrow : Bool} {z : ℚ} (hlow : (r : ℚ) - 1 / 2 ≤ z)
    (hhigh : z ≤ r + 1 / 2) (hodd : r % 2 = 1 → (r : ℚ) - 1 / 2 < z ∧ z < r + 1 / 2)
    (hnarrow : narrow = true → r % 2 = 0 ∧ (r : ℚ) - 1 / 4 ≤ z) :
    (⟨r, e, narrow⟩ : Binary).Holds (z * 2 ^ e) := by
  have hpos : (0 : ℚ) < 2 ^ e := zpow_pos (by norm_num) _
  simp only [Binary.Holds, Binary.low, Binary.high, Binary.value, Binary.unit]
  split
  · refine ⟨?_, by nlinarith⟩
    split
    · rename_i h
      have := (hnarrow h).2
      nlinarith
    · nlinarith
  · rename_i hr
    obtain ⟨hlow, hhigh⟩ := hodd (by omega)
    rw [if_neg fun h => hr (hnarrow h).1]
    exact ⟨by nlinarith, by nlinarith⟩

/-- **A number is rounded to the binary that holds it.** -/
theorem exists_round {m : Nat} {e : Int} {accuracy : Accuracy} {y : ℚ}
    (h : Tells (.ofMantissaAndAccuracy m accuracy) y) (hleast : -1074 ≤ e) (hfull : m < 2 ^ 52 → e = -1074) :
    ∃ b : Binary, b.IsDouble ∧ b.Holds (y * 2 ^ e) ∧
      UnpackedFloat.roundWithAccuracy Format.binary64 .positive m e accuracy = unpacked b := by
  obtain ⟨em, s, hshift, htells, hmany, hless⟩ := h.exists_shift hleast hfull
  obtain ⟨hdown, hup, hlow, hhigh, hodd⟩ := htells.rounded
  have hbits : em.mantissa < 2 ^ 53 := htells.mantissa_lt (by exact_mod_cast hmany)
  have hmantissa := htells.mantissa_le
  have hy : y * 2 ^ e = y / 2 ^ s * 2 ^ (e + s) := by
    rw [zpow_add₀ (by norm_num), zpow_natCast]
    field_simp
  rw [hy, UnpackedFloat.roundWithAccuracy, hshift]
  dsimp only
  generalize em.roundedMantissa = r at *
  generalize y / 2 ^ s = z at *
  have hleast : -1074 ≤ e + s := by omega
  generalize e + s = e at *
  by_cases hcarry : r = 2 ^ 53
  · -- The mantissa is the least one with the next exponent, and the number is not above it.
    subst hcarry
    refine ⟨⟨2 ^ 52, e + 1, true⟩, ⟨Nat.pow_lt_pow_right (by decide) (by decide), by dsimp only; omega,
      fun h => absurd h (Nat.lt_irrefl _), by simp; omega⟩, ?_, ?_⟩
    · rw [show z * 2 ^ e = z / 2 * 2 ^ (e + 1) by rw [zpow_add_one₀ (by norm_num)]; ring]
      push_cast at hlow hhigh
      exact holds_of_nearest (by push_cast; linarith) (by push_cast; linarith) (fun h => by norm_num at h)
        fun _ => ⟨by norm_num, by push_cast; linarith⟩
    · rw [shiftToTargetExponent_carry hleast]
      rfl
  · have hr : r < 2 ^ 53 := by omega
    refine ⟨⟨r, e, decide (r = 2 ^ 52 ∧ -1074 < e)⟩, ⟨hr, hleast, fun h => hless (hdown.trans_lt h), by simp⟩,
      holds_of_nearest hlow hhigh hodd fun h => ?_, ?_⟩
    · obtain ⟨hleastOne, habove⟩ := of_decide_eq_true h
      have hfull : 2 ^ 52 ≤ em.mantissa := by
        by_contra hfew
        exact habove.ne' (hless (not_le.1 hfew))
      have hcast : (2 ^ 52 : ℚ) ≤ em.mantissa := by exact_mod_cast hfull
      rw [hleastOne]
      push_cast
      exact ⟨by norm_num, by linarith⟩
    · rw [shiftToTargetExponent_exact hr hleast]
      rfl

/-! ## Dividing -/

theorem exists_div {m₁ m₂ : Nat} (h₁ : 0 < m₁) (h₂ : 0 < m₂) (e₁ e₂ : Int) (he : -1074 ≤ e₁ - e₂) :
    ∃ b : Binary, b.IsDouble ∧ b.Holds (m₁ / m₂ * 2 ^ (e₁ - e₂)) ∧
      UnpackedFloat.div Format.binary64 (.finite .positive m₁ e₁ h₁) (.finite .positive m₂ e₂ h₂) = unpacked b := by
  have htarget : Format.binary64.targetExponent (totalExponent m₁ e₁ - totalExponent m₂ e₂) =
      max ((m₁.log2 : Int) + e₁ - m₂.log2 - e₂ - 53) (-1074) := by
    have hleast : Format.binary64.minExponent = -1074 := rfl
    have hbits : (Format.binary64.mantissaBits : Int) = 53 := rfl
    rw [Format.targetExponent, totalExponent, totalExponent, hleast, hbits]
    congr 1
    omega
  obtain ⟨e, heq⟩ : ∃ e, e = min (e₁ - e₂) (max ((m₁.log2 : Int) + e₁ - m₂.log2 - e₂ - 53) (-1074)) := ⟨_, rfl⟩
  obtain ⟨k, hk⟩ : ∃ k : Nat, k = (e₁ - e₂ - e).toNat := ⟨_, rfl⟩
  have hvalue : (m₁ / m₂ * 2 ^ (e₁ - e₂) : ℚ) = (m₁ <<< k : Nat) / m₂ * 2 ^ e := by
    rw [show e₁ - e₂ = k + e by omega, zpow_add₀ (by norm_num), zpow_natCast, Nat.shiftLeft_eq]
    push_cast
    ring
  have hdiv : UnpackedFloat.div Format.binary64 (.finite .positive m₁ e₁ h₁) (.finite .positive m₂ e₂ h₂) =
      let (m, e, accuracy) := UnpackedFloat.divCore Format.binary64 m₁ e₁ m₂ e₂
      UnpackedFloat.roundWithAccuracy Format.binary64 .positive m e accuracy := rfl
  rw [hvalue, hdiv, UnpackedFloat.divCore, htarget, ← heq, ← hk]
  refine exists_round (tells_div _ h₂) (by omega) fun hless => ?_
  by_contra hne
  refine absurd hless (not_lt.2 ((Nat.le_div_iff_mul_le h₂).2 ?_))
  calc 2 ^ 52 * m₂ ≤ 2 ^ 52 * 2 ^ (m₂.log2 + 1) := Nat.mul_le_mul_left _ Nat.lt_log2_self.le
    _ = 2 ^ (52 + (m₂.log2 + 1)) := (pow_add _ _ _).symm
    _ ≤ 2 ^ (m₁.log2 + k) := Nat.pow_le_pow_right (by decide) (by omega)
    _ = 2 ^ m₁.log2 * 2 ^ k := pow_add _ _ _
    _ ≤ m₁ * 2 ^ k := Nat.mul_le_mul_right _ (Nat.log2_self_le h₁.ne')
    _ = m₁ <<< k := (Nat.shiftLeft_eq _ _).symm

/-! ## Packing -/

theorem toNat_packComponents (exponent : BitVec 11) (mantissa : BitVec 52) :
    (UnpackedFloat.packComponents Format.binary64 .positive exponent mantissa).toNat =
      exponent.toNat * 2 ^ 52 + mantissa.toNat := by
  have hsign : Sign.positive.toBitVec = 0#1 := rfl
  rw [UnpackedFloat.packComponents, hsign]
  simp only [BitVec.toNat_append, BitVec.toNat_ofNat, Nat.zero_mod, Nat.zero_shiftLeft, Nat.zero_or]
  rw [← Nat.shiftLeft_add_eq_or_of_lt mantissa.isLt, Nat.shiftLeft_eq]

/-- The sign is the bit above the exponent and the mantissa. -/
theorem sign_packComponents (exponent : BitVec 11) (mantissa : BitVec 52) : Sign.ofBitVec
    (UnpackedFloat.unpackSign (UnpackedFloat.packComponents Format.binary64 .positive exponent mantissa)) =
      .positive := by
  have hsmall : exponent.toNat * 2 ^ 52 + mantissa.toNat < 2 ^ 63 := by
    have hexponent := exponent.isLt
    have hmantissa := mantissa.isLt
    omega
  have hzero : UnpackedFloat.unpackSign (UnpackedFloat.packComponents Format.binary64 .positive exponent mantissa) =
      0#1 := by
    refine BitVec.eq_of_toNat_eq ?_
    unfold UnpackedFloat.unpackSign
    rw [BitVec.toNat_cast, BitVec.extractLsb_toNat, toNat_packComponents, Nat.shiftRight_eq_div_pow]
    exact (congrArg (· % 2) (Nat.div_eq_of_lt hsmall)).trans rfl
  rw [hzero]
  rfl

/-- The exponent that is packed; zero stands for the least one without the leading bit. -/
def biased (b : Binary) : Nat := if b.significand < 2 ^ 52 then 0 else (b.exponent + 1075).toNat

section
variable {b : Binary}

theorem pack_unpacked (hb : b.IsDouble) (hmost : b.exponent ≤ 971) :
    UnpackedFloat.pack Format.binary64 (unpacked b) =
      UnpackedFloat.packComponents Format.binary64 .positive (.ofNat 11 (biased b)) (.ofNat 52 b.significand) := by
  unfold biased
  by_cases hzero : b.significand = 0
  · rw [unpacked_none hzero, hzero]
    rfl
  · rw [unpacked_some hzero]
    have hbias : (Format.binary64.exponentBias : Int) = 1023 := rfl
    have hbits : Format.binary64.mantissaBits = 53 := rfl
    have hleast := hb.least
    unfold UnpackedFloat.pack
    dsimp only
    rw [hbias, hbits]
    rw [if_neg (by omega)]
    by_cases hfew : b.significand < 2 ^ 52
    · have hlog := (Nat.log2_lt hzero).2 hfew
      rw [if_neg (by omega), if_pos hfew]
    · have hlog : 52 ≤ b.significand.log2 := (Nat.le_log2 hzero).2 (not_lt.1 hfew)
      have hlog' := (Nat.log2_lt hzero).2 hb.small
      rw [if_pos (by omega), if_neg hfew, add_assoc]
      rfl

theorem biased_lt (hb : b.IsDouble) (hmost : b.exponent ≤ 971) : biased b < 2047 := by
  have := hb.least
  unfold biased
  split <;> omega

theorem toNat_pack (hb : b.IsDouble) (hmost : b.exponent ≤ 971) :
    (Float.toBits ⟨.pack (unpacked b)⟩).toNat = biased b * 2 ^ 52 + b.significand % 2 ^ 52 := by
  have hbiased := biased_lt hb hmost
  change (UnpackedFloat.pack Format.binary64 (unpacked b)).toNat = _
  rw [pack_unpacked hb hmost, toNat_packComponents, BitVec.toNat_ofNat, BitVec.toNat_ofNat, Nat.mod_eq_of_lt (by omega)]

theorem ofFloat_pack (hb : b.IsDouble) (hmost : b.exponent ≤ 971) : Binary.ofFloat ⟨.pack (unpacked b)⟩ = b := by
  have hbiased := biased_lt hb hmost
  have hleast := hb.least
  have hsmall := hb.small
  have hfraction : (biased b * 2 ^ 52 + b.significand % 2 ^ 52) % 2 ^ 52 = b.significand % 2 ^ 52 := by omega
  have hexponent : (biased b * 2 ^ 52 + b.significand % 2 ^ 52) / 2 ^ 52 % 2 ^ 11 = biased b := by omega
  simp only [Binary.ofFloat, toNat_pack hb hmost, Nat.pow_eq, hfraction, hexponent]
  obtain ⟨significand, exponent, narrow⟩ := b
  have hnarrow := hb.narrow
  have hfull := hb.full
  simp only [biased] at *
  by_cases hfew : significand < 2 ^ 52
  · rw [if_pos hfew, if_pos rfl, Nat.mod_eq_of_lt hfew, hfull hfew]
    cases narrow with
    | false => rfl
    | true => exact absurd (hnarrow.1 rfl).1 hfew.ne
  · rw [if_neg hfew, if_neg (by omega)]
    have hmod : significand % 2 ^ 52 = significand - 2 ^ 52 := by omega
    have hflag : (decide (significand - 2 ^ 52 = 0) && decide ((exponent + 1075).toNat > 1)) = narrow := by
      rw [Bool.eq_iff_iff, Bool.and_eq_true, decide_eq_true_iff, decide_eq_true_iff, hnarrow]
      omega
    rw [hmod, hflag, Binary.mk.injEq]
    exact ⟨by omega, by omega, rfl⟩

theorem unpack_pack (hb : b.IsDouble) (hmost : b.exponent ≤ 971) :
    (Float.Model.pack (unpacked b)).unpack = unpacked b := by
  have hbiased := biased_lt hb hmost
  have hleast := hb.least
  have hsmall := hb.small
  have hfull := hb.full
  change UnpackedFloat.unpack Format.binary64 (UnpackedFloat.pack Format.binary64 (unpacked b)) = _
  rw [pack_unpacked hb hmost]
  -- Of the packed float nothing matters but its parts.
  obtain ⟨packed, hpacked⟩ : ∃ packed, UnpackedFloat.packComponents Format.binary64 .positive
    (.ofNat 11 (biased b)) (.ofNat 52 b.significand) = packed := ⟨_, rfl⟩
  have hsign : Sign.ofBitVec (UnpackedFloat.unpackSign packed) = .positive := hpacked ▸ sign_packComponents _ _
  have hexponent : (UnpackedFloat.unpackExponent packed).toNat = biased b := by
    rw [← hpacked, UnpackedFloat.unpackExponent_packComponents]
    exact (BitVec.toNat_ofNat _ 11).trans (Nat.mod_eq_of_lt (by omega))
  have hmantissa : (UnpackedFloat.unpackMantissa packed).toNat = b.significand % 2 ^ 52 := by
    rw [← hpacked, UnpackedFloat.unpackMantissa_packComponents]
    exact BitVec.toNat_ofNat _ 52
  rw [hpacked]
  have hfinite : UnpackedFloat.unpackExponent packed ≠ -1#11 := fun heq => by
    have := congrArg BitVec.toNat heq
    rw [hexponent, show (-1#11 : BitVec 11).toNat = 2047 from rfl] at this
    omega
  unfold UnpackedFloat.unpack
  dsimp only
  rw [if_neg hfinite]
  by_cases hfew : b.significand < 2 ^ 52
  · have hzero : biased b = 0 := if_pos hfew
    have hkeep := hmantissa.trans (Nat.mod_eq_of_lt hfew)
    rw [if_pos (BitVec.eq_of_toNat_eq (hexponent.trans (hzero.trans rfl)))]
    by_cases hnone : b.significand = 0
    · rw [dif_pos (BitVec.eq_of_toNat_eq (hkeep.trans (hnone.trans rfl))), unpacked_none hnone, hsign]
    · rw [dif_neg fun heq => hnone (hkeep.symm.trans (congrArg BitVec.toNat heq)), unpacked_some hnone,
        UnpackedFloat.finite.injEq, hkeep, hexponent, hzero]
      exact ⟨hsign, rfl, (hfull hfew).symm⟩
  · have hvalue : biased b = (b.exponent + 1075).toNat := if_neg hfew
    have hlead : (1#1 ++ UnpackedFloat.unpackMantissa packed).toNat = b.significand := by
      rw [BitVec.toNat_append, ← Nat.shiftLeft_add_eq_or_of_lt (BitVec.isLt _), Nat.shiftLeft_eq, hmantissa,
        BitVec.toNat_ofNat, show (Format.binary64.mantissaBitsWithoutImplicit : Nat) = 52 from rfl]
      omega
    rw [if_neg fun heq => ?_, unpacked_some (by omega), UnpackedFloat.finite.injEq, hexponent, hvalue]
    · have hbias : (Format.binary64.exponentBias : Int) + (Format.binary64.mantissaBitsWithoutImplicit : Int) = 1075 :=
        rfl
      exact ⟨hsign, hlead, by rw [hbias]; omega⟩
    · have := congrArg BitVec.toNat heq
      rw [hexponent, show (0#11 : BitVec 11).toNat = 0 from rfl] at this
      omega

theorem isFinite_pack (hb : b.IsDouble) : Float.isFinite ⟨.pack (unpacked b)⟩ = true ↔ b.exponent ≤ 971 := by
  change (Float.Model.pack (unpacked b)).unpack.isFinite = true ↔ _
  by_cases hmost : b.exponent ≤ 971
  · rw [unpack_pack hb hmost, iff_true_right hmost]
    by_cases hnone : b.significand = 0
    · rw [unpacked_none hnone]
      rfl
    · rw [unpacked_some hnone]
      rfl
  · have hbias : (Format.binary64.exponentBias : Int) = 1023 := rfl
    have hzero : b.significand ≠ 0 := fun heq => by
      have := hb.full (by rw [heq]; decide)
      omega
    have hpack : UnpackedFloat.pack Format.binary64 (unpacked b) =
        UnpackedFloat.packComponents Format.binary64 .positive (-1#11) 0#52 := by
      rw [unpacked_some hzero]
      unfold UnpackedFloat.pack
      dsimp only
      rw [hbias]
      rw [if_pos (by omega)]
      rfl
    change (UnpackedFloat.unpack Format.binary64 (UnpackedFloat.pack Format.binary64 (unpacked b))).isFinite = true ↔ _
    rw [hpack]
    exact iff_of_false (by decide) hmost

end

/-! ## Decimals -/

def exactly (n : Nat) : Binary :=
  ⟨n * 2 ^ (52 - n.log2), -(52 - n.log2 : Nat), decide (n * 2 ^ (52 - n.log2) = 2 ^ 52)⟩

theorem value_exactly (n : Nat) : (exactly n).value = n := by
  rw [Binary.value, Binary.unit, exactly, zpow_neg, zpow_natCast]
  push_cast
  field_simp

section
variable {n : Nat} (hn : n ≠ 0) (hsmall : n < 2 ^ 53)
include hn hsmall

theorem le_exactly : 2 ^ 52 ≤ n * 2 ^ (52 - n.log2) := by
  have hlog : n.log2 < 53 := (Nat.log2_lt hn).2 hsmall
  refine le_trans ?_ (Nat.mul_le_mul_right _ (Nat.log2_self_le hn))
  rw [← pow_add]
  exact Nat.pow_le_pow_right (by decide) (by omega)

theorem isDouble_exactly : (exactly n).IsDouble := by
  have hlog : n.log2 < 53 := (Nat.log2_lt hn).2 hsmall
  refine ⟨?_, ?_, fun h => absurd h (le_exactly hn hsmall).not_gt, ?_⟩
  · refine lt_of_lt_of_le (Nat.mul_lt_mul_of_pos_right Nat.lt_log2_self (by positivity)) ?_
    rw [← pow_add]
    exact Nat.pow_le_pow_right (by decide) (by omega)
  · change (-1074 : Int) ≤ -(52 - n.log2 : Nat)
    omega
  · change decide _ = true ↔ _ ∧ (-1074 : Int) < -(52 - n.log2 : Nat)
    rw [decide_eq_true_iff]
    exact ⟨fun h => ⟨h, by omega⟩, And.left⟩

theorem unpack_toFloat : n.toUInt64.toFloat.toModel.unpack = unpacked (exactly n) := by
  have hlog : n.log2 < 53 := (Nat.log2_lt hn).2 hsmall
  have hdouble := isDouble_exactly hn hsmall
  have htells : Tells (.ofMantissaAndAccuracy (n * 2 ^ (52 - n.log2)) .exact) (n * 2 ^ (52 - n.log2) : Nat) := by
    constructor <;> simp [known, ExtendedMantissa.ofMantissaAndAccuracy]
  obtain ⟨b, hb, hholds, hround⟩ := exists_round (e := -(52 - n.log2 : Nat)) htells (by omega)
    fun h => absurd h (le_exactly hn hsmall).not_gt
  have hsame : b = exactly n := hdouble.eq_of_holds hb
    (Binary.holds_of_lt (exactly n).low_lt_value (exactly n).value_lt_high) hholds
  have hshift : (-max ((n.log2 : Int) + 0 - 52) (-1074)).toNat = 52 - n.log2 := by omega
  have hto : n.toUInt64.toNat = n := by rw [Nat.toUInt64, UInt64.toNat_ofNat', Nat.mod_eq_of_lt (by omega)]
  have hpositive : compare (n : Int) 0 = .gt := compare_gt_iff_gt.2 (by omega)
  have hnormal : UnpackedFloat.ofUInt64 Format.binary64 n.toUInt64 = unpacked (exactly n) := by
    rw [UnpackedFloat.ofUInt64, hto, UnpackedFloat.ofNat, UnpackedFloat.ofInt, UnpackedFloat.normalize, hpositive]
    simp only [Int.toNat_natCast, UnpackedFloat.round, targetExponent_eq, UnpackedFloat.decreaseExponent, Int.zero_sub,
      hshift, Nat.shiftLeft_eq]
    rw [hround, hsame]
  change (Float.Model.pack (UnpackedFloat.ofUInt64 Format.binary64 n.toUInt64)).unpack = _
  rw [hnormal, unpack_pack hdouble (by change -((52 - n.log2 : Nat) : Int) ≤ 971; omega)]

end

theorem unpack_powerOfTen : ∀ k : Fin 23,
    (match Float.exactlyRepresentablePowersOfTen[k].toModel.unpack with
      | .finite .positive m e _ => decide (m * 2 ^ e.toNat = 10 ^ k.val * 2 ^ (-e).toNat ∧ e ≤ 22)
      | _ => false) = true := by
  decide +kernel

theorem exists_powerOfTen {k : Nat} (hk : k < Float.exactlyRepresentablePowersOfTen.size) : ∃ m e, ∃ hm : 0 < m,
    Float.exactlyRepresentablePowersOfTen[k].toModel.unpack = .finite .positive m e hm ∧
      (m * 2 ^ e : ℚ) = 10 ^ k ∧ e ≤ 22 := by
  have h := unpack_powerOfTen ⟨k, hk⟩
  obtain ⟨power, hunpack⟩ : ∃ power, Float.exactlyRepresentablePowersOfTen[k].toModel.unpack = power := ⟨_, rfl⟩
  rw [Fin.getElem_fin, hunpack] at h
  match power, h with
  | .finite .positive m e hm, h =>
    obtain ⟨hvalue, hmost⟩ := of_decide_eq_true h
    refine ⟨m, e, hm, hunpack, ?_, hmost⟩
    have hcast : (m : ℚ) * 2 ^ e.toNat = 10 ^ k * 2 ^ (-e).toNat := by exact_mod_cast hvalue
    have hsplit : (2 : ℚ) ^ e = 2 ^ e.toNat / 2 ^ (-e).toNat := by
      rw [← zpow_natCast, ← zpow_natCast, ← zpow_sub₀ (by norm_num)]
      congr 1
      omega
    rw [hsplit, ← mul_div_assoc, hcast, mul_div_cancel_right₀ _ (by positivity)]

def zero : Binary := ⟨0, -1074, false⟩

theorem isDouble_zero : zero.IsDouble := ⟨by decide, le_rfl, fun _ => rfl, by decide⟩

theorem eq_zero_of_isDouble {b : Binary} (hb : b.IsDouble) (h : b.significand = 0) : b = zero := by
  have hnarrow : b.narrow = false := by
    rw [Bool.eq_false_iff, Ne, hb.narrow, h]
    exact fun hnarrow => absurd hnarrow.1 (by norm_num)
  have hexponent := hb.full (by rw [h]; norm_num)
  cases b
  cases h
  cases hexponent
  cases hnarrow
  rfl

theorem holds_zero {x : ℚ} (hx : 0 ≤ x) (hsmall : x ≤ 2 ^ (-1075 : Int)) : zero.Holds x := by
  have hhalf : zero.unit / 2 = 2 ^ (-1075 : Int) := by
    rw [Binary.unit, zero, show (-1074 : Int) = -1075 + 1 by norm_num, zpow_add_one₀ (by norm_num)]
    ring
  have hvalue : zero.value = 0 := by simp [Binary.value, zero]
  rw [Binary.Holds, if_pos (by decide), Binary.low, Binary.high, hvalue, hhalf, zero_add]
  exact ⟨by have := zero.unit_pos; simp only [zero, Bool.false_eq_true, if_false] at *; linarith, hsmall⟩

theorem div_eq_pack (x y : Float) :
    x / y = ⟨.pack (UnpackedFloat.div Format.binary64 x.toModel.unpack y.toModel.unpack)⟩ := rfl

/-- Fewer than 54 bits are divided by a power of ten that is a float as well. -/
theorem exists_div_powerOfTen {n k : Nat} (hsmall : n < 2 ^ 53) (hk : k < Float.exactlyRepresentablePowersOfTen.size) :
    ∃ b : Binary, b.IsDouble ∧ b.Holds (n / 10 ^ k) ∧
      n.toUInt64.toFloat / Float.exactlyRepresentablePowersOfTen[k] = ⟨.pack (unpacked b)⟩ := by
  obtain ⟨m, e, hm, hpower, hvalue, hmost⟩ := exists_powerOfTen hk
  rw [div_eq_pack, hpower]
  by_cases hn : n = 0
  · subst hn
    exact ⟨zero, isDouble_zero, holds_zero (by simp) (by simp), rfl⟩
  · have hlog : n.log2 < 53 := (Nat.log2_lt hn).2 hsmall
    have hpos : 0 < (exactly n).significand := lt_of_lt_of_le (by positivity) (le_exactly hn hsmall)
    have hunpack : n.toUInt64.toFloat.toModel.unpack = .finite .positive _ _ hpos :=
      (unpack_toFloat hn hsmall).trans (unpacked_some hpos.ne')
    obtain ⟨b, hb, hholds, hdiv⟩ := exists_div hpos hm (exactly n).exponent e (by
      change (-1074 : Int) ≤ -(52 - n.log2 : Nat) - e
      omega)
    have hquotient : ((exactly n).significand / m * 2 ^ ((exactly n).exponent - e) : ℚ) = n / 10 ^ k := by
      have hvalue' : ((exactly n).significand * 2 ^ (exactly n).exponent : ℚ) = n := value_exactly n
      rw [← hvalue, ← hvalue', zpow_sub₀ (by norm_num), div_mul_div_comm]
    rw [hquotient] at hholds
    rw [hunpack, hdiv]
    exact ⟨b, hb, hholds, rfl⟩

theorem div_ten_pow_le {n k : Nat} (hk : 2048 + n.log2 < k) : (n / 10 ^ k : ℚ) ≤ 2 ^ (-1075 : Int) := by
  have hn : (n : ℚ) ≤ 2 ^ (n.log2 + 1) := by exact_mod_cast Nat.lt_log2_self.le
  have hten : (2 : ℚ) ^ k ≤ 10 ^ k := pow_le_pow_left₀ (by norm_num) (by norm_num) k
  have hmany : (2 : ℚ) ^ (n.log2 + 1) * 2 ^ 1075 ≤ 2 ^ k := by
    rw [← pow_add]
    exact pow_le_pow_right₀ (by norm_num) (by omega)
  rw [zpow_neg, zpow_ofNat, div_le_iff₀ (by positivity), inv_mul_eq_div, le_div_iff₀ (by positivity)]
  calc (n * 2 ^ 1075 : ℚ) ≤ 2 ^ (n.log2 + 1) * 2 ^ 1075 := mul_le_mul_of_nonneg_right hn (by positivity)
    _ ≤ 10 ^ k := hmany.trans hten

/-- **A decimal with a point is rounded to the binary that holds it.** -/
theorem exists_ofScientific (n : Nat) {k : Nat} (hk : k ≠ 0) : ∃ b : Binary, b.IsDouble ∧ b.Holds (n / 10 ^ k) ∧
    Float.ofScientific n true k = ⟨.pack (unpacked b)⟩ := by
  rw [Float.ofScientific]
  split
  · rename_i hfast
    exact exists_div_powerOfTen hfast.1 (Nat.lt_succ_of_le hfast.2)
  · have hbits : (2 : Int) ^ Format.binary64.exponentBits = 2048 := rfl
    have hexponent : Int.negOfNat k = -(k : Int) := Int.negOfNat_eq
    change ∃ b : Binary, _ ∧ _ ∧
      Float.ofModel (.pack (UnpackedFloat.ofScientific Format.binary64 n (Int.negOfNat k))) = _
    rw [hexponent, UnpackedFloat.ofScientific, hbits]
    by_cases hn : n = 0
    · subst hn
      exact ⟨zero, isDouble_zero, holds_zero (by simp) (by simp), rfl⟩
    · rw [dif_neg hn, if_neg (by omega)]
      by_cases htiny : -(k : Int) < -(2048 + (n.log2 : Int))
      · rw [if_pos htiny]
        exact ⟨zero, isDouble_zero, holds_zero (by positivity) (div_ten_pow_le (by omega)), rfl⟩
      · rw [if_neg htiny, if_neg (by omega)]
        -- The exponent stays as the model of floats has it, negated twice, so that the quotients are the same.
        obtain ⟨b, hb, hholds, hdiv⟩ := exists_div (Nat.pos_of_ne_zero hn)
          (Nat.pow_pos (n := (- -(k : Int)).toNat) (by decide : 0 < 10)) 0 0 (by decide)
        exact ⟨b, hb, by simpa using hholds, by rw [hdiv]⟩

end ApiCatalog.Decimal
