import ApiCatalog.Proofs.Decimal.Binary
import ApiCatalog.Proofs.Decimal.FloatText
/-!
# Shortest decimals

The decimal that stands for a float rounds to it (`Binary.IsFloat.holds_shortest`).  For a float with all its bits it is
the only one that no decimal on a coarser grid replaces and none on its own grid improves
(`Binary.IsFloat.shortest_spec`, `Binary.Shortest.unique`); what rounds to the float and has no more than fifteen digits
is this decimal (`Binary.shortest_of_few`).
-/

namespace ApiCatalog.Decimal

/-! ## Grids -/

theorem Scaled.value_coarser (n : Nat) (e : Int) (k : Nat) :
    Scaled.value ⟨n, e + k⟩ = Scaled.value ⟨n * 10 ^ k, e⟩ := by
  simp only [value]
  rw [zpow_add₀ (by norm_num), zpow_natCast]
  push_cast
  ring

theorem Scaled.value_dropZeros (fuel : Nat) (d : Scaled) : (d.dropZeros fuel).value = d.value := by
  induction fuel generalizing d with
  | zero => rfl
  | succ fuel ih =>
    unfold dropZeros
    split
    · rename_i hzero
      rw [ih]
      exact (value_coarser _ _ 1).trans (by rw [pow_one, Nat.div_mul_cancel (Nat.dvd_of_mod_eq_zero hzero.2)])
    · rfl

theorem Scaled.dropZeros_eq_self {d : Scaled} (h : d.digits % 10 ≠ 0) (fuel : Nat) : d.dropZeros fuel = d := by
  cases fuel with
  | zero => rfl
  | succ fuel => rw [dropZeros, if_neg fun hzero => h hzero.2]

namespace Binary

/-- No decimal with a greater unit rounds to the binary, and none with the same unit that does so is nearer; of two that
are equally near it is the even one. -/
structure Shortest (b : Binary) (d : Scaled) : Prop where
  holds : b.Holds d.value
  coarser : ∀ n : Nat, ¬ b.Holds (Scaled.value ⟨n, d.exponent + 1⟩)
  nearest : ∀ n : Nat, b.Holds (Scaled.value ⟨n, d.exponent⟩) →
    |d.value - b.value| ≤ |Scaled.value ⟨n, d.exponent⟩ - b.value|
  even : ∀ n : Nat, n ≠ d.digits → b.Holds (Scaled.value ⟨n, d.exponent⟩) →
    |d.value - b.value| = |Scaled.value ⟨n, d.exponent⟩ - b.value| → d.digits % 2 = 0

section
variable {b : Binary} {d d' : Scaled}

/-- A zero at the end could be left out. -/
theorem Shortest.digits_mod (h : b.Shortest d) : d.digits % 10 ≠ 0 := fun hzero => by
  have hsame := Scaled.value_coarser (d.digits / 10) d.exponent 1
  rw [pow_one, Nat.div_mul_cancel (Nat.dvd_of_mod_eq_zero hzero), Nat.cast_one] at hsame
  exact h.coarser (d.digits / 10) (hsame ▸ h.holds)

theorem Shortest.exponent_le (h : b.Shortest d) (h' : b.Shortest d') : d'.exponent ≤ d.exponent := by
  by_contra hlt
  obtain ⟨k, hk⟩ := Int.le.dest (by omega : d.exponent + 1 ≤ d'.exponent)
  refine h.coarser (d'.digits * 10 ^ k) ?_
  rw [← Scaled.value_coarser, hk]
  exact h'.holds

/-- **There is one shortest decimal.** -/
theorem Shortest.unique (h : b.Shortest d) (h' : b.Shortest d') : d' = d := by
  obtain ⟨n, e⟩ := d
  obtain ⟨n', e'⟩ := d'
  obtain rfl : e' = e := le_antisymm (h.exponent_le h') (h'.exponent_le h)
  have hsame := le_antisymm (h.nearest n' h'.holds) (h'.nearest n h.holds)
  by_contra hne
  have hdigits : n' ≠ n := fun heq => hne (by rw [heq])
  have heven : n % 2 = 0 := h.even n' hdigits h'.holds hsame
  have heven' : n' % 2 = 0 := h'.even n hdigits.symm h.holds hsame.symm
  -- What lies between two that are equally near is nearer than both.
  have hmiddle : ∀ {p q : Nat}, p + 2 ≤ q → b.Shortest ⟨p, e'⟩ → b.Shortest ⟨q, e'⟩ →
      |Scaled.value ⟨p, e'⟩ - b.value| = |Scaled.value ⟨q, e'⟩ - b.value| → False := by
    intro p q hpq hp hq hsame
    have hunit : (0 : ℚ) < 10 ^ e' := zpow_pos (by norm_num) _
    have hcast : (p : ℚ) + 2 ≤ q := by exact_mod_cast hpq
    have hnext : Scaled.value ⟨p + 1, e'⟩ = Scaled.value ⟨p, e'⟩ + 10 ^ e' := by
      simp only [Scaled.value]
      push_cast
      ring
    have hfar : Scaled.value ⟨p, e'⟩ + 2 * 10 ^ e' ≤ Scaled.value ⟨q, e'⟩ := by
      simp only [Scaled.value]
      nlinarith
    have hcenter : 2 * b.value = Scaled.value ⟨p, e'⟩ + Scaled.value ⟨q, e'⟩ := by
      rcases abs_eq_abs.1 hsame with heq | heq <;> linarith
    have hbetween : b.Holds (Scaled.value ⟨p + 1, e'⟩) := by
      rcases le_total (Scaled.value ⟨p + 1, e'⟩) b.value with hle | hle
      · exact hp.holds.of_between (.inl ⟨by linarith, hle⟩)
      · exact hq.holds.of_between (.inr ⟨hle, by linarith⟩)
    have hnear := hp.nearest (p + 1) hbetween
    rw [abs_of_nonpos (by linarith)] at hnear
    rcases abs_cases (Scaled.value ⟨p + 1, e'⟩ - b.value) with ⟨habs, -⟩ | ⟨habs, -⟩ <;> rw [habs] at hnear <;> linarith
  rcases Nat.lt_or_ge n n' with hlt | hge
  · exact hmiddle (by omega) h h' hsame
  · exact hmiddle (by omega) h' h hsame.symm

end

end Binary

/-! ## Lengths -/

/-- Three decimal digits are nearly ten binary ones, so that the estimate of a length is off by less than two. -/
theorem estimate_nat : ∀ i < 1075, 10 ^ (i * 1233 / 4096) ≤ 2 ^ i ∧ 2 ^ (i + 1) ≤ 10 ^ (i * 1233 / 4096 + 2) := by
  decide +kernel

theorem estimate_spec {l : Int} (hleast : -1074 ≤ l) (hmost : l < 1075) :
    (10 ^ (l * 1233 / 4096 - 2) : ℚ) ≤ 2 ^ l ∧ (2 ^ (l + 1) : ℚ) ≤ 10 ^ (l * 1233 / 4096 + 2) := by
  have hten : (1 : ℚ) ≤ 10 := by norm_num
  obtain ⟨i, hi⟩ : ∃ i : Nat, i = l.natAbs := ⟨_, rfl⟩
  obtain ⟨hlow, hhigh⟩ := estimate_nat i (by omega)
  obtain ⟨f, hf⟩ : ∃ f, f = i * 1233 / 4096 := ⟨_, rfl⟩
  rw [← hf] at hlow hhigh
  have hlow : (10 ^ (f : Int) : ℚ) ≤ 2 ^ (i : Int) := by exact_mod_cast hlow
  have hhigh : (2 ^ (i + 1 : Int) : ℚ) ≤ 10 ^ (f + 2 : Int) := by exact_mod_cast hhigh
  rcases Int.le_total 0 l with hl | hl
  · obtain rfl : l = i := by omega
    rw [show (i : Int) * 1233 / 4096 = f by omega]
    exact ⟨(zpow_le_zpow_right₀ hten (by omega)).trans hlow, hhigh⟩
  · obtain rfl : l = -(i : Int) := by omega
    obtain ⟨c, hc⟩ : ∃ c, c = -(i : Int) * 1233 / 4096 := ⟨_, rfl⟩
    rw [← hc]
    have htwo : (2 ^ (i + 1 : Int) : ℚ) = 2 ^ (i : Int) * 2 := zpow_add_one₀ (by norm_num) _
    have hpos : (0 : ℚ) < 2 ^ (i : Int) := zpow_pos (by norm_num) _
    constructor
    · calc (10 ^ (c - 2) : ℚ) ≤ 10 ^ (-(f + 2 : Int)) := zpow_le_zpow_right₀ hten (by omega)
        _ ≤ 2 ^ (-(i : Int)) := by
          rw [zpow_neg, zpow_neg, inv_le_inv₀ (zpow_pos (by norm_num) _) hpos]
          linarith
    · calc (2 ^ (-(i : Int) + 1) : ℚ) = (2 ^ (i : Int))⁻¹ * 2 := by rw [zpow_add_one₀ (by norm_num), zpow_neg]
        _ ≤ (10 ^ (f : Int))⁻¹ * 10 := by
          have := inv_anti₀ (zpow_pos (by norm_num) _) hlow
          have := inv_pos.2 hpos
          linarith
        _ = 10 ^ (-(f : Int) + 1) := by rw [zpow_add_one₀ (by norm_num), zpow_neg]
        _ ≤ 10 ^ (c + 2) := zpow_le_zpow_right₀ hten (by omega)

namespace Binary

/-- A binary that is the size of a positive float. -/
structure IsFloat (b : Binary) : Prop extends b.IsDouble where
  pos : b.significand ≠ 0
  most : b.exponent ≤ 971

section
variable {b : Binary} {d : Scaled}

theorem value_lt_iff (b : Binary) (k : Int) :
    (scaled b.significand b.exponent (-k)).1 < (scaled b.significand b.exponent (-k)).2 ↔ b.value < 10 ^ k := by
  have hpos : (0 : ℚ) < (scaled b.significand b.exponent (-k)).2 := by exact_mod_cast scaled_pos _ _ _
  rw [← @Nat.cast_lt ℚ, ← div_lt_one hpos, value_scaled, zpow_neg, ← div_eq_mul_inv,
    div_lt_one (zpow_pos (by norm_num) _)]
  rfl

theorem IsFloat.value_bounds (hb : b.IsFloat) : (2 : ℚ) ^ (b.exponent + b.significand.log2) ≤ b.value ∧
    b.value < 2 ^ (b.exponent + b.significand.log2 + 1) := by
  have hunit := b.unit_pos
  have hlow : (2 : ℚ) ^ b.significand.log2 ≤ b.significand := by exact_mod_cast Nat.log2_self_le hb.pos
  have hhigh : (b.significand : ℚ) < 2 ^ (b.significand.log2 + 1) := by exact_mod_cast Nat.lt_log2_self
  have htwo : (2 : ℚ) ^ (b.exponent + b.significand.log2) = 2 ^ b.significand.log2 * b.unit := by
    rw [zpow_add₀ (by norm_num), zpow_natCast, unit, mul_comm]
  rw [zpow_add_one₀ (by norm_num), htwo, value]
  rw [pow_succ] at hhigh
  constructor <;> nlinarith

/-- **The decimal length is the number of digits before the point.** -/
theorem IsFloat.decimalLength_spec (hb : b.IsFloat) :
    (10 : ℚ) ^ (b.decimalLength - 1) ≤ b.value ∧ b.value < 10 ^ b.decimalLength := by
  obtain ⟨hlow, hhigh⟩ := hb.value_bounds
  have hlog := (Nat.log2_lt hb.pos).2 hb.small
  have hleast := hb.least
  have hmost := hb.most
  obtain ⟨hunder, hover⟩ := estimate_spec (l := b.exponent + b.significand.log2) (by omega) (by omega)
  have hunder := hunder.trans hlow
  have hover := hhigh.trans_le hover
  have hge : ∀ {k : Int}, ¬ b.value < 10 ^ k → (10 : ℚ) ^ k ≤ b.value := not_lt.1
  simp only [decimalLength, List.find?, value_lt_iff]
  generalize (b.exponent + b.significand.log2) * 1233 / 4096 = estimate at *
  by_cases h₁ : b.value < 10 ^ (estimate - 1)
  · simp only [h₁, decide_true, Option.getD_some, and_true]
    rwa [sub_sub, one_add_one_eq_two]
  by_cases h₂ : b.value < 10 ^ estimate
  · simpa only [h₁, h₂, decide_true, decide_false, Option.getD_some, and_true] using hge h₁
  by_cases h₃ : b.value < 10 ^ (estimate + 1)
  · simp only [h₁, h₂, h₃, decide_true, decide_false, Option.getD_some, and_true]
    rw [add_sub_cancel_right]
    exact hge h₂
  · simp only [h₁, h₂, h₃, hover, decide_true, decide_false, Option.getD_some, and_true]
    rw [show estimate + 2 - 1 = estimate + 1 by omega]
    exact hge h₃

/-! ## Neighbours -/

theorem value_mono {m n : Nat} (e : Int) (h : m ≤ n) : Scaled.value ⟨m, e⟩ ≤ Scaled.value ⟨n, e⟩ := by
  have hunit : (0 : ℚ) < 10 ^ e := zpow_pos (by norm_num) _
  have hcast : (m : ℚ) ≤ n := by exact_mod_cast h
  simp only [Scaled.value]
  nlinarith

theorem value_succ (n : Nat) (e : Int) : Scaled.value ⟨n + 1, e⟩ = Scaled.value ⟨n, e⟩ + 10 ^ e := by
  simp only [Scaled.value]
  push_cast
  ring

/-- The number of units of the grid that are not more than the binary. -/
def down (b : Binary) (e : Int) : Nat :=
  (scaled b.significand b.exponent (-e)).1 / (scaled b.significand b.exponent (-e)).2

theorem down_spec (b : Binary) (e : Int) :
    Scaled.value ⟨b.down e, e⟩ ≤ b.value ∧ b.value < Scaled.value ⟨b.down e + 1, e⟩ ∧
    (2 * ((scaled b.significand b.exponent (-e)).1 % (scaled b.significand b.exponent (-e)).2) <
        (scaled b.significand b.exponent (-e)).2 ↔
      b.value - Scaled.value ⟨b.down e, e⟩ < Scaled.value ⟨b.down e + 1, e⟩ - b.value) ∧
    (2 * ((scaled b.significand b.exponent (-e)).1 % (scaled b.significand b.exponent (-e)).2) =
        (scaled b.significand b.exponent (-e)).2 ↔
      b.value - Scaled.value ⟨b.down e, e⟩ = Scaled.value ⟨b.down e + 1, e⟩ - b.value) := by
  have hgrid : (0 : ℚ) < 10 ^ e := zpow_pos (by norm_num) _
  have hden := scaled_pos b.significand b.exponent (-e)
  have hvalue : b.value =
      (scaled b.significand b.exponent (-e)).1 / (scaled b.significand b.exponent (-e)).2 * 10 ^ e := by
    rw [value_scaled, zpow_neg, inv_mul_cancel_right₀ hgrid.ne']
    rfl
  rw [value_succ, hvalue]
  simp only [Scaled.value, down]
  generalize (scaled b.significand b.exponent (-e)).1 = num at *
  generalize (scaled b.significand b.exponent (-e)).2 = den at *
  have hless := rest_lt_one num hden
  have hnonneg : 0 ≤ ((num % den : Nat) / den : ℚ) := by positivity
  rw [← rest_lt_half_iff num hden, ← rest_eq_half_iff num hden, div_eq_div_add_rest num hden]
  generalize ((num % den : Nat) / den : ℚ) = rest at *
  generalize ((num / den : Nat) : ℚ) = whole at *
  refine ⟨by nlinarith, by nlinarith, ⟨fun h => by nlinarith, fun h => by nlinarith⟩, fun h => ?_, fun h => ?_⟩
  · rw [h]
    ring
  · have : rest * 10 ^ e = 1 / 2 * 10 ^ e := by linarith
    exact mul_right_cancel₀ hgrid.ne' this

/-- What rounds to the binary has a neighbour of the binary on its side that is as near or nearer and rounds to it as
well. -/
theorem Holds.neighbour {n : Nat} {e : Int} (h : b.Holds (Scaled.value ⟨n, e⟩)) :
    (n ≤ b.down e ∧ b.Holds (Scaled.value ⟨b.down e, e⟩)) ∨
      (b.down e + 1 ≤ n ∧ b.Holds (Scaled.value ⟨b.down e + 1, e⟩)) := by
  obtain ⟨hlower, hupper, -⟩ := b.down_spec e
  rcases Nat.lt_or_ge (b.down e) n with hlt | hge
  · exact .inr ⟨hlt, h.of_between (.inr ⟨hupper.le, value_mono e (Nat.succ_le_of_lt hlt)⟩)⟩
  · exact .inl ⟨hge, h.of_between (.inl ⟨value_mono e hge, hlower⟩)⟩

theorem abs_below {n : Nat} {e : Int} (h : n ≤ b.down e) :
    |Scaled.value ⟨n, e⟩ - b.value| = b.value - Scaled.value ⟨n, e⟩ := by
  have := value_mono e h
  have := (b.down_spec e).1
  rw [abs_of_nonpos (by linarith), neg_sub]

theorem abs_above {n : Nat} {e : Int} (h : b.down e + 1 ≤ n) :
    |Scaled.value ⟨n, e⟩ - b.value| = Scaled.value ⟨n, e⟩ - b.value := by
  have := value_mono e h
  have := (b.down_spec e).2.1
  exact abs_of_nonneg (by linarith)

/-- A decimal on a grid rounds to the binary, is next to it, and is the nearest one that rounds to it, or the even one
of two. -/
structure Nearest (b : Binary) (e : Int) (d : Scaled) : Prop where
  exponent : d.exponent = e
  holds : b.Holds d.value
  digits : d.digits ≤ b.down e + 1
  nearest : ∀ n : Nat, b.Holds (Scaled.value ⟨n, e⟩) → |d.value - b.value| ≤ |Scaled.value ⟨n, e⟩ - b.value|
  even : ∀ n : Nat, n ≠ d.digits → b.Holds (Scaled.value ⟨n, e⟩) →
    |d.value - b.value| = |Scaled.value ⟨n, e⟩ - b.value| → d.digits % 2 = 0

/-- Below the binary the neighbour is nearest. -/
theorem far_below {n : Nat} {e : Int} (h : n ≤ b.down e) :
    |Scaled.value ⟨b.down e, e⟩ - b.value| ≤ |Scaled.value ⟨n, e⟩ - b.value| ∧
      (|Scaled.value ⟨b.down e, e⟩ - b.value| = |Scaled.value ⟨n, e⟩ - b.value| → n = b.down e) := by
  rw [abs_below le_rfl, abs_below h]
  refine ⟨sub_le_sub_left (value_mono e h) _, fun hsame => ?_⟩
  by_contra hne
  have hmono := value_mono e (Nat.succ_le_of_lt (lt_of_le_of_ne h hne))
  have hunit : (0 : ℚ) < 10 ^ e := zpow_pos (by norm_num) _
  rw [Nat.succ_eq_add_one, value_succ] at hmono
  linarith

/-- Above the binary the neighbour is nearest. -/
theorem far_above {n : Nat} {e : Int} (h : b.down e + 1 ≤ n) :
    |Scaled.value ⟨b.down e + 1, e⟩ - b.value| ≤ |Scaled.value ⟨n, e⟩ - b.value| ∧
      (|Scaled.value ⟨b.down e + 1, e⟩ - b.value| = |Scaled.value ⟨n, e⟩ - b.value| → n = b.down e + 1) := by
  rw [abs_above le_rfl, abs_above h]
  refine ⟨sub_le_sub_right (value_mono e h) _, fun hsame => ?_⟩
  by_contra hne
  have hmono := value_mono e (Nat.succ_le_of_lt (lt_of_le_of_ne h (Ne.symm hne)))
  have hunit : (0 : ℚ) < 10 ^ e := zpow_pos (by norm_num) _
  rw [Nat.succ_eq_add_one, value_succ] at hmono
  linarith

/-- The neighbour on one side is the nearest one if the neighbour on the other side is not nearer. -/
theorem nearest_of {near other : Nat} {e : Int} (h : b.Holds (Scaled.value ⟨near, e⟩)) (hdigits : near ≤ b.down e + 1)
    (hsides : ∀ n : Nat, b.Holds (Scaled.value ⟨n, e⟩) →
      (|Scaled.value ⟨near, e⟩ - b.value| ≤ |Scaled.value ⟨n, e⟩ - b.value| ∧
        (|Scaled.value ⟨near, e⟩ - b.value| = |Scaled.value ⟨n, e⟩ - b.value| → n = near)) ∨
      (|Scaled.value ⟨other, e⟩ - b.value| ≤ |Scaled.value ⟨n, e⟩ - b.value| ∧ b.Holds (Scaled.value ⟨other, e⟩)))
    (hless : b.Holds (Scaled.value ⟨other, e⟩) →
      |Scaled.value ⟨near, e⟩ - b.value| ≤ |Scaled.value ⟨other, e⟩ - b.value| ∧
      (|Scaled.value ⟨near, e⟩ - b.value| = |Scaled.value ⟨other, e⟩ - b.value| → near % 2 = 0)) :
    b.Nearest e ⟨near, e⟩ := by
  refine ⟨rfl, h, hdigits, fun n hn => ?_, fun n hne hn hsame => ?_⟩
  · rcases hsides n hn with ⟨hle, -⟩ | ⟨hle, hother⟩
    · exact hle
    · exact (hless hother).1.trans hle
  · rcases hsides n hn with ⟨-, heq⟩ | ⟨hle, hother⟩
    · exact absurd (heq hsame) hne
    · obtain ⟨hless, heven⟩ := hless hother
      exact heven (hless.antisymm (hle.trans hsame.ge))

theorem nearest_lower {e : Int} (h : b.Holds (Scaled.value ⟨b.down e, e⟩))
    (hless : b.Holds (Scaled.value ⟨b.down e + 1, e⟩) →
      b.value - Scaled.value ⟨b.down e, e⟩ ≤ Scaled.value ⟨b.down e + 1, e⟩ - b.value ∧
      (b.value - Scaled.value ⟨b.down e, e⟩ = Scaled.value ⟨b.down e + 1, e⟩ - b.value → b.down e % 2 = 0)) :
    b.Nearest e ⟨b.down e, e⟩ := by
  rw [← abs_below le_rfl, ← abs_above le_rfl] at hless
  refine nearest_of h (Nat.le_succ _) (fun n hn => ?_) hless
  rcases hn.neighbour with ⟨hle, -⟩ | ⟨hle, hupper⟩
  · exact .inl (far_below hle)
  · exact .inr ⟨(far_above hle).1, hupper⟩

theorem nearest_upper {e : Int} (h : b.Holds (Scaled.value ⟨b.down e + 1, e⟩))
    (hless : b.Holds (Scaled.value ⟨b.down e, e⟩) →
      Scaled.value ⟨b.down e + 1, e⟩ - b.value ≤ b.value - Scaled.value ⟨b.down e, e⟩ ∧
      (Scaled.value ⟨b.down e + 1, e⟩ - b.value = b.value - Scaled.value ⟨b.down e, e⟩ → (b.down e + 1) % 2 = 0)) :
    b.Nearest e ⟨b.down e + 1, e⟩ := by
  rw [← abs_below le_rfl, ← abs_above le_rfl] at hless
  refine nearest_of h le_rfl (fun n hn => ?_) hless
  rcases hn.neighbour with ⟨hle, hlower⟩ | ⟨hle, -⟩
  · exact .inr ⟨(far_below hle).1, hlower⟩
  · exact .inl (far_above hle)

theorem onGrid?_eq_none (hb : b.significand ≠ 0) {e : Int} (h : b.onGrid? e = none) (n : Nat) :
    ¬ b.Holds (Scaled.value ⟨n, e⟩) := by
  intro hn
  simp only [onGrid?] at h
  split at h
  · rename_i hlower hupper
    rcases hn.neighbour with ⟨-, hholds⟩ | ⟨-, hholds⟩
    · exact absurd ((holds_iff hb _).2 hholds) (by rw [down, hlower]; exact Bool.false_ne_true)
    · exact absurd ((holds_iff hb _).2 hholds) (by rw [down, hupper]; exact Bool.false_ne_true)
  all_goals cases h

theorem nearest_of_onGrid? (hb : b.significand ≠ 0) {e : Int} (h : b.onGrid? e = some d) : b.Nearest e d := by
  obtain ⟨-, -, hless, hequal⟩ := b.down_spec e
  simp only [onGrid?] at h
  split at h
  · cases h
  · rename_i hlower hupper
    cases h
    exact nearest_lower ((holds_iff hb _).1 hlower) fun hholds => absurd ((holds_iff hb _).2 hholds)
      (by rw [down, hupper]; exact Bool.false_ne_true)
  · rename_i hlower hupper
    cases h
    exact nearest_upper ((holds_iff hb _).1 hupper) fun hholds => absurd ((holds_iff hb _).2 hholds)
      (by rw [down, hlower]; exact Bool.false_ne_true)
  · rename_i hlower hupper
    rw [Option.some.injEq] at h
    simp only [Bool.or_eq_true, Bool.and_eq_true, decide_eq_true_eq, hless, hequal] at h
    split at h
    · rename_i hdown
      cases h
      refine nearest_lower ((holds_iff hb _).1 hlower) fun _ => ?_
      rcases hdown with hlt | ⟨heq, heven⟩
      · exact ⟨hlt.le, fun heq => absurd heq hlt.ne⟩
      · exact ⟨heq.le, fun _ => heven⟩
    · rename_i hup
      cases h
      refine nearest_upper ((holds_iff hb _).1 hupper) fun _ => ⟨not_lt.1 fun hlt => hup (.inl hlt), fun heq => ?_⟩
      have hodd : ¬ b.down e % 2 = 0 := fun heven => hup (.inr ⟨heq.symm, heven⟩)
      omega

/-! ## The shortest decimal -/

/-- Half a unit of the grid with seventeen digits is less than the way to either end. -/
theorem IsFloat.seventeen_lt (hb : b.IsFloat) : (10 : ℚ) ^ (b.decimalLength - 17) / 2 < b.value - b.low := by
  have hunit := b.unit_pos
  have hgrid : (10 : ℚ) ^ (b.decimalLength - 17) * 10 ^ 16 ≤ b.value := by
    rw [← zpow_natCast, ← zpow_add₀ (by norm_num),
      show b.decimalLength - 17 + (16 : Nat) = b.decimalLength - 1 by omega]
    exact hb.decimalLength_spec.1
  rw [low]
  split
  · rename_i hnarrow
    rw [value, (hb.narrow.1 hnarrow).1] at hgrid
    push_cast at hgrid
    linarith
  · have hcast : (b.significand : ℚ) < 2 ^ 53 := by exact_mod_cast hb.small
    rw [value] at hgrid
    nlinarith

theorem IsFloat.onGrid?_seventeen (hb : b.IsFloat) : b.onGrid? (b.decimalLength - 17) ≠ none := by
  intro hnone
  obtain ⟨hlower, hupper, -⟩ := b.down_spec (b.decimalLength - 17)
  have hhalf := hb.seventeen_lt
  have hends : b.value - b.low ≤ b.high - b.value := by
    have hunit := b.unit_pos
    rw [low, high]
    split <;> linarith
  rcases le_total (b.value - Scaled.value ⟨b.down (b.decimalLength - 17), b.decimalLength - 17⟩)
    (10 ^ (b.decimalLength - 17) / 2) with hnear | hnear
  · exact onGrid?_eq_none hb.pos hnone _ (holds_of_lt (by linarith) (hlower.trans_lt b.value_lt_high))
  · rw [value_succ] at hupper
    refine onGrid?_eq_none hb.pos hnone (b.down (b.decimalLength - 17) + 1) ?_
    rw [value_succ]
    exact holds_of_lt (b.low_lt_value.trans hupper) (by linarith)

theorem findSome?_range {α : Type} (f : Nat → Option α) {count : Nat} {a : α}
    (h : (List.range count).findSome? f = some a) : ∃ n < count, f n = some a ∧ ∀ m < n, f m = none := by
  induction count with
  | zero => cases h
  | succ count ih =>
    rw [List.range_succ, List.findSome?_append] at h
    cases hfound : (List.range count).findSome? f with
    | some found =>
      rw [hfound] at h
      obtain ⟨n, hn, hrest⟩ := ih (hfound.trans h)
      exact ⟨n, hn.trans (Nat.lt_succ_self _), hrest⟩
    | none =>
      rw [hfound, Option.none_or, List.findSome?_singleton] at h
      exact ⟨count, Nat.lt_succ_self _, h, fun m hm => List.findSome?_eq_none_iff.1 hfound m (List.mem_range.2 hm)⟩

/-- The search finds a decimal on the coarsest grid that has one. -/
theorem IsFloat.exists_found (hb : b.IsFloat) : ∃ n d, b.Nearest (b.decimalLength - (n + 1 : Nat)) d ∧
    (∀ m < n, b.onGrid? (b.decimalLength - (m + 1 : Nat)) = none) ∧ b.shortest = d.dropZeros 17 := by
  cases hfound : (List.range 17).findSome? fun n => b.onGrid? (b.decimalLength - (n + 1 : Nat)) with
  | none => exact absurd (List.findSome?_eq_none_iff.1 hfound 16 (by decide)) hb.onGrid?_seventeen
  | some d =>
    obtain ⟨n, -, hn, hbefore⟩ := findSome?_range _ hfound
    exact ⟨n, d, nearest_of_onGrid? hb.pos hn, hbefore, by rw [shortest, hfound, Option.getD_some]⟩

/-- **The shortest decimal of a float rounds to it.** -/
theorem IsFloat.holds_shortest (hb : b.IsFloat) : b.Holds b.shortest.value := by
  obtain ⟨n, d, hnearest, -, heq⟩ := hb.exists_found
  rw [heq, Scaled.value_dropZeros]
  exact hnearest.holds

/-! ## Floats with all bits -/

theorem IsFloat.pos_of_holds (hb : b.IsFloat) {n : Nat} {e : Int} (h : b.Holds (Scaled.value ⟨n, e⟩)) : 0 < n := by
  refine Nat.pos_of_ne_zero ?_
  rintro rfl
  have := (holds_iff hb.pos ⟨0, e⟩).2 h
  rw [not_holds_zero hb.pos] at this
  cases this

/-- Numbers that round to the same float differ by no more than its unit. -/
theorem Holds.le_add_unit {x y : ℚ} (hx : b.Holds x) (hy : b.Holds y) : y ≤ x + b.unit := by
  have hlow := hx.low_le
  have hhigh := hy.le_high
  have hunit := b.unit_pos
  rw [low] at hlow
  rw [high] at hhigh
  split at hlow <;> linarith

theorem unit_le (hfull : 2 ^ 52 ≤ b.significand) : 2 ^ 52 * b.unit ≤ b.value := by
  have hcast : (2 ^ 52 : ℚ) ≤ b.significand := by exact_mod_cast hfull
  exact mul_le_mul_of_nonneg_right hcast b.unit_pos.le

/-- What is found where the next grid has nothing is the shortest decimal. -/
theorem Nearest.shortest {e : Int} (h : b.Nearest e d) (hcoarser : ∀ m : Nat, ¬ b.Holds (Scaled.value ⟨m, e + 1⟩)) :
    b.Shortest d := by
  obtain rfl := h.exponent
  exact ⟨h.holds, hcoarser, h.nearest, h.even⟩

section
variable (hb : b.IsFloat) (hfull : 2 ^ 52 ≤ b.significand)
include hb hfull

/-- The next power of ten is the shortest decimal if it rounds to the float. -/
theorem IsFloat.shortest_power (h : b.Holds (Scaled.value ⟨1, b.decimalLength⟩)) : b.Shortest ⟨1, b.decimalLength⟩ := by
  have hless : b.value < Scaled.value ⟨1, b.decimalLength⟩ := by simpa [Scaled.value] using hb.decimalLength_spec.2
  have hunit := unit_le hfull
  have hpos := b.unit_pos
  have htwo : Scaled.value ⟨2, b.decimalLength⟩ = 2 * Scaled.value ⟨1, b.decimalLength⟩ := by simp [Scaled.value]
  have hnone : ∀ n : Nat, 2 ≤ n → ¬ b.Holds (Scaled.value ⟨n, b.decimalLength⟩) := fun n hn hholds => by
    have hmono := value_mono b.decimalLength hn
    have hnear := h.le_add_unit hholds
    linarith
  refine ⟨h, fun n hn => ?_, fun n hn => ?_, fun n hne hn _ => absurd hn (hnone n ?_)⟩
  · have hn0 := hb.pos_of_holds hn
    have hsame := Scaled.value_coarser n b.decimalLength 1
    rw [Nat.cast_one] at hsame
    rw [hsame] at hn
    exact hnone _ (by omega) hn
  · have hn0 := hb.pos_of_holds hn
    have hn1 : n < 2 := not_le.1 fun hn2 => hnone n hn2 hn
    obtain rfl : n = 1 := by omega
    exact le_rfl
  · have hn0 := hb.pos_of_holds hn
    have hn1 : n ≠ 1 := hne
    omega

/-- One digit is the shortest decimal unless the next power of ten rounds to the float. -/
theorem IsFloat.shortest_digit (h : b.Nearest (b.decimalLength - 1) d) (hd : d.digits < 10) : b.Shortest d := by
  have hless : b.value < Scaled.value ⟨1, b.decimalLength⟩ := by simpa [Scaled.value] using hb.decimalLength_spec.2
  have hunit := unit_le hfull
  have hpower := Scaled.value_coarser 1 (b.decimalLength - 1) 1
  rw [Nat.cast_one, sub_add_cancel, one_mul, pow_one] at hpower
  refine h.shortest fun n hn => ?_
  rw [sub_add_cancel] at hn
  have hbetween : b.Holds (Scaled.value ⟨1, b.decimalLength⟩) :=
    hn.of_between (.inr ⟨hless.le, value_mono _ (hb.pos_of_holds hn)⟩)
  have hnear := h.nearest 10 (hpower ▸ hbetween)
  have hnext := (holds_of_lt b.low_lt_value b.value_lt_high).le_add_unit hbetween
  have hnine : 10 * d.value ≤ 9 * Scaled.value ⟨1, b.decimalLength⟩ := by
    have hgrid : (0 : ℚ) < 10 ^ (b.decimalLength - 1) := zpow_pos (by norm_num) _
    have hcast : (d.digits : ℚ) ≤ 9 := by exact_mod_cast Nat.lt_succ_iff.1 hd
    rw [hpower, Scaled.value, Scaled.value, h.exponent]
    push_cast
    nlinarith
  rw [← hpower, abs_of_nonneg (sub_nonneg.2 hless.le)] at hnear
  have := neg_abs_le (d.value - b.value)
  linarith

/-- **The shortest decimal of a float with all its bits.** -/
theorem IsFloat.shortest_spec : b.Shortest b.shortest := by
  obtain ⟨n, d, hnearest, hbefore, heq⟩ := hb.exists_found
  rw [heq]
  cases n with
  | succ n =>
    have hshortest := hnearest.shortest fun m => by
      rw [show b.decimalLength - (n + 1 + 1 : Nat) + 1 = b.decimalLength - (n + 1 : Nat) by omega]
      exact onGrid?_eq_none hb.pos (hbefore n (Nat.lt_succ_self n)) m
    rwa [Scaled.dropZeros_eq_self hshortest.digits_mod]
  | zero =>
    rw [show b.decimalLength - (0 + 1 : Nat) = b.decimalLength - 1 by omega] at hnearest
    have hpower := Scaled.value_coarser 1 (b.decimalLength - 1) 1
    rw [Nat.cast_one, sub_add_cancel, one_mul, pow_one] at hpower
    have hdown : b.down (b.decimalLength - 1) < 10 := by
      by_contra hge
      have hmono := value_mono (b.decimalLength - 1) (not_lt.1 hge)
      have hlower := (b.down_spec (b.decimalLength - 1)).1
      have hless := hb.decimalLength_spec.2
      rw [← hpower] at hmono
      simp only [Scaled.value, Nat.cast_one, one_mul] at hmono hlower
      linarith
    by_cases hten : d.digits = 10
    · obtain ⟨digits, exponent⟩ := d
      obtain rfl : digits = 10 := hten
      obtain rfl : exponent = b.decimalLength - 1 := hnearest.exponent
      have hdrop : Scaled.dropZeros 17 ⟨10, b.decimalLength - 1⟩ = ⟨1, b.decimalLength⟩ := by
        simp [Scaled.dropZeros]
      rw [hdrop]
      exact hb.shortest_power hfull (hpower ▸ hnearest.holds)
    · have hdigits := hnearest.digits
      have hholds := hnearest.holds
      have hpos := hb.pos_of_holds hholds
      rw [Scaled.dropZeros_eq_self (by omega)]
      exact hb.shortest_digit hfull hnearest (by omega)

end

/-- **What rounds to a float and has no more than fifteen digits is its shortest decimal.** -/
theorem shortest_of_few (hfull : 2 ^ 52 ≤ b.significand) (hd : b.Holds d.value) (hdigits : d.digits % 10 ≠ 0)
    (hfew : d.digits < 10 ^ 15) : b.Shortest d := by
  obtain ⟨digits, e⟩ := d
  have hunit := b.unit_pos
  have hgrid : (0 : ℚ) < 10 ^ e := zpow_pos (by norm_num) _
  -- Two decimals of the grid are farther apart than two numbers that round to the float.
  have hwide : b.unit < 10 ^ e := by
    have hlow := (holds_of_lt b.low_lt_value b.value_lt_high).le_add_unit hd
    have hvalue := unit_le hfull
    have hcast : (digits : ℚ) < 10 ^ 15 := by exact_mod_cast hfew
    have hnear := hd.le_add_unit (holds_of_lt b.low_lt_value b.value_lt_high)
    simp only [Scaled.value] at hnear
    nlinarith
  have honly : ∀ n : Nat, b.Holds (Scaled.value ⟨n, e⟩) → n = digits := by
    have hle : ∀ {p q : Nat}, b.Holds (Scaled.value ⟨p, e⟩) → b.Holds (Scaled.value ⟨q, e⟩) → q ≤ p := by
      intro p q hp hq
      have hnear := hp.le_add_unit hq
      simp only [Scaled.value] at hnear
      have hless : (q : ℚ) < p + 1 := by
        by_contra hge
        have := mul_le_mul_of_nonneg_right (not_lt.1 hge) hgrid.le
        linarith
      exact Nat.lt_succ_iff.1 (by exact_mod_cast hless)
    exact fun n hn => le_antisymm (hle hd hn) (hle hn hd)
  refine ⟨hd, fun n hn => ?_, fun n hn => ?_, fun n hne hn => absurd (honly n hn) hne⟩
  · have hsame := Scaled.value_coarser n e 1
    rw [Nat.cast_one, pow_one] at hsame
    exact hdigits (by rw [← honly (n * 10) (hsame ▸ hn)]; exact Nat.mul_mod_left n 10)
  · rw [honly n hn]

end

end Binary

end ApiCatalog.Decimal
