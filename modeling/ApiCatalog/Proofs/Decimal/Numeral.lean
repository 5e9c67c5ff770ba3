import ApiCatalog.Proofs.Decimal.Rounding
import ApiCatalog.Proofs.Decimal.Shortest
import ApiCatalog.Proofs.Json.NumberText
/-!
# Numerals that are read as floats

A numeral that is read as a float is written again as the shortest decimal of this float.  It comes back as it was
exactly if it is zero or canonical, or too large for a float (`Plain.shown_eq_chars_iff`), and comes back alike exactly
from the numerals that round to the same float (`Plain.shown_eq_iff`).
-/

namespace ApiCatalog

namespace Json.NumberText

/-- **The text of a number tells its parts.** -/
theorem eq_of_chars_eq {t t' : NumberText} (h : t.Valid) (h' : t'.Valid) (heq : t.chars = t'.chars) : t = t' := by
  obtain ⟨part, -, hread⟩ := Token.foldl_feed_chars [] h
  obtain ⟨part', -, hread'⟩ := Token.foldl_feed_chars [] h'
  have hheld : ∀ t : NumberText, t.held.held = t := by
    rintro ⟨negative, whole, fraction, _ | ⟨below, digits⟩⟩ <;> simp [held]
  rw [heq, hread', Token.Lexer.mk.injEq, Token.Mode.number.injEq] at hread
  rw [← hheld t, ← hread.2.2, hheld]

def digits (t : NumberText) : Nat := Text.value 0 (t.whole ++ t.fraction)

/-- The power of ten that is written behind a number. -/
def power (t : NumberText) : Int :=
  t.exponent.elim 0 fun (negative, digits) => if negative then -(Text.value 0 digits : Int) else Text.value 0 digits

/-- A number without its sign. -/
def size (t : NumberText) : ℚ := Decimal.Scaled.value ⟨t.digits, t.power - t.fraction.length⟩

/-- Digits before and behind a point, and nothing else. -/
structure Plain (t : NumberText) : Prop extends t.Valid where
  positive : t.negative = false
  point : t.fraction ≠ []
  bare : t.exponent = none

/-- No zero is written that could be left out. -/
def Tidy (t : NumberText) : Prop := t.fraction = ['0'] ∨ t.fraction.getLast? ≠ some '0'

end Json.NumberText

namespace Decimal

open Json (NumberText)

theorem Scaled.size_parts (negative : Bool) (d : Scaled) : (d.parts negative).size = d.value := by
  have hne := Text.ofNat_ne_nil d.digits
  have hvalue := Text.value_ofNat d.digits
  have hzeros := Text.value_ofNat_append d.digits
  obtain ⟨n, e⟩ := d
  unfold parts
  dsimp only at *
  have hlength : 0 < (Text.ofNat n).length := List.length_pos_iff.2 hne
  generalize hlead : ((Text.ofNat n).length : Int) + e - 1 = lead
  split
  · split
    · -- Zeros behind the digits, and one behind the point.
      have hdigits : Text.value 0 (Text.ofNat n ++ List.replicate e.toNat '0' ++ ['0']) = n * 10 ^ (e.toNat + 1) := by
        rw [List.append_assoc, ← List.replicate_succ', hzeros, List.length_replicate, Text.value_replicate_zero,
          add_zero]
      simp only [NumberText.size, NumberText.digits, NumberText.power, hdigits, Option.elim_none, List.length_singleton]
      rw [← value_coarser]
      congr 2
      omega
    · split
      · simp only [NumberText.size, NumberText.digits, NumberText.power, List.take_append_drop, hvalue,
          Option.elim_none, List.length_drop]
        congr 2
        omega
      · have hdigits : Text.value 0 (['0'] ++ (List.replicate (-lead - 1).toNat '0' ++ Text.ofNat n)) = n := by
          rw [← List.append_assoc, show ['0'] ++ List.replicate (-lead - 1).toNat '0' =
            List.replicate ((-lead - 1).toNat + 1) '0' from rfl, Text.value_append, Text.value_replicate_zero, hvalue]
        simp only [NumberText.size, NumberText.digits, NumberText.power, hdigits, Option.elim_none, List.length_append,
          List.length_replicate]
        congr 2
        omega
  · have hpower : (if decide (lead < 0) = true then -(Text.value 0 (Text.ofNat lead.natAbs) : Int)
        else Text.value 0 (Text.ofNat lead.natAbs)) = lead := by
      simp only [Text.value_ofNat, decide_eq_true_eq]
      split <;> omega
    simp only [NumberText.size, NumberText.digits, NumberText.power, List.take_append_drop, hvalue, Option.elim_some,
      hpower, List.length_drop]
    congr 2
    omega

theorem Scaled.tidy_parts {negative : Bool} {d : Scaled} (hd : d.digits % 10 ≠ 0)
    (hplain : (d.parts negative).exponent = none) : (d.parts negative).Tidy := by
  have hlast : (Text.ofNat d.digits).getLast? ≠ some '0' := by
    by_cases h : d.digits < 10
    · rw [Text.ofNat_of_lt h]
      exact fun he => Text.digitChar_ne_zero _ h (by omega) (Option.some.inj he)
    · rw [Text.ofNat_of_le (not_lt.1 h), List.getLast?_concat]
      exact fun he => Text.digitChar_ne_zero _ (Nat.mod_lt _ (by decide)) hd (Option.some.inj he)
  have hne := Text.ofNat_ne_nil d.digits
  unfold parts at *
  dsimp only at *
  generalize Text.ofNat d.digits = digits at *
  generalize hlead : (digits.length : Int) + d.exponent - 1 = lead at *
  split
  · split
    · exact .inl rfl
    · split
      · refine .inr ?_
        rwa [List.getLast?_drop, if_neg (by omega)]
      · refine .inr ?_
        rwa [List.getLast?_append_of_ne_nil _ hne]
  · rename_i hwide
    rw [if_neg hwide] at hplain
    cases hplain

/-- The place of the first digit. -/
def Scaled.lead (d : Scaled) : Int := (Text.ofNat d.digits).length + d.exponent - 1

theorem Scaled.lead_spec {d : Scaled} (hd : d.digits ≠ 0) :
    (10 : ℚ) ^ d.lead ≤ d.value ∧ d.value < 10 ^ (d.lead + 1) := by
  have hdigit : ∀ c ∈ Text.ofNat d.digits, c.isDigit := fun c hc => Text.isDigit_of_mem_ofNat hc
  have hgrid : (0 : ℚ) < 10 ^ d.exponent := zpow_pos (by norm_num) _
  have hless := Text.value_lt hdigit
  have hhead := Text.head_ofNat hd
  have hvalue := Text.value_ofNat d.digits
  rw [hvalue] at hless
  rw [lead, value]
  obtain ⟨c, more, hmore⟩ := List.exists_cons_of_ne_nil (Text.ofNat_ne_nil d.digits)
  rw [hmore] at hdigit hless hhead hvalue ⊢
  have hmany := Text.le_value_of_head (hdigit c List.mem_cons_self) (fun he => hhead (by rw [he]; rfl)) more
  rw [hvalue] at hmany
  have hmany : (10 : ℚ) ^ more.length ≤ d.digits := by exact_mod_cast hmany
  have hless : (d.digits : ℚ) < 10 ^ (more.length + 1) := by exact_mod_cast hless
  rw [List.length_cons, show ((more.length + 1 : Nat) : Int) + d.exponent - 1 = more.length + d.exponent by omega,
    zpow_add_one₀ (by norm_num), zpow_add₀ (by norm_num), zpow_natCast]
  rw [pow_succ] at hless
  constructor <;> nlinarith

/-- A decimal is written without an exponent if it is neither very small nor large. -/
theorem Scaled.plain_parts_iff {d : Scaled} (hd : d.digits ≠ 0) :
    (d.parts false).Plain ↔ (10 : ℚ) ^ (-5 : Int) ≤ d.value ∧ d.value < 10 ^ (16 : Int) := by
  obtain ⟨hlow, hhigh⟩ := d.lead_spec hd
  have hten : (1 : ℚ) < 10 := by norm_num
  have hlead : -5 ≤ d.lead ∧ d.lead < 16 ↔ (10 : ℚ) ^ (-5 : Int) ≤ d.value ∧ d.value < 10 ^ (16 : Int) := by
    constructor
    · rintro ⟨hfirst, hlast⟩
      exact ⟨(zpow_le_zpow_right₀ hten.le hfirst).trans hlow, hhigh.trans_le (zpow_le_zpow_right₀ hten.le (by omega))⟩
    · rintro ⟨hfirst, hlast⟩
      have hfirst := (zpow_lt_zpow_iff_right₀ hten).1 (hfirst.trans_lt hhigh)
      have hlast := (zpow_lt_zpow_iff_right₀ hten).1 (hlow.trans_lt hlast)
      omega
  rw [← hlead]
  constructor
  · intro hplain
    by_contra hwide
    have hbare := hplain.bare
    unfold parts at hbare
    dsimp only at hbare
    rw [← lead, if_neg hwide] at hbare
    cases hbare
  · intro hnarrow
    have hne := Text.ofNat_ne_nil d.digits
    refine ⟨valid_parts false hd, ?_, ?_, ?_⟩ <;> unfold parts <;> dsimp only <;> rw [← lead, if_pos hnarrow]
    · split
      · rfl
      · split <;> rfl
    · rw [lead] at *
      split
      · exact List.cons_ne_nil _ _
      · split
        · rw [Ne, List.drop_eq_nil_iff]
          omega
        · simp [hne]
    · split
      · rfl
      · split <;> rfl

end Decimal

namespace Json.NumberText

section
variable {t t' : NumberText}

theorem Plain.size_eq (h : t.Plain) : t.size = t.digits / 10 ^ t.fraction.length := by
  rw [size, power, h.bare, Option.elim_none, Int.zero_sub, Decimal.Scaled.value, zpow_neg, zpow_natCast, div_eq_mul_inv]

theorem Valid.whole_digits (h : t.Valid) : ∀ c ∈ t.whole, c.isDigit := by
  rcases h.whole with hzero | ⟨c, digits, hwhole, hc, -, hdigits⟩
  · rw [hzero, List.forall_mem_singleton]
    rfl
  · rw [hwhole, List.forall_mem_cons]
    exact ⟨hc, hdigits⟩

theorem Valid.whole_eq (h : t.Valid) (h' : t'.Valid) (hvalue : Text.value 0 t.whole = Text.value 0 t'.whole) :
    t.whole = t'.whole := by
  have hall := h.whole_digits
  have hall' := h'.whole_digits
  have hshape := h.whole
  have hshape' := h'.whole
  have hzero : Text.value 0 ['0'] = 0 := rfl
  generalize t.whole = whole at *
  generalize t'.whole = whole' at *
  rcases hshape with rfl | ⟨c, digits, rfl, hc, hne, -⟩ <;>
    rcases hshape' with rfl | ⟨c', digits', rfl, hc', hne', -⟩
  · rfl
  · have hmany := Text.le_value_of_head hc' hne' digits'
    have hpos : 0 < 10 ^ digits'.length := Nat.pow_pos (by decide)
    omega
  · have hmany := Text.le_value_of_head hc hne digits
    have hpos : 0 < 10 ^ digits.length := Nat.pow_pos (by decide)
    omega
  · have hmany := Text.le_value_of_head hc hne digits
    have hmany' := Text.le_value_of_head hc' hne' digits'
    have hless := Text.value_lt hall
    have hless' := Text.value_lt hall'
    rw [← hvalue] at hmany' hless'
    rw [List.length_cons] at hless hless'
    have hle := (Nat.pow_lt_pow_iff_right (by decide : 1 < 10)).1 (hmany.trans_lt hless')
    have hle' := (Nat.pow_lt_pow_iff_right (by decide : 1 < 10)).1 (hmany'.trans_lt hless)
    exact Text.eq_of_value_eq hall hall' (by rw [List.length_cons, List.length_cons]; omega) hvalue

theorem Plain.digits_mod (h : t.Plain) (hlast : t.fraction.getLast? ≠ some '0') : t.digits % 10 ≠ 0 := by
  obtain ⟨front, c, hc⟩ := (List.eq_nil_or_concat' _).resolve_left h.point
  have hdigit := Text.isDigit_spec (h.fraction c (by rw [hc]; simp))
  have hne : c.toNat ≠ 48 := fun heq => hlast (by
    rw [hc, List.getLast?_concat, (Char.toNat_inj.1 heq : c = '0')])
  have hvalue : t.digits = Text.value 0 (t.whole ++ front) * 10 + (c.toNat - 48) := by
    rw [digits, hc, ← List.append_assoc, Text.value_append]
    rfl
  omega

theorem Plain.length_le (h : t.Plain) (h' : t'.Plain) (htidy : t.Tidy) (hsize : t.size = t'.size) :
    t.fraction.length ≤ t'.fraction.length := by
  by_contra hlt
  obtain ⟨k, hk⟩ := Nat.le.dest (not_le.1 hlt)
  have hpoint := List.length_pos_iff.2 h'.point
  refine h.digits_mod (htidy.resolve_left fun hone => ?_) ?_
  · rw [hone, List.length_singleton] at hk
    omega
  · rw [h.size_eq, h'.size_eq, div_eq_div_iff (by positivity) (by positivity), ← hk, Nat.succ_eq_add_one, pow_add,
      pow_succ] at hsize
    have hten : t.digits = t'.digits * 10 ^ k * 10 := by
      have hpos : (0 : ℚ) < 10 ^ t'.fraction.length := by positivity
      have : (t.digits : ℚ) = t'.digits * 10 ^ k * 10 := by
        refine mul_right_cancel₀ hpos.ne' (hsize.trans ?_)
        ring
      exact_mod_cast this
    rw [hten, Nat.mul_mod_left]

/-- **A tidy numeral is told by its number.** -/
theorem Plain.eq_of_size_eq (h : t.Plain) (h' : t'.Plain) (htidy : t.Tidy) (htidy' : t'.Tidy)
    (hsize : t.size = t'.size) : t = t' := by
  have hlength := le_antisymm (h.length_le h' htidy hsize) (h'.length_le h htidy' hsize.symm)
  have hdigits : t.digits = t'.digits := by
    rw [h.size_eq, h'.size_eq, hlength, div_left_inj' (by positivity)] at hsize
    exact_mod_cast hsize
  rw [digits, digits, Text.value_append, Text.value_append] at hdigits
  obtain ⟨hwhole, hfraction⟩ := Text.value_inj h.fraction h'.fraction hlength hdigits
  have hwhole := h.whole_eq h'.toValid hwhole
  have hfraction := Text.eq_of_value_eq h.fraction h'.fraction hlength hfraction
  obtain ⟨negative, whole, fraction, exponent⟩ := t
  obtain ⟨negative', whole', fraction', exponent'⟩ := t'
  obtain rfl : negative = negative' := h.positive.trans h'.positive.symm
  obtain rfl : exponent = exponent' := h.bare.trans h'.bare.symm
  cases hwhole
  cases hfraction
  rfl

/-! ## Read and written again -/

def float (t : NumberText) : Float := Float.ofScientific t.digits true t.fraction.length

/-- The text of the float that a numeral is read as; the numeral itself if it is too large for one. -/
def shown (t : NumberText) : List Char :=
  if t.float.isFinite then Decimal.floatText Number.style t.float else t.chars

def shownParts (t : NumberText) : NumberText := if t.float.isFinite then Decimal.floatParts t.float else t

theorem chars_shownParts (t : NumberText) : t.shownParts.chars = t.shown := by
  unfold shownParts shown
  split
  · exact Decimal.chars_floatParts _
  · rfl

theorem Valid.shownParts (h : t.Valid) : t.shownParts.Valid := by
  unfold NumberText.shownParts
  split
  · exact Decimal.valid_floatParts _
  · exact h

/-- No float is as large as the number. -/
def Overflows (t : NumberText) : Prop := (2 ^ 53 - 1 / 2) * 2 ^ 971 ≤ t.size

/-- A number is too large for a float exactly if it is rounded to a binary with a greater exponent. -/
theorem overflows_iff {b : Decimal.Binary} (hb : b.IsDouble) (h : b.Holds t.size) : t.Overflows ↔ 971 < b.exponent := by
  have htwo : (2 : ℚ) ^ (971 : Int) = 2 ^ 971 := zpow_ofNat 2 971
  rw [Overflows]
  constructor
  · intro hover
    by_contra hle
    have hunit : b.unit ≤ 2 ^ 971 := htwo ▸ zpow_le_zpow_right₀ (by norm_num) (not_lt.1 hle)
    have hlt := hb.lt_of_holds h
    generalize (2 : ℚ) ^ 971 = bound at *
    linarith
  · intro hlt
    have hunit : 2 ^ 971 * 2 ≤ b.unit := by
      rw [← htwo, ← zpow_add_one₀ (by norm_num)]
      exact zpow_le_zpow_right₀ (by norm_num) (by omega)
    have hle := hb.le_of_holds h (by omega)
    generalize (2 : ℚ) ^ 971 = bound at *
    linarith

def zero : NumberText := ⟨false, ['0'], ['0'], none⟩

theorem size_zero : zero.size = 0 := by
  simp [size, digits, zero, Decimal.Scaled.value, Text.value]

/-- **A numeral is shown as the binary that holds it.** -/
theorem Plain.exists_binary (h : t.Plain) : ∃ b : Decimal.Binary, b.IsDouble ∧ b.Holds t.size ∧
    t.shownParts = if 971 < b.exponent then t else if b.significand = 0 then zero else b.shortest.parts false := by
  obtain ⟨b, hb, hholds, hfloat⟩ := Decimal.exists_ofScientific t.digits (List.length_pos_iff.2 h.point).ne'
  rw [← h.size_eq] at hholds
  refine ⟨b, hb, hholds, ?_⟩
  rw [shownParts, float, hfloat]
  by_cases hmost : b.exponent ≤ 971
  · have hbiased := Decimal.biased_lt hb hmost
    have hsign : decide ((Decimal.biased b * 2 ^ 52 + b.significand % 2 ^ 52) / Nat.pow 2 63 = 1) = false := by
      rw [decide_eq_false_iff_not, Nat.pow_eq]
      omega
    rw [if_pos ((Decimal.isFinite_pack hb).2 hmost), if_neg (not_lt.2 hmost), Decimal.floatParts,
      Decimal.ofFloat_pack hb hmost, Decimal.toNat_pack hb hmost]
    simp only [hsign]
    rfl
  · rw [if_neg (mt (Decimal.isFinite_pack hb).1 hmost), if_pos (not_le.1 hmost)]

theorem holds_shownParts {b : Decimal.Binary} (hb : b.IsDouble) (h : b.Holds t.size)
    (hparts : t.shownParts =
      if 971 < b.exponent then t else if b.significand = 0 then zero else b.shortest.parts false) :
    b.Holds t.shownParts.size := by
  rw [hparts]
  split
  · exact h
  · rename_i hmost
    split
    · rename_i hzero
      rw [size_zero, Decimal.eq_zero_of_isDouble hb hzero]
      exact Decimal.holds_zero le_rfl (by positivity)
    · rename_i hpos
      rw [Decimal.Scaled.size_parts]
      exact Decimal.Binary.IsFloat.holds_shortest ⟨hb, hpos, not_lt.1 hmost⟩

def SameFloat (t t' : NumberText) : Prop :=
  ∃ b : Decimal.Binary, b.IsDouble ∧ b.exponent ≤ 971 ∧ b.Holds t.size ∧ b.Holds t'.size

/-- **Two numerals are shown alike exactly if they are the same or round to the same float.** -/
theorem Plain.shown_eq_iff (h : t.Plain) (h' : t'.Plain) : t.shown = t'.shown ↔ t = t' ∨ t.SameFloat t' := by
  obtain ⟨b, hb, hholds, hparts⟩ := h.exists_binary
  obtain ⟨b', hb', hholds', hparts'⟩ := h'.exists_binary
  constructor
  · intro heq
    rw [← chars_shownParts, ← chars_shownParts] at heq
    have hsame := eq_of_chars_eq h.shownParts h'.shownParts heq
    have hshown := holds_shownParts hb hholds hparts
    have hshown' := holds_shownParts hb' hholds' hparts'
    obtain rfl : b' = b := hb.eq_of_holds hb' hshown (hsame ▸ hshown')
    by_cases hmost : b'.exponent ≤ 971
    · exact .inr ⟨b', hb, hmost, hholds, hholds'⟩
    · rw [hparts, hparts', if_pos (not_le.1 hmost), if_pos (not_le.1 hmost)] at hsame
      exact .inl hsame
  · rintro (rfl | ⟨c, hc, hmost, hsize, hsize'⟩)
    · rfl
    · obtain rfl : b = c := hc.eq_of_holds hb hsize hholds
      obtain rfl : b' = b := hc.eq_of_holds hb' hsize' hholds'
      rw [← chars_shownParts, ← chars_shownParts, hparts, hparts', if_neg (not_lt.2 hmost), if_neg (not_lt.2 hmost)]

/-- The numeral is written as floats are, and no numeral that rounds to the same float is shorter, or as short and
nearer to it. -/
structure Canonical (t : NumberText) : Prop where
  tidy : t.Tidy
  least : 10 ^ (-5 : Int) ≤ t.size
  most : t.size < 10 ^ (16 : Int)
  shortest : ∃ b d, Decimal.Binary.IsFloat b ∧ b.Shortest d ∧ d.value = t.size

theorem full_of_holds {b : Decimal.Binary} (hb : b.IsDouble) (h : b.Holds t.size) (hleast : 10 ^ (-5 : Int) ≤ t.size) :
    2 ^ 52 ≤ b.significand := by
  by_contra hfew
  have hunit : b.unit ≤ 2 ^ (-100 : Int) := by
    rw [Decimal.Binary.unit, hb.full (not_le.1 hfew)]
    exact zpow_le_zpow_right₀ (by norm_num) (by norm_num)
  have hlt := hb.lt_of_holds h
  norm_num at hunit hleast
  linarith

/-- **A numeral is shown as it is written exactly if it is too large for a float, or zero, or canonical.** -/
theorem Plain.shown_eq_chars_iff (h : t.Plain) : t.shown = t.chars ↔ t.Overflows ∨ t = zero ∨ t.Canonical := by
  obtain ⟨b, hb, hholds, hparts⟩ := h.exists_binary
  have hiff : t.shown = t.chars ↔ t.shownParts = t := by
    rw [← chars_shownParts]
    exact ⟨eq_of_chars_eq h.shownParts h.toValid, congrArg chars⟩
  rw [hiff, hparts, overflows_iff hb hholds]
  split
  · rename_i hover
    exact iff_of_true rfl (.inl hover)
  · rename_i hmost
    rw [or_iff_right hmost]
    split
    · rename_i hzero
      constructor
      · exact fun heq => .inl heq.symm
      · rintro (heq | hcanonical)
        · exact heq.symm
        · have hfull := full_of_holds hb hholds hcanonical.least
          omega
    · rename_i hpos
      have hfloat : b.IsFloat := ⟨hb, hpos, not_lt.1 hmost⟩
      constructor
      · intro heq
        have hplain : (b.shortest.parts false).Plain := heq ▸ h
        have hsize : b.shortest.value = t.size := by rw [← heq, Decimal.Scaled.size_parts]
        obtain ⟨hleast, hless⟩ := (Decimal.Scaled.plain_parts_iff (Decimal.Binary.shortest_pos hpos)).1 hplain
        rw [hsize] at hleast hless
        have hshortest := hfloat.shortest_spec (full_of_holds hb hholds hleast)
        have htidy : t.Tidy := heq ▸ Decimal.Scaled.tidy_parts hshortest.digits_mod hplain.bare
        exact .inr ⟨htidy, hleast, hless, b, b.shortest, hfloat, hshortest, hsize⟩
      · rintro (rfl | ⟨htidy, hleast, hless, c, d, hc, hd, hsize⟩)
        · have hnone : zero.size = Decimal.Scaled.value ⟨0, 0⟩ := by simp [size_zero, Decimal.Scaled.value]
          exact absurd (hfloat.pos_of_holds (hnone ▸ hholds)) (lt_irrefl 0)
        · obtain rfl : c = b := hb.eq_of_holds hc.toIsDouble hholds (hsize ▸ hd.holds)
          have hshortest := hc.shortest_spec (full_of_holds hb hholds hleast)
          obtain rfl := hshortest.unique hd
          have hplain : (c.shortest.parts false).Plain :=
            (Decimal.Scaled.plain_parts_iff (Decimal.Binary.shortest_pos hpos)).2 (hsize ▸ ⟨hleast, hless⟩)
          exact hplain.eq_of_size_eq h (Decimal.Scaled.tidy_parts hshortest.digits_mod hplain.bare) htidy
            ((Decimal.Scaled.size_parts _ _).trans hsize)

theorem exists_normal : ∀ {d : Decimal.Scaled}, d.digits ≠ 0 →
    ∃ d' : Decimal.Scaled, d'.value = d.value ∧ d'.digits % 10 ≠ 0 ∧ d'.digits ≤ d.digits := by
  rintro ⟨n, e⟩
  induction n using Nat.strongRecOn generalizing e with
  | ind n ih =>
    intro hn
    by_cases hzero : n % 10 = 0
    · obtain ⟨d', hvalue, hdigits, hle⟩ :=
        ih (n / 10) (by dsimp only at hn; omega) (e + 1) (by dsimp only at hn ⊢; omega)
      have hsame := Decimal.Scaled.value_coarser (n / 10) e 1
      rw [pow_one, Nat.div_mul_cancel (Nat.dvd_of_mod_eq_zero hzero), Nat.cast_one] at hsame
      exact ⟨d', hvalue.trans hsame, hdigits, hle.trans (Nat.div_le_self _ _)⟩
    · exact ⟨⟨n, e⟩, rfl, hzero, le_rfl⟩

/-- The number has no more than fifteen digits, apart from zeros at its ends. -/
def Short (t : NumberText) : Prop := ∃ d : Decimal.Scaled, d.value = t.size ∧ d.digits < 10 ^ 15

/-- **A tidy numeral with no more than fifteen digits is canonical**, unless it is very small or large. -/
theorem Plain.canonical_of_short (h : t.Plain) (htidy : t.Tidy) (hshort : t.Short) (hleast : 10 ^ (-5 : Int) ≤ t.size)
    (hmost : t.size < 10 ^ (16 : Int)) : t.Canonical := by
  obtain ⟨b, hb, hholds, -⟩ := h.exists_binary
  have hfull := full_of_holds hb hholds hleast
  have hover : ¬ t.Overflows := fun hover => by
    have hbound : (2 : ℚ) ^ 10 ≤ 2 ^ 971 := pow_le_pow_right₀ (by norm_num) (by norm_num)
    rw [Overflows] at hover
    generalize (2 : ℚ) ^ 971 = bound at *
    norm_num at hmost hover
    linarith
  rw [overflows_iff hb hholds, not_lt] at hover
  obtain ⟨d, hvalue, hdigits⟩ := hshort
  have hd : d.digits ≠ 0 := fun hzero => by
    rw [← hvalue, Decimal.Scaled.value, hzero, Nat.cast_zero, zero_mul] at hleast
    exact absurd hleast (not_le.2 (zpow_pos (by norm_num) _))
  obtain ⟨d', hvalue', hmod, hle⟩ := exists_normal hd
  have hsize := hvalue'.trans hvalue
  exact ⟨htidy, hleast, hmost, b, d', ⟨hb, by omega, hover⟩,
    Decimal.Binary.shortest_of_few hfull (hsize ▸ hholds) hmod (hle.trans_lt hdigits), hsize⟩

end

end Json.NumberText

end ApiCatalog
