import ApiCatalog.Proofs.Decimal.Numeral
import ApiCatalog.Proofs.Yaml.Respelled
import Mathlib.Data.List.TakeWhile
/-!
# Numerals without quotes

Digits before and behind a point are read as a float if they stand without quotes, and as a text if they are too large
for a float (`ofPlain?_chars`).
-/

namespace ApiCatalog.Yaml.Value

open Json (NumberText)

theorem ne_of_isDigit {c d : Char} (hc : c.isDigit = true) (hd : d.isDigit = false) : c ≠ d := by
  rintro rfl
  exact Bool.false_ne_true (hd.symm.trans hc)

section
variable {c : Char} {rest fraction : List Char} (hdigits : ∀ d ∈ c :: rest, d.isDigit = true)
include hdigits

/-! ## No integers -/

theorem natural?_point : natural? 10 (c :: rest ++ '.' :: fraction) = none := by
  have hpoint : digit? 10 '.' = none := rfl
  rw [natural?, if_neg (by simp), List.foldlM_append, foldlM_digits _ _ hdigits]
  simp [hpoint]

/-- No letter in the second place names a base. -/
theorem prefixed?_point : prefixed? (c :: rest ++ '.' :: fraction) = none := by
  have hsecond : ∀ d, (rest ++ '.' :: fraction).head? = some d → d.isDigit = true ∨ d = '.' := by
    intro d hd
    cases rest with
    | nil => exact .inr (Option.some.inj hd).symm
    | cons first rest =>
      rw [List.forall_mem_cons, List.forall_mem_cons] at hdigits
      exact .inl (Option.some.inj hd ▸ hdigits.2.1)
  unfold prefixed?
  rw [List.cons_append]
  generalize rest ++ '.' :: fraction = behind at hsecond
  split
  case h_4 => rfl
  all_goals
    rename_i heq
    cases heq
    exact absurd (hsecond _ rfl) (by decide)

theorem hasLeadingZero_point : hasLeadingZero (c :: rest ++ '.' :: fraction) = false := by
  have hc : c.isDigit = true := hdigits c List.mem_cons_self
  rw [List.cons_append, hasLeadingZero_unsigned (ne_of_isDigit hc rfl) (ne_of_isDigit hc rfl)]
  simp

theorem ofInteger?_point : ofInteger? (c :: rest ++ '.' :: fraction) = none := by
  have hc : c.isDigit = true := hdigits c List.mem_cons_self
  have hinteger : integer? (c :: rest ++ '.' :: fraction) = none := by
    have hbase : prefixed? (c :: (rest ++ '.' :: fraction)) = none := prefixed?_point hdigits
    rw [List.cons_append, integer?_unsigned (ne_of_isDigit hc rfl) (ne_of_isDigit hc rfl) hbase, ← List.cons_append,
      hasLeadingZero_point hdigits, if_neg Bool.false_ne_true, natural?_point hdigits]
    rfl
  rw [ofInteger?, hinteger]

/-! ## Floats -/

theorem decimal?_point (hfraction : ∀ d ∈ fraction, d.isDigit = true) : decimal? (c :: rest ++ '.' :: fraction) =
    some (roundDecimal (Text.value 0 (c :: rest ++ fraction)) (0 - fraction.length)) := by
  have hc : c.isDigit = true := hdigits c List.mem_cons_self
  have hminus : c ≠ '-' := ne_of_isDigit hc rfl
  have hplus : c ≠ '+' := ne_of_isDigit hc rfl
  have hwhole : (c :: rest ++ '.' :: fraction).takeWhile Char.isDigit = c :: rest := by
    rw [List.takeWhile_append_of_pos hdigits, List.takeWhile_cons_of_neg (by decide), List.append_nil]
  have hfront : fraction.takeWhile Char.isDigit = fraction := List.takeWhile_eq_self_iff.2 hfraction
  have hback : fraction.dropWhile Char.isDigit = [] := List.dropWhile_eq_nil_iff.2 hfraction
  rw [List.cons_append] at hwhole ⊢
  simp [decimal?, hminus, hplus, hwhole, hfront, hback, Text.value]

end

/-- A float that starts with a digit is written out and not named. -/
theorem float?_digit {c : Char} {rest : List Char} (hc : c.isDigit = true) :
    float? (c :: rest) = (decimal? (c :: rest)).bind fun x => if x.isFinite then some x else none := by
  have hhead : (String.ofList (c :: rest)).toList.head? = some c := by rw [String.toList_ofList, List.head?_cons]
  have hnames : ∀ names : List String, (∀ name ∈ names, name.toList.head? = some '.' ∨ name.toList.head? = some '-') →
      names.contains (String.ofList (c :: rest)) = false := fun names hnames =>
    contains_of_head hhead fun name hname hd => by
      rcases hnames name hname with hmark | hmark <;> exact ne_of_isDigit hc rfl (Option.some.inj (hd.symm.trans hmark))
  have hunsigned : float? (c :: rest) =
      if [".inf", ".Inf", ".INF"].contains (String.ofList (c :: rest)) then some (1.0 / 0.0)
      else if ["-.inf", "-.Inf", "-.INF"].contains (String.ofList (c :: rest)) then some (-(1.0 / 0.0))
      else if [".nan", ".NaN", ".NAN"].contains (String.ofList (c :: rest)) then some (0.0 / 0.0)
      else (decimal? (c :: rest)).bind fun x => if x.isFinite then some x else none := by
    have hplus : c ≠ '+' := ne_of_isDigit hc rfl
    simp [float?, hplus]
  rw [hunsigned, hnames _ (by simp), hnames _ (by simp), hnames _ (by simp)]
  rfl

/-- **Digits before and behind a point are read as a float** if no quotes stand around them, and as a text if they are
too large for a float. -/
theorem ofPlain?_chars {t : NumberText} (h : t.Plain) : ofPlain? (String.ofList t.chars) =
    some (if t.float.isFinite then .real t.float else .string (String.ofList t.chars)) := by
  obtain ⟨c, rest, hwhole⟩ : ∃ c rest, t.whole = c :: rest := by
    rcases h.whole with hzero | ⟨c, rest, hwhole, -⟩
    · exact ⟨'0', [], hzero⟩
    · exact ⟨c, rest, hwhole⟩
  have hchars : t.chars = c :: rest ++ '.' :: t.fraction := by
    simp [NumberText.chars, h.positive, h.point, h.bare, hwhole]
  have hdigits : ∀ d ∈ c :: rest, d.isDigit = true := hwhole ▸ h.whole_digits
  have hc : c.isDigit = true := hdigits c List.mem_cons_self
  have hletter : c ∉ ['~', 'n', 'N', 't', 'T', 'f', 'F'] := fun hmem => by
    have hletters : ∀ d ∈ ['~', 'n', 'N', 't', 'T', 'f', 'F'], d.isDigit = false := by simp
    exact ne_of_isDigit hc (hletters c hmem) rfl
  have hfloat : float? t.chars = if t.float.isFinite then some t.float else none := by
    have hnegative : ¬ (0 : Int) ≤ 0 - t.fraction.length := by
      have := List.length_pos_iff.2 h.point
      omega
    have hread : roundDecimal (Text.value 0 (c :: rest ++ t.fraction)) (0 - t.fraction.length) = t.float := by
      rw [roundDecimal, if_neg hnegative, NumberText.float, NumberText.digits, hwhole]
      congr
      omega
    rw [hchars, List.cons_append, float?_digit hc, ← List.cons_append, decimal?_point hdigits h.fraction,
      Option.bind_some, hread]
  have hinteger : ofInteger? t.chars = none := hchars ▸ ofInteger?_point hdigits
  have hzero : hasLeadingZero t.chars = false := hchars ▸ hasLeadingZero_point hdigits
  obtain ⟨behind, hcons⟩ : ∃ behind, t.chars = c :: behind := ⟨_, hchars⟩
  rw [ofPlain?_of_head (String.toList_ofList.trans hcons) hletter, ← hcons, hinteger, hzero,
    if_neg Bool.false_ne_true, hfloat]
  by_cases hfinite : t.float.isFinite = true <;> simp [hfinite]

end ApiCatalog.Yaml.Value
