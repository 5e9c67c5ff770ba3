import ApiCatalog.Text.Basic
import Mathlib.Algebra.Group.Nat.Defs
import Mathlib.Data.List.Basic
/-!
# Decimal digits

Digits written for a number are digits, they start with a zero only for zero itself (`head_ofNat`), and
they read back as the number (`value_ofNat`), also with zeros in front (`value_padded`).
-/

namespace ApiCatalog.Text

theorem isDigit_of_mem_ofNat {n : Nat} {c : Char} (h : c ∈ ofNat n) : c.isDigit :=
  Nat.isDigit_of_mem_toDigits (by decide) (by decide) h

theorem ofNat_ne_nil (n : Nat) : ofNat n ≠ [] := Nat.toDigits_ne_nil

theorem ofNat_of_lt {n : Nat} (h : n < 10) : ofNat n = [Nat.digitChar n] := Nat.toDigits_of_lt_base h

theorem ofNat_of_le {n : Nat} (h : 10 ≤ n) : ofNat n = ofNat (n / 10) ++ [Nat.digitChar (n % 10)] :=
  Nat.toDigits_of_base_le (by decide) h

theorem digitChar_ne_zero : ∀ n, n < 10 → n ≠ 0 → Nat.digitChar n ≠ '0' := by decide

theorem head_ofNat {n : Nat} (hn : n ≠ 0) : (ofNat n).head? ≠ some '0' := by
  induction n using Nat.strongRecOn with
  | _ n ih =>
    by_cases h : n < 10
    · rw [ofNat_of_lt h, List.head?_cons]
      exact fun he => digitChar_ne_zero n h hn (Option.some.inj he)
    · rw [ofNat_of_le (Nat.not_lt.1 h), List.head?_append_of_ne_nil _ (ofNat_ne_nil _)]
      exact ih (n / 10) (by omega) (by omega)

theorem length_ofNat_le {n k : Nat} (hk : 0 < k) (h : n < 10 ^ k) : (ofNat n).length ≤ k :=
  (Nat.length_toDigits_le_iff (by decide) hk).2 h

/-- The number that digits read as, after a number read so far. -/
def value (n : Nat) (digits : List Char) : Nat := digits.foldl (fun n c => n * 10 + (c.toNat - 48)) n

theorem value_eq (n : Nat) (digits : List Char) : value n digits = Nat.ofDigitChars 10 digits n := by
  rw [Nat.ofDigitChars_eq_foldl]
  simp only [value, Nat.mul_comm 10, Char.reduceToNat]

@[simp] theorem value_cons (n : Nat) (c : Char) (digits : List Char) :
    value n (c :: digits) = value (n * 10 + (c.toNat - 48)) digits := List.foldl_cons ..

theorem value_append (n : Nat) (a b : List Char) : value n (a ++ b) = value (value n a) b := List.foldl_append

/-- **Digits read back as the number they were written for.** -/
theorem value_ofNat (n : Nat) : value 0 (ofNat n) = n := by
  rw [value_eq]; exact Nat.ofDigitChars_ten_toDigits

theorem le_value (n : Nat) (digits : List Char) : n ≤ value n digits := by
  induction digits generalizing n with
  | nil => exact Nat.le_refl n
  | cons c digits ih => exact Nat.le_trans (by omega) (ih (n * 10 + (c.toNat - 48)))

theorem isDigit_of_mem_padded {width n : Nat} {c : Char} (h : c ∈ padded width n) : c.isDigit := by
  rcases List.mem_append.1 h with h | h
  · rw [List.eq_of_mem_replicate h]; decide
  · exact isDigit_of_mem_ofNat h

theorem length_padded {width n : Nat} (hw : 0 < width) (h : n < 10 ^ width) : (padded width n).length = width := by
  have := length_ofNat_le hw h
  simp only [padded, List.length_append, List.length_replicate]
  omega

theorem value_replicate_zero (k : Nat) : value 0 (List.replicate k '0') = 0 := by
  rw [value_eq, Nat.ofDigitChars_replicate_zero, Nat.mul_zero]

theorem value_padded (width n : Nat) : value 0 (padded width n) = n := by
  rw [padded, value_append, value_replicate_zero, value_ofNat]

/-! ## Digits that read as the same number -/

theorem value_add (n : Nat) (digits : List Char) : value n digits = n * 10 ^ digits.length + value 0 digits := by
  induction digits generalizing n with
  | nil => simp [value]
  | cons c digits ih =>
    rw [value_cons, value_cons, ih (n * 10 + _), ih (0 * 10 + _), List.length_cons, Nat.pow_succ']
    grind

theorem value_ofNat_append (n : Nat) (digits : List Char) :
    value 0 (ofNat n ++ digits) = n * 10 ^ digits.length + value 0 digits := by
  rw [value_append, value_ofNat, value_add]

theorem isDigit_spec {c : Char} (h : c.isDigit) : 48 ≤ c.toNat ∧ c.toNat ≤ 57 := Char.isDigit_iff_toNat.1 h

theorem value_lt {digits : List Char} (h : ∀ c ∈ digits, c.isDigit) : value 0 digits < 10 ^ digits.length := by
  induction digits with
  | nil => decide
  | cons c digits ih =>
    rw [List.forall_mem_cons] at h
    rw [value_cons, value_add, List.length_cons, Nat.pow_succ']
    have hdigit := isDigit_spec h.1
    have hfirst : (0 * 10 + (c.toNat - 48)) * 10 ^ digits.length ≤ 9 * 10 ^ digits.length :=
      Nat.mul_le_mul_right _ (by omega)
    have hrest := ih h.2
    omega

/-- As many digits after two numbers read as the same number only if they do so alone. -/
theorem value_inj {n n' : Nat} {digits digits' : List Char} (h : ∀ c ∈ digits, c.isDigit)
    (h' : ∀ c ∈ digits', c.isDigit) (hlength : digits.length = digits'.length)
    (hvalue : value n digits = value n' digits') : n = n' ∧ value 0 digits = value 0 digits' := by
  have hrest := value_lt h
  have hrest' := value_lt h'
  rw [value_add, value_add n', hlength] at hvalue
  rw [hlength] at hrest
  have hsame : value 0 digits = value 0 digits' := by
    have hmod := congrArg (· % 10 ^ digits'.length) hvalue
    simpa only [Nat.mul_add_mod_of_lt hrest, Nat.mul_add_mod_of_lt hrest'] using hmod
  rw [hsame] at hvalue
  exact ⟨Nat.eq_of_mul_eq_mul_right (Nat.pow_pos (by decide)) (Nat.add_right_cancel hvalue), hsame⟩

/-- Of two texts with as many digits only the same read as one number. -/
theorem eq_of_value_eq : ∀ {digits digits' : List Char}, (∀ c ∈ digits, c.isDigit) → (∀ c ∈ digits', c.isDigit) →
    digits.length = digits'.length → value 0 digits = value 0 digits' → digits = digits'
  | [], [], _, _, _, _ => rfl
  | c :: digits, c' :: digits', h, h', hlength, hvalue => by
    rw [List.forall_mem_cons] at h h'
    have hdigit := isDigit_spec h.1
    have hdigit' := isDigit_spec h'.1
    rw [value_cons, value_cons] at hvalue
    obtain ⟨hfirst, hrest⟩ := value_inj h.2 h'.2 (Nat.succ.inj hlength) hvalue
    rw [eq_of_value_eq h.2 h'.2 (Nat.succ.inj hlength) hrest, Char.toNat_inj.1 (by omega : c.toNat = c'.toNat)]

/-- The first digit of a number tells how many digits it has. -/
theorem le_value_of_head {c : Char} (hc : c.isDigit) (hne : c ≠ '0') (digits : List Char) :
    10 ^ digits.length ≤ value 0 (c :: digits) := by
  have hdigit := isDigit_spec hc
  have hzero : c.toNat ≠ 48 := fun h => hne (Char.toNat_inj.1 h)
  have hpos : 0 < 0 * 10 + (c.toNat - 48) := by omega
  rw [value_cons, value_add]
  exact Nat.le_trans (Nat.le_mul_of_pos_left _ hpos) (Nat.le_add_right _ _)

end ApiCatalog.Text
