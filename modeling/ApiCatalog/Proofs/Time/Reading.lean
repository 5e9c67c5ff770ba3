import ApiCatalog.Proofs.Text.Digits
import ApiCatalog.Proofs.Time.Calendar
/-!
# Reading printed instants

The text of an instant is read as the instant (`ofText?_text`), whatever its fraction, also within a leap second and
for years of more than four digits.
-/

namespace ApiCatalog

namespace Text

theorem isBlank_of_isDigit {c : Char} (h : c.isDigit) : isBlank c = false := by
  have hval : 48 ≤ c.toNat ∧ c.toNat ≤ 57 := by
    simpa [Char.isDigit, UInt32.le_iff_toNat_le, ← Char.toNat_val] using h
  simp only [isBlank, Bool.or_eq_false_iff, Bool.and_eq_false_iff, decide_eq_false_iff_not, beq_eq_false_iff_ne]
  omega

theorem trimStart_cons {c : Char} {rest : List Char} (h : isBlank c = false) : trimStart (c :: rest) = c :: rest := by
  rw [trimStart, trimStartBy, List.dropWhile_cons, h]; rfl

theorem trimStart_digits {digits rest : List Char} (hne : digits ≠ []) (h : ∀ c ∈ digits, c.isDigit) :
    trimStart (digits ++ rest) = digits ++ rest := by
  obtain ⟨c, more, rfl⟩ := List.exists_cons_of_ne_nil hne
  exact trimStart_cons (isBlank_of_isDigit (h c List.mem_cons_self))

/-- A text that does not go on with a digit. -/
def NoDigit (rest : List Char) : Prop := ∀ c ∈ rest.head?, c.isDigit = false

theorem takeWhile_digits {digits rest : List Char} (h : ∀ c ∈ digits, c.isDigit) (hrest : NoDigit rest) :
    (digits ++ rest).takeWhile Char.isDigit = digits := by
  rw [List.takeWhile_append_of_pos h]
  cases rest with
  | nil => simp
  | cons c rest => simp [hrest c rfl]

end Text

namespace Instant

open Text (NoDigit)

/-- Nanoseconds stay below a second, or below two at the end of a minute; the year is one that can be told apart. -/
structure Valid (instant : Instant) : Prop where
  nanos : instant.nanos < 10 ^ 9 ∨ instant.nanos < 2 * 10 ^ 9 ∧ instant.seconds % 60 = 59
  year : Calendar.yearInRange (Calendar.dateOf (Int.fdiv instant.seconds 86400)).1 = true

theorem number_digits {least most : Nat} {digits rest : List Char} (h : ∀ c ∈ digits, c.isDigit)
    (hrest : NoDigit rest) (hleast : least ≤ digits.length) (hmost : digits.length ≤ most) :
    number least most (digits ++ rest) = some (Text.value 0 digits, rest) := by
  simp only [number, Text.takeWhile_digits h hrest, List.take_of_length_le hmost, if_neg (Nat.not_lt.2 hleast),
    List.drop_left]
  rfl

theorem number_padded {least most width n : Nat} {rest : List Char} (hrest : NoDigit rest)
    (hleast : least ≤ (Text.padded width n).length) (hmost : (Text.padded width n).length ≤ most) :
    number least most (Text.padded width n ++ rest) = some (n, rest) := by
  rw [number_digits (fun c hc => Text.isDigit_of_mem_padded hc) hrest hleast hmost, Text.value_padded]

theorem padded_ne_nil (width n : Nat) : Text.padded width n ≠ [] :=
  List.append_ne_nil_of_right_ne_nil _ (Text.ofNat_ne_nil n)

theorem bounded_padded (low high : Nat) {n : Nat} {rest : List Char} (hrest : NoDigit rest) (h : n < 100)
    (hlow : low ≤ n) (hhigh : n ≤ high) : bounded low high (Text.padded 2 n ++ rest) = some (n, rest) := by
  have hlen : (Text.padded 2 n).length = 2 := Text.length_padded (by decide) h
  rw [bounded, Text.trimStart_digits (padded_ne_nil 2 n) (fun c hc => Text.isDigit_of_mem_padded hc),
    number_padded hrest (by omega) (by omega)]
  simp [hlow, hhigh]

theorem separator_self (sep : Char) {rest : List Char} (h : Text.isBlank sep = false) :
    separator sep (sep :: rest) = some rest := by
  rw [separator, Text.trimStart_cons h]
  simp

theorem year_yearText (y : Int) {rest : List Char} (hrest : NoDigit rest) :
    year (yearText y ++ rest) = some (y, rest) := by
  have hdigit : ∀ n, ∀ c ∈ Text.padded 4 n, c.isDigit := fun n c hc => Text.isDigit_of_mem_padded hc
  have hlong : ∀ n, 1 ≤ (Text.padded 4 n).length := fun n => List.length_pos_iff.2 (padded_ne_nil 4 n)
  unfold yearText
  split
  · rename_i hy
    have h4 : y.toNat < 10 ^ 4 := by omega
    have hlen : (Text.padded 4 y.toNat).length = 4 := Text.length_padded (by decide) h4
    obtain ⟨c, digits, hc⟩ := List.exists_cons_of_ne_nil (padded_ne_nil 4 y.toNat)
    have hcd : c.isDigit := hdigit y.toNat c (by rw [hc]; exact List.mem_cons_self)
    rw [year, Text.trimStart_digits (padded_ne_nil 4 _) (hdigit _)]
    split
    · rename_i he; rw [hc] at he; cases he; exact absurd hcd (by decide)
    · rename_i he; rw [hc] at he; cases he; exact absurd hcd (by decide)
    · have hcast : (y.toNat : Int) = y := by omega
      simp only [number_padded hrest (show 1 ≤ _ by omega) (Nat.le_of_eq hlen), Option.map_some, hcast]
  · rename_i hy
    have hmost : (Text.padded 4 y.natAbs).length ≤ (Text.padded 4 y.natAbs ++ rest).length := by simp
    by_cases hneg : y < 0
    · rw [if_pos hneg, List.cons_append, year, Text.trimStart_cons (by decide)]
      simp only [number_padded hrest (hlong _) hmost, Option.map_some]
      congr 2
      omega
    · rw [if_neg hneg, List.cons_append, year, Text.trimStart_cons (by decide)]
      simp only [number_padded hrest (hlong _) hmost, Option.map_some]
      congr 2
      omega

theorem fraction_padded {width n : Nat} {rest : List Char} (hwidth : 0 < width) (h9 : width ≤ 9) (h : n < 10 ^ width)
    (hrest : NoDigit rest) : fraction ('.' :: Text.padded width n ++ rest) = some (n * 10 ^ (9 - width), rest) := by
  have hlen : (Text.padded width n).length = width := Text.length_padded hwidth h
  have hempty : (Text.padded width n).isEmpty = false := List.isEmpty_eq_false_iff.2 (padded_ne_nil width n)
  have hval : (Text.padded width n).foldl (fun n c => n * 10 + (c.toNat - 48)) 0 = n := Text.value_padded width n
  have hdrop : (Text.padded width n ++ rest).drop width = rest := List.drop_left' hlen
  rw [List.cons_append, fraction]
  simp only [Text.takeWhile_digits (fun c hc => Text.isDigit_of_mem_padded hc) hrest, hempty,
    List.take_of_length_le (Nat.le_trans (Nat.le_of_eq hlen) h9), hval, hlen, hdrop]
  rfl

theorem fraction_fractionText {nanos : Nat} (h : nanos < 10 ^ 9) :
    fraction (fractionText nanos ++ ['Z']) = some (nanos, ['Z']) := by
  have hrest : NoDigit ['Z'] := fun c hc => by cases hc; rfl
  unfold fractionText
  split
  · rename_i h0; rw [h0]; rfl
  · split
    · rw [fraction_padded (by decide) (by decide) (by omega) hrest]
      congr 2
      omega
    · split
      · rw [fraction_padded (by decide) (by decide) (by omega) hrest]
        congr 2
        omega
      · rw [fraction_padded (by decide) (by decide) h hrest]
        congr 2
        omega

theorem noDigit_cons (c : Char) {rest : List Char} (h : c.isDigit = false) : NoDigit (c :: rest) := fun d hd => by
  cases hd; exact h

theorem noDigit_fractionText (nanos : Nat) : NoDigit (fractionText nanos ++ ['Z']) := by
  unfold fractionText
  split
  · exact noDigit_cons _ rfl
  · split
    · exact noDigit_cons _ rfl
    · split <;> exact noDigit_cons _ rfl

/-- A leap second is written as second 60, and second 60 is read as one. -/
theorem leapSecond {s n : Nat} (h : n < 10 ^ 9 ∨ n < 2 * 10 ^ 9 ∧ s % 60 = 59) : ∃ sec frac : Nat,
    s % 60 + (if 1000000000 ≤ n then 1 else 0) = sec ∧
    (if 1000000000 ≤ n then n - 1000000000 else n) = frac ∧ sec ≤ 60 ∧ frac < 10 ^ 9 ∧
    (if sec = 60 then frac + 1000000000 else frac) = n ∧
    (if sec = 60 then 59 else sec) = s % 60 := by
  refine ⟨_, _, rfl, rfl, ?_⟩
  by_cases hleap : 1000000000 ≤ n
  · have h59 : s % 60 = 59 := by omega
    refine ⟨?_, ?_, ?_, ?_⟩ <;> simp only [hleap, if_true, h59, Nat.reduceAdd] <;> omega
  · have h60 : ¬ s % 60 = 60 := by omega
    refine ⟨?_, ?_, ?_, ?_⟩ <;> simp only [hleap, if_false, Nat.add_zero, h60] <;> omega

theorem daysInMonth_le (year : Int) (month : Nat) : Calendar.daysInMonth year month ≤ 31 := by
  unfold Calendar.daysInMonth
  split
  · split <;> decide
  · split <;> decide

/-- **The text of an instant is read as the instant.** -/
theorem ofText?_text {instant : Instant} (h : instant.Valid) : ofText? (instant.text .letter) = some instant := by
  obtain ⟨seconds, nanos⟩ := instant
  obtain ⟨y, m, d, hdate, hm1, hm12, hd1, hdm, hnumber⟩ := Calendar.dayNumber_dateOf (Int.fdiv seconds 86400)
  have hday : Int.fdiv seconds 86400 = seconds / 86400 := Int.fdiv_eq_ediv_of_nonneg _ (by decide)
  have hmod : Int.fmod seconds 86400 = seconds % 86400 := Int.fmod_eq_emod_of_nonneg _ (by decide)
  obtain ⟨s, hs, hsec⟩ : ∃ s : Nat, s < 86400 ∧ Int.fmod seconds 86400 = s :=
    ⟨(Int.fmod seconds 86400).toNat, by omega, by omega⟩
  have hyear : Calendar.yearInRange y = true := by simpa [hdate] using h.year
  have hd31 := daysInMonth_le y m
  obtain ⟨sec, frac, hsecdef, hfracdef, hsec60, hfrac, hnanos, hsecback⟩ :=
    leapSecond (s := s) (n := nanos) (h.nanos.imp_right fun hn => ⟨hn.1, by have := hn.2; dsimp only at this; omega⟩)
  have hhour : s / 3600 < 24 := by omega
  have hminute : s / 60 % 60 < 60 := by omega
  -- The parts are read from left to right, each up to a sign that is no digit.
  have hy := fun rest : List Char => year_yearText y (noDigit_cons '-' rfl : NoDigit ('-' :: rest))
  have hmonth := fun rest : List Char => bounded_padded 1 12 (n := m) (noDigit_cons '-' rfl : NoDigit ('-' :: rest))
    (by omega) hm1 hm12
  have hdayOf := fun rest : List Char => bounded_padded 1 31 (n := d) (noDigit_cons 'T' rfl : NoDigit ('T' :: rest))
    (by omega) hd1 (by omega)
  have hhourOf := fun rest : List Char => bounded_padded 0 23 (n := s / 3600)
    (noDigit_cons ':' rfl : NoDigit (':' :: rest)) (by omega) (Nat.zero_le _) (by omega)
  have hminuteOf := fun rest : List Char => bounded_padded 0 59 (n := s / 60 % 60)
    (noDigit_cons ':' rfl : NoDigit (':' :: rest)) (by omega) (Nat.zero_le _) (by omega)
  have hsecOf := bounded_padded 0 60 (n := sec) (noDigit_fractionText frac) (by omega) (Nat.zero_le _) hsec60
  have hlocal : Calendar.dayNumber y m d * 86400 +
      ((s / 3600 * 3600 + s / 60 % 60 * 60 + (if sec = 60 then 59 else sec) : Nat) : Int) - 0 = seconds := by
    rw [hsecback, hnumber, hday]
    omega
  have htext : text .letter ⟨seconds, nanos⟩ = yearText y ++ '-' :: (Text.padded 2 m ++ '-' :: (Text.padded 2 d ++
      'T' :: (Text.padded 2 (s / 3600) ++ ':' :: (Text.padded 2 (s / 60 % 60) ++ ':' :: (Text.padded 2 sec ++
        (fractionText frac ++ ['Z'])))))) := by
    simp only [text, hdate, hsec, Int.toNat_natCast, hsecdef, hfracdef, Zone.text, List.append_assoc, List.cons_append]
  rw [htext, ofText?]
  refine Option.bind_eq_some_iff.2 ⟨_, hy _, Option.bind_eq_some_iff.2 ⟨_, separator_self '-' rfl, ?_⟩⟩
  refine Option.bind_eq_some_iff.2 ⟨_, hmonth _, Option.bind_eq_some_iff.2 ⟨_, separator_self '-' rfl, ?_⟩⟩
  refine Option.bind_eq_some_iff.2 ⟨_, hdayOf _, Option.bind_eq_some_iff.2 ⟨_, rfl, ?_⟩⟩
  refine Option.bind_eq_some_iff.2 ⟨_, hhourOf _, Option.bind_eq_some_iff.2 ⟨_, separator_self ':' rfl, ?_⟩⟩
  refine Option.bind_eq_some_iff.2 ⟨_, hminuteOf _, Option.bind_eq_some_iff.2 ⟨_, separator_self ':' rfl, ?_⟩⟩
  refine Option.bind_eq_some_iff.2 ⟨_, hsecOf, Option.bind_eq_some_iff.2 ⟨_, fraction_fractionText hfrac, ?_⟩⟩
  refine Option.bind_eq_some_iff.2 ⟨(0, []), rfl, ?_⟩
  dsimp only
  rw [if_neg (by decide), hyear, if_neg (by simpa using hdm), if_neg (by decide), hlocal, hnanos, hdate]
  exact if_pos hyear

end Instant

end ApiCatalog
