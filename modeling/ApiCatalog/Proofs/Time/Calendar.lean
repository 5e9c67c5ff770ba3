import ApiCatalog.Time.Instant
import Mathlib.Tactic.Common
/-!
# Days and dates

Every day has a date of the calendar, and the date has the number of that day (`dayNumber_dateOf`).
-/

namespace ApiCatalog.Calendar

/-- A day of an era is a day of a year of a leap cycle of a century; only the last year of a cycle has a day more. -/
theorem exists_cycles {d : Nat} (h : d < 146097) : ∃ c q k r, d = 36524 * c + 1461 * q + 365 * k + r ∧ c < 4 ∧ q < 25 ∧
    k < 4 ∧ (r < 365 ∨ r = 365 ∧ k = 3 ∧ (q < 24 ∨ c = 3)) := by
  obtain ⟨c, hc, hc1, hc2⟩ : ∃ c, c < 4 ∧ 36524 * c ≤ d ∧ (d < 36524 * (c + 1) ∨ c = 3) :=
    ⟨min (d / 36524) 3, by omega, by omega, by omega⟩
  obtain ⟨q, hq, hq1, hq2⟩ : ∃ q, q < 25 ∧ 1461 * q ≤ d - 36524 * c ∧ d - 36524 * c < 1461 * (q + 1) :=
    ⟨(d - 36524 * c) / 1461, by omega, by omega, by omega⟩
  obtain ⟨k, hk, hk1, hk2⟩ : ∃ k, k < 4 ∧ 365 * k ≤ d - 36524 * c - 1461 * q ∧
      (d - 36524 * c - 1461 * q < 365 * (k + 1) ∨ k = 3) :=
    ⟨min ((d - 36524 * c - 1461 * q) / 365) 3, by omega, by omega, by omega⟩
  exact ⟨c, q, k, d - 36524 * c - 1461 * q - 365 * k, by omega, hc, hq, hk, by omega⟩

theorem yearOfEra_eq {c q k r d : Nat} (hd : d = 36524 * c + 1461 * q + 365 * k + r) (hc : c < 4) (hq : q < 25)
    (hk : k < 4) (hr : r < 365 ∨ r = 365 ∧ k = 3 ∧ (q < 24 ∨ c = 3)) :
    (d - d / 1460 + d / 36524 - d / 146096) / 365 = 100 * c + 4 * q + k := by
  have h1 : d / 1460 = 25 * c + q ∨ d / 1460 = 25 * c + q + 1 := by omega
  have h2 : d / 146096 = 0 ∨ d / 146096 = 1 ∧ d = 146096 := by omega
  have h3 : d / 36524 = c ∨ d / 36524 = 4 ∧ d = 146096 := by omega
  rcases h2 with h2 | h2
  · rcases h3 with h3 | h3
    · rw [h2, h3]
      rcases h1 with h1 | h1 <;> rw [h1] <;> omega
    · omega
  · omega

/-- A day of an era lies in the year that is counted for it; the extra day of a year is before the first of March of a
leap year. -/
theorem yearOfEra_spec {d : Nat} (h : d < 146097) : ∃ y, (d - d / 1460 + d / 36524 - d / 146096) / 365 = y ∧ y < 400 ∧
    365 * y + y / 4 - y / 100 ≤ d ∧ d ≤ 365 * y + y / 4 - y / 100 + 365 ∧
    (d = 365 * y + y / 4 - y / 100 + 365 → (y + 1) % 4 = 0 ∧ ((y + 1) % 100 ≠ 0 ∨ (y + 1) % 400 = 0)) := by
  obtain ⟨c, q, k, r, hd, hc, hq, hk, hr⟩ := exists_cycles h
  have h4 : (100 * c + 4 * q + k) / 4 = 25 * c + q := by omega
  have h100 : (100 * c + 4 * q + k) / 100 = c := by omega
  refine ⟨100 * c + 4 * q + k, yearOfEra_eq hd hc hq hk hr, by omega, ?_, ?_, ?_⟩ <;> rw [h4, h100] <;> omega

theorem daysToMarch_era (y : Nat) (hy : y < 400) (era : Int) :
    daysToMarch (y + era * 400) = 146097 * era + ((365 * y + y / 4 - y / 100 : Nat) : Int) := by
  have h4 : Int.fdiv (y + era * 400) 4 = (y + era * 400) / 4 := Int.fdiv_eq_ediv_of_nonneg _ (by decide)
  have h100 : Int.fdiv (y + era * 400) 100 = (y + era * 400) / 100 := Int.fdiv_eq_ediv_of_nonneg _ (by decide)
  have h400 : Int.fdiv (y + era * 400) 400 = (y + era * 400) / 400 := Int.fdiv_eq_ediv_of_nonneg _ (by decide)
  rw [daysToMarch, h4, h100, h400]
  omega

/-- The months from March on: where they start and how long they are. -/
theorem shifted_spec {n : Nat} (h : n ≤ 365) : ∃ s, (5 * n + 2) / 153 = s ∧ s < 12 ∧ (153 * s + 2) / 5 ≤ n ∧
    n < (153 * (s + 1) + 2) / 5 := ⟨_, rfl, by omega, by omega, by omega⟩

/-- **Every day has a date, and the date has the number of the day.** -/
theorem dayNumber_dateOf (number : Int) : ∃ year month day,
    dateOf number = (year, month, day) ∧ 1 ≤ month ∧ month ≤ 12 ∧
    1 ≤ day ∧ day ≤ daysInMonth year month ∧ dayNumber year month day = number := by
  generalize hera : Int.fdiv (number + 719468) 146097 = era
  have hera' : era = (number + 719468) / 146097 := by rw [← hera, Int.fdiv_eq_ediv_of_nonneg _ (by decide)]
  obtain ⟨d, hd, hdays⟩ : ∃ d : Nat, d < 146097 ∧ number + 719468 - era * 146097 = d :=
    ⟨(number + 719468 - era * 146097).toNat, by omega, by omega⟩
  obtain ⟨y, hy, hy400, hle, hge, hleap⟩ := yearOfEra_spec hd
  obtain ⟨n, hn⟩ : ∃ n, d - (365 * y + y / 4 - y / 100) = n := ⟨_, rfl⟩
  obtain ⟨s, hs, hs12, hslow, hshigh⟩ := shifted_spec (n := n) (by omega)
  have hdate : dateOf number = ((if (if s < 10 then s + 3 else s - 9) ≤ 2 then (y : Int) + era * 400 + 1 else y + era * 400),
      if s < 10 then s + 3 else s - 9, n - (153 * s + 2) / 5 + 1) := by
    simp only [dateOf, hera, hdays, Int.toNat_natCast, hy, hn, hs]
  refine ⟨_, _, _, hdate, ?_⟩
  have hmarch := daysToMarch_era y hy400 era
  by_cases h10 : s < 10
  · have hmonth : ¬ s + 3 ≤ 2 := by omega
    simp only [h10, if_true, if_neg hmonth]
    refine ⟨by omega, by omega, by omega, ?_, ?_⟩
    · simp only [daysInMonth]
      split
      · omega
      · split <;> omega
    · have hshift : (s + 3 + 9) % 12 = s := by omega
      simp only [dayNumber, hshift, if_neg hmonth, hmarch]
      omega
  · have hmonth : s - 9 ≤ 2 := by omega
    simp only [h10, if_false, if_pos hmonth]
    refine ⟨by omega, by omega, by omega, ?_, ?_⟩
    · simp only [daysInMonth]
      split
      · split
        · omega
        · rename_i hnot
          have hlast : d ≠ 365 * y + y / 4 - y / 100 + 365 := fun he => hnot (by
            obtain ⟨h4, h100⟩ := hleap he
            simp only [isLeapYear, Bool.and_eq_true, Bool.or_eq_true, decide_eq_true_eq]
            omega)
          omega
      · split <;> omega
    · have hshift : (s - 9 + 9) % 12 = s := by omega
      have hyear : (y : Int) + era * 400 + 1 - 1 = y + era * 400 := by omega
      simp only [dayNumber, hshift, if_pos hmonth, hyear, hmarch]
      omega

end ApiCatalog.Calendar
