import ApiCatalog.Text.Case
/-!
# Capitals and their partners

The partner of a character is no capital, so that a character is lowered once and for all (`lowerChar_lowerChar`).  The
runs of the table are compared two by two: partners of one run that stand among the capitals of another have each their
place between two of them.
-/

namespace ApiCatalog

namespace CapitalRun

/-- The partner of a capital of a run, by code points. -/
def partner (run : CapitalRun) (point : Nat) : Nat := ((point : Int) + run.shift).toNat

/-- Whether the partners of a run are characters, and none of them a capital of ASCII or the dotted capital I. -/
def isProper (run : CapitalRun) : Bool :=
  Nat.blt 0x5A (run.partner run.first)
    && (Nat.blt (run.partner run.last) 0xD800
      || (Nat.blt 0xDFFF (run.partner run.first) && Nat.blt (run.partner run.last) 0x110000))
    && (Nat.blt (run.partner run.last) 0x130 || Nat.blt 0x130 (run.partner run.first))

/-- Whether the partners of a run are no capitals of the other: they stand in front of them, behind them, or among them
with one character in between. -/
def isApart (run other : CapitalRun) : Bool :=
  Nat.blt (run.partner run.last) other.first || Nat.blt other.last (run.partner run.first)
    || (other.stride == 2 && (run.stride == 2 || run.first == run.last)
      && (run.partner run.first + other.first) % 2 == 1)

theorem isProper_capitalTable : ∀ run ∈ capitalTable.toList, run.isProper = true := by
  have hall : capitalTable.toList.all isProper = true := by decide +kernel
  exact List.all_eq_true.1 hall

theorem isApart_capitalTable : ∀ run ∈ capitalTable.toList, ∀ other ∈ capitalTable.toList,
    run.isApart other = true := by
  have hall : (capitalTable.toList.all fun run => capitalTable.toList.all run.isApart) = true := by decide +kernel
  exact fun run hrun => List.all_eq_true.1 (List.all_eq_true.1 hall run hrun)

/-- Capitals of a run: every `stride`-th character of it. -/
structure Has (run : CapitalRun) (point : Nat) : Prop where
  first_le : run.first ≤ point
  le_last : point ≤ run.last
  stride : (point - run.first) % run.stride = 0

theorem proper_of_has {run : CapitalRun} (hrun : run ∈ capitalTable.toList) {point : Nat} (h : run.Has point) :
    0x5A < run.partner point ∧ (run.partner point).isValidChar ∧ run.partner point ≠ 0x130 := by
  have hproper := isProper_capitalTable run hrun
  obtain ⟨hfirst, hlast, -⟩ := h
  simp only [isProper, partner, Bool.and_eq_true, Bool.or_eq_true, Nat.blt_eq] at hproper
  simp only [partner, Nat.isValidChar]
  omega

/-- **The partner of a capital is no capital of any run.** -/
theorem not_has_partner {run other : CapitalRun} (hrun : run ∈ capitalTable.toList)
    (hother : other ∈ capitalTable.toList) {point : Nat} (h : run.Has point) : ¬ other.Has (run.partner point) := by
  intro hhas
  have hapart := isApart_capitalTable run hrun other hother
  have hproper := isProper_capitalTable run hrun
  obtain ⟨hfirst, hlast, hstride⟩ := h
  obtain ⟨hfirst', hlast', hstride'⟩ := hhas
  simp only [isApart, Bool.and_eq_true, Bool.or_eq_true, Nat.blt_eq, beq_iff_eq] at hapart
  simp only [isProper, Bool.and_eq_true, Nat.blt_eq] at hproper
  simp only [partner] at *
  rcases hapart with (hfront | hback) | ⟨⟨hother2, hrun2⟩, hodd⟩
  · omega
  · omega
  · rw [hother2] at hstride'
    rcases hrun2 with hrun2 | hrun2
    · rw [hrun2] at hstride
      omega
    · omega

end CapitalRun

namespace Text

/-- A character beyond ASCII is its own partner, or a capital of a run. -/
theorem lowerChar_cases {c : Char} (h : 0x80 ≤ c.toNat) : lowerChar c = c ∨
    ∃ run ∈ capitalTable.toList, run.Has c.toNat ∧ lowerChar c = Char.ofNat (run.partner c.toNat) := by
  rw [lowerChar, if_neg (Nat.not_lt.2 h)]
  split
  · exact .inl rfl
  · rename_i run hrun
    obtain ⟨hfirst, hlast⟩ := CodeRange.range_of_findRow? hrun
    split
    · rename_i hstride
      exact .inr ⟨run, (CodeRange.mem_of_findRow? hrun).val, ⟨hfirst, hlast, hstride⟩, rfl⟩
    · exact .inl rfl

theorem lowerChar_ascii {c : Char} (h : c.toNat < 0x80) :
    lowerChar (lowerChar c) = lowerChar c ∧ lowerChar c ≠ 'İ' ∧ (0x5A < c.toNat → lowerChar c = c) := by
  have hall : ∀ n < 0x80, lowerChar (lowerChar (Char.ofNat n)) = lowerChar (Char.ofNat n) ∧
      lowerChar (Char.ofNat n) ≠ 'İ' ∧ (0x5A < n → lowerChar (Char.ofNat n) = Char.ofNat n) := by decide +kernel
  have hpoint := hall c.toNat h
  rwa [Char.ofNat_toNat] at hpoint

/-- **A partner is its own partner, and not the dotted capital I.** -/
theorem lowerChar_lowerChar (c : Char) : lowerChar (lowerChar c) = lowerChar c ∧ (c ≠ 'İ' → lowerChar c ≠ 'İ') := by
  by_cases hascii : c.toNat < 0x80
  · exact ⟨(lowerChar_ascii hascii).1, fun _ => (lowerChar_ascii hascii).2.1⟩
  rcases lowerChar_cases (Nat.not_lt.1 hascii) with hself | ⟨run, hrun, hhas, hpartner⟩
  · rw [hself]
    exact ⟨hself, id⟩
  · obtain ⟨hletter, hvalid, hdotted⟩ := CapitalRun.proper_of_has hrun hhas
    have hpoint : (Char.ofNat (run.partner c.toNat)).toNat = run.partner c.toNat := by
      rw [Char.ofNat, dif_pos hvalid]
      rfl
    rw [hpartner]
    refine ⟨?_, fun _ h => hdotted (hpoint ▸ congrArg Char.toNat h)⟩
    by_cases hsmall : run.partner c.toNat < 0x80
    · exact (lowerChar_ascii (hpoint.symm ▸ hsmall)).2.2 (hpoint.symm ▸ hletter)
    · rcases lowerChar_cases (c := Char.ofNat (run.partner c.toNat)) (hpoint.symm ▸ Nat.not_lt.1 hsmall) with
        hfixed | ⟨other, hother, hcapital, -⟩
      · exact hfixed
      · rw [hpoint] at hcapital
        exact absurd hcapital (CapitalRun.not_has_partner hrun hother hhas)

end Text

end ApiCatalog
