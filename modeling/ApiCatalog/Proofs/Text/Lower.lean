import ApiCatalog.Proofs.Text.Capitals
import ApiCatalog.Text.Basic
/-!
# Lowered texts

A piece of a text is lowered with a regard to whether the nearest characters on both sides of it that are not
case-ignorable have case, and to nothing else (`lowerBetween_append`).  So pieces on both sides of a blank are lowered
each by itself (`lowercase_append_cons`), what has been lowered is lowered for good (`lowercase_lowercase`), and the case
of ASCII letters makes no difference anywhere (`lowercase_asciiLower`).
-/

namespace ApiCatalog.Text

/-- Whether the nearest character of a text that is not case-ignorable has case; `beyond` tells of what comes behind
the text. -/
def nearestCased (beyond : Bool) : List Char → Bool
  | [] => beyond
  | c :: text => if isCaseIgnorable c then nearestCased beyond text else isCased c

/-- What a character becomes between neighbours that have case or not. -/
def lowerAt (behind ahead : Bool) (c : Char) : List Char :=
  if c = 'Σ' then [if behind && !ahead then 'ς' else 'σ'] else if c = 'İ' then ['i', '\u0307'] else [lowerChar c]

/-- A piece of a text, lowered between neighbours that have case or not. -/
def lowerBetween (behind ahead : Bool) : List Char → List Char
  | [] => []
  | c :: text => lowerAt behind (nearestCased ahead text) c ++ lowerBetween (nearestCased behind [c]) ahead text

theorem nearestCased_append (beyond : Bool) (text more : List Char) :
    nearestCased beyond (text ++ more) = nearestCased (nearestCased beyond more) text := by
  induction text with
  | nil => rfl
  | cons c text ih => rw [List.cons_append, nearestCased, ih, nearestCased]

theorem nearestCased_reverse_cons (beyond : Bool) (c : Char) (text : List Char) :
    nearestCased beyond (c :: text).reverse = nearestCased (nearestCased beyond [c]) text.reverse := by
  rw [List.reverse_cons, nearestCased_append]

theorem casedAhead_eq (text : List Char) : casedAhead text = nearestCased false text := by
  induction text with
  | nil => rfl
  | cons c text ih => rw [casedAhead, ih, nearestCased]

theorem reverse_lowered (behind : Bool) (c : Char) (text : List Char) :
    (lowered behind c text).reverse = lowerAt behind (nearestCased false text) c := by
  rw [lowered, lowerAt, casedAhead_eq]
  split
  · rfl
  · split <;> rfl

theorem lowercase_eq (text : List Char) : lowercase text = lowerBetween false false text := by
  suffices h : ∀ (text done : List Char) (behind : Bool),
      lowercaseFrom behind done text = done.reverse ++ lowerBetween behind false text from h text [] false
  intro text
  induction text with
  | nil => exact fun done behind => (List.append_nil _).symm
  | cons c text ih =>
    intro done behind
    rw [lowercaseFrom, ih, List.reverse_append, reverse_lowered, List.append_assoc]
    rfl

/-- **A text is lowered in pieces**, each with a regard to the neighbours that the others give it. -/
theorem lowerBetween_append (behind ahead : Bool) (text more : List Char) :
    lowerBetween behind ahead (text ++ more) = lowerBetween behind (nearestCased ahead more) text ++
      lowerBetween (nearestCased behind text.reverse) ahead more := by
  induction text generalizing behind with
  | nil => rfl
  | cons c text ih =>
    rw [List.cons_append, lowerBetween, ih, nearestCased_append, nearestCased_reverse_cons, lowerBetween,
      List.append_assoc]

/-- **A character that is neither case-ignorable nor has case keeps what stands on both sides of it apart.** -/
theorem lowercase_append_cons {c : Char} (hignorable : isCaseIgnorable c = false) (hcased : isCased c = false)
    (text more : List Char) : lowercase (text ++ c :: more) = lowercase text ++ (lowercase [c] ++ lowercase more) := by
  have hnearest : ∀ beyond rest, nearestCased beyond (c :: rest) = false := fun beyond rest => by
    rw [nearestCased, if_neg (by rw [hignorable]; exact Bool.false_ne_true), hcased]
  have hone : ∀ behind ahead, lowerBetween behind ahead [c] = lowercase [c] := by
    have hsigma : c ≠ 'Σ' := by
      rintro rfl
      exact absurd hcased (by decide +kernel)
    intro behind ahead
    simp only [lowercase_eq, lowerBetween, lowerAt, if_neg hsigma]
  rw [lowercase_eq, lowerBetween_append, hnearest, ← lowercase_eq, lowercase_eq more, ← List.singleton_append,
    lowerBetween_append, hone, List.reverse_singleton, hnearest]

theorem lowercase_append_space (text more : List Char) :
    lowercase (text ++ ' ' :: more) = lowercase text ++ ' ' :: lowercase more := by
  have hspace : lowercase [' '] = [' '] := by decide +kernel
  rw [lowercase_append_cons (by decide +kernel) (by decide +kernel), hspace, List.singleton_append]

/-! ## Lowered characters -/

/-- A character that stays as it is wherever it stands. -/
def IsLow (c : Char) : Prop := lowerChar c = c ∧ c ≠ 'İ'

theorem lowerAt_of_isLow {c : Char} (h : IsLow c) (behind ahead : Bool) : lowerAt behind ahead c = [c] := by
  have hsigma : c ≠ 'Σ' := by
    rintro rfl
    exact absurd h.1 (by decide +kernel)
  rw [lowerAt, if_neg hsigma, if_neg h.2, h.1]

theorem isLow_of_mem_lowerAt {behind ahead : Bool} {c d : Char} (h : d ∈ lowerAt behind ahead c) : IsLow d := by
  have hothers : (['ς', 'σ', 'i', '\u0307'].all fun d => lowerChar d = d ∧ d ≠ 'İ') = true := by decide +kernel
  simp only [List.all_eq_true, decide_eq_true_eq] at hothers
  rw [lowerAt] at h
  split at h
  · refine hothers d ?_
    rw [List.mem_singleton.1 h]
    split <;> simp
  · split at h
    · exact hothers d (by simp_all)
    · rename_i hdotted
      rw [List.mem_singleton.1 h]
      exact ⟨(lowerChar_lowerChar c).1, (lowerChar_lowerChar c).2 hdotted⟩

theorem isLow_of_mem_lowerBetween {behind ahead : Bool} {text : List Char} {d : Char}
    (h : d ∈ lowerBetween behind ahead text) : IsLow d := by
  induction text generalizing behind with
  | nil => cases h
  | cons c text ih =>
    rw [lowerBetween, List.mem_append] at h
    exact h.elim isLow_of_mem_lowerAt ih

theorem lowerBetween_eq_self {text : List Char} (h : ∀ c ∈ text, IsLow c) (behind ahead : Bool) :
    lowerBetween behind ahead text = text := by
  induction text generalizing behind with
  | nil => rfl
  | cons c text ih =>
    rw [List.forall_mem_cons] at h
    rw [lowerBetween, lowerAt_of_isLow h.1, ih h.2, List.singleton_append]

/-- **What has been lowered is not changed by lowering it again.** -/
theorem lowercase_lowercase (text : List Char) : lowercase (lowercase text) = lowercase text := by
  rw [lowercase_eq (lowercase text), lowercase_eq text]
  exact lowerBetween_eq_self (fun _ => isLow_of_mem_lowerBetween) false false

/-! ## The case of ASCII letters -/

theorem toLower_of_le {c : Char} (h : 0x80 ≤ c.toNat) : c.toLower = c := by
  have hupper : ¬ (c.val ≥ 'A'.val ∧ c.val ≤ 'Z'.val) := by
    rintro ⟨-, hlast⟩
    have hpoint : c.toNat ≤ 0x5A := hlast
    omega
  exact dif_neg hupper

/-- The case of an ASCII letter decides neither what becomes of it nor what becomes of its neighbours. -/
theorem lowerAt_toLower (c : Char) : isCaseIgnorable c.toLower = isCaseIgnorable c ∧ isCased c.toLower = isCased c ∧
    ∀ behind ahead, lowerAt behind ahead c.toLower = lowerAt behind ahead c := by
  by_cases hascii : c.toNat < 0x80
  · have hall : ∀ n < 0x80, isCaseIgnorable (Char.ofNat n).toLower = isCaseIgnorable (Char.ofNat n) ∧
        isCased (Char.ofNat n).toLower = isCased (Char.ofNat n) ∧
        ∀ behind ahead, lowerAt behind ahead (Char.ofNat n).toLower = lowerAt behind ahead (Char.ofNat n) := by
      decide +kernel
    have hpoint := hall c.toNat hascii
    rwa [Char.ofNat_toNat] at hpoint
  · rw [toLower_of_le (Nat.not_lt.1 hascii)]
    exact ⟨rfl, rfl, fun _ _ => rfl⟩

theorem nearestCased_asciiLower (beyond : Bool) (text : List Char) :
    nearestCased beyond (asciiLower text) = nearestCased beyond text := by
  induction text with
  | nil => rfl
  | cons c text ih =>
    obtain ⟨hignorable, hcased, -⟩ := lowerAt_toLower c
    rw [asciiLower, List.map_cons, nearestCased, hignorable, hcased, ← asciiLower, ih, nearestCased]

theorem lowerBetween_asciiLower (behind ahead : Bool) (text : List Char) :
    lowerBetween behind ahead (asciiLower text) = lowerBetween behind ahead text := by
  induction text generalizing behind with
  | nil => rfl
  | cons c text ih =>
    obtain ⟨-, -, hat⟩ := lowerAt_toLower c
    have hnearest : nearestCased behind [c.toLower] = nearestCased behind [c] := nearestCased_asciiLower behind [c]
    rw [asciiLower, List.map_cons, lowerBetween, ← asciiLower, nearestCased_asciiLower, hat, ih, hnearest, lowerBetween]

/-- **The case of ASCII letters makes no difference to the lowered text.** -/
theorem lowercase_asciiLower (text : List Char) : lowercase (asciiLower text) = lowercase text := by
  rw [lowercase_eq, lowercase_eq, lowerBetween_asciiLower]

theorem lowercase_of_asciiLower {text other : List Char} (h : asciiLower text = asciiLower other) :
    lowercase text = lowercase other := by
  rw [← lowercase_asciiLower, h, lowercase_asciiLower]

end ApiCatalog.Text
