import ApiCatalog.Proofs.Text.Lower
import Mathlib.Data.List.Infix
/-!
# Capital sigmas

A capital sigma is lowered to the final sigma where it ends a word.  So a piece of a text is lowered in its place as it
is by itself exactly if its capital sigmas end words there as they do in the piece (`keepsSigmas_iff`).  All places are
such for a piece in which no capital sigma dangles (`forall_keepsSigmas_iff`), and only for those: a dangling sigma is
lowered to another letter in some text (`exists_missed_of_dangles`).
-/

namespace ApiCatalog.Text

/-- A capital sigma between two texts ends a word: of the characters that are not case-ignorable, the nearest before it
has case and the nearest behind it has none. -/
def EndsWord (front back : List Char) : Prop :=
  nearestCased false front.reverse = true ∧ nearestCased false back = false

instance (front back : List Char) : Decidable (EndsWord front back) := inferInstanceAs (Decidable (_ ∧ _))

/-- The capital sigmas of a piece end words of the text exactly where they end words of the piece. -/
def KeepsSigmas (before part after : List Char) : Prop :=
  ∀ front back, part = front ++ 'Σ' :: back → (EndsWord (before ++ front) (back ++ after) ↔ EndsWord front back)

/-- A text leaves it to its surroundings whether a capital sigma of it ends a word: what is behind the sigma has no case
and nothing before it counts, or what is before it has case and nothing behind it counts.  Case-ignorable characters do
not count. -/
def Dangles (text : List Char) : Prop :=
  ∃ front back, text = front ++ 'Σ' :: back ∧
    ((∀ c ∈ front, isCaseIgnorable c = true) ∧ nearestCased false back = false ∨
      nearestCased false front.reverse = true ∧ ∀ c ∈ back, isCaseIgnorable c = true)

theorem endsWord_iff {front back : List Char} :
    EndsWord front back ↔ (nearestCased false front.reverse && !nearestCased false back) = true := by
  rw [EndsWord, Bool.and_eq_true, Bool.not_eq_true']

theorem nearestCased_of_ignorable {text : List Char} (h : ∀ c ∈ text, isCaseIgnorable c = true) (beyond : Bool) :
    nearestCased beyond text = beyond := by
  induction text with
  | nil => rfl
  | cons c text ih =>
    rw [List.forall_mem_cons] at h
    rw [nearestCased, if_pos h.1, ih h.2]

/-- What stands beyond a text matters only if it has but case-ignorable characters. -/
theorem ignorable_or_nearestCased_eq (text : List Char) : (∀ c ∈ text, isCaseIgnorable c = true) ∨
    ∀ beyond, nearestCased beyond text = nearestCased false text := by
  induction text with
  | nil => exact .inl nofun
  | cons c text ih =>
    by_cases hc : isCaseIgnorable c = true
    · refine ih.imp (fun h => List.forall_mem_cons.2 ⟨hc, h⟩) fun h beyond => ?_
      rw [nearestCased, if_pos hc, h, nearestCased, if_pos hc]
    · exact .inr fun beyond => by rw [nearestCased, if_neg hc, nearestCased, if_neg hc]

theorem nearestCased_sigma (beyond : Bool) (text : List Char) : nearestCased beyond ('Σ' :: text) = true := by
  have hsigma : isCaseIgnorable 'Σ' = false ∧ isCased 'Σ' = true := by decide +kernel
  rw [nearestCased, hsigma.1, if_neg Bool.false_ne_true, hsigma.2]

/-! ## Pieces in their places -/

theorem length_lowerAt (behind ahead behind' ahead' : Bool) (c : Char) :
    (lowerAt behind ahead c).length = (lowerAt behind' ahead' c).length := by
  rw [lowerAt, lowerAt]
  split
  · rfl
  · split <;> rfl

theorem lowerAt_eq_iff {behind ahead behind' ahead' : Bool} {c : Char} :
    lowerAt behind ahead c = lowerAt behind' ahead' c ↔ (c = 'Σ' → (behind && !ahead) = (behind' && !ahead')) := by
  by_cases hc : c = 'Σ'
  · subst hc
    revert behind ahead behind' ahead'
    decide
  · simp [lowerAt, hc]

/-- **What a piece is lowered to depends on its neighbours by its capital sigmas alone.** -/
theorem lowerBetween_eq_iff {behind ahead behind' ahead' : Bool} {text : List Char} :
    lowerBetween behind ahead text = lowerBetween behind' ahead' text ↔ ∀ front back, text = front ++ 'Σ' :: back →
      (nearestCased behind front.reverse && !nearestCased ahead back) =
        (nearestCased behind' front.reverse && !nearestCased ahead' back) := by
  induction text generalizing behind behind' with
  | nil => simp [lowerBetween]
  | cons c text ih =>
    have hpieces : lowerBetween behind ahead (c :: text) = lowerBetween behind' ahead' (c :: text) ↔
        lowerAt behind (nearestCased ahead text) c = lowerAt behind' (nearestCased ahead' text) c ∧
          lowerBetween (nearestCased behind [c]) ahead text = lowerBetween (nearestCased behind' [c]) ahead' text :=
      ⟨fun h => List.append_inj h (length_lowerAt _ _ _ _ _), fun h => congrArg₂ _ h.1 h.2⟩
    rw [hpieces, lowerAt_eq_iff, ih]
    constructor
    · rintro ⟨hhead, htail⟩ front back heq
      cases front with
      | nil =>
        obtain ⟨hc, rfl⟩ := List.cons.inj heq
        exact hhead hc
      | cons d front =>
        obtain ⟨rfl, htext⟩ := List.cons.inj heq
        rw [nearestCased_reverse_cons, nearestCased_reverse_cons]
        exact htail front back htext
    · intro h
      refine ⟨fun hc => h [] text (by rw [hc]; rfl), fun front back htext => ?_⟩
      have hlonger := h (c :: front) back (by rw [htext]; rfl)
      rwa [nearestCased_reverse_cons, nearestCased_reverse_cons] at hlonger

/-- **A piece is lowered in its place as it is by itself exactly if its capital sigmas are kept.** -/
theorem keepsSigmas_iff {before part after : List Char} : KeepsSigmas before part after ↔
    lowerBetween (nearestCased false before.reverse) (nearestCased false after) part = lowercase part := by
  rw [lowercase_eq, lowerBetween_eq_iff]
  refine forall₂_congr fun front back => imp_congr_right fun _ => ?_
  rw [endsWord_iff, endsWord_iff, ← Bool.eq_iff_iff, List.reverse_append, nearestCased_append, nearestCased_append]

theorem infix_lowercase_of_keepsSigmas {before part after : List Char} (h : KeepsSigmas before part after) :
    lowercase part <:+: lowercase (before ++ (part ++ after)) := by
  rw [lowercase_eq (before ++ (part ++ after)), lowerBetween_append, lowerBetween_append, keepsSigmas_iff.1 h]
  exact List.infix_append' _ _ _

/-! ## Dangling sigmas -/

theorem lowerBetween_sigma (behind ahead : Bool) (front back : List Char) :
    lowerBetween behind ahead (front ++ 'Σ' :: back) = lowerBetween behind true front ++
      (if nearestCased behind front.reverse && !nearestCased ahead back then 'ς' else 'σ') ::
        lowerBetween true ahead back := by
  rw [lowerBetween_append, nearestCased_sigma, lowerBetween, nearestCased_sigma]
  rfl

/-- Case-ignorable characters are lowered without regard to their neighbours. -/
theorem lowerBetween_of_ignorable {text : List Char} (h : ∀ c ∈ text, isCaseIgnorable c = true)
    (behind ahead behind' ahead' : Bool) : lowerBetween behind ahead text = lowerBetween behind' ahead' text := by
  rw [lowerBetween_eq_iff]
  rintro front back rfl
  exact absurd (h 'Σ' (by simp)) (by decide +kernel)

theorem not_infix_of_count_lt {c : Char} {part text : List Char} (h : text.count c < part.count c) :
    ¬ part <:+: text :=
  fun hwithin => absurd (hwithin.sublist.count_le c) (Nat.not_le.2 h)

/-- **A text with a dangling sigma stands in a text that does not have it when both are lowered**: a letter that is put
to one end of it turns the sigma into the other letter. -/
theorem exists_missed_of_dangles {part : List Char} (h : Dangles part) :
    ∃ text, part <:+: text ∧ ¬ lowercase part <:+: lowercase text := by
  have hletter : ∀ behind ahead, lowerBetween behind ahead ['a'] = ['a'] := by decide +kernel
  have hcased : ∀ beyond, nearestCased beyond ['a'] = true := by decide +kernel
  obtain ⟨front, back, rfl, ⟨hfront, hback⟩ | ⟨hfront, hback⟩⟩ := h
  · refine ⟨['a'] ++ (front ++ 'Σ' :: back), (List.suffix_append _ _).isInfix, not_infix_of_count_lt (c := 'σ') ?_⟩
    have hreverse : ∀ c ∈ front.reverse, isCaseIgnorable c = true := fun c hc => hfront c (List.mem_reverse.1 hc)
    rw [lowercase_eq, lowercase_eq, lowerBetween_append, lowerBetween_sigma, lowerBetween_sigma,
      nearestCased_of_ignorable hreverse, nearestCased_of_ignorable hreverse, hback, hletter, List.reverse_singleton,
      hcased, lowerBetween_of_ignorable hfront true true false true]
    simp
  · refine ⟨(front ++ 'Σ' :: back) ++ ['a'], (List.prefix_append _ _).isInfix, not_infix_of_count_lt (c := 'ς') ?_⟩
    rw [lowercase_eq, lowercase_eq, lowerBetween_append, lowerBetween_sigma, lowerBetween_sigma,
      nearestCased_of_ignorable hback, nearestCased_of_ignorable hback, hfront, hletter, hcased,
      lowerBetween_of_ignorable hback true true true false]
    simp

/-- **Of a text without a dangling sigma all places keep its capital sigmas**, and of another not all. -/
theorem forall_keepsSigmas_iff {part : List Char} :
    (∀ before after, KeepsSigmas before part after) ↔ ¬ Dangles part := by
  constructor
  · intro hkeeps hdangles
    obtain ⟨text, ⟨before, after, rfl⟩, hmissed⟩ := exists_missed_of_dangles hdangles
    rw [List.append_assoc] at hmissed
    exact hmissed (infix_lowercase_of_keepsSigmas (hkeeps before after))
  · rintro hdangles before after front back rfl
    rw [endsWord_iff, endsWord_iff, List.reverse_append, nearestCased_append, nearestCased_append]
    rcases ignorable_or_nearestCased_eq front.reverse with hfront | hfront
    · -- Nothing in front of the sigma counts, so that something behind it has case, and no word ends.
      have hback : nearestCased false back = true := eq_true_of_ne_false fun hback =>
        hdangles ⟨front, back, rfl, .inl ⟨fun c hc => hfront c (List.mem_reverse.2 hc), hback⟩⟩
      have hbeyond : ∀ beyond, nearestCased beyond back = true := by
        rcases ignorable_or_nearestCased_eq back with hignorable | hsame
        · rw [nearestCased_of_ignorable hignorable] at hback
          cases hback
        · exact fun beyond => (hsame beyond).trans hback
      simp [hbeyond]
    rw [hfront]
    rcases ignorable_or_nearestCased_eq back with hback | hback
    · have hnone : nearestCased false front.reverse = false :=
        Bool.eq_false_iff.2 fun hcased => hdangles ⟨front, back, rfl, .inr ⟨hcased, hback⟩⟩
      simp [hnone]
    · rw [hback]

end ApiCatalog.Text
