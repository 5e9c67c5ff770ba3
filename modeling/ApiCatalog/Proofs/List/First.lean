import Mathlib.Data.List.Nodup
/-!
# First occurrences

What `List.eraseDupsBy` keeps of a list: the first of each group of elements that are the same, in their order, no
matter what comes after them.  What `List.findSome?` finds is told by the first element that tells something
(`findSome?_eq_some_iff_isFirst`).
-/

namespace ApiCatalog

variable {α : Type} (same : α → α → Bool)

/-- Induction along `List.eraseDupsBy`: what is the same as the head is dropped. -/
theorem eraseDupsBy_induction {motive : List α → Prop} (nil : motive [])
    (cons : ∀ a all, motive (all.filter fun b => same b a = false) → motive (a :: all)) : ∀ all, motive all
  | [] => nil
  | a :: all => cons a all (eraseDupsBy_induction nil cons _)
termination_by all => all.length
decreasing_by exact Nat.lt_succ_of_le (List.length_filter_le _ _)

theorem eraseDupsBy_sublist (all : List α) : (all.eraseDupsBy same).Sublist all := by
  induction all using eraseDupsBy_induction same with
  | nil => exact List.nil_sublist _
  | cons a all ih =>
    rw [List.eraseDupsBy_cons]
    exact (ih.trans List.filter_sublist).cons_cons a

theorem pairwise_eraseDupsBy (all : List α) : (all.eraseDupsBy same).Pairwise fun a b => same b a = false := by
  induction all using eraseDupsBy_induction same with
  | nil => exact .nil
  | cons a all ih =>
    rw [List.eraseDupsBy_cons]
    refine .cons (fun b hb => ?_) ih
    simpa using (List.mem_filter.1 ((eraseDupsBy_sublist same _).subset hb)).2

theorem exists_mem_eraseDupsBy (hrefl : ∀ a, same a a = true) {all : List α} {a : α} (ha : a ∈ all) :
    ∃ b ∈ all.eraseDupsBy same, same a b = true := by
  induction all using eraseDupsBy_induction same with
  | nil => cases ha
  | cons first all ih =>
    rw [List.eraseDupsBy_cons]
    by_cases hsame : same a first = true
    · exact ⟨first, List.mem_cons_self, hsame⟩
    · obtain rfl | ha := List.mem_cons.1 ha
      · exact absurd (hrefl a) hsame
      · obtain ⟨b, hb, hab⟩ := ih (List.mem_filter.2 ⟨ha, by simpa using hsame⟩)
        exact ⟨b, List.mem_cons_of_mem _ hb, hab⟩

/-- What is kept does not depend on what comes behind. -/
theorem eraseDupsBy_prefix_append (all more : List α) : all.eraseDupsBy same <+: (all ++ more).eraseDupsBy same := by
  induction all using eraseDupsBy_induction same generalizing more with
  | nil => exact List.nil_prefix
  | cons a all ih =>
    rw [List.cons_append, List.eraseDupsBy_cons, List.eraseDupsBy_cons, List.filter_append]
    exact List.prefix_cons_inj a |>.2 (ih _)

theorem eraseDupsBy_of_pairwise {all : List α} (h : all.Pairwise fun a b => same b a = false) :
    all.eraseDupsBy same = all := by
  induction all with
  | nil => rfl
  | cons a all ih =>
    obtain ⟨hhead, htail⟩ := List.pairwise_cons.1 h
    rw [List.eraseDupsBy_cons, List.filter_eq_self.2 fun b hb => by simpa using hhead b hb, ih htail]

theorem eraseDupsBy_congr {same same' : α → α → Bool} {all : List α}
    (h : ∀ a ∈ all, ∀ b ∈ all, same a b = same' a b) : all.eraseDupsBy same = all.eraseDupsBy same' := by
  induction all using eraseDupsBy_induction same with
  | nil => rfl
  | cons a all ih =>
    have hfilter : (all.filter fun b => same b a = false) = all.filter fun b => same' b a = false :=
      List.filter_congr fun b hb => by rw [h b (List.mem_cons_of_mem _ hb) a List.mem_cons_self]
    rw [List.eraseDupsBy_cons, List.eraseDupsBy_cons, ← hfilter, ih fun b hb c hc =>
      h b (List.mem_cons_of_mem _ (List.mem_of_mem_filter hb)) c (List.mem_cons_of_mem _ (List.mem_of_mem_filter hc))]

theorem nodup_eraseDups [BEq α] [LawfulBEq α] (all : List α) : all.eraseDups.Nodup := by
  refine (pairwise_eraseDupsBy _ all).imp fun {a b} hba hab => ?_
  rw [hab, beq_self_eq_true] at hba
  cases hba

theorem eraseDups_of_nodup [BEq α] [LawfulBEq α] {all : List α} (h : all.Nodup) : all.eraseDups = all :=
  eraseDupsBy_of_pairwise _ (h.imp fun hne => by simpa using hne.symm)

theorem eraseDups_append_cons_of_mem [BEq α] [LawfulBEq α] {front : List α} {a : α} (h : a ∈ front) (rest : List α) :
    (front ++ a :: rest).eraseDups = (front ++ rest).eraseDups := by
  rw [List.eraseDups_append, List.eraseDups_append, List.cons_removeAll, if_neg (by simpa using h)]

theorem exists_eraseDups_append_cons [BEq α] [LawfulBEq α] (front : List α) (a : α) (back : List α) :
    ∃ kept more, (front ++ a :: back).eraseDups = kept ++ a :: more ∧ kept ⊆ front := by
  by_cases ha : a ∈ front
  · obtain ⟨more, hmore⟩ : front.eraseDups <+: (front ++ a :: back).eraseDups := eraseDupsBy_prefix_append _ _ _
    obtain ⟨kept, rest, hkept⟩ := List.append_of_mem (List.mem_eraseDups.2 ha)
    refine ⟨kept, rest ++ more, by rw [← hmore, hkept, List.append_assoc, List.cons_append], fun b hb => ?_⟩
    exact List.mem_eraseDups.1 (hkept ▸ List.mem_append_left _ hb)
  · have hrest : (a :: back).removeAll front = a :: back.removeAll front := by
      rw [List.cons_removeAll, if_pos (by simpa using ha)]
    exact ⟨front.eraseDups, _, by rw [List.eraseDups_append, hrest, List.eraseDups_cons],
      fun b hb => List.mem_eraseDups.1 hb⟩

/-- **What is kept is in the order in which it comes first**: each kept element stands before every occurrence of those
kept behind it. -/
theorem pairwise_eraseDups [BEq α] [LawfulBEq α] (all : List α) :
    all.eraseDups.Pairwise fun a b => ∀ front back, all = front ++ b :: back → a ∈ front := by
  rw [List.pairwise_iff_forall_sublist]
  rintro a b hsub front back rfl
  obtain ⟨kept, more, heq, hkept⟩ := exists_eraseDups_append_cons front b back
  have hnodup := nodup_eraseDups (front ++ b :: back)
  rw [heq] at hsub hnodup
  obtain ⟨first, second, hpair, hfirst, hsecond⟩ := List.sublist_append_iff.1 hsub
  cases first with
  | cons c first =>
    obtain rfl := (List.cons.inj hpair).1
    exact hkept (hfirst.subset List.mem_cons_self)
  | nil =>
    have hlater : b ∈ more := by
      obtain rfl : [a, b] = second := hpair
      exact hsecond.tail.subset List.mem_cons_self
    exact absurd hlater (List.nodup_cons.1 (List.nodup_append.1 hnodup).2.1).1

/-! ## The first that tells something -/

section
variable {β : Type}

/-- The first element of a list that tells something tells this. -/
def IsFirst (all : List α) (tells : α → β → Prop) (b : β) : Prop :=
  ∃ front a back, all = front ++ a :: back ∧ tells a b ∧ ∀ other ∈ front, ∀ b', ¬ tells other b'

theorem findSome?_eq_some_iff_isFirst {all : List α} {f : α → Option β} {tells : α → β → Prop}
    (h : ∀ a ∈ all, ∀ b, f a = some b ↔ tells a b) {b : β} : all.findSome? f = some b ↔ IsFirst all tells b := by
  have hnone : ∀ a ∈ all, f a = none ↔ ∀ b, ¬ tells a b := fun a ha => by
    rw [Option.eq_none_iff_forall_ne_some]
    exact forall_congr' fun b => not_congr (h a ha b)
  rw [List.findSome?_eq_some_iff]
  constructor
  · rintro ⟨front, a, back, rfl, ha, hfront⟩
    refine ⟨front, a, back, rfl, (h a (by simp) b).1 ha, fun other hother => ?_⟩
    exact (hnone other (List.mem_append_left _ hother)).1 (hfront other hother)
  · rintro ⟨front, a, back, rfl, ha, hfront⟩
    refine ⟨front, a, back, rfl, (h a (by simp) b).2 ha, fun other hother => ?_⟩
    exact (hnone other (List.mem_append_left _ hother)).2 (hfront other hother)

end

end ApiCatalog
