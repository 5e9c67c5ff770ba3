import Mathlib.Data.List.Forall2
import Mathlib.Data.Nat.Basic
/-!
# Places

What `List.filterMap` and `List.flatMap` make of a list, told by the places that it comes from: it has what stands at
each place, once and in the order of the places, and nothing else (`inOrder_filterMap`, `inOrder_flatMap`).
-/

namespace ApiCatalog

/-- A list has what stands at the places where something stands, in their order and each once. -/
def InOrder {ι β : Type} (before : ι → ι → Prop) (stands : ι → β → Prop) (all : List β) : Prop :=
  ∃ places : List ι, places.Pairwise before ∧ (∀ place, place ∈ places ↔ ∃ b, stands place b) ∧
    List.Forall₂ stands places all

section
variable {ι κ α β : Type} {before : ι → ι → Prop}

theorem InOrder.congr {stands stands' : ι → β → Prop} {all : List β} (h : InOrder before stands all)
    (hsame : ∀ place b, stands place b ↔ stands' place b) : InOrder before stands' all := by
  obtain rfl : stands = stands' := by
    funext place b
    exact propext (hsame place b)
  exact h

theorem InOrder.nil {stands : ι → β → Prop} (h : ∀ place b, ¬ stands place b) : InOrder before stands [] :=
  ⟨[], .nil, fun place => by simp [h], .nil⟩

theorem InOrder.eq_nil_iff {stands : ι → β → Prop} {all : List β} (h : InOrder before stands all) :
    all = [] ↔ ∀ place b, ¬ stands place b := by
  obtain ⟨places, -, hmem, hall⟩ := h
  have hnil : all = [] ↔ places = [] := by
    rw [← List.length_eq_zero_iff, ← List.length_eq_zero_iff, hall.length_eq]
  rw [hnil, List.eq_nil_iff_forall_not_mem]
  exact forall_congr' fun place => by rw [hmem, not_exists]

theorem exists_getElem?_of_forall₂ {R : α → β → Prop} {all : List α} {all' : List β} (h : List.Forall₂ R all all')
    {i : ℕ} {a : α} (ha : all[i]? = some a) : ∃ b, all'[i]? = some b ∧ R a b := by
  obtain ⟨hi, rfl⟩ := List.getElem?_eq_some_iff.1 ha
  exact ⟨_, List.getElem?_eq_getElem (h.length_eq ▸ hi), h.get hi (h.length_eq ▸ hi)⟩

theorem InOrder.exists_mem {stands : ι → β → Prop} {all : List β} (h : InOrder before stands all) {place : ι} {b : β}
    (hb : stands place b) : ∃ found ∈ all, stands place found := by
  obtain ⟨places, -, hmem, hall⟩ := h
  obtain ⟨i, hi⟩ := List.mem_iff_getElem?.1 ((hmem place).2 ⟨b, hb⟩)
  obtain ⟨found, hfound, hstands⟩ := exists_getElem?_of_forall₂ hall hi
  exact ⟨found, List.mem_of_getElem? hfound, hstands⟩

/-- Two lists that are told by the same places have what stands at them one by one. -/
theorem InOrder.exists_common {γ : Type} (hbefore : ∀ {place later}, before place later → ¬ before later place)
    {stands : ι → β → Prop} {stands' : ι → γ → Prop} {all : List β} {all' : List γ} (h : InOrder before stands all)
    (h' : InOrder before stands' all') (hsame : ∀ place, (∃ b, stands place b) ↔ ∃ c, stands' place c) :
    ∃ places : List ι, places.Pairwise before ∧ (∀ place, place ∈ places ↔ ∃ b, stands place b) ∧
      List.Forall₂ stands places all ∧ List.Forall₂ stands' places all' := by
  obtain ⟨places, hordered, hmem, hall⟩ := h
  obtain ⟨places', hordered', hmem', hall'⟩ := h'
  have hnodup : ∀ {all : List ι}, all.Pairwise before → all.Nodup := fun hall =>
    hall.imp fun {place later} hlt (heq : place = later) => by
      subst heq
      exact hbefore hlt hlt
  have hperm : places.Perm places' :=
    (List.perm_ext_iff_of_nodup (hnodup hordered) (hnodup hordered')).2 fun place => by rw [hmem, hmem', hsame]
  obtain rfl : places = places' :=
    hperm.eq_of_pairwise (fun _ _ _ _ hlt hgt => absurd hgt (hbefore hlt)) hordered hordered'
  exact ⟨places, hordered, hmem, hall, hall'⟩

/-- The places may be named in another way that keeps their order. -/
theorem InOrder.rename {stands : ι → β → Prop} {all : List β} (h : InOrder before stands all)
    (before' : κ → κ → Prop) (name : ι → κ)
    (hname : ∀ {place later}, before place later → before' (name place) (name later)) :
    InOrder before' (fun named b => ∃ place, named = name place ∧ stands place b) all := by
  obtain ⟨places, hordered, hmem, hall⟩ := h
  refine ⟨places.map name, List.pairwise_map.2 (hordered.imp hname), fun named => ?_, ?_⟩
  · simp only [List.mem_map, hmem]
    constructor
    · rintro ⟨place, ⟨b, hb⟩, rfl⟩
      exact ⟨b, place, rfl, hb⟩
    · rintro ⟨b, place, rfl, hb⟩
      exact ⟨place, ⟨b, hb⟩, rfl⟩
  · exact List.forall₂_map_left_iff.2 (hall.imp fun {place b} hb => ⟨place, rfl, hb⟩)

theorem InOrder.append {stands stands' : ι → β → Prop} {front back : List β} (hfront : InOrder before stands front)
    (hback : InOrder before stands' back)
    (hbefore : ∀ place b later b', stands place b → stands' later b' → before place later) :
    InOrder before (fun place b => stands place b ∨ stands' place b) (front ++ back) := by
  obtain ⟨places, hordered, hmem, hall⟩ := hfront
  obtain ⟨later, hordered', hmem', hall'⟩ := hback
  refine ⟨places ++ later, List.pairwise_append.2 ⟨hordered, hordered', fun place hplace place' hplace' => ?_⟩,
    fun place => ?_, ?_⟩
  · obtain ⟨b, hb⟩ := (hmem place).1 hplace
    obtain ⟨b', hb'⟩ := (hmem' place').1 hplace'
    exact hbefore place b place' b' hb hb'
  · rw [List.mem_append, hmem, hmem', exists_or]
  · exact List.rel_append (hall.imp fun {_ _} => .inl) (hall'.imp fun {_ _} => .inr)

/-- **What a list is mapped to stands where it comes from**: in the order of the list, and what comes from one element
in its own order. -/
theorem inOrder_flatMap {stands : α → ι → β → Prop} {f : α → List β} : ∀ {all : List α},
    (∀ a ∈ all, InOrder before (stands a) (f a)) → InOrder (Prod.Lex (· < · : ℕ → ℕ → Prop) before)
      (fun place b => ∃ a, all[place.1]? = some a ∧ stands a place.2 b) (all.flatMap f)
  | [], _ => .nil fun place b h => by simp at h
  | a :: all, h => by
    rw [List.forall_mem_cons] at h
    have hhead := h.1.rename (Prod.Lex (· < · : ℕ → ℕ → Prop) before) (fun place => (0, place)) fun {_ _} => .right 0
    have htail := (inOrder_flatMap h.2).rename (Prod.Lex (· < · : ℕ → ℕ → Prop) before)
      (fun place => (place.1 + 1, place.2)) fun {_ _} hlex => by
        cases hlex with
        | left _ _ hlt => exact .left _ _ (Nat.succ_lt_succ hlt)
        | right _ hbefore => exact .right _ hbefore
    refine (hhead.append htail fun place b later b' hplace hlater => ?_).congr fun (i, place) b => ?_
    · obtain ⟨place, rfl, -⟩ := hplace
      obtain ⟨later, rfl, -⟩ := hlater
      exact .left _ _ (Nat.succ_pos _)
    · cases i with
      | zero => simp
      | succ i => simp

theorem inOrder_filterMap (f : α → Option β) (all : List α) :
    InOrder (· < · : ℕ → ℕ → Prop) (fun i b => ∃ a, all[i]? = some a ∧ f a = some b) (all.filterMap f) := by
  have hone : ∀ a ∈ all, InOrder (fun _ _ => False) (fun (_ : Unit) b => f a = some b) (f a).toList := fun a _ => by
    cases f a with
    | none => exact .nil fun _ _ h => by cases h
    | some b => exact ⟨[()], List.pairwise_singleton _ _, fun _ => by simp, .cons rfl .nil⟩
  have hall := (inOrder_flatMap hone).rename (· < ·) Prod.fst fun {_ _} hlex => by
    cases hlex with
    | left _ _ hlt => exact hlt
    | right _ hnever => exact hnever.elim
  rw [List.filterMap_eq_flatMap_toList]
  exact hall.congr fun i b => by simp

end

end ApiCatalog
