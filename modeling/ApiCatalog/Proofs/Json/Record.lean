import ApiCatalog.Proofs.Json.Reread
import Mathlib.Data.List.Pairwise
/-!
# Records

An object that has the fields of a record in their order is read like the array of the fields' values
(`record_object`), as long as no field fills another one.
-/

namespace ApiCatalog.Json.Reader

variable {δ : Type}

/-! ## Fields -/

/-- Reading the first field leaves the second one as it is. -/
def Slot.Spares (field other : Slot δ) : Prop :=
  ∀ depth doc draft draft', field.read depth doc draft = .ok draft' → other.filled draft' = other.filled draft

/-- What is read by one field and then by another can be read the other way round. -/
def Slot.Swaps (field other : Slot δ) : Prop :=
  ∀ {depth doc doc' draft mid last}, field.read depth doc draft = .ok mid → other.read depth doc' mid = .ok last →
    ∃ mid', other.read depth doc' draft = .ok mid' ∧ field.read depth doc mid' = .ok last

/-- Two fields that have nothing to do with each other. -/
structure Slot.Apart (field other : Slot δ) : Prop where
  spares : field.Spares other
  spared : other.Spares field
  swaps : field.Swaps other
  swapped : other.Swaps field

instance : Std.Symm (Slot.Apart (δ := δ)) := ⟨fun _ _ h => ⟨h.spared, h.spares, h.swapped, h.swaps⟩⟩

/-- The field reads a value by a reader and sets it. -/
def Slot.Sets {β : Type} (field : Slot δ) (read : Reader β) (set : δ → β → δ) : Prop :=
  ∀ depth doc draft, field.read depth doc draft = (read depth doc).map (set draft)

theorem Slot.Sets.exists {β : Type} {field : Slot δ} {read : Reader β} {set : δ → β → δ} (h : field.Sets read set)
    {depth : Nat} {doc : Doc} {draft draft' : δ} (hread : field.read depth doc draft = .ok draft') :
    ∃ b, read depth doc = .ok b ∧ draft' = set draft b := by
  rw [h] at hread
  cases hb : read depth doc with
  | error e => rw [hb] at hread; cases hread
  | ok b => rw [hb] at hread; cases hread; exact ⟨b, rfl, rfl⟩

section
variable {β γ : Type} {field other : Slot δ} {read : Reader β} {read' : Reader γ} {set : δ → β → δ} {set' : δ → γ → δ}

theorem Slot.Sets.spares (h : field.Sets read set) (hfilled : ∀ d b, other.filled (set d b) = other.filled d) :
    field.Spares other := by
  intro depth doc draft draft' hread
  obtain ⟨b, -, rfl⟩ := h.exists hread
  exact hfilled draft b

theorem Slot.Sets.swaps (h : field.Sets read set) (h' : other.Sets read' set')
    (hset : ∀ d b c, set' (set d b) c = set (set' d c) b) : field.Swaps other := by
  intro depth doc doc' draft mid last hmid hlast
  obtain ⟨b, hb, rfl⟩ := h.exists hmid
  obtain ⟨c, hc, rfl⟩ := h'.exists hlast
  refine ⟨set' draft c, ?_, ?_⟩
  · rw [h', hc]; rfl
  · rw [h, hb, hset]; rfl

theorem Slot.Sets.apart (h : field.Sets read set) (h' : other.Sets read' set')
    (hset : ∀ d b c, set' (set d b) c = set (set' d c) b) (hfilled : ∀ d b, other.filled (set d b) = other.filled d)
    (hfilled' : ∀ d c, field.filled (set' d c) = field.filled d) : field.Apart other :=
  ⟨h.spares hfilled, h'.spares hfilled', h.swaps h' hset, h'.swaps h fun d c b => (hset d b c).symm⟩

theorem Slot.Sets.fills (h : field.Sets read set) (hfilled : ∀ d b, field.filled (set d b) = true) :
    ∀ depth doc draft draft', field.read depth doc draft = .ok draft' → field.filled draft' = true := by
  intro depth doc draft draft' hread
  obtain ⟨b, -, rfl⟩ := h.exists hread
  exact hfilled draft b

end

/-- The fields of a record, each filled by its own name and no other. -/
structure Orderly (fields : List (Slot δ)) : Prop where
  names : (fields.map (·.name)).Nodup
  fills : ∀ field ∈ fields, ∀ depth doc draft draft', field.read depth doc draft = .ok draft' →
    field.filled draft' = true
  apart : fields.Pairwise Slot.Apart

/-! ## Records -/

theorem find?_name {field : Slot δ} : ∀ {fields : List (Slot δ)}, (fields.map (·.name)).Nodup → field ∈ fields →
    fields.find? (·.name == field.name) = some field
  | [], _, h => by cases h
  | other :: fields, hnodup, h => by
    rw [List.map_cons, List.nodup_cons] at hnodup
    rcases List.mem_cons.1 h with rfl | h
    · simp
    · have hne : (other.name == field.name) = false := by
        rw [beq_eq_false_iff_ne]
        exact fun he => hnodup.1 (List.mem_map.2 ⟨field, h, he.symm⟩)
      rw [List.find?_cons, hne]
      exact find?_name hnodup.2 h

/-- Members that are fields yet to be filled are read one after the other. -/
theorem foldlM_member {fields : List (Slot δ)} (hnodup : (fields.map (·.name)).Nodup) (depth : Nat) :
    ∀ (rest : List (Slot δ)) (docs : List Doc) (draft : δ), rest ⊆ fields → rest.length = docs.length →
      rest.Pairwise Slot.Spares → (∀ field ∈ rest, field.filled draft = false) →
      (List.zipWith (fun field doc => (some field.name, doc)) rest docs).foldlM (member fields depth) draft =
        positional depth none rest docs draft
  | [], [], _, _, _, _, _ => rfl
  | field :: rest, doc :: docs, draft, hsub, hlen, hspares, hempty => by
    have hmember : member fields depth draft (some field.name, doc) = field.read depth doc draft := by
      have hfind := find?_name hnodup (hsub List.mem_cons_self)
      have hfilled := hempty field List.mem_cons_self
      simp [member, key, hfind, hfilled, bind, Except.bind]
    rw [List.zipWith_cons_cons, List.foldlM_cons, positional, hmember]
    cases hread : field.read depth doc draft with
    | error e => rfl
    | ok draft' =>
      rw [List.pairwise_cons] at hspares
      refine foldlM_member hnodup depth rest docs draft' (fun f hf => hsub (List.mem_cons_of_mem _ hf))
        (Nat.succ.inj hlen) hspares.2 fun other hother => ?_
      rw [hspares.1 other hother depth doc draft draft' hread]
      exact hempty other (List.mem_cons_of_mem _ hother)

/-- **A record whose fields stand in their order is read field after field.** -/
theorem record_object {α : Type} (fields : List (Slot δ)) (blank : δ) (finish : δ → Option α) (docs : List Doc)
    (h : Orderly fields) (hempty : ∀ field ∈ fields, field.filled blank = false) (depth : Nat)
    (hlen : fields.length = docs.length) :
    (record fields blank finish (depth + 1)
        (.object (List.zipWith (fun field doc => (some field.name, doc)) fields docs) none)).toOption =
      (positional depth none fields docs blank).toOption.bind finish := by
  rw [record, foldlM_member h.names depth fields docs blank (List.Subset.refl _) hlen (h.apart.imp (·.spares)) hempty,
    toOption_bind]
  congr 1
  funext draft
  simp only [endOfRecord]
  cases finish draft <;> rfl

end ApiCatalog.Json.Reader
