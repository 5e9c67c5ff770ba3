import ApiCatalog.Proofs.Json.Sound
import ApiCatalog.Proofs.Yaml.Node
/-!
# YAML values in JSON

What is read from a YAML text has integers of 64 bits (`fits_of_ofText?`), and what has them is sound in JSON
(`sound_toJson`).
-/

namespace ApiCatalog.Yaml.Value

open Json (Number Members)

mutual

/-- All integers in a value have 64 bits; those in keys become texts. -/
def Fits : Value → Prop
  | .whole n => (Number.whole n).Fits
  | .sequence items => ItemsFit items
  | .mapping members => MembersFit members
  | .tagged _ value => Fits value
  | _ => True

def ItemsFit : List Value → Prop
  | [] => True
  | v :: vs => Fits v ∧ ItemsFit vs

def MembersFit : List (Value × Value) → Prop
  | [] => True
  | (_, v) :: members => Fits v ∧ MembersFit members

end

theorem itemsFit_iff : ∀ {items : List Value}, ItemsFit items ↔ ∀ v ∈ items, v.Fits
  | [] => by simp [ItemsFit]
  | v :: vs => by rw [ItemsFit, List.forall_mem_cons, itemsFit_iff]

theorem membersFit_iff : ∀ {members : List (Value × Value)}, MembersFit members ↔ ∀ m ∈ members, m.2.Fits
  | [] => by simp [MembersFit]
  | (key, v) :: members => by rw [MembersFit, List.forall_mem_cons, membersFit_iff]

mutual

/-- **In JSON a value is sound.** -/
theorem sound_toJson : ∀ {v : Value}, v.Fits → v.toJson.Sound
  | .null, _ | .bool _, _ | .string _, _ => ⟨trivial, fun _ hn => absurd hn List.not_mem_nil⟩
  | .whole n, h => Json.Value.sound_number h
  | .real x, _ => by
    rw [toJson]
    split
    · exact Json.Value.sound_number trivial
    · exact ⟨trivial, fun _ hn => absurd hn List.not_mem_nil⟩
  | .sequence items, h =>
    Json.Value.sound_array.2 (sound_itemsToJson h fun _ hv => absurd hv List.not_mem_nil)
  | .mapping members, h =>
    Members.sound_ofList (sound_membersToJson h fun _ hm => absurd hm List.not_mem_nil)
  | .tagged _ v, h => by
    rw [toJson]
    rw [Fits] at h
    exact sound_toJson h

theorem sound_itemsToJson : ∀ {items : List Value} {done : List Json.Value}, ItemsFit items → (∀ v ∈ done, v.Sound) →
    ∀ v ∈ itemsToJson done items, v.Sound
  | [], done, _, hdone => fun v hv => hdone v (List.mem_reverse.1 hv)
  | v :: vs, done, h, hdone => by
    rw [itemsToJson]
    exact sound_itemsToJson h.2 (List.forall_mem_cons.2 ⟨sound_toJson h.1, hdone⟩)

theorem sound_membersToJson : ∀ {members : List (Value × Value)} {done : List (String × Json.Value)},
    MembersFit members → (∀ m ∈ done, m.2.Sound) → ∀ m ∈ membersToJson done members, m.2.Sound
  | [], done, _, hdone => fun m hm => hdone m (List.mem_reverse.1 hm)
  | (key, v) :: members, done, h, hdone => by
    rw [membersToJson]
    split
    · exact sound_membersToJson h.2 (List.forall_mem_cons.2 ⟨sound_toJson h.1, hdone⟩)
    · exact sound_membersToJson h.2 hdone

end

/-! ## Reading -/

theorem fits_of_ofInteger? {text : List Char} {v : Value} (h : ofInteger? text = some (some v)) : v.Fits := by
  unfold ofInteger? at h
  split at h
  · cases h
  · split at h
    · rename_i n _ hrange
      cases h
      rw [inRange, Bool.and_eq_true, decide_eq_true_eq, decide_eq_true_eq] at hrange
      exact ⟨hrange.1, hrange.2⟩
    · split at h <;> cases h

theorem fits_of_null? {text : String} {v : Value} (h : null? text = some v) : v.Fits := by
  unfold null? at h
  split at h <;> cases h
  trivial

theorem fits_of_bool? {text : String} {v : Value} (h : bool? text = some v) : v.Fits := by
  unfold bool? at h
  split at h
  · cases h
    trivial
  · split at h <;> cases h
    trivial

theorem fits_of_ofPlain? {text : String} {v : Value} (h : ofPlain? text = some v) : v.Fits := by
  unfold ofPlain? at h
  split at h
  · cases h
    trivial
  · split at h
    · rename_i hname
      cases h
      rcases Option.or_eq_some_iff.1 hname with hname | ⟨-, hname⟩
      · exact fits_of_null? hname
      · exact fits_of_bool? hname
    · split at h
      · rename_i hinteger
        rw [h] at hinteger
        exact fits_of_ofInteger? hinteger
      · split at h <;> cases h <;> trivial

theorem fits_of_ofScalar? {tag : Option String} {tagged plain : Bool} {text : String} {v : Value}
    (h : ofScalar? tag tagged text plain = some v) : v.Fits := by
  unfold ofScalar? at h
  split at h
  · exact fits_of_bool? h
  · split at h
    · rename_i hinteger
      rw [h] at hinteger
      exact fits_of_ofInteger? hinteger
    · cases h
  · obtain ⟨x, -, rfl⟩ := Option.map_eq_some_iff.1 h
    trivial
  · exact fits_of_null? h
  · cases h
    trivial
  · split at h
    · exact fits_of_ofPlain? h
    · cases h
      trivial

theorem fits_of_tag? {own : Option (List Char)} {v tagged : Value} (hv : v.Fits) (h : tag? own v = some tagged) :
    tagged.Fits := by
  unfold tag? at h
  split at h <;> cases h
  · exact hv
  · exact hv

section
variable {doc : Resolved} {read : Cursor → Option (Value × Cursor)}

theorem fits_of_readItems (hread : ∀ {cursor v after}, read cursor = some (v, after) → v.Fits) :
    ∀ {fuel : Nat} {done items : List Value} {cursor after : Cursor}, (∀ v ∈ done, v.Fits) →
      readItems doc read fuel done cursor = some (items, after) → ∀ v ∈ items, v.Fits
  | 0, _, _, _, _, _, h => by cases h
  | fuel + 1, done, items, cursor, after, hdone, h => by
    rw [readItems] at h
    split at h
    · cases h
      exact fun v hv => hdone v (List.mem_reverse.1 hv)
    · split at h
      · cases h
      · rename_i hvalue
        exact fits_of_readItems hread (List.forall_mem_cons.2 ⟨hread hvalue, hdone⟩) h

theorem fits_of_readMembers (hread : ∀ {cursor v after}, read cursor = some (v, after) → v.Fits) :
    ∀ {fuel : Nat} {done members : List (Value × Value)} {cursor after : Cursor}, (∀ m ∈ done, m.2.Fits) →
      readMembers doc read fuel done cursor = some (members, after) → ∀ m ∈ members, m.2.Fits
  | 0, _, _, _, _, _, h => by cases h
  | fuel + 1, done, members, cursor, after, hdone, h => by
    obtain ⟨rfl, -⟩ | ⟨left, key, behind, v, next, hleft, -, -, -, hvalue, hrest⟩ := readMembers_cases h
    · exact fun m hm => hdone m (List.mem_reverse.1 hm)
    · cases hleft
      exact fits_of_readMembers hread (List.forall_mem_cons.2 ⟨hread hvalue, hdone⟩) hrest

theorem fits_of_readNode {depth : Nat} {cursor after : Cursor} {v : Value}
    (h : readNode doc depth cursor = some (v, after)) : v.Fits := by
  induction depth using Nat.strongRecOn generalizing cursor after v with
  | ind depth ih =>
    obtain ⟨target, event, number, -, -, hnode⟩ := nodeAt_of_readNode h
    cases hnode with
    | scalar hinner htagged => exact fits_of_tag? (fits_of_ofScalar? hinner) htagged
    | @sequence depth _ items _ hitems htagged =>
      have hfits := fits_of_readItems (ih depth (Nat.lt_succ_self depth)) (fun _ hv => absurd hv List.not_mem_nil) hitems
      exact fits_of_tag? (show (Value.sequence items).Fits from itemsFit_iff.2 hfits) htagged
    | @mapping depth _ members _ hmembers htagged =>
      have hfits :=
        fits_of_readMembers (ih depth (Nat.lt_succ_self depth)) (fun _ hm => absurd hm List.not_mem_nil) hmembers
      exact fits_of_tag? (show (Value.mapping members).Fits from membersFit_iff.2 hfits) htagged

end

/-- **All integers that are read from a text have 64 bits.** -/
theorem fits_of_ofText? {text : List Char} {v : Value} (h : ofText? text = some v) : v.Fits := by
  unfold ofText? at h
  obtain ⟨tokens, -, h⟩ := Option.bind_eq_some_iff.1 h
  obtain ⟨events, -, h⟩ := Option.bind_eq_some_iff.1 h
  split at h
  · cases h
    trivial
  · obtain ⟨doc, -, h⟩ := Option.bind_eq_some_iff.1 h
    obtain ⟨⟨value, after⟩, hread, h⟩ := Option.bind_eq_some_iff.1 h
    cases h
    exact fits_of_readNode hread

end ApiCatalog.Yaml.Value
