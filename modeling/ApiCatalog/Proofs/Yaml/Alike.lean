import ApiCatalog.Proofs.Yaml.Respelled
import ApiCatalog.Proofs.Yaml.Written
/-!
# Quotes and tags

The value of a node is the same in JSON whether keys stand in quotes or not and whether nodes have tags of their own or
not (`toJson_of_alike`).
-/

namespace ApiCatalog.Yaml.Written

open Yaml.Value (ofScalar? ownTag? tag? same)

/-- A tag that stays with the value of its node, or none. -/
def Own (tag : Option (List Char)) : Prop := tag = none ∨ ∃ name, tag = some ('!' :: name)

/-- Two nodes have the same tag, or each has one of its own or none. -/
def TagsAlike (tag tag' : Option (List Char)) : Prop := tag = tag' ∨ Own tag ∧ Own tag'

/-- A text that has no other as a key, whether it stands in quotes or not: the text of a number that 64 bits hold or of
a truth value, or a text that stands for itself. -/
inductive Quotable : String → Prop
  | whole {n : Int} : -(2 ^ 63 : Int) ≤ n → n < 2 ^ 64 → Quotable (toString n)
  | bool (b : Bool) : Quotable (toString b)
  | text {text : String} : Value.ofPlain? text = some (.string text) → Quotable text

/-- Two keys are the same, but perhaps for quotes. -/
def KeysAlike (key key' : Written) : Prop :=
  key = key' ∨ ∃ text plain plain', key = .scalar none text plain ∧ key' = .scalar none text plain' ∧ Quotable text

mutual

/-- Two nodes are the same, but perhaps for quotes around keys in them and for own tags of them and of values in
them. -/
def Alike : Written → Written → Prop
  | .scalar tag text plain, .scalar tag' text' plain' => TagsAlike tag tag' ∧ text = text' ∧ plain = plain'
  | .sequence tag items, .sequence tag' items' => TagsAlike tag tag' ∧ ItemsAlike items items'
  | .mapping tag members, .mapping tag' members' => TagsAlike tag tag' ∧ MembersAlike members members'
  | _, _ => False

def ItemsAlike : List Written → List Written → Prop
  | [], [] => True
  | w :: ws, w' :: ws' => Alike w w' ∧ ItemsAlike ws ws'
  | _, _ => False

def MembersAlike : List (Written × Written) → List (Written × Written) → Prop
  | [], [] => True
  | (key, w) :: ws, (key', w') :: ws' => KeysAlike key key' ∧ Alike w w' ∧ MembersAlike ws ws'
  | _, _ => False

end

theorem ofScalar?_own {tag : Option (List Char)} (h : Own tag) (text : String) (plain : Bool) :
    ofScalar? (tag.map String.ofList) (ownTag? tag).isSome text plain = ofScalar? none false text plain := by
  rcases h with rfl | ⟨name, rfl⟩
  · rfl
  · simp [ofScalar?, ownTag?]

theorem ofScalar?_tagsAlike {tag tag' : Option (List Char)} (h : TagsAlike tag tag') (text : String) (plain : Bool) :
    ofScalar? (tag'.map String.ofList) (ownTag? tag').isSome text plain =
      ofScalar? (tag.map String.ofList) (ownTag? tag).isSome text plain := by
  rcases h with rfl | ⟨hown, hown'⟩
  · rfl
  · rw [ofScalar?_own hown, ofScalar?_own hown']

/-- A key without a tag has its own text, in quotes and without them. -/
theorem keyText?_of_quotable {text : String} (h : Quotable text) {plain : Bool} {depth : Nat} {v : Value}
    (hv : (scalar none text plain).value? depth = some v) : v.keyText? = some text := by
  have hscalar : ofScalar? none false text plain = some v := by
    obtain ⟨inner, hinner, htag⟩ := Option.bind_eq_some_iff.1 hv
    cases htag
    exact hinner
  cases plain with
  | false =>
    cases hscalar
    rfl
  | true =>
    have hplain : Value.ofPlain? text = some v := hscalar
    cases h with
    | @whole n hleast hmost =>
      rw [Value.ofPlain?_whole hleast hmost] at hplain
      cases hplain
      rw [Value.keyText?, Value.ofList_wholeText]
    | bool b =>
      rw [Value.ofPlain?_bool] at hplain
      cases hplain
      cases b <;> rfl
    | text htext =>
      cases htext.symm.trans hplain
      rfl

theorem keyText?_of_keysAlike {key key' : Written} (h : KeysAlike key key') {depth : Nat} {v v' : Value}
    (hv : key.value? depth = some v) (hv' : key'.value? depth = some v') : v'.keyText? = v.keyText? := by
  rcases h with rfl | ⟨text, plain, plain', rfl, rfl, hquotable⟩
  · rw [Option.some.inj (hv.symm.trans hv')]
  · rw [keyText?_of_quotable hquotable hv, keyText?_of_quotable hquotable hv']

theorem toJson_of_tag? {own : Option (List Char)} {v tagged : Value} (h : tag? own v = some tagged) :
    tagged.toJson = v.toJson := by
  unfold Value.tag? at h
  split at h <;> cases h
  · rfl
  · rw [Value.toJson]

mutual

/-- **Nodes that are the same but for quotes around keys and own tags are the same in JSON**, if both have a value. -/
theorem toJson_of_alike : ∀ {w w' : Written} {depth : Nat} {v v' : Value}, Alike w w' →
    w.value? depth = some v → w'.value? depth = some v' → v'.toJson = v.toJson
  | .scalar tag text plain, .scalar tag' _ _, _, v, v', ⟨htags, rfl, rfl⟩, hv, hv' => by
    obtain ⟨inner, hinner, htag⟩ := Option.bind_eq_some_iff.1 hv
    obtain ⟨inner', hinner', htag'⟩ := Option.bind_eq_some_iff.1 hv'
    rw [ofScalar?_tagsAlike htags, hinner] at hinner'
    rw [toJson_of_tag? htag, toJson_of_tag? htag', Option.some.inj hinner']
  | .sequence tag items, .sequence tag' items', 0, v, v', _, hv, hv' => by cases hv
  | .sequence tag items, .sequence tag' items', depth + 1, v, v', ⟨_, hitems⟩, hv, hv' => by
    obtain ⟨vs, hvs, htag⟩ := Option.bind_eq_some_iff.1 hv
    obtain ⟨vs', hvs', htag'⟩ := Option.bind_eq_some_iff.1 hv'
    rw [toJson_of_tag? htag, toJson_of_tag? htag', Value.toJson_sequence, Value.toJson_sequence,
      map_toJson_of_itemsAlike hitems hvs hvs']
  | .mapping tag members, .mapping tag' members', 0, v, v', _, hv, hv' => by cases hv
  | .mapping tag members, .mapping tag' members', depth + 1, v, v', ⟨_, hmembers⟩, hv, hv' => by
    obtain ⟨vs, hvs, htag⟩ := Option.bind_eq_some_iff.1 hv
    obtain ⟨vs', hvs', htag'⟩ := Option.bind_eq_some_iff.1 hv'
    rw [toJson_of_tag? htag, toJson_of_tag? htag', Value.toJson_mapping, Value.toJson_mapping,
      filterMap_of_membersAlike hmembers hvs hvs']

theorem map_toJson_of_itemsAlike : ∀ {ws ws' : List Written} {depth : Nat} {vs vs' : List Value}, ItemsAlike ws ws' →
    itemValues? depth ws = some vs → itemValues? depth ws' = some vs' →
      vs'.map Value.toJson = vs.map Value.toJson
  | [], [], _, _, _, _, hvs, hvs' => by
    cases hvs
    cases hvs'
    rfl
  | w :: ws, w' :: ws', _, _, _, ⟨hw, hws⟩, hvs, hvs' => by
    obtain ⟨v, hv, hvs⟩ := Option.bind_eq_some_iff.1 hvs
    obtain ⟨v', hv', hvs'⟩ := Option.bind_eq_some_iff.1 hvs'
    obtain ⟨rest, hrest, rfl⟩ := Option.map_eq_some_iff.1 hvs
    obtain ⟨rest', hrest', rfl⟩ := Option.map_eq_some_iff.1 hvs'
    rw [List.map_cons, List.map_cons, toJson_of_alike hw hv hv', map_toJson_of_itemsAlike hws hrest hrest']

theorem filterMap_of_membersAlike : ∀ {ws ws' : List (Written × Written)} {depth : Nat}
    {done done' vs vs' : List (Value × Value)}, MembersAlike ws ws' →
    memberValues? depth done ws = some vs → memberValues? depth done' ws' = some vs' →
      vs'.filterMap Value.memberToJson? = vs.filterMap Value.memberToJson?
  | [], [], _, _, _, _, _, _, hvs, hvs' => by
    cases hvs
    cases hvs'
    rfl
  | (key, w) :: ws, (key', w') :: ws', _, _, _, _, _, ⟨hkeys, hw, hws⟩, hvs, hvs' => by
    obtain ⟨k, hk, hvs⟩ := Option.bind_eq_some_iff.1 hvs
    obtain ⟨k', hk', hvs'⟩ := Option.bind_eq_some_iff.1 hvs'
    split at hvs
    · cases hvs
    · split at hvs'
      · cases hvs'
      · obtain ⟨v, hv, hvs⟩ := Option.bind_eq_some_iff.1 hvs
        obtain ⟨v', hv', hvs'⟩ := Option.bind_eq_some_iff.1 hvs'
        obtain ⟨rest, hrest, rfl⟩ := Option.map_eq_some_iff.1 hvs
        obtain ⟨rest', hrest', rfl⟩ := Option.map_eq_some_iff.1 hvs'
        have hmember : Value.memberToJson? (k', v') = Value.memberToJson? (k, v) := by
          rw [Value.memberToJson?, Value.memberToJson?, keyText?_of_keysAlike hkeys hk hk', toJson_of_alike hw hv hv']
        rw [List.filterMap_cons, List.filterMap_cons, hmember, filterMap_of_membersAlike hws hrest hrest']

end

end ApiCatalog.Yaml.Written
