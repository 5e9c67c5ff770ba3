import ApiCatalog.Yaml.Value
/-!
# Reading nodes

A node that was read has its value from the event that it starts with and from what is read inside of it
(`nodeAt_of_readNode`).  Where there are no anchors and aliases, the reading of a node is told by an equation for each
kind of event.
-/

namespace ApiCatalog.Yaml.Value

/-- What members are read: none at the end of the mapping, else one whose key is new, and others behind it. -/
theorem readMembers_cases {doc : Resolved} {read : Cursor → Option (Value × Cursor)} {fuel : Nat}
    {done members : List (Value × Value)} {cursor after : Cursor}
    (h : readMembers doc read fuel done cursor = some (members, after)) :
    (members = done.reverse ∧ after = { cursor with position := cursor.position + 1 } ∧
      ∃ number, doc.events[cursor.position]? = some (.mappingEnd, number)) ∨
    ∃ left key behind v next, fuel = left + 1 ∧ (∀ number, doc.events[cursor.position]? ≠ some (.mappingEnd, number)) ∧
      read cursor = some (key, behind) ∧ (done.any fun member => same member.1 key) = false ∧
      read behind = some (v, next) ∧ readMembers doc read left ((key, v) :: done) next = some (members, after) := by
  cases fuel with
  | zero => cases h
  | succ left =>
    rw [readMembers] at h
    split at h
    · rename_i number hend
      cases h
      exact .inl ⟨rfl, rfl, number, hend⟩
    · rename_i hmore
      split at h
      · cases h
      · rename_i key behind hkey
        split at h
        · cases h
        · rename_i hnew
          split at h
          · cases h
          · rename_i v next hv
            exact .inr ⟨left, key, behind, v, next, rfl, hmore, hkey, Bool.eq_false_iff.2 hnew, hv, h⟩

/-- How a node that starts with an event has its value: what the event holds, or what is read inside of it, with its tag
put to it. -/
inductive NodeAt (doc : Resolved) (inside : Cursor) (v : Value) : Nat → Event → Prop
  | scalar {depth : Nat} {properties : Properties} {text : List Char} {plain : Bool} {inner : Value} :
      ofScalar? (properties.tag.map String.ofList) (ownTag? properties.tag).isSome (String.ofList text) plain =
        some inner →
      tag? (ownTag? properties.tag) inner = some v → NodeAt doc inside v depth (.scalar properties text plain)
  | sequence {depth : Nat} {properties : Properties} {items : List Value} {after : Cursor} :
      readItems doc (readNode doc depth) doc.events.size [] inside = some (items, after) →
      tag? (ownTag? properties.tag) (.sequence items) = some v →
      NodeAt doc inside v (depth + 1) (.sequenceStart properties)
  | mapping {depth : Nat} {properties : Properties} {members : List (Value × Value)} {after : Cursor} :
      readMembers doc (readNode doc depth) doc.events.size [] inside = some (members, after) →
      tag? (ownTag? properties.tag) (.mapping members) = some v →
      NodeAt doc inside v (depth + 1) (.mappingStart properties)

/-- **What is read of a node is its value**, where its alias leads if it is one. -/
theorem nodeAt_of_readNode {doc : Resolved} {depth : Nat} {cursor after : Cursor} {v : Value}
    (h : readNode doc depth cursor = some (v, after)) : ∃ target event number, follow? doc cursor = some target ∧
      doc.events[target.position]? = some (event, number) ∧
      NodeAt doc ⟨target.position + 1, target.jumps⟩ v depth event := by
  unfold readNode at h
  obtain ⟨target, hfollow, h⟩ := Option.bind_eq_some_iff.1 h
  dsimp only at h
  split at h
  · rename_i hget
    obtain ⟨inner, hinner, h⟩ := Option.bind_eq_some_iff.1 h
    obtain ⟨tagged, htagged, h⟩ := Option.bind_eq_some_iff.1 h
    cases h
    exact ⟨target, _, _, hfollow, hget, .scalar hinner htagged⟩
  · rename_i hget
    cases depth with
    | zero => cases h
    | succ depth =>
      obtain ⟨⟨items, behind⟩, hitems, h⟩ := Option.bind_eq_some_iff.1 h
      obtain ⟨tagged, htagged, h⟩ := Option.bind_eq_some_iff.1 h
      cases h
      exact ⟨target, _, _, hfollow, hget, .sequence hitems htagged⟩
  · rename_i hget
    cases depth with
    | zero => cases h
    | succ depth =>
      obtain ⟨⟨members, behind⟩, hmembers, h⟩ := Option.bind_eq_some_iff.1 h
      obtain ⟨tagged, htagged, h⟩ := Option.bind_eq_some_iff.1 h
      cases h
      exact ⟨target, _, _, hfollow, hget, .mapping hmembers htagged⟩
  · cases h

/-! ## Documents without anchors and aliases -/

/-- The event is no alias and has no anchor. -/
def Bare : Event → Prop
  | .alias _ => False
  | .scalar properties _ _ | .sequenceStart properties | .mappingStart properties => properties.anchor = none
  | .sequenceEnd | .mappingEnd => True

theorem resolveFrom_bare (anchors : Anchors) : ∀ {events : List Event} (done : Array (Event × Option Nat)),
    (∀ event ∈ events, Bare event) →
    resolveFrom anchors done events = some ⟨done ++ (events.map (·, none)).toArray, anchors.targets⟩
  | [], done, _ => by simp [resolveFrom]
  | event :: events, done, h => by
    rw [List.forall_mem_cons] at h
    have hnext : resolveFrom anchors done (event :: events) = resolveFrom anchors (done.push (event, none)) events := by
      have hbare := h.1
      rcases event with name | ⟨⟨_, _⟩, _, _⟩ | ⟨⟨_, _⟩⟩ | _ | ⟨⟨_, _⟩⟩ | _
      · cases hbare
      all_goals first | rfl | (cases hbare; rfl)
    rw [hnext, resolveFrom_bare anchors _ h.2]
    simp

section
variable {doc : Resolved} {all : List Event} {depth position jumps : Nat}

/-- A document of these events, with no aliases. -/
def Holds (doc : Resolved) (all : List Event) : Prop := doc.events = (all.map (·, none)).toArray

theorem Holds.get (h : Holds doc all) {event : Event} {rest : List Event} (hdrop : all.drop position = event :: rest) :
    doc.events[position]? = some (event, none) := by
  have hget : all[position]? = some event := by rw [← List.head?_drop, hdrop, List.head?_cons]
  rw [show doc.events = _ from h]
  simp [hget]

theorem drop_add {part rest : List Event} (h : all.drop position = part ++ rest) :
    all.drop (position + part.length) = rest := by
  rw [← List.drop_drop, h, List.drop_left]

theorem follow?_of_get {event : Event} (h : doc.events[position]? = some (event, none)) :
    follow? doc ⟨position, jumps⟩ = some ⟨position, jumps⟩ := by
  rw [follow?, h]
  split
  · rename_i heq
    cases heq
  · rfl

theorem readNode_scalar {properties : Properties} {text : List Char} {plain : Bool}
    (h : doc.events[position]? = some (.scalar properties text plain, none)) :
    readNode doc depth ⟨position, jumps⟩ =
      ((ofScalar? (properties.tag.map String.ofList) (ownTag? properties.tag).isSome (String.ofList text) plain).bind
        (tag? (ownTag? properties.tag))).map (·, ⟨position + 1, jumps⟩) := by
  unfold readNode
  rw [follow?_of_get h]
  simp only [Option.bind_eq_bind, Option.bind_some, h, Nat.lt_irrefl, if_false]
  rw [Option.map_bind]
  refine Option.bind_congr fun v _ => ?_
  cases htag : tag? (ownTag? properties.tag) v <;> simp [htag]

theorem readNode_sequence {properties : Properties}
    (h : doc.events[position]? = some (.sequenceStart properties, none)) :
    readNode doc (depth + 1) ⟨position, jumps⟩ =
      (readItems doc (readNode doc depth) doc.events.size [] ⟨position + 1, jumps⟩).bind fun found =>
        (tag? (ownTag? properties.tag) (.sequence found.1)).map (·, found.2) := by
  unfold readNode
  rw [follow?_of_get h]
  simp only [Option.bind_eq_bind, Option.bind_some, h, Nat.lt_irrefl, if_false]
  refine Option.bind_congr fun found _ => ?_
  cases tag? (ownTag? properties.tag) (.sequence found.1) <;> rfl

theorem readNode_mapping {properties : Properties}
    (h : doc.events[position]? = some (.mappingStart properties, none)) :
    readNode doc (depth + 1) ⟨position, jumps⟩ =
      (readMembers doc (readNode doc depth) doc.events.size [] ⟨position + 1, jumps⟩).bind fun found =>
        (tag? (ownTag? properties.tag) (.mapping found.1)).map (·, found.2) := by
  unfold readNode
  rw [follow?_of_get h]
  simp only [Option.bind_eq_bind, Option.bind_some, h, Nat.lt_irrefl, if_false]
  refine Option.bind_congr fun found _ => ?_
  cases tag? (ownTag? properties.tag) (.mapping found.1) <;> rfl

/-- On the last level there are scalars alone. -/
theorem readNode_zero {event : Event} (h : doc.events[position]? = some (event, none))
    (hne : ∀ properties text plain, event ≠ .scalar properties text plain) :
    readNode doc 0 ⟨position, jumps⟩ = none := by
  refine Option.eq_none_iff_forall_ne_some.2 fun found hread => ?_
  obtain ⟨target, other, number, hfollow, hget, hnode⟩ := nodeAt_of_readNode hread
  cases (follow?_of_get h).symm.trans hfollow
  cases h.symm.trans hget
  cases hnode
  exact hne _ _ _ rfl

end

end ApiCatalog.Yaml.Value
