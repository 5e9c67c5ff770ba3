import ApiCatalog.Proofs.Regex.Words
/-!
# Groups

What a group of a match holds was read by the expression of a group with that number (`Reads.exists_group`), so it is a
text of the class that these expressions take, and a piece of the match (`MatchIn.group?_of_takes`).
-/

namespace ApiCatalog.Regex

/-- The groups of an expression: their numbers and the expressions in them. -/
def numbered : Regex → List (Nat × Regex)
  | .empty | .place _ | .oneOf _ | .run _ => []
  | .seq first second | .either first second => first.numbered ++ second.numbered
  | .star body => body.numbered
  | .group number body => (number, body) :: body.numbered

/-- A stretch of what was read between two places, read by one of the groups. -/
def Holds (groups : List (Nat × Regex)) (p q : Progress) (note : Nat × Span) : Prop :=
  ∃ body, (note.1, body) ∈ groups ∧ ∃ m m' : Progress, body.Reads m m' ∧ note.2 = ⟨m.cursor, m'.cursor⟩ ∧
    Onward p.cursor m.cursor ∧ Onward m'.cursor q.cursor

theorem Holds.mono {groups groups' : List (Nat × Regex)} {p p' q q' : Progress} {note : Nat × Span}
    (hgroups : groups ⊆ groups') (hp : Onward p'.cursor p.cursor) (hq : Onward q.cursor q'.cursor)
    (h : Holds groups p q note) : Holds groups' p' q' note := by
  obtain ⟨body, hbody, m, m', hreads, hspan, hstart, hstop⟩ := h
  exact ⟨body, hgroups hbody, m, m', hreads, hspan, hp.trans hstart, hstop.trans hq⟩

/-- **A group that is noted was read by the expression in it**, on the way from the one place to the other. -/
theorem Reads.exists_group : ∀ {regex : Regex} {p q : Progress}, regex.Reads p q →
    ∀ note ∈ q.groups, note ∈ p.groups ∨ Holds regex.numbered p q note
  | .empty, p, q, h, note, hnote => by
    obtain rfl : q = p := h
    exact .inl hnote
  | .place anchor, p, q, h, note, hnote => by
    obtain rfl := h.2
    exact .inl hnote
  | .oneOf set, p, q, ⟨c, rest, _, _, hq⟩, note, hnote => by
    subst hq
    exact .inl hnote
  | .run set, p, q, ⟨text, rest, _, _, hq⟩, note, hnote => by
    subst hq
    exact .inl hnote
  | .seq first second, p, q, ⟨m, h₁, h₂⟩, note, hnote => by
    rcases h₂.exists_group note hnote with hnote | hholds
    · exact (h₁.exists_group note hnote).imp_right
        (Holds.mono (List.subset_append_left _ _) (.refl _) h₂.onward)
    · exact .inr (hholds.mono (List.subset_append_right _ _) h₁.onward (.refl _))
  | .either first second, p, q, h, note, hnote => by
    rcases h with h | h
    · exact (h.exists_group note hnote).imp_right (Holds.mono (List.subset_append_left _ _) (.refl _) (.refl _))
    · exact (h.exists_group note hnote).imp_right (Holds.mono (List.subset_append_right _ _) (.refl _) (.refl _))
  | .star body, p, q, h, note, hnote => by
    have hbody := fun p q => @Reads.exists_group body p q
    have honward : ∀ {m}, Relation.ReflTransGen (fun p q => body.Reads p q ∧ q.cursor.index ≠ p.cursor.index) m q →
        Onward m.cursor q.cursor := fun h => @Reads.onward (.star body) _ _ h
    refine Relation.ReflTransGen.head_induction_on h (.inl hnote) ?_
    intro p m hfirst hrest ih
    rcases ih with hm | hholds
    · exact (hbody p m hfirst.1 note hm).imp_right (Holds.mono (fun _ h => h) (.refl _) (honward hrest))
    · exact .inr (hholds.mono (fun _ h => h) hfirst.1.onward (.refl _))
  | .group number body, p, q, ⟨m, h, hq⟩, note, hnote => by
    subst hq
    rcases List.mem_cons.1 hnote with rfl | hnote
    · exact .inr ⟨body, List.mem_cons_self, p, m, h, rfl, .refl _, .refl _⟩
    · exact (h.exists_group note hnote).imp_right (Holds.mono (List.subset_cons_self _ _) (.refl _) (.refl _))

/-- A stretch within another holds a piece of its text. -/
theorem infix_of_onward {p m m' q : Cursor} (h₁ : Onward p m) (h₂ : Onward m m') (h₃ : Onward m' q) :
    m.upTo m' <:+: p.upTo q := by
  obtain ⟨front, rest, hfront, rfl⟩ := h₁
  obtain ⟨text, rest', htext, rfl⟩ := h₂
  obtain ⟨back, rest'', hback, rfl⟩ := h₃
  obtain rfl : rest = text ++ rest' := htext
  obtain rfl : rest' = back ++ rest'' := hback
  have hwhole : p.rest = (front ++ (text ++ back)) ++ rest'' := by simp [hfront]
  have hpiece : (p.past front (text ++ (back ++ rest''))).rest = text ++ (back ++ rest'') := rfl
  rw [Cursor.upTo_past hpiece, Cursor.past_past, Cursor.past_past, Cursor.upTo_past hwhole]
  exact List.infix_append' front text back

/-- **What a group holds is a text of the class that the groups of its number take**, and a piece of the match. -/
theorem MatchIn.group?_of_takes {regex : Regex} {content : List Char} {found : Found} (h : regex.MatchIn content found)
    {number : Nat} (hnumber : number ≠ 0) {P : List Char → Prop}
    (htakes : ∀ body, (number, body) ∈ regex.numbered → ∃ Q, body.Takes Q ∧ ∀ text, Q text → P text)
    {text : List Char} (htext : found.group? number = some text) : P text ∧ text <:+: found.whole.text := by
  obtain ⟨before, rest, q, -, hreads, rfl⟩ := h
  rw [Found.group?, if_neg hnumber] at htext
  obtain ⟨note, hnote, rfl⟩ := Option.map_eq_some_iff.1 htext
  obtain rfl : note.1 = number := by simpa using List.find?_some hnote
  obtain ⟨body, hbody, m, m', hread, hspan, hstart, hstop⟩ :=
    (hreads.exists_group note (List.mem_of_find?_eq_some hnote)).resolve_left List.not_mem_nil
  rw [hspan]
  refine ⟨?_, infix_of_onward hstart hread.onward hstop⟩
  obtain ⟨Q, hQ, hclass⟩ := htakes body hbody
  obtain ⟨piece, left, hpiece, hrest, rfl⟩ := (hQ m m').1 hread
  have hheld : (Span.mk m.cursor (m.past piece left).cursor).text = piece := Cursor.upTo_past hrest
  rw [hheld]
  exact hclass piece hpiece

end ApiCatalog.Regex
