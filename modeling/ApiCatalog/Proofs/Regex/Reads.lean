import ApiCatalog.Regex.Match
import Mathlib.Logic.Relation
/-!
# What an expression matches

`Regex.Reads` says what an expression can read, clause by clause and without any order of preference.  The search by
trial finds a match exactly where there is something to read (`isSome_matchAt?_iff`, `occursIn_iff`), and what it finds
is read so (`exists_of_matchAt?`).
-/

namespace ApiCatalog

namespace Cursor

def past (cursor : Cursor) (text rest : List Char) : Cursor :=
  ⟨text.reverse ++ cursor.passed, rest, cursor.index + text.length,
    text.foldl (fun offset c => offset + c.utf8Size) cursor.offset⟩

/-- The place of a text that has `before` in front of it and `rest` behind it. -/
def behind (before rest : List Char) : Cursor :=
  (ofText (before ++ rest)).past before rest

@[simp] theorem rest_past (cursor : Cursor) (text rest : List Char) : (cursor.past text rest).rest = rest := rfl

@[simp] theorem rest_behind (before rest : List Char) : (behind before rest).rest = rest := rfl

theorem passed_behind (before rest : List Char) : (behind before rest).passed = before.reverse := List.append_nil _

theorem past_nil {cursor : Cursor} {rest : List Char} (h : cursor.rest = rest) : cursor.past [] rest = cursor := by
  subst h
  rfl

theorem past_past (cursor : Cursor) (a b rest rest' : List Char) :
    (cursor.past a rest').past b rest = cursor.past (a ++ b) rest := by
  simp [past, Nat.add_assoc]

theorem past_behind (before text rest rest' : List Char) :
    (behind before rest').past text rest = behind (before ++ text) rest := by
  rw [behind, past_past]
  rfl

theorem next?_of_rest {cursor : Cursor} {c : Char} {rest : List Char} (h : cursor.rest = c :: rest) :
    cursor.next? = some (c, cursor.past [c] rest) := by
  obtain ⟨passed, left, index, offset⟩ := cursor
  obtain rfl : left = c :: rest := h
  rfl

theorem next?_of_nil {cursor : Cursor} (h : cursor.rest = []) : cursor.next? = none := by
  obtain ⟨passed, left, index, offset⟩ := cursor
  obtain rfl : left = [] := h
  rfl

theorem upTo_past {cursor : Cursor} {text rest : List Char} (h : cursor.rest = text ++ rest) :
    cursor.upTo (cursor.past text rest) = text := by
  rw [upTo, h, past, Nat.add_sub_cancel_left, List.take_left]

theorem mem_runsFrom {set : CharSet} {cursor : Cursor} : ∀ (chars passed : List Char) (index offset : Nat)
    (shorter : List Cursor), cursor ∈ runsFrom set passed index offset shorter chars ↔ cursor ∈ shorter ∨
      ∃ text rest, chars = text ++ rest ∧ (∀ c ∈ text, set.has c = true) ∧
        cursor = (⟨passed, chars, index, offset⟩ : Cursor).past text rest
  | [], passed, index, offset, shorter => by
    rw [runsFrom, List.mem_cons, or_comm]
    refine or_congr_right ⟨?_, ?_⟩
    · rintro rfl
      exact ⟨[], [], rfl, by simp, rfl⟩
    · rintro ⟨text, rest, hchars, -, rfl⟩
      obtain ⟨rfl, rfl⟩ := List.append_eq_nil_iff.1 hchars.symm
      rfl
  | c :: chars, passed, index, offset, shorter => by
    have hempty : (⟨passed, c :: chars, index, offset⟩ : Cursor).past [] (c :: chars) =
        ⟨passed, c :: chars, index, offset⟩ := rfl
    rw [runsFrom]
    split
    · rename_i hc
      rw [mem_runsFrom chars, List.mem_cons]
      constructor
      · rintro ((rfl | hmem) | ⟨text, rest, rfl, htext, rfl⟩)
        · exact .inr ⟨[], _, rfl, by simp, hempty.symm⟩
        · exact .inl hmem
        · refine .inr ⟨c :: text, rest, rfl, List.forall_mem_cons.2 ⟨hc, htext⟩, ?_⟩
          simp [past, Nat.add_assoc, Nat.add_comm 1]
      · rintro (hmem | ⟨text, rest, hchars, htext, rfl⟩)
        · exact .inl (.inr hmem)
        · cases text with
          | nil =>
            obtain rfl : c :: chars = rest := hchars
            exact .inl (.inl hempty)
          | cons d text =>
            obtain ⟨rfl, rfl⟩ := List.cons.inj hchars
            refine .inr ⟨text, rest, rfl, (List.forall_mem_cons.1 htext).2, ?_⟩
            simp [past, Nat.add_assoc, Nat.add_comm 1]
    · rename_i hc
      rw [List.mem_cons, or_comm]
      refine or_congr_right ⟨?_, ?_⟩
      · rintro rfl
        exact ⟨[], _, rfl, by simp, hempty.symm⟩
      · rintro ⟨text, rest, hchars, htext, rfl⟩
        cases text with
        | nil =>
          obtain rfl : c :: chars = rest := hchars
          exact hempty
        | cons d text =>
          obtain ⟨rfl, -⟩ := List.cons.inj hchars
          exact absurd (htext c List.mem_cons_self) hc

theorem mem_runs {set : CharSet} {start cursor : Cursor} : cursor ∈ start.runs set ↔ ∃ text rest,
    start.rest = text ++ rest ∧ (∀ c ∈ text, set.has c = true) ∧ cursor = start.past text rest := by
  rw [runs, mem_runsFrom]
  simp

end Cursor

def Progress.past (progress : Progress) (text rest : List Char) : Progress :=
  { progress with cursor := progress.cursor.past text rest }

@[simp] theorem Progress.rest_past (progress : Progress) (text rest : List Char) :
    (progress.past text rest).cursor.rest = rest := rfl

namespace Regex

/-- What an expression can read: from where to where, with the groups that are noted on the way.  A round of a
repetition reads something. -/
def Reads : Regex → Progress → Progress → Prop
  | .empty, p, q => q = p
  | .place anchor, p, q => anchor.holds p.cursor.passed.head? p.cursor.rest.head? = true ∧ q = p
  | .oneOf set, p, q => ∃ c rest, p.cursor.rest = c :: rest ∧ set.has c = true ∧ q = p.past [c] rest
  | .run set, p, q => ∃ text rest, p.cursor.rest = text ++ rest ∧ (∀ c ∈ text, set.has c = true) ∧ q = p.past text rest
  | .seq first second, p, q => ∃ m, first.Reads p m ∧ second.Reads m q
  | .either first second, p, q => first.Reads p q ∨ second.Reads p q
  | .star body, p, q =>
    Relation.ReflTransGen (fun p q => body.Reads p q ∧ q.cursor.index ≠ p.cursor.index) p q
  | .group number body, p, q =>
    ∃ m, body.Reads p m ∧ q = { m with groups := (number, ⟨p.cursor, m.cursor⟩) :: m.groups }

/-- The text between two places. -/
def Onward (p q : Cursor) : Prop := ∃ text rest, p.rest = text ++ rest ∧ q = p.past text rest

theorem Onward.refl (p : Cursor) : Onward p p := ⟨[], p.rest, rfl, (p.past_nil rfl).symm⟩

theorem Onward.trans {p m q : Cursor} (h₁ : Onward p m) (h₂ : Onward m q) : Onward p q := by
  obtain ⟨a, rest, ha, rfl⟩ := h₁
  obtain ⟨b, rest', hb, rfl⟩ := h₂
  rw [Cursor.rest_past] at hb
  exact ⟨a ++ b, rest', by rw [ha, hb, List.append_assoc], Cursor.past_past _ _ _ _ _⟩

theorem Reads.onward : ∀ {regex : Regex} {p q : Progress}, regex.Reads p q → Onward p.cursor q.cursor
  | .empty, p, q, h => by
    obtain rfl : q = p := h
    exact .refl _
  | .place anchor, p, q, h => by
    obtain rfl := h.2
    exact .refl _
  | .oneOf set, p, q, ⟨c, rest, hrest, _, hq⟩ => by
    subst hq
    exact ⟨[c], rest, hrest, rfl⟩
  | .run set, p, q, ⟨text, rest, hrest, _, hq⟩ => by
    subst hq
    exact ⟨text, rest, hrest, rfl⟩
  | .seq first second, p, q, ⟨m, h₁, h₂⟩ => h₁.onward.trans h₂.onward
  | .either first second, p, q, h => h.elim Reads.onward Reads.onward
  | .star body, p, q, h => by
    have hbody := fun p q => @Reads.onward body p q
    refine Relation.ReflTransGen.head_induction_on h (.refl _) ?_
    intro p m hfirst _ hrest
    exact (hbody p m hfirst.1).trans hrest
  | .group number body, p, q, ⟨m, h, hq⟩ => by
    subst hq
    exact h.onward

/-- A step onward that reads something leaves less to read. -/
theorem Onward.length_lt {p q : Cursor} (h : Onward p q) (hne : q.index ≠ p.index) : q.rest.length < p.rest.length := by
  obtain ⟨text, rest, hrest, rfl⟩ := h
  have htext : text ≠ [] := fun he => hne (by rw [he]; rfl)
  have hlength := List.length_pos_iff.2 htext
  rw [hrest, List.length_append, Cursor.rest_past]
  omega

/-! ## The search by trial -/

section
variable {α : Type}

theorem exists_of_iterate {body : Progress → (Progress → Option α) → Option α} {R : Progress → Progress → Prop}
    (hbody : ∀ p k x, body p k = some x → ∃ q, R p q ∧ k q = some x) : ∀ {fuel : List Char} {p : Progress}
      {k : Progress → Option α} {x : α}, iterate body fuel p k = some x →
        ∃ q, Relation.ReflTransGen (fun p q => R p q ∧ q.cursor.index ≠ p.cursor.index) p q ∧ k q = some x
  | [], p, k, x, h => ⟨p, .refl, h⟩
  | _ :: fuel, p, k, x, h => by
    rw [iterate] at h
    split at h
    · rename_i found hround
      cases h
      obtain ⟨m, hm, hlater⟩ := hbody _ _ _ hround
      split at hlater
      · cases hlater
      · rename_i hne
        obtain ⟨q, hq, hk⟩ := exists_of_iterate hbody hlater
        exact ⟨q, .head ⟨hm, hne⟩ hq, hk⟩
    · exact ⟨p, .refl, h⟩

/-- **What the search comes to was read.** -/
theorem exists_of_step : ∀ {regex : Regex} {p : Progress} {k : Progress → Option α} {x : α},
    regex.step p k = some x → ∃ q, regex.Reads p q ∧ k q = some x
  | .empty, p, k, x, h => ⟨p, rfl, h⟩
  | .place anchor, p, k, x, h => by
    rw [step] at h
    split at h
    · rename_i hholds
      exact ⟨p, ⟨hholds, rfl⟩, h⟩
    · cases h
  | .oneOf set, p, k, x, h => by
    rw [step] at h
    cases hrest : p.cursor.rest with
    | nil =>
      rw [Cursor.next?_of_nil hrest] at h
      cases h
    | cons c rest =>
      rw [Cursor.next?_of_rest hrest] at h
      dsimp only at h
      split at h
      · rename_i hc
        exact ⟨p.past [c] rest, ⟨c, rest, hrest, hc, rfl⟩, h⟩
      · cases h
  | .run set, p, k, x, h => by
    rw [step] at h
    obtain ⟨cursor, hcursor, hk⟩ := List.exists_of_findSome?_eq_some h
    obtain ⟨text, rest, hrest, htext, rfl⟩ := Cursor.mem_runs.1 hcursor
    exact ⟨p.past text rest, ⟨text, rest, hrest, htext, rfl⟩, hk⟩
  | .seq first second, p, k, x, h => by
    rw [step] at h
    obtain ⟨m, hm, hlater⟩ := exists_of_step h
    obtain ⟨q, hq, hk⟩ := exists_of_step hlater
    exact ⟨q, ⟨m, hm, hq⟩, hk⟩
  | .either first second, p, k, x, h => by
    rw [step] at h
    split at h
    · rename_i hfirst
      cases h
      obtain ⟨q, hq, hk⟩ := exists_of_step hfirst
      exact ⟨q, .inl hq, hk⟩
    · obtain ⟨q, hq, hk⟩ := exists_of_step h
      exact ⟨q, .inr hq, hk⟩
  | .star body, p, k, x, h => by
    rw [step] at h
    have hbody := fun p (k : Progress → Option α) x => @exists_of_step body p k x
    exact exists_of_iterate hbody h
  | .group number body, p, k, x, h => by
    rw [step] at h
    obtain ⟨m, hm, hk⟩ := exists_of_step h
    exact ⟨_, ⟨m, hm, rfl⟩, hk⟩

/-- The fuel of a repetition is the text left, and a round reads some of it. -/
theorem isSome_iterate {body : Progress → (Progress → Option α) → Option α} {R : Progress → Progress → Prop}
    (hbody : ∀ p q k, R p q → (k q).isSome = true → (body p k).isSome = true)
    (honward : ∀ p q, R p q → Onward p.cursor q.cursor) {k : Progress → Option α} {p q : Progress}
    (h : Relation.ReflTransGen (fun p q => R p q ∧ q.cursor.index ≠ p.cursor.index) p q) (hk : (k q).isSome = true) :
    ∀ fuel : List Char, p.cursor.rest.length ≤ fuel.length → (iterate body fuel p k).isSome = true := by
  induction h using Relation.ReflTransGen.head_induction_on with
  | refl =>
    intro fuel _
    cases fuel with
    | nil => exact hk
    | cons c fuel =>
      rw [iterate]
      split
      · rfl
      · exact hk
  | head hfirst _ ih =>
    rename_i p m _
    intro fuel hfuel
    have hless := (honward p m hfirst.1).length_lt hfirst.2
    cases fuel with
    | nil => exact absurd (Nat.lt_of_lt_of_le hless hfuel) (Nat.not_lt_zero _)
    | cons c fuel =>
      have hround := hbody p m (fun later =>
        if later.cursor.index = p.cursor.index then none else iterate body fuel later k) hfirst.1 (by
          rw [if_neg hfirst.2]
          exact ih fuel (by rw [List.length_cons] at hfuel; omega))
      rw [iterate]
      split
      · rfl
      · rename_i hnone
        rw [hnone] at hround
        cases hround

/-- **The search comes to an end behind anything that can be read, if what follows accepts it.** -/
theorem isSome_step : ∀ {regex : Regex} {p q : Progress} {k : Progress → Option α}, regex.Reads p q →
    (k q).isSome = true → (regex.step p k).isSome = true
  | .empty, p, q, k, h, hk => by
    obtain rfl : q = p := h
    exact hk
  | .place anchor, p, q, k, h, hk => by
    obtain ⟨hholds, rfl⟩ := h
    rw [step, if_pos hholds]
    exact hk
  | .oneOf set, p, q, k, ⟨c, rest, hrest, hc, hq⟩, hk => by
    subst hq
    rw [step, Cursor.next?_of_rest hrest]
    dsimp only
    rw [if_pos hc]
    exact hk
  | .run set, p, q, k, ⟨text, rest, hrest, htext, hq⟩, hk => by
    subst hq
    rw [step, List.findSome?_isSome_iff]
    exact ⟨_, Cursor.mem_runs.2 ⟨text, rest, hrest, htext, rfl⟩, hk⟩
  | .seq first second, p, q, k, ⟨m, h₁, h₂⟩, hk => by
    rw [step]
    exact isSome_step h₁ (isSome_step h₂ hk)
  | .either first second, p, q, k, h, hk => by
    rw [step]
    split
    · rfl
    · rename_i hnone
      rcases h with h | h
      · have hfirst := isSome_step h hk
        rw [hnone] at hfirst
        cases hfirst
      · exact isSome_step h hk
  | .star body, p, q, k, h, hk => by
    rw [step]
    have hbody := fun p q (k : Progress → Option α) => @isSome_step body p q k
    have honward := fun p q => @Reads.onward body p q
    exact isSome_iterate hbody honward h hk _ (Nat.le_refl _)
  | .group number body, p, q, k, ⟨m, h, hq⟩, hk => by
    subst hq
    rw [step]
    exact isSome_step h hk

end

/-! ## Matches in a text -/

theorem exists_of_matchAt? {regex : Regex} {start : Cursor} {found : Found} (h : regex.matchAt? start = some found) :
    ∃ q, regex.Reads ⟨start, []⟩ q ∧ found = ⟨⟨start, q.cursor⟩, q.groups⟩ := by
  obtain ⟨q, hq, hfound⟩ := exists_of_step h
  exact ⟨q, hq, (Option.some.inj hfound).symm⟩

/-- **There is a match at a place exactly if there is something to read.** -/
theorem isSome_matchAt?_iff {regex : Regex} {start : Cursor} :
    (regex.matchAt? start).isSome = true ↔ ∃ q, regex.Reads ⟨start, []⟩ q := by
  constructor
  · intro h
    obtain ⟨found, hfound⟩ := Option.isSome_iff_exists.1 h
    obtain ⟨q, hq, -⟩ := exists_of_matchAt? hfound
    exact ⟨q, hq⟩
  · rintro ⟨q, hq⟩
    exact isSome_step hq rfl

theorem occursFrom_iff {regex : Regex} : ∀ (rest before : List Char),
    regex.occursFrom rest (.behind before rest) = true ↔
      ∃ a b, rest = a ++ b ∧ ∃ q, regex.Reads ⟨.behind (before ++ a) b, []⟩ q
  | [], before => by
    rw [occursFrom, isSome_matchAt?_iff]
    constructor
    · exact fun h => ⟨[], [], rfl, by rwa [List.append_nil]⟩
    · rintro ⟨a, b, hab, h⟩
      obtain ⟨rfl, rfl⟩ := List.append_eq_nil_iff.1 hab.symm
      rwa [List.append_nil] at h
  | c :: rest, before => by
    have hnext : (Cursor.behind before (c :: rest)).next? = some (c, .behind (before ++ [c]) rest) := by
      rw [Cursor.next?_of_rest (Cursor.rest_behind _ _), Cursor.past_behind]
    rw [occursFrom, hnext, Bool.or_eq_true, isSome_matchAt?_iff]
    dsimp only
    rw [occursFrom_iff rest]
    constructor
    · rintro (h | ⟨a, b, rfl, h⟩)
      · exact ⟨[], c :: rest, rfl, by rwa [List.append_nil]⟩
      · exact ⟨c :: a, b, rfl, by rwa [List.append_assoc] at h⟩
    · rintro ⟨a, b, hab, h⟩
      cases a with
      | nil =>
        obtain rfl : c :: rest = b := hab
        rw [List.append_nil] at h
        exact .inl h
      | cons d a =>
        obtain ⟨rfl, rfl⟩ := List.cons.inj hab
        exact .inr ⟨a, b, rfl, by rwa [List.append_assoc]⟩

/-- **An expression occurs in a text exactly if somewhere in it there is something to read.** -/
theorem occursIn_iff {regex : Regex} {text : List Char} : regex.occursIn text = true ↔
    ∃ before rest, text = before ++ rest ∧ ∃ q, regex.Reads ⟨.behind before rest, []⟩ q :=
  occursFrom_iff text []

/-- A match in a text: what was read from some place on. -/
def MatchIn (regex : Regex) (text : List Char) (found : Found) : Prop :=
  ∃ before rest q, text = before ++ rest ∧ regex.Reads ⟨.behind before rest, []⟩ q ∧
    found = ⟨⟨.behind before rest, q.cursor⟩, q.groups⟩

end Regex

end ApiCatalog
