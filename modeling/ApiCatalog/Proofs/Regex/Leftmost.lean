import ApiCatalog.Proofs.Regex.Reads
import Mathlib.Data.List.Nodup
/-!
# Leftmost matches

The matches that are found in a text are the leftmost ones, of which none overlaps another (`leftmost_findAll`), and
there is one such list of matches only (`Leftmost.unique`).  So expressions that match alike find alike
(`map_findAll_congr`).
-/

namespace ApiCatalog

namespace Text

theorem foldl_utf8Size (n : Nat) (text : List Char) :
    text.foldl (fun n c => n + c.utf8Size) n = n + byteLength text := by
  induction text generalizing n with
  | nil => rfl
  | cons c text ih =>
    have h := ih (0 + c.utf8Size)
    rw [byteLength, List.foldl_cons, List.foldl_cons, h, ih]
    omega

theorem byteLength_append (a b : List Char) : byteLength (a ++ b) = byteLength a + byteLength b := by
  rw [byteLength, List.foldl_append, foldl_utf8Size, ← byteLength]

theorem byteLength_pos {text : List Char} (h : text ≠ []) : 0 < byteLength text := by
  cases text with
  | nil => exact absurd rfl h
  | cons c text =>
    have hsize := Char.utf8Size_pos c
    rw [byteLength, List.foldl_cons, foldl_utf8Size]
    omega

end Text

namespace Cursor

/-- The cursor is at a place of the text. -/
def In (cursor : Cursor) (text : List Char) : Prop := ∃ before rest, text = before ++ rest ∧ cursor = behind before rest

theorem in_ofText (text : List Char) : (ofText text).In text := ⟨[], text, rfl, rfl⟩

theorem index_behind (before rest : List Char) : (behind before rest).index = before.length := Nat.zero_add _

/-- A place is known by how far it is from the start. -/
theorem In.eq_of_index {text : List Char} {a b : Cursor} (ha : a.In text) (hb : b.In text) (h : a.index = b.index) :
    a = b := by
  obtain ⟨before, rest, htext, rfl⟩ := ha
  obtain ⟨before', rest', htext', rfl⟩ := hb
  rw [index_behind, index_behind] at h
  obtain ⟨rfl, rfl⟩ := List.append_inj (htext.symm.trans htext') h
  rfl

theorem In.next {text : List Char} {a : Cursor} (ha : a.In text) {c : Char} {rest : List Char}
    (hrest : a.rest = c :: rest) : (a.past [c] rest).In text ∧ (a.past [c] rest).index = a.index + 1 := by
  obtain ⟨before, rest', rfl, rfl⟩ := ha
  obtain rfl : rest' = c :: rest := hrest
  exact ⟨⟨before ++ [c], rest, by simp, past_behind _ _ _ _⟩, rfl⟩

theorem In.index_add_length {text : List Char} {a : Cursor} (ha : a.In text) :
    a.index + a.rest.length = text.length := by
  obtain ⟨before, rest, rfl, rfl⟩ := ha
  rw [index_behind, rest_behind, List.length_append]

theorem offset_behind (before rest : List Char) : (behind before rest).offset = Text.byteLength before := rfl

theorem In.offset_lt {text : List Char} {a b : Cursor} (ha : a.In text) (hb : b.In text) (h : a.index < b.index) :
    a.offset < b.offset := by
  obtain ⟨before, rest, htext, rfl⟩ := ha
  obtain ⟨before', rest', htext', rfl⟩ := hb
  rw [index_behind, index_behind] at h
  obtain ⟨between, rfl⟩ := List.prefix_of_prefix_length_le ⟨rest, htext.symm⟩ ⟨rest', htext'.symm⟩ (Nat.le_of_lt h)
  have hne : between ≠ [] := fun he => by simp [he] at h
  have hbetween := Text.byteLength_pos hne
  rw [offset_behind, offset_behind, Text.byteLength_append]
  omega

/-- Places are as far apart in bytes as they are in characters: at all, or not. -/
theorem In.offset_eq_iff {text : List Char} {a b : Cursor} (ha : a.In text) (hb : b.In text) :
    a.offset = b.offset ↔ a.index = b.index := by
  constructor
  · intro h
    rcases Nat.lt_trichotomy a.index b.index with hlt | heq | hlt
    · exact absurd h (Nat.ne_of_lt (ha.offset_lt hb hlt))
    · exact heq
    · exact absurd h (Nat.ne_of_gt (hb.offset_lt ha hlt))
  · intro h
    rw [ha.eq_of_index hb h]
end Cursor

namespace Found

/-- Nothing was read. -/
def IsEmpty (found : Found) : Prop := found.whole.stop.index = found.whole.start.index

/-- A match bars one that starts behind its start if that one starts within it, or right at its end with nothing
read. -/
def Bars (first second : Found) : Prop := first.whole.start.index < second.whole.start.index ∧
  (second.whole.start.index < first.whole.stop.index ∨
    second.IsEmpty ∧ second.whole.start.index = first.whole.stop.index)

def before (found : Found) : List Char := found.whole.start.passed.reverse

def behind (found : Found) : List Char := found.whole.stop.rest

theorem bars_congr {a a' b b' : Found} (ha : a'.whole = a.whole) (hb : b'.whole = b.whole) :
    a'.Bars b' ↔ a.Bars b := by
  rw [Bars, Bars, IsEmpty, IsEmpty, ha, hb]

end Found

namespace Regex

/-- What matches at a place starts there, and ends at a place of the text that is not before it. -/
theorem spans_of_matchAt? {regex : Regex} {text : List Char} {start : Cursor} (hstart : start.In text) {found : Found}
    (h : regex.matchAt? start = some found) :
    found.whole.start = start ∧ found.whole.stop.In text ∧ start.index ≤ found.whole.stop.index := by
  obtain ⟨q, hq, rfl⟩ := exists_of_matchAt? h
  obtain ⟨before, rest, rfl, rfl⟩ := hstart
  obtain ⟨a, b, hab, hstop⟩ := hq.onward
  obtain rfl : rest = a ++ b := hab
  refine ⟨rfl, ⟨before ++ a, b, by simp, by rw [hstop, Cursor.past_behind]⟩, ?_⟩
  dsimp only
  rw [hstop]
  exact Nat.le_add_right _ _

/-- The leftmost matches in a text: those that match, in order, none of them barred by one before it, and all the others
barred by one of them. -/
structure Leftmost (regex : Regex) (text : List Char) (all : List Found) : Prop where
  matched : ∀ found ∈ all, found.whole.start.In text ∧ regex.matchAt? found.whole.start = some found
  apart : all.Pairwise fun a b => a.whole.start.index < b.whole.start.index ∧ ¬ a.Bars b
  leftmost : ∀ place : Cursor, place.In text → ∀ found, regex.matchAt? place = some found →
    found ∈ all ∨ ∃ other ∈ all, other.Bars found

/-! ## The search from left to right -/

/-- The leftmost matches from a place on, where a match that reads nothing may be barred from without. -/
structure LeftmostFrom (regex : Regex) (text : List Char) (barred : Bool) (start : Nat) (all : List Found) : Prop where
  matched : ∀ found ∈ all, found.whole.start.In text ∧ regex.matchAt? found.whole.start = some found
  behind : ∀ found ∈ all, start ≤ found.whole.start.index
  free : barred = true → ∀ found ∈ all, found.IsEmpty → found.whole.start.index ≠ start
  apart : all.Pairwise fun a b => a.whole.start.index < b.whole.start.index ∧ ¬ a.Bars b
  leftmost : ∀ place : Cursor, place.In text → start ≤ place.index → ∀ found, regex.matchAt? place = some found →
    found ∈ all ∨ (barred = true ∧ found.IsEmpty ∧ place.index = start) ∨ ∃ other ∈ all, other.Bars found

section
variable {regex : Regex} {text : List Char} {barred : Bool} {start : Cursor} {all : List Found} {found : Found}

theorem LeftmostFrom.nil {start : Nat} (h : text.length < start) : LeftmostFrom regex text barred start [] where
  matched _ h := absurd h List.not_mem_nil
  behind _ h := absurd h List.not_mem_nil
  free _ _ h := absurd h List.not_mem_nil
  apart := .nil
  leftmost place hplace hle := by
    have hlength := hplace.index_add_length
    omega

/-- A place at which nothing matches, or only what is barred, is passed over. -/
theorem LeftmostFrom.pass (hstart : start.In text)
    (hidle : ∀ found, regex.matchAt? start = some found → barred = true ∧ found.IsEmpty)
    (h : LeftmostFrom regex text false (start.index + 1) all) : LeftmostFrom regex text barred start.index all where
  matched := h.matched
  behind found hfound := Nat.le_of_succ_le (h.behind found hfound)
  free _ found hfound _ := Nat.ne_of_gt (h.behind found hfound)
  apart := h.apart
  leftmost place hplace hle found hmatch := by
    rcases Nat.eq_or_lt_of_le hle with heq | hlt
    · obtain rfl := hstart.eq_of_index hplace heq
      exact .inr (.inl ⟨(hidle found hmatch).1, (hidle found hmatch).2, rfl⟩)
    · rcases h.leftmost place hplace hlt found hmatch with hmem | ⟨hbarred, -⟩ | hbars
      · exact .inl hmem
      · cases hbarred
      · exact .inr (.inr hbars)

/-- A match that reads nothing comes in front of those behind its place. -/
theorem LeftmostFrom.empty (hstart : start.In text) (hmatch : regex.matchAt? start = some found)
    (hempty : found.IsEmpty) (h : LeftmostFrom regex text false (start.index + 1) all) :
    LeftmostFrom regex text false start.index (found :: all) := by
  obtain ⟨hspan, -, -⟩ := spans_of_matchAt? hstart hmatch
  constructor
  · exact List.forall_mem_cons.2 ⟨by rw [hspan]; exact ⟨hstart, hmatch⟩, h.matched⟩
  · refine List.forall_mem_cons.2 ⟨Nat.le_of_eq (by rw [hspan]), fun other hother => ?_⟩
    exact Nat.le_of_succ_le (h.behind other hother)
  · exact fun hbarred => nomatch hbarred
  · refine .cons (fun other hother => ?_) h.apart
    have hlt := h.behind other hother
    rw [Found.IsEmpty, hspan] at hempty
    refine ⟨by rw [hspan]; exact hlt, fun hbars => ?_⟩
    rcases hbars.2 with hbars | ⟨-, hbars⟩ <;> omega
  · intro place hplace hle other hother
    rcases Nat.eq_or_lt_of_le hle with heq | hlt
    · obtain rfl := hstart.eq_of_index hplace heq
      cases hmatch.symm.trans hother
      exact .inl List.mem_cons_self
    · rcases h.leftmost place hplace hlt other hother with hmem | ⟨hbarred, -⟩ | ⟨bar, hbar, hbars⟩
      · exact .inl (List.mem_cons_of_mem _ hmem)
      · cases hbarred
      · exact .inr (.inr ⟨bar, List.mem_cons_of_mem _ hbar, hbars⟩)

/-- A match that reads something comes in front of those from its end on, and bars one at its end that reads nothing. -/
theorem LeftmostFrom.read (hstart : start.In text) (hmatch : regex.matchAt? start = some found)
    (hread : ¬ found.IsEmpty) (h : LeftmostFrom regex text true found.whole.stop.index all) :
    LeftmostFrom regex text barred start.index (found :: all) := by
  obtain ⟨hspan, -, hle⟩ := spans_of_matchAt? hstart hmatch
  have hlt : start.index < found.whole.stop.index := by
    rw [Found.IsEmpty, hspan] at hread
    omega
  constructor
  · exact List.forall_mem_cons.2 ⟨by rw [hspan]; exact ⟨hstart, hmatch⟩, h.matched⟩
  · refine List.forall_mem_cons.2 ⟨Nat.le_of_eq (by rw [hspan]), fun other hother => ?_⟩
    exact Nat.le_trans hle (h.behind other hother)
  · intro _ other hother hempty
    rcases List.mem_cons.1 hother with rfl | hother
    · exact absurd hempty hread
    · exact Nat.ne_of_gt (Nat.lt_of_lt_of_le hlt (h.behind other hother))
  · refine .cons (fun other hother => ?_) h.apart
    have hbehind := h.behind other hother
    refine ⟨by rw [hspan]; omega, fun hbars => ?_⟩
    rcases hbars.2 with hbars | ⟨hempty, hbars⟩
    · omega
    · exact h.free rfl other hother hempty hbars
  · intro place hplace hplaceLe other hother
    obtain ⟨hother', -, -⟩ := spans_of_matchAt? hplace hother
    rcases Nat.eq_or_lt_of_le hplaceLe with heq | hplaceLt
    · obtain rfl := hstart.eq_of_index hplace heq
      cases hmatch.symm.trans hother
      exact .inl List.mem_cons_self
    · have hbars : ∀ hwithin : place.index < found.whole.stop.index ∨
          other.IsEmpty ∧ place.index = found.whole.stop.index, found.Bars other := fun hwithin => by
        refine ⟨by rw [hspan, hother']; exact hplaceLt, ?_⟩
        rw [hother']
        exact hwithin
      -- Only at the end itself, where a match that reads nothing is barred, does it count that `found` went before.
      by_cases hwithin : place.index < found.whole.stop.index
      · exact .inr (.inr ⟨found, List.mem_cons_self, hbars (.inl hwithin)⟩)
      · rcases h.leftmost place hplace (by omega) other hother with hmem | ⟨-, hempty, hend⟩ | ⟨bar, hbar, hbarred⟩
        · exact .inl (List.mem_cons_of_mem _ hmem)
        · exact .inr (.inr ⟨found, List.mem_cons_self, hbars (.inr ⟨hempty, hend⟩)⟩)
        · exact .inr (.inr ⟨bar, List.mem_cons_of_mem _ hbar, hbarred⟩)

end

/-! ### One round -/

/-- The search from the next character on. -/
def findOnward (regex : Regex) (done : List Found) : List Char → Cursor → List Found
  | [], _ => done.reverse
  | _ :: fuel, start =>
    match start.next? with
    | some (_, next) => regex.findFrom false done fuel next
    | none => done.reverse

section
variable {regex : Regex} {start : Cursor} {found : Found} {barred : Bool} {done : List Found}

theorem findFrom_of_none (h : regex.matchAt? start = none) :
    ∀ fuel, regex.findFrom barred done fuel start = regex.findOnward done fuel start
  | [] => by rw [findFrom, h]; rfl
  | _ :: _ => by rw [findFrom, h]; rfl

theorem findFrom_of_empty (h : regex.matchAt? start = some found) (hempty : found.whole.stop.index = start.index) :
    ∀ fuel, regex.findFrom barred done fuel start =
      regex.findOnward (if barred then done else found :: done) fuel start
  | [] => by
    rw [findFrom, h]
    cases barred <;> rfl
  | _ :: _ => by
    rw [findFrom, h]
    exact if_pos hempty

theorem findFrom_of_read (h : regex.matchAt? start = some found) (hread : found.whole.stop.index ≠ start.index)
    (c : Char) (fuel : List Char) : regex.findFrom barred done (c :: fuel) start =
      regex.findFrom true (found :: done) fuel found.whole.stop := by
  rw [findFrom, h]
  exact if_neg hread

theorem findOnward_of_nil (h : start.rest = []) :
    ∀ fuel, regex.findOnward done fuel start = done.reverse
  | [] => rfl
  | _ :: _ => by rw [findOnward, Cursor.next?_of_nil h]

theorem findOnward_of_cons {c : Char} {rest : List Char} (h : start.rest = c :: rest) (d : Char) (fuel : List Char) :
    regex.findOnward done (d :: fuel) start = regex.findFrom false done fuel (start.past [c] rest) := by
  rw [findOnward, Cursor.next?_of_rest h]

end

/-! ### All rounds -/

/-- What the search gives is what was done, and behind it the leftmost matches from a place on. -/
def Adds (regex : Regex) (text : List Char) (barred : Bool) (start : Nat) (done result : List Found) : Prop :=
  ∃ all, result = done.reverse ++ all ∧ LeftmostFrom regex text barred start all

/-- What is left to read behind the next character is no longer than what is left of the fuel. -/
theorem adds_findOnward {regex : Regex} {text fuel : List Char} {start : Cursor} {done : List Found}
    (hstart : start.In text) (hfuel : start.rest.length ≤ fuel.length)
    (hfind : ∀ (d : Char) (fuel' : List Char), fuel = d :: fuel' → ∀ next : Cursor, next.In text →
      next.rest.length ≤ fuel'.length → Adds regex text false next.index done (regex.findFrom false done fuel' next)) :
    Adds regex text false (start.index + 1) done (regex.findOnward done fuel start) := by
  cases hrest : start.rest with
  | nil =>
    have hlength := hstart.index_add_length
    rw [hrest, List.length_nil] at hlength
    rw [findOnward_of_nil hrest]
    exact ⟨[], (List.append_nil _).symm, .nil (by omega)⟩
  | cons c rest =>
    obtain ⟨hnext, hindex⟩ := hstart.next hrest
    rw [hrest] at hfuel
    cases fuel with
    | nil => cases hfuel
    | cons d fuel =>
      rw [findOnward_of_cons hrest, ← hindex]
      exact hfind d fuel rfl _ hnext (Nat.le_of_succ_le_succ hfuel)

/-- The search takes the leftmost matches from its place on. -/
theorem adds_findFrom {regex : Regex} {text fuel : List Char} {start : Cursor} {barred : Bool} {done : List Found}
    (hstart : start.In text) (hfuel : start.rest.length ≤ fuel.length) :
    Adds regex text barred start.index done (regex.findFrom barred done fuel start) := by
  induction hlength : fuel.length using Nat.strongRecOn generalizing fuel start barred done with
  | ind n ih =>
    have honward : ∀ done, Adds regex text false (start.index + 1) done (regex.findOnward done fuel start) :=
      fun done => adds_findOnward hstart hfuel fun d fuel' hcons next hnext hle =>
        ih fuel'.length (by rw [← hlength, hcons]; exact Nat.lt_succ_self _) hnext hle rfl
    cases hmatch : regex.matchAt? start with
    | none =>
      obtain ⟨all, hall, hleftmost⟩ := honward done
      rw [findFrom_of_none hmatch]
      exact ⟨all, hall, .pass hstart (by simp [hmatch]) hleftmost⟩
    | some found =>
      obtain ⟨hspan, hstop, hle⟩ := spans_of_matchAt? hstart hmatch
      rcases Nat.eq_or_lt_of_le hle with hindex | hindex
      · have hempty : found.IsEmpty := by rw [Found.IsEmpty, hspan, hindex]
        rw [findFrom_of_empty hmatch hindex.symm]
        cases barred with
        | true =>
          obtain ⟨all, hall, hleftmost⟩ := honward done
          refine ⟨all, hall, .pass hstart (fun other hother => ?_) hleftmost⟩
          cases hmatch.symm.trans hother
          exact ⟨rfl, hempty⟩
        | false =>
          obtain ⟨all, hall, hleftmost⟩ := honward (found :: done)
          exact ⟨found :: all, by simp [hall], .empty hstart hmatch hempty hleftmost⟩
      · have hread : ¬ found.IsEmpty := by rw [Found.IsEmpty, hspan]; exact Nat.ne_of_gt hindex
        have hstartLength := hstart.index_add_length
        have hstopLength := hstop.index_add_length
        cases fuel with
        | nil =>
          rw [List.length_nil] at hfuel
          omega
        | cons d fuel =>
          rw [List.length_cons] at hfuel hlength
          obtain ⟨all, hall, hleftmost⟩ : Adds regex text true found.whole.stop.index (found :: done)
              (regex.findFrom true (found :: done) fuel found.whole.stop) :=
            ih fuel.length (by omega) hstop (by omega) rfl
          rw [findFrom_of_read hmatch (Nat.ne_of_gt hindex)]
          exact ⟨found :: all, by simp [hall], .read hstart hmatch hread hleftmost⟩

/-- **What is found in a text are the leftmost matches.** -/
theorem leftmost_findAll (regex : Regex) (text : List Char) : regex.Leftmost text (regex.findAll text) := by
  obtain ⟨all, hall, h⟩ : Adds regex text false 0 [] (regex.findAll text) :=
    adds_findFrom (Cursor.in_ofText text) (Nat.le_refl _)
  rw [hall]
  refine ⟨h.matched, h.apart, fun place hplace found hmatch => ?_⟩
  rcases h.leftmost place hplace (Nat.zero_le _) found hmatch with hmem | ⟨hbarred, -⟩ | hbars
  · exact .inl hmem
  · cases hbarred
  · exact .inr hbars

section
variable {regex : Regex} {text : List Char} {found : Found}

/-- **Each match that is found in a text was read there.** -/
theorem matchIn_of_mem_findAll (h : found ∈ regex.findAll text) : regex.MatchIn text found := by
  obtain ⟨⟨before, rest, htext, hstart⟩, hmatch⟩ := (regex.leftmost_findAll text).matched found h
  obtain ⟨q, hq, hfound⟩ := exists_of_matchAt? hmatch
  rw [hstart] at hq hfound
  exact ⟨before, rest, q, htext, hq, hfound⟩

/-- A match at the start of a text is found. -/
theorem mem_findAll_of_matchAt? (h : regex.matchAt? (.ofText text) = some found) : found ∈ regex.findAll text := by
  rcases (regex.leftmost_findAll text).leftmost _ (Cursor.in_ofText text) found h with hmem | ⟨other, -, hbars, -⟩
  · exact hmem
  · obtain ⟨hspan, -, -⟩ := spans_of_matchAt? (Cursor.in_ofText text) h
    rw [hspan] at hbars
    cases hbars

/-- A match is found where the expression matches, behind the text in front of it. -/
theorem place_of_mem_findAll (h : found ∈ regex.findAll text) :
    ∃ rest, text = found.before ++ rest ∧ regex.matchAt? (.behind found.before rest) = some found := by
  obtain ⟨⟨before, rest, htext, hstart⟩, hmatch⟩ := (regex.leftmost_findAll text).matched found h
  have hbefore : found.before = before := by
    rw [Found.before, hstart, Cursor.passed_behind, List.reverse_reverse]
  exact ⟨rest, hbefore ▸ htext, by rw [hbefore, ← hstart, hmatch]⟩

theorem behind_of_mem_findAll (h : found ∈ regex.findAll text) : found.behind <:+ text := by
  obtain ⟨hplace, hmatch⟩ := (regex.leftmost_findAll text).matched found h
  obtain ⟨-, ⟨before, rest, htext, hstop⟩, -⟩ := spans_of_matchAt? hplace hmatch
  rw [Found.behind, hstop, Cursor.rest_behind]
  exact ⟨before, htext.symm⟩

end

/-! ## Only one list of leftmost matches -/

section
variable {regex : Regex} {text : List Char} {all all' : List Found}

theorem Leftmost.not_bars (h : regex.Leftmost text all) {a b : Found} (ha : a ∈ all) (hb : b ∈ all) : ¬ a.Bars b := by
  refine List.Pairwise.forall_of_forall_of_flip (R := fun a b => ¬ Found.Bars a b) ?_ ?_ ?_ ha hb
  · exact fun _ _ hbars => Nat.lt_irrefl _ hbars.1
  · exact h.apart.imp And.right
  · exact h.apart.imp fun {a b} hab (hbars : b.Bars a) => Nat.lt_asymm hab.1 hbars.1

theorem Leftmost.subset (h : regex.Leftmost text all) (h' : regex.Leftmost text all') : all ⊆ all' := by
  have hmem : ∀ (n : Nat) {all all'}, regex.Leftmost text all → regex.Leftmost text all' →
      ∀ found ∈ all, found.whole.start.index = n → found ∈ all' := by
    intro n
    -- By induction on the place: what bars the match in one list starts before it, so it is in the other list too.
    induction n using Nat.strongRecOn with
    | ind n ih =>
      intro all all' h h' found hfound hn
      obtain ⟨hplace, hmatch⟩ := h.matched found hfound
      rcases h'.leftmost _ hplace found hmatch with hmem | ⟨bar, hbar, hbars⟩
      · exact hmem
      · exact absurd hbars (h.not_bars (ih _ (hn ▸ hbars.1) h' h bar hbar rfl) hfound)
  exact fun found hfound => hmem _ h h' found hfound rfl

theorem Leftmost.nodup (h : regex.Leftmost text all) : all.Nodup := by
  refine h.apart.imp fun hab heq => ?_
  subst heq
  exact Nat.lt_irrefl _ hab.1

/-- **The leftmost matches in a text are one list.** -/
theorem Leftmost.unique (h : regex.Leftmost text all) (h' : regex.Leftmost text all') : all = all' := by
  have hperm : all.Perm all' :=
    (List.perm_ext_iff_of_nodup h.nodup h'.nodup).2 fun _ => ⟨fun hm => h.subset h' hm, fun hm => h'.subset h hm⟩
  exact hperm.eq_of_pairwise (fun _ _ _ _ hab hba => absurd hab.1 (Nat.lt_asymm hba.1)) h.apart h'.apart

end

/-! ## Expressions that match alike -/

/-- The leftmost matches of one expression, each put for the match of another that covers the same stretch, are the
leftmost matches of that one, if it matches nowhere else. -/
theorem Leftmost.map {regex regex' : Regex} {text : List Char} {all : List Found} (h : regex.Leftmost text all)
    {partner : Found → Found} (hpartner : ∀ found ∈ all, regex'.matchAt? found.whole.start = some (partner found) ∧
      (partner found).whole = found.whole)
    (hback : ∀ place : Cursor, place.In text → ∀ other, regex'.matchAt? place = some other →
      ∃ found, regex.matchAt? place = some found ∧ found.whole = other.whole) :
    regex'.Leftmost text (all.map partner) := by
  constructor
  · refine List.forall_mem_map.2 fun found hfound => ?_
    obtain ⟨hmatch, hwhole⟩ := hpartner found hfound
    rw [hwhole]
    exact ⟨(h.matched found hfound).1, hmatch⟩
  · refine List.pairwise_map.2 (h.apart.imp_of_mem fun ha hb hab => ?_)
    obtain ⟨-, hwhole⟩ := hpartner _ ha
    obtain ⟨-, hwhole'⟩ := hpartner _ hb
    rw [Found.bars_congr hwhole hwhole', hwhole, hwhole']
    exact hab
  · intro place hplace other hother
    obtain ⟨found, hmatch, hwhole⟩ := hback place hplace other hother
    rcases h.leftmost place hplace found hmatch with hfound | ⟨bar, hbar, hbars⟩
    · obtain ⟨hmatch', -⟩ := hpartner found hfound
      obtain ⟨hstart, -⟩ := spans_of_matchAt? hplace hmatch
      rw [hstart, hother] at hmatch'
      exact .inl (List.mem_map.2 ⟨found, hfound, (Option.some.inj hmatch').symm⟩)
    · obtain ⟨-, hwhole'⟩ := hpartner bar hbar
      exact .inr ⟨_, List.mem_map_of_mem hbar, (Found.bars_congr hwhole' hwhole.symm).2 hbars⟩

/-- **Two expressions that match alike at each place of a text find alike in it**, as far as the views tell. -/
theorem map_findAll_congr {β : Type} {regex regex' : Regex} {text : List Char} {view view' : Found → β}
    (h : ∀ place : Cursor, place.In text → (regex.matchAt? place).map (fun found => (found.whole, view found)) =
      (regex'.matchAt? place).map fun found => (found.whole, view' found)) :
    (regex.findAll text).map (fun found => (found.whole, view found)) =
      (regex'.findAll text).map fun found => (found.whole, view' found) := by
  have hleftmost := regex.leftmost_findAll text
  let partner (found : Found) : Found := (regex'.matchAt? found.whole.start).getD found
  have hpartner : ∀ found ∈ regex.findAll text, regex'.matchAt? found.whole.start = some (partner found) ∧
      (partner found).whole = found.whole ∧ view' (partner found) = view found := by
    intro found hfound
    obtain ⟨hplace, hmatch⟩ := hleftmost.matched found hfound
    have hboth := h _ hplace
    rw [hmatch, Option.map_some] at hboth
    obtain ⟨other, hother, hequal⟩ := Option.map_eq_some_iff.1 hboth.symm
    obtain ⟨hwhole, hview⟩ := Prod.ext_iff.1 hequal
    have hpartner : partner found = other := by simp only [partner, hother, Option.getD_some]
    rw [hpartner]
    exact ⟨hother, hwhole, hview⟩
  have hback : ∀ place : Cursor, place.In text → ∀ other, regex'.matchAt? place = some other →
      ∃ found, regex.matchAt? place = some found ∧ found.whole = other.whole := by
    intro place hplace other hother
    have hboth := h place hplace
    rw [hother, Option.map_some] at hboth
    obtain ⟨found, hmatch, hequal⟩ := Option.map_eq_some_iff.1 hboth
    exact ⟨found, hmatch, (Prod.ext_iff.1 hequal).1⟩
  -- What `regex'` matches where `regex` found something is leftmost too, and there is only one such list.
  have hpartners : regex'.Leftmost text ((regex.findAll text).map partner) :=
    hleftmost.map (fun found hfound => ⟨(hpartner found hfound).1, (hpartner found hfound).2.1⟩) hback
  rw [(regex'.leftmost_findAll text).unique hpartners, List.map_map]
  refine List.map_congr_left fun found hfound => ?_
  obtain ⟨-, hwhole, hview⟩ := hpartner found hfound
  rw [Function.comp, hwhole, hview]

theorem findAll_eq_nil {regex : Regex} {text : List Char} (h : regex.occursIn text = false) :
    regex.findAll text = [] := by
  refine List.eq_nil_iff_forall_not_mem.2 fun found hfound => ?_
  obtain ⟨before, rest, q, htext, hreads, -⟩ := matchIn_of_mem_findAll hfound
  rw [occursIn_iff.2 ⟨before, rest, htext, q, hreads⟩] at h
  cases h

end Regex

end ApiCatalog
