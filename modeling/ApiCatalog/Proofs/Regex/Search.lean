import ApiCatalog.Proofs.Regex.Leftmost
import ApiCatalog.Proofs.Regex.Words
/-!
# Searching piece by piece

A search is followed from one place of a text to another (`Regex.Search`): it passes the places at which nothing
matches and goes on behind what it reads.  Searches are put together piece by piece (`Search.trans`), and one that has
come to the end of the text has found all that there is (`findAll_of_search`).
-/

namespace ApiCatalog.Regex

/-- Nothing matches at any place of a text, with `rest` behind it. -/
def Idle (regex : Regex) (text rest : List Char) : Prop :=
  ∀ passed left, text = passed ++ left → left ≠ [] → ∀ start : Cursor, start.rest = left ++ rest →
    regex.matchAt? start = none

/-- A search from the place between the first two texts to the place between the last two, with all that it finds on
the way. -/
inductive Search (regex : Regex) : List Char → List Char → List Found → List Char → List Char → Prop
  | stay (before rest : List Char) : Search regex before rest [] before rest
  | pass {before rest before' rest' : List Char} {c : Char} {all : List Found} :
    regex.matchAt? (.behind before (c :: rest)) = none → Search regex (before ++ [c]) rest all before' rest' →
      Search regex before (c :: rest) all before' rest'
  | read {before text rest before' rest' : List Char} {found : Found} {all : List Found} :
    regex.matchAt? (.behind before (text ++ rest)) = some found → found.whole.stop = .behind (before ++ text) rest →
      text ≠ [] → Search regex (before ++ text) rest all before' rest' →
        Search regex before (text ++ rest) (found :: all) before' rest'

theorem idle_nil (regex : Regex) (rest : List Char) : Idle regex [] rest :=
  fun _ _ h hne => absurd (List.append_eq_nil_iff.1 h.symm).2 hne

theorem Idle.append {regex : Regex} {a b rest : List Char} (ha : Idle regex a (b ++ rest)) (hb : Idle regex b rest) :
    Idle regex (a ++ b) rest := by
  intro passed left h hne start hstart
  rcases List.append_eq_append_iff.1 h with ⟨more, rfl, rfl⟩ | ⟨more, rfl, rfl⟩
  · exact hb more left rfl hne start hstart
  · by_cases hmore : more = []
    · subst hmore
      exact hb [] b rfl hne start hstart
    · exact ha passed more rfl hmore start (by rw [hstart, List.append_assoc])

theorem matchAt?_eq_none {regex : Regex} {start : Cursor} (h : ∀ q, ¬ regex.Reads ⟨start, []⟩ q) :
    regex.matchAt? start = none := by
  refine Option.eq_none_iff_forall_ne_some.2 fun found hfound => ?_
  obtain ⟨q, hq, -⟩ := exists_of_matchAt? hfound
  exact h q hq

section
variable {mark : Char} {items : List Regex}

/-- An expression that begins with a mark matches only where the mark stands. -/
theorem matchAt?_mark_eq_none (hmark : mark.isAlpha = false) {start : Cursor} (h : ∀ rest, start.rest ≠ mark :: rest) :
    (Pattern.sequence (Pattern.letter mark :: items)).matchAt? start = none := by
  refine matchAt?_eq_none fun q hq => ?_
  obtain ⟨_, rest, rfl, hrest, -⟩ := (Pattern.reads_cons (Pattern.takes_mark hmark)).1 hq
  exact h rest hrest

theorem idle_of_mark (hmark : mark.isAlpha = false) {text : List Char} (h : mark ∉ text) (rest : List Char) :
    Idle (Pattern.sequence (Pattern.letter mark :: items)) text rest := by
  rintro passed left rfl hne start hstart
  refine matchAt?_mark_eq_none hmark fun rest' hrest => ?_
  obtain ⟨c, left, rfl⟩ := List.exists_cons_of_ne_nil hne
  obtain ⟨rfl, -⟩ := List.cons.inj (hstart.symm.trans hrest)
  exact h (List.mem_append_right _ List.mem_cons_self)

end

section
variable {regex : Regex} {before rest before' rest' : List Char} {all : List Found}

theorem Search.trans {middle left : List Char} {more : List Found} (h : Search regex before rest all middle left)
    (h' : Search regex middle left more before' rest') : Search regex before rest (all ++ more) before' rest' := by
  induction h with
  | stay => exact h'
  | pass hnone _ ih => exact .pass hnone (ih h')
  | read hmatch hstop hne _ ih => exact .read hmatch hstop hne (ih h')

/-- A stretch of text at which nothing matches is passed over. -/
theorem Idle.search {text : List Char} (h : Idle regex text rest) (before : List Char) :
    Search regex before (text ++ rest) [] (before ++ text) rest := by
  induction text generalizing before with
  | nil =>
    rw [List.append_nil]
    exact .stay before rest
  | cons c text ih =>
    have hhead : regex.matchAt? (.behind before (c :: (text ++ rest))) = none :=
      h [] (c :: text) rfl (List.cons_ne_nil _ _) _ rfl
    have htail : Idle regex text rest := by
      rintro passed left rfl hne start hstart
      exact h (c :: passed) left rfl hne start hstart
    have hsearch := ih htail (before ++ [c])
    rw [List.append_assoc] at hsearch
    exact .pass hhead hsearch

/-- The search from left to right takes the same way, whatever it has found before. -/
theorem Search.findFrom (h : Search regex before rest all before' rest') (barred : Bool) (done : List Found)
    {fuel : List Char} (hfuel : rest.length ≤ fuel.length) : ∃ barred' fuel', rest'.length ≤ fuel'.length ∧
      regex.findFrom barred done fuel (.behind before rest) =
        regex.findFrom barred' (all.reverse ++ done) fuel' (.behind before' rest') := by
  induction h generalizing barred done fuel with
  | stay before rest => exact ⟨barred, fuel, hfuel, rfl⟩
  | @pass before rest _ _ c _ hnone _ ih =>
    cases fuel with
    | nil => cases hfuel
    | cons _ fuel =>
      obtain ⟨barred', fuel', hfuel', hfind⟩ := ih false done (Nat.le_of_succ_le_succ hfuel)
      refine ⟨barred', fuel', hfuel', ?_⟩
      rw [findFrom_of_none hnone, findOnward_of_cons (Cursor.rest_behind _ _), Cursor.past_behind]
      exact hfind
  | @read before text rest _ _ found all hmatch hstop hne _ ih =>
    have hlength := List.length_pos_iff.2 hne
    rw [List.length_append] at hfuel
    cases fuel with
    | nil =>
      rw [List.length_nil] at hfuel
      omega
    | cons _ fuel =>
      rw [List.length_cons] at hfuel
      have hleft : rest.length ≤ fuel.length := by omega
      obtain ⟨barred', fuel', hfuel', hfind⟩ := ih true (found :: done) hleft
      refine ⟨barred', fuel', hfuel', ?_⟩
      have hindex : found.whole.stop.index ≠ (Cursor.behind before (text ++ rest)).index := by
        rw [hstop, Cursor.index_behind, Cursor.index_behind, List.length_append]
        omega
      rw [findFrom_of_read hmatch hindex, hstop, hfind, List.reverse_cons, List.append_assoc, List.singleton_append]

theorem findFrom_end (h : regex.matchAt? (.behind before []) = none) (barred : Bool) (done : List Found)
    (fuel : List Char) : regex.findFrom barred done fuel (.behind before []) = done.reverse := by
  rw [findFrom_of_none h, findOnward_of_nil (Cursor.rest_behind _ _)]

/-- **A search that has come to the end of the text has found all that there is.** -/
theorem findAll_of_search {text : List Char} (h : Search regex [] text all text [])
    (hend : regex.matchAt? (.behind text []) = none) : regex.findAll text = all := by
  obtain ⟨barred, fuel, -, hfind⟩ := h.findFrom false [] (Nat.le_refl _)
  rw [List.append_nil, findFrom_end hend, List.reverse_reverse] at hfind
  exact hfind

/-- What a search has found so far is found first. -/
theorem prefix_findAll_of_search {text : List Char} (h : Search regex [] text all before rest) :
    all <+: regex.findAll text := by
  obtain ⟨barred, fuel, hfuel, hfind⟩ := h.findFrom false [] (Nat.le_refl _)
  have hplace : (Cursor.behind before rest).In (before ++ rest) := ⟨before, rest, rfl, rfl⟩
  obtain ⟨more, hmore, -⟩ : Adds regex (before ++ rest) barred _ (all.reverse ++ [])
      (regex.findFrom barred (all.reverse ++ []) fuel (.behind before rest)) := adds_findFrom hplace hfuel
  rw [hmore, List.append_nil, List.reverse_reverse] at hfind
  exact ⟨more, hfind.symm⟩

end

end ApiCatalog.Regex
