import ApiCatalog.Catalog.Search
import ApiCatalog.Proofs.List.Places
import ApiCatalog.Proofs.Text.Cut
import ApiCatalog.Proofs.Text.Lower
/-!
# What searches find

A search selects rows of the catalog: those that stand at the places where the query is told of, in the order of the
catalog and each once (`inOrder_searchEntries`).  The three searches are nested, and what is found becomes less when the
query becomes longer (`search_nested`).  The case of the query makes no difference, nor does the case of ASCII letters
in the catalog (`search_recased`).
-/

namespace ApiCatalog

/-- The texts of an endpoint that tell of it: its path, its description, its summary and its tags. -/
def Endpoint.HasText (endpoint : Endpoint) (text : String) : Prop :=
  text = endpoint.path ∨ endpoint.description = some text ∨ endpoint.summary = some text ∨ text ∈ endpoint.tags

/-- A lowered query occurs in a text of an endpoint. -/
def Endpoint.Mentions (endpoint : Endpoint) (needle : List Char) : Prop :=
  ∃ text, endpoint.HasText text ∧ needle <:+: Text.lowercase text.toList

/-- A lowered query occurs in the method of an endpoint. -/
def Endpoint.Answers (endpoint : Endpoint) (needle : List Char) : Prop :=
  needle <:+: Text.lowercase endpoint.method.toList

/-- Places in a catalog are told by the number of the entry and the number of the endpoint in it. -/
abbrev Catalog.Place := ℕ × ℕ

/-- The order of the places: entry after entry, and in each endpoint after endpoint. -/
abbrev Catalog.Place.Before : Catalog.Place → Catalog.Place → Prop := Prod.Lex (· < ·) (· < ·)

theorem Catalog.Place.not_before {place later : Catalog.Place} (h : Before place later) : ¬ Before later place := by
  intro hback
  have hfront := Prod.lex_def.1 h
  have hback := Prod.lex_def.1 hback
  omega

def Catalog.At (catalog : Catalog) (place : Catalog.Place) (row : Entry × Endpoint) : Prop :=
  catalog.entries[place.1]? = some row.1 ∧ row.1.endpoints[place.2]? = some row.2

theorem mem_searched {endpoint : Endpoint} {text : String} : text ∈ endpoint.searched ↔ endpoint.HasText text := by
  simp [Endpoint.searched, Endpoint.HasText]

theorem holdsLowered_iff {needle : List Char} {text : String} :
    holdsLowered needle text = true ↔ needle <:+: Text.lowercase text.toList := Text.occurs_iff

theorem Endpoint.holds_iff {endpoint : Endpoint} {needle : List Char} :
    endpoint.holds needle = true ↔ endpoint.Mentions needle := by
  simp only [Endpoint.holds, List.any_eq_true, mem_searched, holdsLowered_iff, Endpoint.Mentions]

theorem Endpoint.holds_method_iff {endpoint : Endpoint} {needle : List Char} :
    (holdsLowered needle endpoint.method || endpoint.holds needle) = true ↔
      endpoint.Answers needle ∨ endpoint.Mentions needle := by
  rw [Bool.or_eq_true, holdsLowered_iff, Endpoint.holds_iff, Endpoint.Answers]

theorem Endpoint.Mentions.mono {endpoint : Endpoint} {needle longer : List Char} (h : needle <:+: longer)
    (hlonger : endpoint.Mentions longer) : endpoint.Mentions needle := by
  obtain ⟨text, htext, hfound⟩ := hlonger
  exact ⟨text, htext, h.trans hfound⟩

namespace Catalog

/-- **What is selected of the rows stands at the places where the selection holds.** -/
theorem inOrder_filter_rows (catalog : Catalog) {p : Entry × Endpoint → Bool} {P : Entry × Endpoint → Prop}
    (h : ∀ row, p row = true ↔ P row) :
    InOrder Place.Before (fun place row => catalog.At place row ∧ P row) (catalog.rows.filter p) := by
  have hrows : catalog.rows.filter p = catalog.entries.flatMap fun entry =>
      entry.endpoints.filterMap fun endpoint => if p (entry, endpoint) then some (entry, endpoint) else none := by
    rw [rows, List.filter_flatMap]
    congr 1
    funext entry
    rw [List.filter_map, ← List.filterMap_eq_filter, List.map_filterMap]
    congr 1
    funext endpoint
    simp [Option.guard]
  rw [hrows]
  refine (inOrder_flatMap fun entry _ => inOrder_filterMap _ entry.endpoints).congr fun place row => ?_
  constructor
  · rintro ⟨entry, hentry, endpoint, hendpoint, hrow⟩
    split at hrow
    · rename_i hp
      cases hrow
      exact ⟨⟨hentry, hendpoint⟩, (h _).1 hp⟩
    · cases hrow
  · rintro ⟨⟨hentry, hendpoint⟩, hrow⟩
    exact ⟨row.1, hentry, row.2, hendpoint, by rw [if_pos ((h _).2 hrow)]⟩

theorem inOrder_rows (catalog : Catalog) : InOrder Place.Before catalog.At catalog.rows := by
  have hall := catalog.inOrder_filter_rows (p := fun _ => true) (P := fun _ => True) fun _ => by simp
  rw [List.filter_true] at hall
  exact hall.congr fun place row => and_iff_left trivial

theorem exists_at {catalog : Catalog} {row : Entry × Endpoint} (h : row ∈ catalog.rows) :
    ∃ place, catalog.At place row := by
  obtain ⟨places, -, -, hall⟩ := catalog.inOrder_rows
  obtain ⟨i, hi⟩ := List.mem_iff_getElem?.1 h
  obtain ⟨place, -, hat⟩ := exists_getElem?_of_forall₂ hall.flip hi
  exact ⟨place, hat⟩

theorem inOrder_searchEntries (catalog : Catalog) (query : String) :
    InOrder Place.Before (fun place row => catalog.At place row ∧ row.2.Mentions (Text.lowercase query.toList))
      (catalog.searchEntries query) :=
  catalog.inOrder_filter_rows fun _ => Endpoint.holds_iff

theorem inOrder_searchEntriesWithMethod (catalog : Catalog) (query : String) :
    InOrder Place.Before (fun place row => catalog.At place row ∧
        (row.2.Answers (Text.lowercase query.toList) ∨ row.2.Mentions (Text.lowercase query.toList)))
      (catalog.searchEntriesWithMethod query) :=
  catalog.inOrder_filter_rows fun _ => Endpoint.holds_method_iff

theorem mem_searchEntries {catalog : Catalog} {query : String} {row : Entry × Endpoint} :
    row ∈ catalog.searchEntries query ↔ row ∈ catalog.rows ∧ row.2.Mentions (Text.lowercase query.toList) := by
  rw [searchEntries, List.mem_filter, Endpoint.holds_iff]

theorem mem_searchEntriesWithMethod {catalog : Catalog} {query : String} {row : Entry × Endpoint} :
    row ∈ catalog.searchEntriesWithMethod query ↔ row ∈ catalog.rows ∧
      (row.2.Answers (Text.lowercase query.toList) ∨ row.2.Mentions (Text.lowercase query.toList)) := by
  rw [searchEntriesWithMethod, List.mem_filter, Endpoint.holds_method_iff]

theorem map_snd_rows (catalog : Catalog) : catalog.rows.map Prod.snd = catalog.endpoints := by
  simp [rows, endpoints, List.map_flatMap, Function.comp_def]

/-! ## The three searches and longer queries -/

theorem filter_perm (rows : List (Entry × Endpoint)) (p q : Entry × Endpoint → Bool) :
    (rows.filter fun row => p row || q row).Perm (rows.filter q ++ rows.filter fun row => p row && !q row) := by
  have hq : (rows.filter fun row => p row || q row).filter q = rows.filter q := by
    rw [List.filter_filter]
    exact List.filter_congr fun row _ => by cases p row <;> cases q row <;> rfl
  have hrest : ((rows.filter fun row => p row || q row).filter fun row => !q row) =
      rows.filter fun row => p row && !q row := by
    rw [List.filter_filter]
    exact List.filter_congr fun row _ => by cases p row <;> cases q row <;> rfl
  rw [← hq, ← hrest]
  exact (List.filter_append_perm q _).symm

theorem searchEntries_sublist (catalog : Catalog) (query : String) :
    (catalog.searchEntries query).Sublist (catalog.searchEntriesWithMethod query) :=
  List.monotone_filter_right _ fun row hrow => by rw [hrow, Bool.or_true]

theorem searchEntries_narrower (catalog : Catalog) {query longer : String}
    (h : Text.lowercase query.toList <:+: Text.lowercase longer.toList) :
    (catalog.searchEntries longer).Sublist (catalog.searchEntries query) :=
  List.monotone_filter_right _ fun _ hrow => Endpoint.holds_iff.2 ((Endpoint.holds_iff.1 hrow).mono h)

theorem searchEntriesWithMethod_narrower (catalog : Catalog) {query longer : String}
    (h : Text.lowercase query.toList <:+: Text.lowercase longer.toList) :
    (catalog.searchEntriesWithMethod longer).Sublist (catalog.searchEntriesWithMethod query) :=
  List.monotone_filter_right _ fun _ hrow => Endpoint.holds_method_iff.2 <|
    (Endpoint.holds_method_iff.1 hrow).imp (fun hmethod => h.trans hmethod) fun htext => htext.mono h

theorem searchEntries_empty (catalog : Catalog) : catalog.searchEntries "" = catalog.rows :=
  List.filter_eq_self.2 fun row _ => Endpoint.holds_iff.2 ⟨row.2.path, .inl rfl, List.nil_infix⟩

/-- **The searches are nested selections of the rows, and longer queries find less.**  The rows of a catalog are what
stands at its places.  A search by texts finds those whose texts have the query, a search by method and texts finds
besides those whose method has it and no text. -/
theorem search_nested (catalog : Catalog) (query : String) :
    let needle := Text.lowercase query.toList
    InOrder Place.Before catalog.At catalog.rows ∧
    (catalog.searchEntries query).Sublist (catalog.searchEntriesWithMethod query) ∧
    (catalog.searchEntriesWithMethod query).Sublist catalog.rows ∧
    InOrder Place.Before (fun place row => catalog.At place row ∧ row.2.Mentions needle)
      (catalog.searchEntries query) ∧
    InOrder Place.Before (fun place row => catalog.At place row ∧ (row.2.Answers needle ∨ row.2.Mentions needle))
      (catalog.searchEntriesWithMethod query) ∧
    (∃ only, (catalog.searchEntriesWithMethod query).Perm (catalog.searchEntries query ++ only) ∧
      InOrder Place.Before (fun place row => catalog.At place row ∧ row.2.Answers needle ∧ ¬ row.2.Mentions needle)
        only) ∧
    catalog.search query = (catalog.searchEntries query).map Prod.snd ∧
    (∀ longer : String, needle <:+: Text.lowercase longer.toList →
      (catalog.searchEntries longer).Sublist (catalog.searchEntries query) ∧
      (catalog.searchEntriesWithMethod longer).Sublist (catalog.searchEntriesWithMethod query) ∧
      (catalog.search longer).Sublist (catalog.search query)) ∧
    catalog.searchEntries "" = catalog.rows ∧ catalog.searchEntriesWithMethod "" = catalog.rows ∧
    catalog.search "" = catalog.endpoints := by
  intro needle
  have honly : ∀ row : Entry × Endpoint, (holdsLowered needle row.2.method && !row.2.holds needle) = true ↔
      row.2.Answers needle ∧ ¬ row.2.Mentions needle := fun row => by
    rw [Bool.and_eq_true, Bool.not_eq_true', holdsLowered_iff, ← Bool.not_eq_true, Endpoint.holds_iff, Endpoint.Answers]
  have hempty : catalog.searchEntriesWithMethod "" = catalog.rows := by
    refine List.Sublist.antisymm List.filter_sublist ?_
    rw [← searchEntries_empty]
    exact catalog.searchEntries_sublist ""
  refine ⟨catalog.inOrder_rows, catalog.searchEntries_sublist query, List.filter_sublist,
    catalog.inOrder_searchEntries query, catalog.inOrder_searchEntriesWithMethod query,
    ⟨_, filter_perm catalog.rows _ _, catalog.inOrder_filter_rows honly⟩, rfl, fun longer hlonger => ?_,
    catalog.searchEntries_empty, hempty, ?_⟩
  · exact ⟨catalog.searchEntries_narrower hlonger, catalog.searchEntriesWithMethod_narrower hlonger,
      (catalog.searchEntries_narrower hlonger).map _⟩
  · rw [search, searchEntries_empty, map_snd_rows]

/-- An endpoint that stands in two entries is found in both, and by a method whatever the texts are. -/
theorem search_nested_of_repeated :
    let posts : Endpoint := Endpoint.plain "GET" "/Posts"
    let create : Endpoint := Endpoint.plain "POST" "/users"
    let catalog : Catalog :=
      ⟨⟨0, 0⟩, [⟨"a", Metadata.blank, [posts, create]⟩, ⟨"b", Metadata.blank, [posts]⟩]⟩
    (catalog.search "post").map Endpoint.path = ["/Posts", "/Posts"] ∧
      (catalog.searchEntriesWithMethod "post").map (·.2.path) = ["/Posts", "/users", "/Posts"] ∧
      (catalog.search "POSTs").Sublist (catalog.search "post") := by
  intro posts create catalog
  have hlonger : Text.lowercase "post".toList <:+: Text.lowercase "POSTs".toList := ⟨[], ['s'], by decide +kernel⟩
  refine ⟨?_, ?_, ((search_nested catalog "post").2.2.2.2.2.2.2.1 "POSTs" hlonger).2.2⟩
  · decide +kernel
  · decide +kernel

end Catalog

/-! ## Case -/

/-- A text, but for the case of ASCII letters. -/
def caseless (text : String) : List Char := Text.asciiLower text.toList

/-- The texts of two endpoints that are searched differ at most in the case of ASCII letters. -/
structure Endpoint.Recased (endpoint other : Endpoint) : Prop where
  path : caseless endpoint.path = caseless other.path
  description : endpoint.description.map caseless = other.description.map caseless
  summary : endpoint.summary.map caseless = other.summary.map caseless
  tags : endpoint.tags.map caseless = other.tags.map caseless

theorem Endpoint.mentions_iff_caseless {endpoint : Endpoint} {needle : List Char} :
    endpoint.Mentions needle ↔ ∃ text ∈ endpoint.searched.map caseless, needle <:+: Text.lowercase text := by
  simp only [Endpoint.Mentions, ← mem_searched, List.mem_map, exists_exists_and_eq_and, caseless,
    Text.lowercase_asciiLower]

theorem Endpoint.Recased.mentions_iff {endpoint other : Endpoint} (h : endpoint.Recased other) {needle : List Char} :
    endpoint.Mentions needle ↔ other.Mentions needle := by
  have hsearched : endpoint.searched.map caseless = other.searched.map caseless := by
    obtain ⟨hpath, hdescription, hsummary, htags⟩ := h
    simp only [Endpoint.searched, List.map_cons, List.map_append, ← Option.toList_map, hpath, hdescription, hsummary,
      htags]
  rw [mentions_iff_caseless, mentions_iff_caseless, hsearched]

theorem Endpoint.answers_iff_of_caseless {endpoint other : Endpoint} {needle : List Char}
    (h : caseless endpoint.method = caseless other.method) : endpoint.Answers needle ↔ other.Answers needle := by
  rw [Endpoint.Answers, Endpoint.Answers, Text.lowercase_of_asciiLower h]

namespace Catalog

/-- Two catalogs have as many entries, and these as many endpoints, that are alike one by one. -/
def Alike (alike : Endpoint → Endpoint → Prop) (catalog other : Catalog) : Prop :=
  List.Forall₂ (fun entry entry' => List.Forall₂ alike entry.endpoints entry'.endpoints) catalog.entries other.entries

/-- Rows stand at places, each at its place and in their order, and at no other place. -/
structure Picks (catalog : Catalog) (places : List Place) (rows : List (Entry × Endpoint)) : Prop where
  ordered : places.Pairwise Place.Before
  stand : List.Forall₂ catalog.At places rows
  mem_iff : ∀ place, place ∈ places ↔ ∃ row ∈ rows, catalog.At place row

variable {alike : Endpoint → Endpoint → Prop} {catalog other : Catalog}

theorem Alike.flip (h : catalog.Alike alike other) : other.Alike (fun e e' => alike e' e) catalog :=
  (h.imp fun _ _ hentry => hentry.flip).flip

theorem Alike.exists_at (h : catalog.Alike alike other) {place : Place} {row : Entry × Endpoint}
    (hrow : catalog.At place row) : ∃ row', other.At place row' ∧ alike row.2 row'.2 := by
  obtain ⟨hentry, hendpoint⟩ := hrow
  obtain ⟨entry', hentry', hendpoints⟩ := exists_getElem?_of_forall₂ h hentry
  obtain ⟨endpoint', hendpoint', halike⟩ := exists_getElem?_of_forall₂ hendpoints hendpoint
  exact ⟨(entry', endpoint'), ⟨hentry', hendpoint'⟩, halike⟩

theorem picks_of_stand {places : List Place} {rows : List (Entry × Endpoint)} {P : Endpoint → Prop}
    (hordered : places.Pairwise Place.Before) (hmem : ∀ place, place ∈ places ↔ ∃ row, catalog.At place row ∧ P row.2)
    (hrows : List.Forall₂ (fun place row => catalog.At place row ∧ P row.2) places rows) :
    catalog.Picks places rows := by
  refine ⟨hordered, hrows.imp fun _ _ => And.left, fun place => ⟨fun hplace => ?_, ?_⟩⟩
  · obtain ⟨i, hi⟩ := List.mem_iff_getElem?.1 hplace
    obtain ⟨row, hrow, hat, -⟩ := exists_getElem?_of_forall₂ hrows hi
    exact ⟨row, List.mem_of_getElem? hrow, hat⟩
  · rintro ⟨row, hrow, hat⟩
    obtain ⟨i, hi⟩ := List.mem_iff_getElem?.1 hrow
    obtain ⟨found, -, -, hP⟩ := exists_getElem?_of_forall₂ hrows.flip hi
    exact (hmem place).2 ⟨row, hat, hP⟩

/-- **What is selected by what two catalogs have in common stands at the same places.** -/
theorem Alike.exists_picks (h : catalog.Alike alike other) {P : Endpoint → Prop}
    (hP : ∀ {e e'}, alike e e' → (P e ↔ P e')) {rows rows' : List (Entry × Endpoint)}
    (hrows : InOrder Place.Before (fun place row => catalog.At place row ∧ P row.2) rows)
    (hrows' : InOrder Place.Before (fun place row => other.At place row ∧ P row.2) rows') :
    ∃ places, catalog.Picks places rows ∧ other.Picks places rows' := by
  have hsame : ∀ place, (∃ row, catalog.At place row ∧ P row.2) ↔ ∃ row, other.At place row ∧ P row.2 := by
    intro place
    constructor
    · rintro ⟨row, hat, hrow⟩
      obtain ⟨row', hat', halike⟩ := h.exists_at hat
      exact ⟨row', hat', (hP halike).1 hrow⟩
    · rintro ⟨row', hat', hrow'⟩
      obtain ⟨row, hat, halike⟩ := h.flip.exists_at hat'
      exact ⟨row, hat, (hP halike).2 hrow'⟩
  obtain ⟨places, hordered, hmem, hall, hall'⟩ := hrows.exists_common Place.not_before hrows' hsame
  exact ⟨places, picks_of_stand hordered hmem hall,
    picks_of_stand hordered (fun place => (hmem place).trans (hsame place)) hall'⟩

/-- **The case of a query makes no difference, nor does that of ASCII letters in a catalog.**  A search finds the same
for the lowered query, and for one that differs in the case of ASCII letters.  In two catalogs whose texts differ in the
case of ASCII letters it finds what stands at the same places. -/
theorem search_recased (catalog : Catalog) (query : String) :
    (∀ query' : String, query'.toList = Text.lowercase query.toList ∨ caseless query' = caseless query →
      catalog.searchEntries query' = catalog.searchEntries query ∧
      catalog.searchEntriesWithMethod query' = catalog.searchEntriesWithMethod query ∧
      catalog.search query' = catalog.search query) ∧
    (∀ other : Catalog, catalog.Alike Endpoint.Recased other → ∃ places,
      catalog.Picks places (catalog.searchEntries query) ∧ other.Picks places (other.searchEntries query)) ∧
    (∀ other : Catalog, catalog.Alike (fun e e' => e.Recased e' ∧ caseless e.method = caseless e'.method) other →
      ∃ places, catalog.Picks places (catalog.searchEntriesWithMethod query) ∧
        other.Picks places (other.searchEntriesWithMethod query)) ∧
    ∀ c : Catalog, c.search query = (c.searchEntries query).map Prod.snd := by
  refine ⟨fun query' hquery => ?_, fun other halike => ?_, fun other halike => ?_, fun _ => rfl⟩
  · have hneedle : Text.lowercase query'.toList = Text.lowercase query.toList := by
      rcases hquery with hlowered | hcaseless
      · rw [hlowered, Text.lowercase_lowercase]
      · exact Text.lowercase_of_asciiLower hcaseless
    simp only [search, searchEntries, searchEntriesWithMethod, hneedle, and_self]
  · exact halike.exists_picks (fun hsame => hsame.mentions_iff) (catalog.inOrder_searchEntries query)
      (other.inOrder_searchEntries query)
  · exact halike.exists_picks (fun hsame => or_congr (Endpoint.answers_iff_of_caseless hsame.2) hsame.1.mentions_iff)
      (catalog.inOrder_searchEntriesWithMethod query) (other.inOrder_searchEntriesWithMethod query)

/-- Capital sigmas at the ends of words keep their places when the ASCII letters around them change case. -/
theorem search_recased_of_sigma :
    let endpoint : Endpoint := { Endpoint.plain "get" "/Users/ΟΔΟΣ" with tags := ["Σa"] }
    let other : Endpoint := { Endpoint.plain "GET" "/uSERS/ΟΔΟΣ" with tags := ["ΣA"] }
    let catalog : Catalog := ⟨⟨0, 0⟩, [⟨"s", Metadata.blank, [endpoint]⟩]⟩
    let recased : Catalog := ⟨⟨0, 0⟩, [⟨"s", Metadata.blank, [other]⟩]⟩
    catalog.search "USERS/οδος" = catalog.search "users/ΟΔΟΣ" ∧
      ∃ places, catalog.Picks places (catalog.searchEntriesWithMethod "USERS/οδος") ∧
        recased.Picks places (recased.searchEntriesWithMethod "USERS/οδος") := by
  intro endpoint other catalog recased
  have hlowered : "users/οδος".toList = Text.lowercase "users/ΟΔΟΣ".toList := by decide +kernel
  have hcaseless : caseless "USERS/οδος" = caseless "users/οδος" := by decide +kernel
  have hrecased : endpoint.Recased other := by constructor <;> decide +kernel
  have hmethod : caseless endpoint.method = caseless other.method := by decide +kernel
  refine ⟨?_, (search_recased catalog "USERS/οδος").2.2.1 recased (.cons (.cons ⟨hrecased, hmethod⟩ .nil) .nil)⟩
  rw [((search_recased catalog "users/οδος").1 _ (.inr hcaseless)).2.2,
    ((search_recased catalog "users/ΟΔΟΣ").1 _ (.inl hlowered)).2.2]

end Catalog

end ApiCatalog
