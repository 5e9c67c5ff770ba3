import ApiCatalog.Proofs.Regex.Search
import ApiCatalog.Proofs.Routes.Table
/-!
# Files made of declarations

A file that is one declaration after the other is searched declaration by declaration.  A rule that reads those of a
class, and nothing else, finds their routes and no others (`RouteRule.Recovers.routes_file`); rules of which no two read
the same declaration find each route once, class after class (`map_routes_file`).
-/

namespace ApiCatalog

/-- A declaration as it stands in a file: the text that is read, with what stands in front of it and behind it, and the
route that it declares. -/
structure Passage where
  front : List Char
  text : List Char
  back : List Char
  method : List Char
  path : List Char
  text_ne_nil : text ≠ []

namespace Passage

def whole (p : Passage) : List Char := p.front ++ (p.text ++ p.back)

/-- The route, with `before` in front of the declaration and `rest` behind it. -/
def route (p : Passage) (before rest : List Char) : Route :=
  ⟨p.method, p.path, .behind before (p.text ++ rest), p.text⟩

end Passage

section
variable {α : Type} (passage : α → Passage)

def file (all : List α) : List Char := all.flatMap fun a => (passage a).whole

/-- A declaration with all that stands in front of its text and behind it. -/
structure Place (α : Type) where
  before : List Char
  item : α
  rest : List Char

def Place.route (place : Place α) : Route := (passage place.item).route place.before place.rest

/-- The declarations of a file at their places. -/
def places (before : List Char) : List α → List (Place α)
  | [] => []
  | a :: more => ⟨before ++ (passage a).front, a, (passage a).back ++ file passage more⟩ ::
      places (before ++ (passage a).whole) more

variable {passage}

theorem map_item_places (all : List α) : ∀ before, (places passage before all).map (·.item) = all := by
  induction all with
  | nil => exact fun _ => rfl
  | cons a more ih => exact fun before => by rw [places, List.map_cons, ih]

theorem exists_of_mem_places {all : List α} {place : Place α} : ∀ {before}, place ∈ places passage before all →
    ∃ earlier later, all = earlier ++ place.item :: later ∧
      place.before = before ++ (file passage earlier ++ (passage place.item).front) := by
  induction all with
  | nil => exact fun h => absurd h List.not_mem_nil
  | cons a more ih =>
    intro before h
    rcases List.mem_cons.1 h with rfl | h
    · exact ⟨[], more, rfl, rfl⟩
    · obtain ⟨earlier, later, hmore, hbefore⟩ := ih h
      exact ⟨a :: earlier, later, by rw [hmore]; rfl, by simp [hbefore, file]⟩

theorem pairwise_places (all : List α) : ∀ before, (places passage before all).Pairwise fun place later =>
    Text.byteLength place.before < Text.byteLength later.before := by
  induction all with
  | nil => exact fun _ => .nil
  | cons a more ih =>
    refine fun before => .cons (fun later hlater => ?_) (ih _)
    obtain ⟨earlier, -, -, hbefore⟩ := exists_of_mem_places hlater
    have htext := Text.byteLength_pos (passage a).text_ne_nil
    rw [hbefore]
    simp only [Passage.whole, Text.byteLength_append]
    omega

theorem places_inj {all : List α} {place other : Place α} (hplace : place ∈ places passage [] all)
    (hother : other ∈ places passage [] all)
    (h : Text.byteLength place.before = Text.byteLength other.before) : place = other := by
  have hnodup : ((places passage [] all).map fun place => Text.byteLength place.before).Nodup :=
    List.pairwise_map.2 ((pairwise_places all []).imp Nat.ne_of_lt)
  exact List.inj_on_of_nodup_map hnodup hplace hother h

/-! ## One rule -/

/-- The rule reads the declarations that are `mine` and no others, and nothing between declarations. -/
structure RouteRule.Recovers (rule : RouteRule) (passage : α → Passage) (mine : α → Bool) : Prop where
  text : ∀ a more, mine a = true → ∀ start : Cursor,
    start.rest = (passage a).text ++ ((passage a).back ++ file passage more) →
      ∃ found, rule.regex.matchAt? start = some found ∧
        found.whole = ⟨start, start.past (passage a).text ((passage a).back ++ file passage more)⟩ ∧
          rule.layout.resolve? found = some ((passage a).method, (passage a).path)
  front : ∀ a more, mine a = true →
    rule.regex.Idle (passage a).front ((passage a).text ++ ((passage a).back ++ file passage more))
  back : ∀ a more, mine a = true → rule.regex.Idle (passage a).back (file passage more)
  other : ∀ a more, mine a = false → rule.regex.Idle (passage a).whole (file passage more)
  atEnd : ∀ start : Cursor, start.rest = [] → rule.regex.matchAt? start = none

def RouteRule.route? (rule : RouteRule) (found : Found) : Option Route :=
  (rule.layout.resolve? found).map fun (method, path) => ⟨method, path, found.whole.start, found.whole.text⟩

namespace RouteRule.Recovers

variable {rule : RouteRule} {mine : α → Bool}

theorem search_passage (h : rule.Recovers passage mine) (before : List Char) (a : α) (more : List α) : ∃ all,
    rule.regex.Search before ((passage a).whole ++ file passage more) all (before ++ (passage a).whole)
      (file passage more) ∧
    all.filterMap rule.route? = if mine a = true then
      [(passage a).route (before ++ (passage a).front) ((passage a).back ++ file passage more)] else [] := by
  by_cases hmine : mine a = true
  · have hfront := (h.front a more hmine).search before
    have hback := (h.back a more hmine).search (before ++ (passage a).front ++ (passage a).text)
    obtain ⟨found, hmatch, hwhole, hresolve⟩ := h.text a more hmine
      (.behind (before ++ (passage a).front) ((passage a).text ++ ((passage a).back ++ file passage more))) rfl
    have hstop := Cursor.past_behind (before ++ (passage a).front) (passage a).text
      ((passage a).back ++ file passage more) ((passage a).text ++ ((passage a).back ++ file passage more))
    rw [hstop] at hwhole
    have hread := Regex.Search.read hmatch (by rw [hwhole]) (passage a).text_ne_nil hback
    have hsearch := hfront.trans hread
    refine ⟨[found], ?_, ?_⟩
    · simpa [Passage.whole] using hsearch
    · have htext : found.whole.text = (passage a).text := by
        rw [hwhole, Span.text, ← hstop]
        exact Cursor.upTo_past (Cursor.rest_behind _ _)
      rw [if_pos hmine, List.filterMap_cons_some (b := (passage a).route _ _), List.filterMap_nil]
      rw [RouteRule.route?, hresolve, Option.map_some, htext, hwhole]
      rfl
  · have hidle := (h.other a more (Bool.eq_false_iff.2 hmine)).search before
    exact ⟨[], hidle, by rw [if_neg hmine, List.filterMap_nil]⟩

theorem search_file (h : rule.Recovers passage mine) (items : List α) : ∀ before, ∃ all,
    rule.regex.Search before (file passage items) all (before ++ file passage items) [] ∧
    all.filterMap rule.route? =
      ((places passage before items).filter fun place => mine place.item).map (·.route passage) := by
  induction items with
  | nil =>
    intro before
    refine ⟨[], ?_, rfl⟩
    rw [show file passage ([] : List α) = [] from rfl, List.append_nil]
    exact .stay before []
  | cons a more ih =>
    intro before
    obtain ⟨first, hfirst, hroute⟩ := h.search_passage before a more
    obtain ⟨all, hall, hroutes⟩ := ih (before ++ (passage a).whole)
    refine ⟨first ++ all, ?_, ?_⟩
    · have hsearch := hfirst.trans hall
      rw [List.append_assoc] at hsearch
      exact hsearch
    · rw [List.filterMap_append, hroute, hroutes, places, List.filter_cons]
      split <;> rfl

/-- **A rule finds the routes of its declarations and no others.** -/
theorem routes_file (h : rule.Recovers passage mine) (items : List α) : rule.routes (file passage items) =
    ((places passage [] items).filter fun place => mine place.item).map (·.route passage) := by
  obtain ⟨all, hsearch, hroutes⟩ := h.search_file items []
  rw [← hroutes, ← Regex.findAll_of_search hsearch (h.atEnd _ rfl)]
  rfl

end RouteRule.Recovers

/-! ## Several rules -/

/-- Rules of which no two read the same declaration find each at most once. -/
theorem RouteTable.routes_file {rows : List (RouteRule × (α → Bool))} {extension : String}
    (hrows : ∀ row ∈ rows, row.1.Recovers passage row.2)
    (happlies : ∀ row ∈ rows, row.1.appliesTo extension = true)
    (hapart : rows.Pairwise fun row other => ∀ a, row.2 a = true → other.2 a = false) (items : List α) :
    RouteTable.routes (rows.map (·.1)) (file passage items) extension = rows.flatMap fun row =>
      ((places passage [] items).filter fun place => row.2 place.item).map (·.route passage) := by
  have hcandidates : RouteTable.candidates (rows.map (·.1)) (file passage items) extension = rows.flatMap fun row =>
      ((places passage [] items).filter fun place => row.2 place.item).map (·.route passage) := by
    rw [candidates, List.filter_eq_self.2 (List.forall_mem_map.2 happlies), List.flatMap_map]
    exact List.flatMap_congr fun row hrow => (hrows row hrow).routes_file items
  rw [routes_eq, hcandidates]
  refine eraseDupsBy_of_pairwise _ (List.pairwise_flatMap.2 ⟨fun row _ => ?_, ?_⟩)
  · refine List.pairwise_map.2 (((pairwise_places items []).filter _).imp fun {place later} hlt => ?_)
    exact beq_eq_false_iff_ne.2 (Nat.ne_of_gt hlt)
  · refine hapart.imp fun {row other} hapart => ?_
    refine List.forall_mem_map.2 fun place hplace => List.forall_mem_map.2 fun later hlater => ?_
    refine beq_eq_false_iff_ne.2 fun heq => ?_
    obtain ⟨hplace, hmine⟩ := List.mem_filter.1 hplace
    obtain ⟨hlater, hmine'⟩ := List.mem_filter.1 hlater
    obtain rfl := places_inj hplace hlater heq.symm
    rw [hapart _ hmine] at hmine'
    cases hmine'

/-- **A file made of declarations comes back class after class**, as far as a view of the routes goes that each
declaration accounts for at its place. -/
theorem map_routes_file {β : Type} {rows : List (RouteRule × (α → Bool))}
    (hrows : ∀ row ∈ rows, row.1.Recovers passage row.2) (extension : String)
    (happlies : ∀ row ∈ rows, row.1.appliesTo extension = true)
    (hapart : rows.Pairwise fun row other => ∀ a, row.2 a = true → other.2 a = false) (items : List α)
    (view : Route → β) (value : α → β)
    (hview : ∀ place ∈ places passage [] items, view (place.route passage) = value place.item) :
    (RouteTable.routes (rows.map (·.1)) (file passage items) extension).map view =
      (rows.flatMap fun row => items.filter row.2).map value := by
  rw [RouteTable.routes_file hrows happlies hapart, List.map_flatMap, List.map_flatMap]
  refine List.flatMap_congr fun row _ => ?_
  have hitems : items.filter row.2 =
      ((places passage [] items).filter fun place => row.2 place.item).map (·.item) := by
    calc items.filter row.2 = ((places passage [] items).map (·.item)).filter row.2 := by rw [map_item_places]
      _ = ((places passage [] items).filter fun place => row.2 place.item).map (·.item) := List.filter_map
  rw [hitems, List.map_map, List.map_map]
  exact List.map_congr_left fun place hplace => hview place (List.mem_of_mem_filter hplace)

end

end ApiCatalog
