import ApiCatalog.Proofs.Catalog.Search
import ApiCatalog.Proofs.Html.Template
/-!
# The filter box of a page

The script of a page is told by what it does to the elements that it looks for (`Box.input`).  What was typed before
makes no difference to it (`Box.foldl_input`), and what it leaves visible agrees with the search (`Box.shows_found`): a
row is found in its search text by whatever its endpoint is found by, but for the description.
-/

namespace ApiCatalog

/-- A lowered query occurs in the method of an endpoint, its path, its summary or one of its tags. -/
def Endpoint.Tells (endpoint : Endpoint) (needle : List Char) : Prop :=
  ∃ text, (text = endpoint.method ∨ text = endpoint.path ∨ endpoint.summary = some text ∨ text ∈ endpoint.tags) ∧
    needle <:+: Text.lowercase text.toList

namespace Html

/-! ## Search texts -/

theorem infix_lowercase_intercalate {text : String} : ∀ {texts : List String}, text ∈ texts →
    Text.lowercase text.toList <:+: Text.lowercase (" ".intercalate texts).toList
  | [only], h => by rw [String.intercalate_singleton, List.mem_singleton.1 h]
  | first :: second :: texts, h => by
    have hsplit : Text.lowercase (" ".intercalate (first :: second :: texts)).toList =
        Text.lowercase first.toList ++ ' ' :: Text.lowercase (" ".intercalate (second :: texts)).toList := by
      have hblank : " ".toList = [' '] := by decide +kernel
      rw [String.intercalate_cons_cons, String.toList_append, String.toList_append, hblank, List.append_assoc,
        List.singleton_append, Text.lowercase_append_space]
    rw [hsplit]
    rcases List.mem_cons.1 h with rfl | h
    · exact (List.prefix_append _ _).isInfix
    · exact (infix_lowercase_intercalate h).trans ((List.suffix_cons _ _).trans (List.suffix_append _ _)).isInfix

theorem searchText_eq (e : Endpoint) : searchText e = String.ofList (Text.lowercase
    (" ".intercalate [e.method, e.path, e.summary.getD "", " ".intercalate e.tags]).toList) := by
  simp only [searchText, String.intercalate_cons_cons, String.intercalate_singleton, String.append_assoc]

/-- **A query that occurs in one of the texts of a row occurs in its search text.** -/
theorem infix_searchText {e : Endpoint} {needle : List Char} (h : e.Tells needle) :
    needle <:+: (searchText e).toList := by
  obtain ⟨text, htext, hfound⟩ := h
  rw [searchText_eq, String.toList_ofList]
  refine hfound.trans ?_
  rcases htext with rfl | rfl | hsummary | htag
  · exact infix_lowercase_intercalate (by simp)
  · exact infix_lowercase_intercalate (by simp)
  · exact infix_lowercase_intercalate (by simp [hsummary])
  · exact (infix_lowercase_intercalate htag).trans (infix_lowercase_intercalate (by simp))

namespace Box

/-! ## What the script finds in a page -/

/-- A row of the page: the value of its search attribute, whether the element of its method has the class of the rows
too, and whether the row is shown. -/
structure Row where
  searched : String
  stray : Bool
  shown : Bool

/-- A section of the page: its rows, and whether it is shown. -/
structure Card where
  rows : List Row
  shown : Bool

/-- What was found in a page from some place on: whether the next method is a stray one, the rows up to the next
section, and the sections behind. -/
structure Found where
  stray : Bool
  rows : List Row
  cards : List Card

def valueOf (text : List Char) : String := decoded (text.takeWhile (· ≠ '"'))

def isBlank (c : Char) : Bool := c == ' ' || c == '\t' || c == '\n' || c == '\u000c' || c == '\r'

/-- Whether a method gives its element the class of the rows.  Up to the first blank it belongs to the name of the
class that its element has for the method. -/
def isStray (method : String) : Bool := ((method.toList.splitOnP isBlank).drop 1).contains "endpoint".toList

/-- Takes a tag to what was found behind it. -/
def finding (tag : List Char) (f : Found) : Found :=
  match Text.stripStart? rowStart tag with
  | some text => ⟨false, ⟨valueOf text, f.stray, true⟩ :: f.rows, f.cards⟩
  | none =>
  match Text.stripStart? Notes.entryStart tag with
  | some _ => ⟨false, [], ⟨f.rows, true⟩ :: f.cards⟩
  | none =>
  match Text.stripStart? Notes.methodStart tag with
  | some text => { f with stray := isStray (valueOf text) }
  | none => f

def find : List Char → Found
  | [] => ⟨false, [], []⟩
  | c :: text => if c = '<' then finding text (find text) else find text

/-- The sections and rows of a page, as they are when the page is opened. -/
def read (page : String) : List Card := (find page.toList).cards

/-! ## What the script does -/

/-- A row is shown if what was typed occurs in its search text. -/
def Row.sifted (needle : List Char) (row : Row) : Row :=
  { row with shown := Text.occurs needle row.searched.toList }

/-- The loop over the rows.  It breaks off at a stray method, which has no search text, and what is behind stays as it
is. -/
def siftRows (needle : List Char) (broken : Bool) : List Row → List Row
  | [] => []
  | row :: rows => (if broken then row else row.sifted needle) :: siftRows needle (broken || row.stray) rows

def Card.breaks (card : Card) : Bool := card.rows.any Row.stray

def siftCards (needle : List Char) (broken : Bool) : List Card → List Card
  | [] => []
  | card :: cards =>
    { card with rows := siftRows needle broken card.rows } :: siftCards needle (broken || card.breaks) cards

/-- A section is shown if one of its rows is. -/
def Card.settled (card : Card) : Card := { card with shown := card.rows.any Row.shown }

/-- What becomes of the page when a text is typed into the box.  No section is settled if the loop over the rows broke
off.  (A method may give its element the class of the sections, too; then the element itself is hidden, and not the row
that it is in.) -/
def input (cards : List Card) (query : String) : List Card :=
  let sifted := siftCards (Text.lowercase query.toList) false cards
  if cards.any Card.breaks then sifted else sifted.map Card.settled

end Box

end Html

open Html

/-- What the script finds of an endpoint when the page is opened. -/
def Endpoint.inBox (e : Endpoint) : Box.Row := ⟨searchText e, Box.isStray (lowered e.method), true⟩

/-- What the script finds of an entry when the page is opened. -/
def Entry.inBox (e : Entry) : Box.Card := ⟨e.endpoints.map Endpoint.inBox, true⟩

namespace Html.Box

/-! ## The rows and sections of a page -/

theorem find_cons_of_ne {c : Char} (h : c ≠ '<') (text : List Char) : find (c :: text) = find text := by
  rw [find, if_neg h]

theorem find_tag (text : List Char) : find ('<' :: text) = finding text (find text) := by
  rw [find, if_pos rfl]

theorem find_append {front : List Char} (h : avoids handles front = true) (text : List Char) :
    find (front ++ text) = find text := by
  induction front with
  | nil => rfl
  | cons c front ih =>
    rw [avoids, Bool.and_eq_true, Bool.or_eq_true, List.all_eq_true] at h
    rw [List.cons_append]
    by_cases hc : c = '<'
    · have hnone : ∀ start ∈ handles, Text.stripStart? start (front ++ text) = none := fun start hstart =>
        stripStart?_of_clash (h.1.resolve_left (by simp [hc]) start hstart) (List.prefix_append _ _) List.prefix_rfl
      rw [hc, find_tag, ih h.2, finding, hnone _ (.head _), hnone _ (.tail _ (.head _)),
        hnone _ (.tail _ (.tail _ (.head _)))]
    · rw [find_cons_of_ne hc, ih h.2]

theorem avoids_start {start : List Char} (h : start ∈ handles) : avoids handles start = true := by
  have hall : ∀ start ∈ handles, '<' ∉ start := by decide +kernel
  exact avoids_of_not_mem (hall start h)

theorem finding_row (text : List Char) (f : Found) :
    finding (rowStart ++ text) f = ⟨false, ⟨valueOf text, f.stray, true⟩ :: f.rows, f.cards⟩ := by
  rw [finding, Text.stripStart?_append]

theorem finding_entry (text : List Char) (f : Found) :
    finding (Notes.entryStart ++ text) f = ⟨false, [], ⟨f.rows, true⟩ :: f.cards⟩ := by
  have hrow : Text.stripStart? rowStart (Notes.entryStart ++ text) = none :=
    stripStart?_of_clash (by decide +kernel) (List.prefix_append _ _) List.prefix_rfl
  rw [finding, hrow, Text.stripStart?_append]

theorem finding_method (text : List Char) (f : Found) :
    finding (Notes.methodStart ++ text) f = { f with stray := isStray (valueOf text) } := by
  have hstarts : clash rowStart Notes.methodStart = true ∧ clash Notes.entryStart Notes.methodStart = true := by
    decide +kernel
  have hrow : Text.stripStart? rowStart (Notes.methodStart ++ text) = none :=
    stripStart?_of_clash hstarts.1 (List.prefix_append _ _) List.prefix_rfl
  have hentry : Text.stripStart? Notes.entryStart (Notes.methodStart ++ text) = none :=
    stripStart?_of_clash hstarts.2 (List.prefix_append _ _) List.prefix_rfl
  rw [finding, hrow, hentry, Text.stripStart?_append]

theorem valueOf_escape (text : String) (rest : List Char) : valueOf ((escape text).toList ++ '"' :: rest) = text := by
  rw [valueOf, takeWhile_escape, decoded_escape]

variable {text : List Char} {rows : List Row} {cards : List Card}

theorem find_endpointRow (h : find text = ⟨false, rows, cards⟩) (e : Endpoint) :
    find ((endpointRow e).toList ++ text) = ⟨false, e.inBox :: rows, cards⟩ := by
  obtain ⟨back, hback, hrow⟩ := exists_endpointRow e
  rw [hrow]
  simp only [List.cons_append, List.append_assoc]
  rw [find_tag, finding_row, valueOf_escape, find_append (avoids_start (by simp [handles])),
    find_append (avoids_escape _), find_cons_of_ne (by decide), find_cons_of_ne (by decide), find_tag, finding_method,
    valueOf_escape, find_append (avoids_start (by simp [handles])), find_append (avoids_escape _),
    find_cons_of_ne (by decide), find_append hback, h, Endpoint.inBox]

theorem find_endpointRows (h : find text = ⟨false, rows, cards⟩) : ∀ endpoints : List Endpoint,
    find ((String.join (endpoints.map endpointRow)).toList ++ text) =
      ⟨false, endpoints.map Endpoint.inBox ++ rows, cards⟩
  | [] => h
  | e :: endpoints => by
    rw [List.map_cons, String.join_cons, String.toList_append, List.append_assoc,
      find_endpointRow (find_endpointRows h endpoints)]
    rfl

theorem find_entrySection (h : find text = ⟨false, [], cards⟩) (e : Entry) :
    find ((entrySection e).toList ++ text) = ⟨false, [], e.inBox :: cards⟩ := by
  obtain ⟨front, back, hfront, hback, hsection⟩ := exists_entrySection e
  rw [hsection]
  simp only [List.cons_append, List.append_assoc]
  rw [find_tag, finding_entry, find_append (avoids_start (by simp [handles])), find_append (avoids_escape _),
    find_cons_of_ne (by decide), find_append (avoids_mono handles_subset hfront),
    find_endpointRows (by rw [find_append (avoids_mono handles_subset hback), h]), List.append_nil]
  rfl

theorem find_entrySections (h : find text = ⟨false, [], []⟩) : ∀ entries : List Entry,
    find ((String.join (entries.map entrySection)).toList ++ text) = ⟨false, [], entries.map Entry.inBox⟩
  | [] => h
  | e :: entries => by
    rw [List.map_cons, String.join_cons, String.toList_append, List.append_assoc,
      find_entrySection (find_entrySections h entries)]
    rfl

/-- **The script finds a section for each entry of a catalog, and in it a row for each endpoint.** -/
theorem cards_page (c : Catalog) : read (page c) = c.entries.map Entry.inBox := by
  obtain ⟨front, back, hfront, hback, hpage⟩ := exists_page c
  have hend : find back = ⟨false, [], []⟩ := by
    rw [← List.append_nil back, find_append (avoids_mono handles_subset hback), find]
  rw [read, hpage, find_append (avoids_mono handles_subset hfront), find_entrySections hend]

/-! ## What was typed before -/

theorem siftRows_siftRows (needle needle' : List Char) (broken : Bool) (rows : List Row) :
    siftRows needle' broken (siftRows needle broken rows) = siftRows needle' broken rows := by
  induction rows generalizing broken with
  | nil => rfl
  | cons row rows ih =>
    have hstray : (if broken then row else row.sifted needle).stray = row.stray := by cases broken <;> rfl
    rw [siftRows, siftRows, hstray, ih, siftRows]
    cases broken <;> rfl

theorem any_stray_siftRows (needle : List Char) (broken : Bool) (rows : List Row) :
    (siftRows needle broken rows).any Row.stray = rows.any Row.stray := by
  induction rows generalizing broken with
  | nil => rfl
  | cons row rows ih =>
    rw [siftRows, List.any_cons, ih, List.any_cons]
    cases broken <;> rfl

theorem any_breaks_siftCards (needle : List Char) (broken : Bool) (cards : List Card) :
    (siftCards needle broken cards).any Card.breaks = cards.any Card.breaks := by
  induction cards generalizing broken with
  | nil => rfl
  | cons card cards ih => rw [siftCards, List.any_cons, ih, List.any_cons, Card.breaks, any_stray_siftRows, Card.breaks]

theorem siftCards_siftCards (needle needle' : List Char) (broken : Bool) (cards : List Card) :
    siftCards needle' broken (siftCards needle broken cards) = siftCards needle' broken cards := by
  induction cards generalizing broken with
  | nil => rfl
  | cons card cards ih =>
    rw [siftCards, siftCards, siftRows_siftRows, Card.breaks, any_stray_siftRows, ← Card.breaks, ih, siftCards]

/-- Whether sections were shown makes no difference to how they are settled. -/
theorem settled_siftCards_settled (needle : List Char) (broken : Bool) (cards : List Card) :
    (siftCards needle broken (cards.map Card.settled)).map Card.settled =
      (siftCards needle broken cards).map Card.settled := by
  induction cards generalizing broken with
  | nil => rfl
  | cons card cards ih => exact congrArg (List.cons _) (ih (broken || card.breaks))

/-- **What was typed before makes no difference.** -/
theorem input_input (cards : List Card) (query query' : String) :
    input (input cards query) query' = input cards query' := by
  have hsettled : ∀ cards : List Card, (cards.map Card.settled).any Card.breaks = cards.any Card.breaks := fun cards => by
    rw [List.any_map]
    rfl
  unfold input
  cases hbreaks : cards.any Card.breaks with
  | true => simp only [if_true, any_breaks_siftCards, hbreaks, siftCards_siftCards]
  | false =>
    simp only [Bool.false_eq_true, if_false, hsettled, any_breaks_siftCards, hbreaks, settled_siftCards_settled,
      siftCards_siftCards]

theorem foldl_input (cards : List Card) (earlier : List String) (query : String) :
    input (earlier.foldl input cards) query = input cards query := by
  induction earlier generalizing cards with
  | nil => rfl
  | cons first earlier ih => rw [List.foldl_cons, ih, input_input]

/-! ## What is shown -/

theorem forall₂_siftRows (needle : List Char) (broken : Bool) (rows : List Row) :
    List.Forall₂ (fun row row' => row' = row ∨ row' = row.sifted needle) rows (siftRows needle broken rows) := by
  induction rows generalizing broken with
  | nil => exact .nil
  | cons row rows ih =>
    refine .cons ?_ (ih (broken || row.stray))
    cases broken with
    | false => exact .inr rfl
    | true => exact .inl rfl

theorem forall₂_siftCards (needle : List Char) (broken : Bool) (cards : List Card) :
    List.Forall₂ (fun card card' => ∃ broken, card' = { card with rows := siftRows needle broken card.rows }) cards
      (siftCards needle broken cards) := by
  induction cards generalizing broken with
  | nil => exact .nil
  | cons card cards ih => exact .cons ⟨broken, rfl⟩ (ih (broken || card.breaks))

theorem forall₂_input (cards : List Card) (query : String) :
    List.Forall₂ (fun card card' => (∃ broken, card'.rows = siftRows (Text.lowercase query.toList) broken card.rows) ∧
      (card'.shown = card.shown ∨ card'.shown = card'.rows.any Row.shown)) cards (input cards query) := by
  have hsifted := forall₂_siftCards (Text.lowercase query.toList) false cards
  unfold input
  cases cards.any Card.breaks with
  | true =>
    refine hsifted.imp fun card card' ⟨broken, hcard⟩ => ?_
    rw [hcard]
    exact ⟨⟨broken, rfl⟩, .inl rfl⟩
  | false =>
    refine List.forall₂_map_right_iff.2 (hsifted.imp fun card card' ⟨broken, hcard⟩ => ?_)
    rw [hcard]
    exact ⟨⟨broken, rfl⟩, .inr rfl⟩

/-- A row that is shown, in a section that is. -/
def Shows (cards : List Card) (place : Catalog.Place) (searched : String) : Prop :=
  ∃ card row, cards[place.1]? = some card ∧ card.shown = true ∧ card.rows[place.2]? = some row ∧
    row.searched = searched ∧ row.shown = true

/-- **A row stays visible if what is typed occurs in its search text.** -/
theorem Shows.input {cards : List Card} {place : Catalog.Place} {searched : String} (h : Shows cards place searched)
    {query : String} (hfound : Text.lowercase query.toList <:+: searched.toList) :
    Shows (Box.input cards query) place searched := by
  obtain ⟨card, row, hcard, hshown, hrow, rfl, hrowShown⟩ := h
  obtain ⟨card', hcard', ⟨broken, hrows⟩, hsettled⟩ := exists_getElem?_of_forall₂ (forall₂_input cards query) hcard
  obtain ⟨row', hrow', hsifted⟩ := exists_getElem?_of_forall₂ (forall₂_siftRows _ broken card.rows) hrow
  rw [← hrows] at hrow'
  have hrowShown' : row'.searched = row.searched ∧ row'.shown = true := by
    rcases hsifted with rfl | rfl
    · exact ⟨rfl, hrowShown⟩
    · exact ⟨rfl, Text.occurs_iff.2 hfound⟩
  have hshown' : card'.shown = true := by
    rcases hsettled with hsame | hany
    · rw [hsame, hshown]
    · rw [hany]
      exact List.any_eq_true.2 ⟨row', List.mem_of_getElem? hrow', hrowShown'.2⟩
  exact ⟨card', row', hcard', hshown', hrow', hrowShown'⟩

theorem siftRows_of_straight {rows : List Row} (h : ∀ row ∈ rows, row.stray = false) (needle : List Char) :
    siftRows needle false rows = rows.map (Row.sifted needle) := by
  induction rows with
  | nil => rfl
  | cons row rows ih =>
    rw [List.forall_mem_cons] at h
    rw [siftRows, h.1, Bool.or_false, ih h.2]
    rfl

theorem breaks_of_straight {card : Card} (h : ∀ row ∈ card.rows, row.stray = false) : card.breaks = false :=
  List.any_eq_false.2 fun row hrow => Bool.not_eq_true _ ▸ h row hrow

theorem siftCards_of_straight {cards : List Card} (h : ∀ card ∈ cards, ∀ row ∈ card.rows, row.stray = false)
    (needle : List Char) : siftCards needle false cards =
      cards.map fun card => { card with rows := card.rows.map (Row.sifted needle) } := by
  induction cards with
  | nil => rfl
  | cons card cards ih =>
    rw [List.forall_mem_cons] at h
    rw [siftCards, breaks_of_straight h.1, Bool.or_false, ih h.2, siftRows_of_straight h.1]
    rfl

/-- **Where no method is a stray one, rows stay visible only if what is typed occurs in their search text.** -/
theorem Shows.infix_of_straight {cards : List Card} (hstraight : ∀ card ∈ cards, ∀ row ∈ card.rows, row.stray = false)
    {place : Catalog.Place} {searched query : String} (h : Shows (Box.input cards query) place searched) :
    Text.lowercase query.toList <:+: searched.toList := by
  have hbreaks : cards.any Card.breaks = false := List.any_eq_false.2 fun card hcard =>
    Bool.not_eq_true _ ▸ breaks_of_straight (hstraight card hcard)
  obtain ⟨card, row, hcard, -, hrow, rfl, hshown⟩ := h
  rw [Box.input, hbreaks, siftCards_of_straight hstraight, if_neg Bool.false_ne_true, List.map_map,
    List.getElem?_map] at hcard
  obtain ⟨card, -, rfl⟩ := Option.map_eq_some_iff.1 hcard
  rw [Function.comp_apply, Card.settled, List.getElem?_map] at hrow
  obtain ⟨row, -, rfl⟩ := Option.map_eq_some_iff.1 hrow
  exact Text.occurs_iff.1 hshown

theorem shows_page {c : Catalog} {place : Catalog.Place} {row : Entry × Endpoint} (h : c.At place row) :
    Shows (read (page c)) place (searchText row.2) := by
  rw [cards_page]
  refine ⟨row.1.inBox, row.2.inBox, ?_, rfl, ?_, rfl, rfl⟩
  · rw [List.getElem?_map, h.1, Option.map_some]
  · rw [Entry.inBox, List.getElem?_map, h.2, Option.map_some]

theorem tells_of_mem_searchEntriesWithMethod {c : Catalog} {query : String} {row : Entry × Endpoint}
    (h : row ∈ c.searchEntriesWithMethod query) : row ∈ c.rows ∧ (row.2.Tells (Text.lowercase query.toList) ∨
      ∃ text, row.2.description = some text ∧ Text.lowercase query.toList <:+: Text.lowercase text.toList) := by
  obtain ⟨hrow, hmethod | ⟨text, hpath | hdescription | hsummary | htag, hfound⟩⟩ :=
    Catalog.mem_searchEntriesWithMethod.1 h
  · exact ⟨hrow, .inl ⟨_, .inl rfl, hmethod⟩⟩
  · exact ⟨hrow, .inl ⟨text, .inr (.inl hpath), hfound⟩⟩
  · exact ⟨hrow, .inr ⟨text, hdescription, hfound⟩⟩
  · exact ⟨hrow, .inl ⟨text, .inr (.inr (.inl hsummary)), hfound⟩⟩
  · exact ⟨hrow, .inl ⟨text, .inr (.inr (.inr htag)), hfound⟩⟩

theorem straight_page {c : Catalog} (h : ∀ row ∈ c.rows, isStray (lowered row.2.method) = false) :
    ∀ card ∈ read (page c), ∀ row ∈ card.rows, row.stray = false := by
  rw [cards_page]
  intro card hcard row hrow
  obtain ⟨entry, hentry, rfl⟩ := List.mem_map.1 hcard
  obtain ⟨endpoint, hendpoint, rfl⟩ := List.mem_map.1 hrow
  exact h (entry, endpoint) (List.mem_flatMap.2 ⟨entry, hentry, List.mem_map_of_mem hendpoint⟩)

/-- **The filter box shows what is found.**  The search attribute of a row stands for a text that has whatever occurs in
the method, the path, the summary or a tag, and whatever was typed before, the row stays visible.  So it is for all that
is found by method and texts, but for what only the description has.  A row whose text has not what is typed is hidden,
unless a method stops the script. -/
theorem shows_found :
    (∀ (e : Endpoint) (query : String), e.Tells (Text.lowercase query.toList) → ∃ value behind,
      (endpointRow e).toList = '<' :: (rowStart ++ (value ++ '"' :: behind)) ∧ '"' ∉ value ∧
      Text.lowercase query.toList <:+: (decoded value).toList) ∧
    (∀ (c : Catalog) (earlier : List String) (query : String) (place : Catalog.Place) (row : Entry × Endpoint),
      c.At place row → row.2.Tells (Text.lowercase query.toList) →
      Shows (input (earlier.foldl input (read (page c))) query) place (searchText row.2)) ∧
    (∀ (c : Catalog) (query : String) (row : Entry × Endpoint), row ∈ c.searchEntriesWithMethod query →
      (∃ place, c.At place row) ∧ (row.2.Tells (Text.lowercase query.toList) ∨
        ∃ text, row.2.description = some text ∧ Text.lowercase query.toList <:+: Text.lowercase text.toList)) ∧
    ∀ (c : Catalog) (earlier : List String) (query : String) (place : Catalog.Place) (searched : String),
      (∀ row ∈ c.rows, isStray (lowered row.2.method) = false) →
      Shows (input (earlier.foldl input (read (page c))) query) place searched →
      Text.lowercase query.toList <:+: searched.toList := by
  refine ⟨fun e query htells => ?_, fun c earlier query place row hat htells => ?_, fun c query row hrow => ?_,
    fun c earlier query place searched hstraight hshows => ?_⟩
  · obtain ⟨back, -, hrow⟩ := exists_endpointRow e
    refine ⟨_, _, hrow, fun hquote => absurd (isMark_of_mem_escape hquote) (by decide), ?_⟩
    rw [decoded_escape]
    exact infix_searchText htells
  · rw [foldl_input]
    exact (shows_page hat).input (infix_searchText htells)
  · obtain ⟨hmem, hfound⟩ := tells_of_mem_searchEntriesWithMethod hrow
    exact ⟨Catalog.exists_at hmem, hfound⟩
  · rw [foldl_input] at hshows
    exact hshows.infix_of_straight (straight_page hstraight)

/-- A query is typed that ends in a capital sigma, as a tag does that stands between marks; the row in front has a method
that the script takes for a row. -/
theorem shows_found_of_stray :
    let odd : Endpoint := Endpoint.plain "GET endpoint" "/"
    let endpoint : Endpoint := { Endpoint.plain "GET" "/\"a\"" with tags := ["b", "<ΚΟΣ>"] }
    let entry : Entry := ⟨"s", Metadata.blank, [odd, endpoint]⟩
    let catalog : Catalog := ⟨⟨0, 0⟩, [entry]⟩
    let straight : Catalog := ⟨⟨0, 0⟩, [⟨"s", Metadata.blank, [endpoint]⟩]⟩
    odd.inBox.stray = true ∧ endpoint.Tells (Text.lowercase "ΚΟΣ".toList) ∧
      (∃ value behind, (endpointRow endpoint).toList = '<' :: (rowStart ++ (value ++ '"' :: behind)) ∧ '"' ∉ value ∧
        Text.lowercase "ΚΟΣ".toList <:+: (decoded value).toList) ∧
      Shows (input (["x", "y"].foldl input (read (page catalog))) "ΚΟΣ") (0, 1) (searchText endpoint) ∧
      (∃ place, catalog.At place (entry, endpoint)) ∧
      ¬ Shows (input (["x", "y"].foldl input (read (page straight))) "ΚΟΣΜΟΣ") (0, 0) (searchText endpoint) := by
  have hwithin : Text.lowercase "ΚΟΣ".toList <:+: Text.lowercase "<ΚΟΣ>".toList :=
    ⟨['<'], ['>'], by decide +kernel⟩
  intro odd endpoint entry catalog straight
  have htag : "<ΚΟΣ>" ∈ endpoint.tags := .tail _ (.head _)
  have htells : endpoint.Tells (Text.lowercase "ΚΟΣ".toList) := ⟨_, .inr (.inr (.inr htag)), hwithin⟩
  have hrow : (entry, endpoint) ∈ catalog.searchEntriesWithMethod "ΚΟΣ" :=
    Catalog.mem_searchEntriesWithMethod.2
      ⟨by simp [catalog, Catalog.rows, entry], .inr ⟨_, .inr (.inr (.inr htag)), hwithin⟩⟩
  have hstraight : ∀ row ∈ straight.rows, isStray (lowered row.2.method) = false := by
    have hget : isStray (lowered "GET") = false := by decide +kernel
    simpa [straight, Catalog.rows, endpoint, Endpoint.plain] using hget
  have hmissed : ¬ Text.lowercase "ΚΟΣΜΟΣ".toList <:+: (searchText endpoint).toList := by decide +kernel
  exact ⟨by decide +kernel, htells, shows_found.1 endpoint "ΚΟΣ" htells,
    shows_found.2.1 catalog ["x", "y"] "ΚΟΣ" (0, 1) (entry, endpoint) ⟨rfl, rfl⟩ htells,
    (shows_found.2.2.1 catalog "ΚΟΣ" (entry, endpoint) hrow).1,
    fun hshows => hmissed (shows_found.2.2.2 straight ["x", "y"] "ΚΟΣΜΟΣ" (0, 0) _ hstraight hshows)⟩

end Html.Box

end ApiCatalog
