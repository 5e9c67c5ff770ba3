import ApiCatalog.Proofs.Html.Tags
/-!
# A reader of pages

A page is read from its end (`read`), so that what belongs to a tag has been read when the tag is met.  Of the tags
only those are noted with which sections, rows and the parts of rows begin; a text without any of them is quiet and
leaves the notes as they are (`Quiet.onto`).
-/

namespace ApiCatalog

/-- What a row of the page tells of an endpoint. -/
structure Endpoint.Row where
  method : String
  path : String
  status : Status
  tags : List String
  deriving DecidableEq

def Endpoint.row (endpoint : Endpoint) : Endpoint.Row :=
  ⟨endpoint.method, endpoint.path, endpoint.status, endpoint.tags⟩

structure Entry.Card where
  id : String
  rows : List Endpoint.Row
  deriving DecidableEq

def Entry.card (entry : Entry) : Entry.Card := ⟨entry.id, entry.endpoints.map Endpoint.row⟩

def Catalog.cards (catalog : Catalog) : List Entry.Card := catalog.entries.map Entry.card

namespace Html

/-- What was noted of a page, from its end up to some place: the tags, the status and the path that belong to the row
that the place is in, the rows of its section, and the sections behind. -/
structure Notes where
  tags : List String
  status : Status
  path : String
  rows : List Endpoint.Row
  cards : List Entry.Card

namespace Notes

def between (cards : List Entry.Card) : Notes := ⟨[], .active, "", [], cards⟩

def tagStart : List Char := "span class=\"tag\">".toList

def statusStart : List Char := "span class=\"status status-".toList

def pathStart : List Char := "span class=\"path\">".toList

def methodStart : List Char := "span class=\"method method-".toList

def entryStart : List Char := "section class=\"entry\" id=\"".toList

def starts : List (List Char) := [tagStart, statusStart, pathStart, methodStart, entryStart]

def content (text : List Char) : List Char := (text.dropWhile (· ≠ '>')).drop 1

/-- Takes note of a tag and the text behind it.  A row begins with its method, and a section with its identifier. -/
def noting (tag : List Char) (n : Notes) : Notes :=
  match Text.stripStart? tagStart tag with
  | some text => { n with tags := decoded text :: n.tags }
  | none =>
  match Text.stripStart? statusStart tag with
  | some text => { n with status := (Status.ofText? (decoded (content text))).getD .active }
  | none =>
  match Text.stripStart? pathStart tag with
  | some text => { n with path := decoded text }
  | none =>
  match Text.stripStart? methodStart tag with
  | some text => ⟨[], .active, "", ⟨decoded (content text), n.path, n.status, n.tags⟩ :: n.rows, n.cards⟩
  | none =>
  match Text.stripStart? entryStart tag with
  | some text => between (⟨decoded (text.takeWhile (· ≠ '"')), n.rows⟩ :: n.cards)
  | none => n

/-- Reads one more character in front of `text`, what was read up to the next tag. -/
def step (c : Char) : List Char × Notes → List Char × Notes
  | (text, n) => if c = '<' then ([], n.noting text) else (c :: text, n)

end Notes

/-- Reads a part of a page, with what was read behind it. -/
def onto (text : String) (r : List Char × Notes) : List Char × Notes := text.toList.foldr Notes.step r

def read (page : String) : List Entry.Card := (onto page ([], .between [])).2.cards

theorem onto_append (a b : String) (r : List Char × Notes) : onto (a ++ b) r = onto a (onto b r) := by
  rw [onto, String.toList_append, List.foldr_append, onto, onto]

theorem onto_ofList (chars : List Char) (r : List Char × Notes) :
    onto (String.ofList chars) r = chars.foldr Notes.step r := by
  rw [onto, String.toList_ofList]

theorem onto_of_not_mem {text : String} (h : '<' ∉ text.toList) (p : List Char) (n : Notes) :
    onto text (p, n) = (text.toList ++ p, n) := by
  rw [onto]
  generalize text.toList = chars at h
  induction chars with
  | nil => rfl
  | cons c chars ih =>
    rw [List.mem_cons, not_or] at h
    rw [List.foldr_cons, ih h.2, Notes.step, if_neg (Ne.symm h.1)]
    rfl

theorem onto_escape (text : String) (p : List Char) (n : Notes) :
    onto (escape text) (p, n) = ((escape text).toList ++ p, n) :=
  onto_of_not_mem (fun h => absurd (isMark_of_mem_escape h) (by decide)) p n

/-! ## Texts that are passed over -/

/-- Whether no tag in a text is one of those that are noted. -/
def quiet : List Char → Bool
  | [] => true
  | c :: text => (c != '<' || Notes.starts.all (clash · text)) && quiet text

def Quiet (text : String) : Prop := quiet text.toList = true

theorem quiet_of_avoids {text : List Char} (h : avoids Notes.starts text = true) : quiet text = true := by
  induction text with
  | nil => rfl
  | cons c text ih =>
    rw [avoids, Bool.and_eq_true] at h
    rw [quiet, h.1, ih h.2, Bool.and_true]

theorem noting_of_clash {text tag long : List Char} (h : Notes.starts.all (clash · text) = true)
    (htext : text <+: long) (htag : tag <+: long) (n : Notes) : n.noting tag = n := by
  simp only [Notes.starts, List.all_cons, List.all_nil, Bool.and_true, Bool.and_eq_true] at h
  obtain ⟨htags, hstatus, hpath, hmethod, hentry⟩ := h
  simp only [Notes.noting, stripStart?_of_clash htags htext htag, stripStart?_of_clash hstatus htext htag,
    stripStart?_of_clash hpath htext htag, stripStart?_of_clash hmethod htext htag,
    stripStart?_of_clash hentry htext htag]

/-- The text up to the next tag starts like the quiet text, as far as both go. -/
theorem exists_foldr_of_quiet (p : List Char) (n : Notes) : ∀ {chars : List Char}, quiet chars = true → ∃ p',
    chars.foldr Notes.step (p, n) = (p', n) ∧ ∃ long, chars <+: long ∧ p' <+: long
  | [], _ => ⟨p, rfl, p, List.nil_prefix, List.prefix_rfl⟩
  | c :: chars, h => by
    rw [quiet, Bool.and_eq_true, Bool.or_eq_true] at h
    obtain ⟨p', hread, long, hchars, hp⟩ := exists_foldr_of_quiet p n h.2
    rw [List.foldr_cons, hread, Notes.step]
    by_cases hc : c = '<'
    · rw [if_pos hc, noting_of_clash (h.1.resolve_left (by simp [hc])) hchars hp]
      exact ⟨[], rfl, _, List.prefix_rfl, List.nil_prefix⟩
    · rw [if_neg hc]
      exact ⟨c :: p', rfl, c :: long, List.cons_prefix_cons.2 ⟨rfl, hchars⟩, List.cons_prefix_cons.2 ⟨rfl, hp⟩⟩

/-- **A quiet text leaves the notes as they are.** -/
theorem Quiet.onto {text : String} (h : Quiet text) (p : List Char) (n : Notes) :
    ∃ p', Html.onto text (p, n) = (p', n) := by
  obtain ⟨p', hread, -⟩ := exists_foldr_of_quiet p n h
  exact ⟨p', hread⟩

end Html

end ApiCatalog
