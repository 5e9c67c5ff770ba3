import ApiCatalog.Proofs.Catalog.Stats
import ApiCatalog.Proofs.Html.Escape
import ApiCatalog.Proofs.Text.Digits
/-!
# The shape of a page

The marks of a page, that is the characters with which tags and the values of attributes begin and end, depend on
the shape of the catalog alone (`marks_page`), so that no text of a catalog can open or close any of them.
-/

namespace ApiCatalog

/-- What of an endpoint decides which parts its row has. -/
structure Endpoint.Shape where
  status : Status
  tags : Nat
  summarized : Bool
  deriving DecidableEq

def Endpoint.shape (endpoint : Endpoint) : Endpoint.Shape :=
  ⟨endpoint.status, endpoint.tags.length, (endpoint.summary.or endpoint.description).isSome⟩

/-- What of an entry decides which parts its section has. -/
structure Entry.Shape where
  version : Bool
  teamOwner : Bool
  baseUrl : Bool
  description : Bool
  endpoints : List Endpoint.Shape
  deriving DecidableEq

def Entry.shape (entry : Entry) : Entry.Shape where
  version := entry.metadata.version.isSome
  teamOwner := entry.metadata.teamOwner.isSome
  baseUrl := entry.metadata.baseUrl.isSome
  description := entry.metadata.description.isSome
  endpoints := entry.endpoints.map Endpoint.shape

def Catalog.shape (catalog : Catalog) : List Entry.Shape := catalog.entries.map Entry.shape

namespace Html

def marks (text : String) : List Char := text.toList.filter isMark

theorem marks_append (a b : String) : marks (a ++ b) = marks a ++ marks b := by
  rw [marks, String.toList_append, List.filter_append, marks, marks]

theorem marks_join (texts : List String) : marks (String.join texts) = texts.flatMap marks := by
  induction texts with
  | nil => rfl
  | cons text texts ih => rw [String.join_cons, marks_append, ih, List.flatMap_cons]

theorem marks_escape (text : String) : marks (escape text) = [] :=
  List.filter_eq_nil_iff.2 fun _ hc => Bool.eq_false_iff.1 (isMark_of_mem_escape hc)

theorem marks_toString (n : Nat) : marks (toString n) = [] := by
  have hdigits : (toString n).toList = Text.ofNat n := String.toList_ofList
  have hdigit : ∀ c : Char, c.isDigit = true → isMark c = false := by
    intro c hc
    simp only [isMark, Bool.or_eq_false_iff, beq_eq_false_iff_ne]
    refine ⟨⟨⟨?_, ?_⟩, ?_⟩, ?_⟩ <;> rintro rfl <;> exact absurd hc (by decide)
  rw [marks, hdigits]
  exact List.filter_eq_nil_iff.2 fun c hc => Bool.eq_false_iff.1 (hdigit c (Text.isDigit_of_mem_ofNat hc))

/-- A part that is there or not has the same marks whatever its text is. -/
theorem marks_elim (text : Option String) (before after : String) :
    marks (text.elim "" fun text => before ++ escape text ++ after) =
      if text.isSome then marks before ++ marks after else [] := by
  cases text with
  | none => rfl
  | some text => simp only [Option.elim_some, marks_append, marks_escape, List.append_nil, Option.isSome_some, if_true]

theorem marks_join_map {α : Type} {f : α → String} {common : List Char} (h : ∀ x, marks (f x) = common) (xs : List α) :
    marks (String.join (xs.map f)) = (List.replicate xs.length common).flatten := by
  rw [marks_join, List.flatMap_map, funext h, List.flatMap_def, List.map_const']

theorem marks_join_congr {α σ : Type} {shape : α → σ} {f : α → String}
    (h : ∀ x y, shape x = shape y → marks (f x) = marks (f y)) {xs ys : List α} (hshape : xs.map shape = ys.map shape) :
    marks (String.join (xs.map f)) = marks (String.join (ys.map f)) := by
  induction xs generalizing ys with
  | nil => rw [List.map_eq_nil_iff.1 hshape.symm]
  | cons x xs ih =>
    obtain ⟨y, ys, rfl, hxy, hrest⟩ := List.map_eq_cons_iff.1 hshape.symm
    simp only [List.map_cons, String.join_cons, marks_append]
    rw [h x y hxy.symm, ih hrest.symm]

theorem marks_endpointRow {e e' : Endpoint} (h : e.shape = e'.shape) :
    marks (endpointRow e) = marks (endpointRow e') := by
  have htag : ∀ tag, marks (" <span class=\"tag\">" ++ escape tag ++ "</span>") =
      marks " <span class=\"tag\">" ++ marks "</span>" := by
    intro tag
    simp only [marks_append, marks_escape, List.append_nil]
  simp only [Endpoint.shape, Endpoint.Shape.mk.injEq] at h
  obtain ⟨hstatus, htags, hsummarized⟩ := h
  unfold endpointRow
  simp only [marks_append, marks_escape, marks_elim, marks_join_map htag]
  rw [hstatus, htags, hsummarized]

theorem marks_entrySection {e e' : Entry} (h : e.shape = e'.shape) :
    marks (entrySection e) = marks (entrySection e') := by
  simp only [Entry.shape, Entry.Shape.mk.injEq] at h
  obtain ⟨hversion, howner, hurl, hdescription, hendpoints⟩ := h
  unfold entrySection
  simp only [marks_append, marks_escape, marks_elim]
  rw [hversion, howner, hurl, hdescription, marks_join_congr (fun _ _ => marks_endpointRow) hendpoints]

theorem statuses_of_shape {c c' : Catalog} (h : c.shape = c'.shape) :
    c.endpoints.map (·.status) = c'.endpoints.map (·.status) := by
  have hstatuses : ∀ entries : List Entry, (entries.flatMap (·.endpoints)).map (·.status) =
      (entries.map Entry.shape).flatMap fun shape => shape.endpoints.map (·.status) := by
    intro entries
    simp [List.map_flatMap, List.flatMap_map, Entry.shape, Endpoint.shape, Function.comp_def]
  rw [Catalog.endpoints, Catalog.endpoints, hstatuses, hstatuses]
  exact congrArg _ h

theorem byStatus_stats (c : Catalog) :
    c.stats.byStatus = (c.endpoints.map (·.status)).foldl (fun tally status => Tally.count status.text tally) [] := by
  rw [Catalog.byStatus_stats, Tally.ofTexts, List.foldl_map, List.foldl_map]

theorem marks_header {c c' : Catalog} (h : c.shape = c'.shape) : marks (header c) = marks (header c') := by
  have hcount : ∀ count : String × Nat, marks ("<span>" ++ toString count.2 ++ " " ++ escape count.1 ++ "</span>") =
      marks "<span>" ++ marks " " ++ marks "</span>" := by
    intro count
    simp only [marks_append, marks_escape, marks_toString, List.append_nil]
  unfold header
  simp only [marks_append, marks_escape, marks_toString, marks_join_map hcount]
  rw [byStatus_stats, byStatus_stats, statuses_of_shape h]

/-- **The marks of a page depend on the shape of the catalog alone.** -/
theorem marks_page (c c' : Catalog) (h : c.shape = c'.shape) : marks (page c) = marks (page c') := by
  unfold page
  simp only [marks_append]
  rw [marks_header h, marks_join_congr (fun _ _ => marks_entrySection) h]

/-- Texts that would end an attribute, a text or the page make no difference. -/
theorem marks_page_of_injection :
    let plain : Catalog := ⟨⟨0, 0⟩, [⟨"", { Metadata.blank with version := some "" },
      [{ Endpoint.plain "" "" with summary := some "", tags := [""], status := .beta }]⟩]⟩
    let hostile : Catalog := ⟨⟨1, 0⟩, [⟨"\" onclick='",
      { Metadata.blank with version := some "</small>", title := some "<b>" },
      [{ Endpoint.plain "\">" "</body>" with description := some "<!--", tags := ["<script>"], status := .beta }]⟩]⟩
    plain.shape = hostile.shape ∧ marks (page plain) = marks (page hostile) :=
  ⟨rfl, marks_page _ _ rfl⟩

end Html

end ApiCatalog
