import ApiCatalog.Proofs.Html.Template
/-!
# Reading a page

A reader recovers from the page of a catalog every entry with its identifier and every endpoint of it with method, path,
status and tags (`read_page`): a row is read as its endpoint, a section as its entry, and all else is quiet.
-/

namespace ApiCatalog.Html

/-! ## Rows and sections -/

theorem exists_foldr_of_avoids {chars : List Char} (h : avoids openings chars = true) (p : List Char) (n : Notes) :
    ∃ p', chars.foldr Notes.step (p, n) = (p', n) := by
  obtain ⟨p', hread, -⟩ := exists_foldr_of_quiet p n
    (quiet_of_avoids (avoids_mono (List.subset_cons_self rowStart Notes.starts) h))
  exact ⟨p', hread⟩

theorem onto_close (p : List Char) (n : Notes) : onto "</span>" (p, n) = ([], n) := (onto_ofList _ _).trans rfl

theorem onto_tag (tag : String) (p : List Char) (n : Notes) :
    onto (" <span class=\"tag\">" ++ escape tag ++ "</span>") (p, n) = ([' '], { n with tags := tag :: n.tags }) := by
  have hopen : ∀ p n, onto " <span class=\"tag\">" (p, n) = ([' '], { n with tags := decoded p :: n.tags }) :=
    fun p n => (onto_ofList _ _).trans rfl
  rw [onto_append, onto_append, onto_close, onto_escape, hopen, List.append_nil, decoded_escape]

theorem onto_tags (p : List Char) (n : Notes) : ∀ tags : List String, ∃ p',
    onto (String.join (tags.map fun tag => " <span class=\"tag\">" ++ escape tag ++ "</span>")) (p, n) =
      (p', { n with tags := tags ++ n.tags })
  | [] => ⟨p, rfl⟩
  | tag :: tags => by
    obtain ⟨p', hread⟩ := onto_tags p n tags
    rw [List.map_cons, String.join_cons, onto_append, hread, onto_tag]
    exact ⟨_, rfl⟩

/-- An active endpoint has no badge, and a row without one is read as that of an active endpoint. -/
theorem onto_statusBadge (status : Status) (p : List Char) (tags : List String) (path : String)
    (rows : List Endpoint.Row) (cards : List Entry.Card) :
    ∃ p', onto (statusBadge status) (p, ⟨tags, .active, path, rows, cards⟩) =
      (p', ⟨tags, status, path, rows, cards⟩) := by
  cases status with
  | active => exact ⟨p, rfl⟩
  | deprecated => exact ⟨[' '], rfl⟩
  | beta => exact ⟨[' '], rfl⟩
  | internal => exact ⟨[' '], rfl⟩

theorem content_escape (before text : String) :
    Notes.content ((escape before).toList ++ '"' :: '>' :: (escape text).toList) = (escape text).toList := by
  have hbefore : ∀ c ∈ (escape before).toList ++ ['"'], decide (c ≠ '>') = true := by
    intro c hc
    rcases List.mem_append.1 hc with hc | hc
    · exact decide_eq_true (by rintro rfl; exact absurd (isMark_of_mem_escape hc) (by decide))
    · rw [List.mem_singleton.1 hc]
      decide
  rw [Notes.content, List.append_cons, List.dropWhile_append_of_pos hbefore]
  rfl

/-- **A row is read as its endpoint.** -/
theorem onto_endpointRow (e : Endpoint) (p : List Char) (rows : List Endpoint.Row) (cards : List Entry.Card) :
    onto (endpointRow e) (p, ⟨[], .active, "", rows, cards⟩) = ([], ⟨[], .active, "", e.row :: rows, cards⟩) := by
  have hend : Quiet "</div>\n" := quiet_of_avoids (avoids_ofList (by decide +kernel))
  have hsummary : Quiet ((e.summary.or e.description).elim "" fun text =>
      " <span class=\"summary\">" ++ escape text ++ "</span>") :=
    quiet_of_avoids (avoids_elim (avoids_ofList (by decide +kernel)) (avoids_ofList (by decide +kernel)) _)
  have hpath : ∀ p n, onto "</span> <span class=\"path\">" (p, n) = ([], { n with path := decoded p }) :=
    fun p n => (onto_ofList _ _).trans rfl
  have hclose : ∀ p n, onto "\">" (p, n) = ('"' :: '>' :: p, n) := fun p n => (onto_ofList _ _).trans rfl
  have hmethod : ∀ p n, onto "\"><span class=\"method method-" (p, n) = (['"', '>'], ⟨[], .active, "",
      ⟨decoded (Notes.content p), n.path, n.status, n.tags⟩ :: n.rows, n.cards⟩) :=
    fun p n => (onto_ofList _ _).trans rfl
  have hstart : ∀ p n, onto "<div class=\"endpoint\" data-search=\"" (p, n) = ([], n) :=
    fun p n => (onto_ofList _ _).trans rfl
  unfold endpointRow
  simp only [onto_append]
  obtain ⟨p, hp⟩ := hend.onto p ⟨[], .active, "", rows, cards⟩
  rw [hp]
  obtain ⟨p, hp⟩ := onto_tags p ⟨[], .active, "", rows, cards⟩ e.tags
  rw [hp, List.append_nil]
  obtain ⟨p, hp⟩ := hsummary.onto p ⟨e.tags, .active, "", rows, cards⟩
  rw [hp]
  obtain ⟨p, hp⟩ := onto_statusBadge e.status p e.tags "" rows cards
  rw [hp, onto_close, onto_escape, hpath, onto_escape, hclose, onto_escape, hmethod, onto_escape, hstart]
  simp only [List.append_nil, content_escape, decoded_escape]
  rfl

theorem onto_endpointRows (p : List Char) (cards : List Entry.Card) : ∀ endpoints : List Endpoint, ∃ p',
    onto (String.join (endpoints.map endpointRow)) (p, .between cards) =
      (p', ⟨[], .active, "", endpoints.map Endpoint.row, cards⟩)
  | [] => ⟨p, rfl⟩
  | e :: endpoints => by
    obtain ⟨p', hp⟩ := onto_endpointRows p cards endpoints
    rw [List.map_cons, String.join_cons, onto_append, hp, onto_endpointRow]
    exact ⟨_, rfl⟩

/-- **A section is read as its entry.** -/
theorem onto_entrySection (e : Entry) (p : List Char) (cards : List Entry.Card) :
    onto (entrySection e) (p, .between cards) = ([], .between (e.card :: cards)) := by
  have hstart : ∀ p n, Notes.step '<' (Notes.entryStart.foldr Notes.step (p, n)) =
      ([], .between (⟨decoded (p.takeWhile (· ≠ '"')), n.rows⟩ :: n.cards)) := fun p n => rfl
  obtain ⟨front, back, hfront, hback, htext⟩ := exists_entrySection e
  rw [onto, htext]
  simp only [List.foldr_append, List.foldr_cons]
  obtain ⟨p, hp⟩ := exists_foldr_of_avoids hback p (.between cards)
  rw [hp]
  obtain ⟨p, hp⟩ := onto_endpointRows p cards e.endpoints
  rw [onto] at hp
  rw [hp]
  -- Between the rows and the identifier nothing is noted.
  generalize hn : (⟨[], .active, "", e.endpoints.map Endpoint.row, cards⟩ : Notes) = n
  obtain ⟨p, hp⟩ := exists_foldr_of_avoids hfront p n
  have hquote : Notes.step '"' (p, n) = ('"' :: p, n) := rfl
  have hid := onto_escape e.id ('"' :: p) n
  rw [onto] at hid
  rw [hp, hquote, hid, hstart, takeWhile_escape, decoded_escape, ← hn]
  rfl

theorem onto_entrySections (p : List Char) : ∀ entries : List Entry, ∃ p',
    onto (String.join (entries.map entrySection)) (p, .between []) = (p', .between (entries.map Entry.card))
  | [] => ⟨p, rfl⟩
  | e :: entries => by
    obtain ⟨p', hp⟩ := onto_entrySections p entries
    rw [List.map_cons, String.join_cons, onto_append, hp, onto_entrySection]
    exact ⟨_, rfl⟩

/-! ## The page -/

theorem read_page_eq (c : Catalog) : read (page c) = c.cards := by
  obtain ⟨front, back, hfront, hback, htext⟩ := exists_page c
  rw [read, onto, htext, List.foldr_append, List.foldr_append]
  obtain ⟨p, hp⟩ := exists_foldr_of_avoids hback [] (.between [])
  rw [hp]
  obtain ⟨p, hp⟩ := onto_entrySections p c.entries
  rw [onto] at hp
  rw [hp]
  obtain ⟨p, hp⟩ := exists_foldr_of_avoids hfront p (.between (c.entries.map Entry.card))
  rw [hp]
  rfl

/-- **A reader recovers every entry and every endpoint from a page, and so pages differ where catalogs differ in one of
them.** -/
theorem read_page : (∀ c : Catalog, read (page c) = c.cards) ∧
    ∀ c c' : Catalog, page c = page c' → c.cards = c'.cards := by
  refine ⟨read_page_eq, fun c c' h => ?_⟩
  rw [← read_page_eq, h, read_page_eq]

/-- Two catalogs that differ in what a page does not show have the same page, here with a path that looks like a row of
its own. -/
theorem read_page_of_rows :
    let shown : Endpoint :=
      { Endpoint.plain "GET" "</span><div class=\"endpoint\">" with tags := ["a</span>", "\"b\" &amp; c"] }
    let beta : Endpoint := { shown with status := .beta }
    let c : Catalog := ⟨⟨0, 0⟩, [⟨"s", Metadata.blank, [shown, beta]⟩]⟩
    let c' : Catalog := ⟨⟨0, 0⟩, [⟨"s", Metadata.blank, [{ shown with parameters := [.null] }, beta]⟩]⟩
    read (page c) = c.cards ∧ page c = page c' ∧ c.cards = c'.cards := by
  intro shown beta c c'
  have hpage : page c = page c' := rfl
  exact ⟨read_page.1 c, hpage, read_page.2 c c' hpage⟩

end ApiCatalog.Html
