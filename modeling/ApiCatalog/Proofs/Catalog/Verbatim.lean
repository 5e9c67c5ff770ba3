import ApiCatalog.Proofs.Catalog.Search
import ApiCatalog.Proofs.Text.Sigma
/-!
# Queries that stand in a text as they are

A query that stands in a text of an endpoint character by character finds the endpoint where its capital sigmas end words
of the text as they end words of the query (`search_verbatim`).  So it always does unless a capital sigma dangles in the
query, and a query in which one does misses an endpoint that has it in its path.
-/

namespace ApiCatalog.Catalog

theorem mem_searchEntries_of_keepsSigmas {catalog : Catalog} {row : Entry × Endpoint} (hrow : row ∈ catalog.rows)
    {text query : String} (htext : row.2.HasText text) {before after : List Char}
    (hplace : text.toList = before ++ (query.toList ++ after))
    (hkeeps : Text.KeepsSigmas before query.toList after) : row ∈ catalog.searchEntries query :=
  mem_searchEntries.2 ⟨hrow, text, htext, hplace ▸ Text.infix_lowercase_of_keepsSigmas hkeeps⟩

/-- What has a capital sigma is lowered to a text with one of the two small ones. -/
theorem exists_sigma_of_dangles {text : List Char} (h : Text.Dangles text) : 'ς' ∈ Text.lowercase text ∨
    'σ' ∈ Text.lowercase text := by
  obtain ⟨front, back, rfl, -⟩ := h
  rw [Text.lowercase_eq, Text.lowerBetween_sigma]
  split <;> simp

/-- **Which queries find what they stand in.**  An endpoint is found where the capital sigmas of the query are kept in a
text of it, and they are kept everywhere exactly if none dangles.  A query in which one does misses an endpoint with
the query in its path, whatever the catalog. -/
theorem search_verbatim (query : String) :
    (∀ (catalog : Catalog) (entry : Entry) (endpoint : Endpoint), (entry, endpoint) ∈ catalog.rows →
      ∀ text, endpoint.HasText text → ∀ before after, text.toList = before ++ (query.toList ++ after) →
        Text.KeepsSigmas before query.toList after →
          (entry, endpoint) ∈ catalog.searchEntries query ∧
          (entry, endpoint) ∈ catalog.searchEntriesWithMethod query ∧ endpoint ∈ catalog.search query) ∧
    ((∀ before after, Text.KeepsSigmas before query.toList after) ↔ ¬ Text.Dangles query.toList) ∧
    (Text.Dangles query.toList → ∃ path : String, query.toList <:+: path.toList ∧
      ∀ (catalog : Catalog) (entry : Entry),
        (entry, Endpoint.plain "GET" path) ∉ catalog.searchEntriesWithMethod query ∧
        Endpoint.plain "GET" path ∉ catalog.search query) := by
  refine ⟨fun catalog entry endpoint hrow text htext before after hplace hkeeps => ?_, Text.forall_keepsSigmas_iff,
    fun hdangles => ?_⟩
  · have hfound := mem_searchEntries_of_keepsSigmas hrow htext hplace hkeeps
    exact ⟨hfound, (catalog.searchEntries_sublist query).subset hfound, List.mem_map_of_mem hfound⟩
  · obtain ⟨text, hwithin, hmissed⟩ := Text.exists_missed_of_dangles hdangles
    have hpath : (String.ofList text).toList = text := String.toList_ofList
    have hmentions : ¬ (Endpoint.plain "GET" (String.ofList text)).Mentions (Text.lowercase query.toList) := by
      rintro ⟨other, hother, hfound⟩
      obtain rfl : other = String.ofList text := by simpa [Endpoint.HasText, Endpoint.plain] using hother
      exact hmissed (hpath ▸ hfound)
    have hanswers : ¬ (Endpoint.plain "GET" (String.ofList text)).Answers (Text.lowercase query.toList) := by
      intro hfound
      have hget : 'ς' ∉ Text.lowercase "GET".toList ∧ 'σ' ∉ Text.lowercase "GET".toList := by decide +kernel
      exact (exists_sigma_of_dangles hdangles).elim (fun h => hget.1 (hfound.subset h)) fun h => hget.2 (hfound.subset h)
    refine ⟨String.ofList text, hpath.symm ▸ hwithin, fun catalog entry => ⟨fun hfound => ?_, fun hfound => ?_⟩⟩
    · exact (mem_searchEntriesWithMethod.1 hfound).2.elim hanswers hmentions
    · obtain ⟨row, hrow, hsame⟩ := List.mem_map.1 hfound
      exact hmentions (hsame ▸ (mem_searchEntries.1 hrow).2)

/-- The end of a word is found in a path, and the start of it is not where a capital sigma comes last in it. -/
theorem search_verbatim_of_words :
    let endpoint := Endpoint.plain "GET" "/ΚΟΣΜΟΣ/\x7bid\x7d"
    let entry : Entry := ⟨"a", Metadata.blank, [endpoint]⟩
    let catalog : Catalog := ⟨⟨0, 0⟩, [entry]⟩
    (entry, endpoint) ∈ catalog.searchEntries "ΜΟΣ" ∧ endpoint ∈ catalog.search "ΜΟΣ" ∧
      ∃ path : String, "ΚΟΣ".toList <:+: path.toList ∧ Endpoint.plain "GET" path ∉ catalog.search "ΚΟΣ" := by
  intro endpoint entry catalog
  have hkeeps : Text.KeepsSigmas "/ΚΟΣ".toList "ΜΟΣ".toList "/\x7bid\x7d".toList :=
    Text.keepsSigmas_iff.2 (by decide +kernel)
  obtain ⟨hfound, -, hsearch⟩ := (search_verbatim "ΜΟΣ").1 catalog entry endpoint (by simp [catalog, entry, rows])
    endpoint.path (.inl rfl) _ _ (by decide) hkeeps
  have hdangles : Text.Dangles "ΚΟΣ".toList := ⟨"ΚΟ".toList, [], by decide, .inr ⟨by decide +kernel, List.forall_mem_nil _⟩⟩
  obtain ⟨path, hwithin, hmissed⟩ := (search_verbatim "ΚΟΣ").2.2 hdangles
  exact ⟨hfound, hsearch, path, hwithin, (hmissed catalog entry).2⟩

/-- **The start of a word does not find the word** if its last letter is a capital sigma. -/
theorem not_search_verbatim :
    let endpoint := Endpoint.plain "GET" "/ΚΟΣΜΟΣ"
    let catalog : Catalog := ⟨⟨0, 0⟩, [⟨"a", Metadata.blank, [endpoint]⟩]⟩
    endpoint ∈ catalog.endpoints ∧ "ΚΟΣ".toList <:+: endpoint.path.toList ∧ catalog.search "ΚΟΣ" = [] ∧
      catalog.searchEntriesWithMethod "ΚΟΣ" = [] := by
  intro endpoint catalog
  refine ⟨List.mem_singleton_self _, by decide, ?_, ?_⟩
  · exact List.isEmpty_iff.1 (by decide +kernel)
  · exact List.isEmpty_iff.1 (by decide +kernel)

end ApiCatalog.Catalog
