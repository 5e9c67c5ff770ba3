import ApiCatalog.CommandLine.Run
import ApiCatalog.Proofs.Catalog.Document
import ApiCatalog.Proofs.Catalog.Storage
import ApiCatalog.Proofs.Text.Digits
import ApiCatalog.Proofs.Text.Lines
/-!
# Rows of a search

A search prints one row for each hit, in their order, and their number behind them, or one line that says that there are
none.  A row shows the summary or description on one line, and method, path and source as they are, so that each row is
a line if and only if none of these has a line feed (`run_search`).
-/

namespace ApiCatalog.CommandLine

open Text (InLines ofLines)

/-- The texts of a hit that are shown as they are. -/
def verbatim (hit : Entry × Endpoint) : List String := [hit.2.method, hit.2.path, hit.1.metadata.sourceFile]

def row (hit : Entry × Endpoint) : List Char :=
  Text.join [' '] [
    Text.filled 7 hit.2.method.toList,
    Text.filled 40 hit.2.path.toList,
    Text.filled 80 (snippet hit.2),
    hit.1.metadata.sourceFile.toList]

/-- The line that says how many hits there are. -/
def total (hits : List (Entry × Endpoint)) : List Char := (toString hits.length ++ " matching endpoints").toList

def unmatched (query : String) : List Char := ("No endpoints match '" ++ query ++ "'").toList

theorem toList_hitLine (hit : Entry × Endpoint) : (hitLine hit).toList = row hit ++ ['\n'] := by
  rw [hitLine, String.toList_append, String.toList_ofList]
  rfl

theorem toList_rows (hits : List (Entry × Endpoint)) :
    (String.join (hits.map hitLine)).toList = ofLines (hits.map row) := by
  rw [String.toList_join, List.flatMap_map, ofLines, List.flatMap_map]
  exact List.flatMap_congr fun hit _ => toList_hitLine hit

section
variable {catalog : Catalog} {query : String}

theorem toList_report_unmatched (h : catalog.searchEntriesWithMethod query = []) :
    (searchReport catalog query).toList = ofLines [unmatched query] := by
  simp only [searchReport, h, ofLines, List.flatMap_singleton, unmatched, String.toList_append, List.append_assoc]
  rfl

theorem toList_report_hits (h : catalog.searchEntriesWithMethod query ≠ []) : (searchReport catalog query).toList =
    ofLines ((catalog.searchEntriesWithMethod query).map row ++ [total (catalog.searchEntriesWithMethod query)]) := by
  have hreport : searchReport catalog query = String.join ((catalog.searchEntriesWithMethod query).map hitLine) ++
      toString (catalog.searchEntriesWithMethod query).length ++ " matching endpoints\n" := by
    rw [searchReport]
    split
    · contradiction
    · rfl
  rw [hreport, Text.ofLines_append, ← toList_rows, String.toList_append, String.toList_append, List.append_assoc]
  simp only [ofLines, List.flatMap_singleton, total, String.toList_append, List.append_assoc]
  rfl

end

/-! ## Line feeds -/

theorem count_filled {c : Char} (hc : c ≠ ' ') (width : ℕ) (text : List Char) :
    (Text.filled width text).count c = text.count c := by
  rw [Text.filled, List.count_append, List.count_replicate, if_neg (by simpa using hc.symm), Nat.add_zero]

theorem feed_notMem_snippet (endpoint : Endpoint) : '\n' ∉ snippet endpoint := by
  rw [snippet, List.mem_map]
  rintro ⟨c, -, hc⟩
  split at hc
  · cases hc
  · contradiction

/-- A row has the line feeds of the texts that are shown as they are. -/
theorem count_row (hit : Entry × Endpoint) :
    (row hit).count '\n' = ((verbatim hit).map fun text => text.toList.count '\n').sum := by
  have hspace : '\n' ≠ ' ' := by decide
  have hsnippet : (snippet hit.2).count '\n' = 0 := List.count_eq_zero.2 (feed_notMem_snippet hit.2)
  simp only [row, Text.join, List.intersperse_cons_cons, List.intersperse_singleton, List.flatten_cons,
    List.flatten_nil, List.append_nil, List.count_append, count_filled hspace, hsnippet, List.count_singleton,
    verbatim, List.map_cons, List.map_nil, List.sum_cons, List.sum_nil]
  simp

theorem feed_notMem_row {hit : Entry × Endpoint} : '\n' ∉ row hit ↔ ∀ text ∈ verbatim hit, '\n' ∉ text.toList := by
  simp only [← List.count_eq_zero, count_row, List.sum_eq_zero_iff, List.forall_mem_map]

theorem feed_notMem_total (hits : List (Entry × Endpoint)) : '\n' ∉ total hits := by
  have hdigits : (toString hits.length).toList = Text.ofNat hits.length := String.toList_ofList
  rw [total, String.toList_append, hdigits, List.mem_append, not_or]
  exact ⟨fun h => absurd (Text.isDigit_of_mem_ofNat h) (by decide), by decide⟩

theorem feed_notMem_unmatched {query : String} (h : '\n' ∉ query.toList) : '\n' ∉ unmatched query := by
  simp only [unmatched, String.toList_append, List.mem_append, h, or_false]
  decide

/-! ## Runs -/

theorem run_search_eq {arguments : List String} {path : Path} {query : String}
    (harguments : Command.ofArguments arguments = .ok (.search path query)) {tree : Node} {catalog : Catalog}
    (hload : Catalog.load tree path = .ok catalog) (now : Instant) :
    run arguments tree now = (tree, .done (searchReport catalog query) none) := by
  rw [run, harguments]
  dsimp only
  rw [Command.run, runReport, hload]

/-- **A search prints a line for each hit and one line behind them, if and only if no method, path or source of a hit
has a line feed.**  A line feed in a summary or description does not break the row. -/
theorem run_search {arguments : List String} {path : Path} {query : String}
    (harguments : Command.ofArguments arguments = .ok (.search path query)) (hquery : '\n' ∉ query.toList)
    {tree : Node} {catalog : Catalog} (hload : Catalog.load tree path = .ok catalog) (now : Instant) :
    let hits := catalog.searchEntriesWithMethod query
    ∃ printed, run arguments tree now = (tree, .done printed none) ∧
      (hits = [] → InLines printed.toList [unmatched query]) ∧
      (hits ≠ [] →
        (InLines printed.toList (hits.map row ++ [total hits]) ↔
          ∀ hit ∈ hits, ∀ text ∈ verbatim hit, '\n' ∉ text.toList) ∧
        ((∃ lines, InLines printed.toList lines ∧ lines.length = hits.length + 1) ↔
          ∀ hit ∈ hits, ∀ text ∈ verbatim hit, '\n' ∉ text.toList)) := by
  intro hits
  have hpieces : (∀ piece ∈ hits.map row ++ [total hits], '\n' ∉ piece) ↔
      ∀ hit ∈ hits, ∀ text ∈ verbatim hit, '\n' ∉ text.toList := by
    simp only [List.forall_mem_append, List.forall_mem_map, List.forall_mem_singleton, feed_notMem_total,
      not_false_eq_true, and_true, feed_notMem_row]
  refine ⟨_, run_search_eq harguments hload now, fun hnone => ?_, fun hsome => ?_⟩
  · rw [toList_report_unmatched hnone, Text.inLines_ofLines_iff, List.forall_mem_singleton]
    exact feed_notMem_unmatched hquery
  · have hlength : (hits.map row ++ [total hits]).length = hits.length + 1 := by simp
    rw [toList_report_hits hsome, Text.inLines_ofLines_iff, ← hlength, Text.exists_inLines_iff]
    exact ⟨hpieces, hpieces⟩

/-! ## A search for one endpoint -/

namespace Lone

def catalog (endpoint : Endpoint) : Catalog := ⟨⟨0, 0⟩, [⟨"a", Metadata.blank, [endpoint]⟩]⟩

def hit (endpoint : Endpoint) : Entry × Endpoint := (⟨"a", Metadata.blank, [endpoint]⟩, endpoint)

def tree (endpoint : Endpoint) : Node :=
  .folder [(Name.ofText "c.json", .file (catalog endpoint).toJson.toUTF8 ⟨0, 0⟩)]

theorem load_tree {endpoint : Endpoint} (hparameters : endpoint.parameters = [])
    (hresponses : endpoint.responses = []) :
    Catalog.load (tree endpoint) (.ofText "c.json") = .ok (catalog endpoint) := by
  have hlocate : (tree endpoint).locate (.ofText "c.json") =
      .ok ([Name.ofText "c.json"], .file (catalog endpoint).toJson.toUTF8 ⟨0, 0⟩) := rfl
  have hnow : (⟨0, 0⟩ : Instant).Valid := ⟨by decide, by decide⟩
  have hkeys : endpoint.DistinctKeys := by
    simp [Endpoint.DistinctKeys, hparameters, hresponses, Json.Value.DistinctKeys, Json.Value.ItemsDistinct,
      Json.Value.MembersDistinct]
  have hentry : (⟨"a", Metadata.blank, [endpoint]⟩ : Entry).Valid :=
    ⟨fun _ h => (by cases h), List.forall_mem_singleton.2 hkeys⟩
  have hvalid : (catalog endpoint).Valid := ⟨hnow, List.forall_mem_singleton.2 hentry⟩
  have hendpoints : (catalog endpoint).endpoints = [endpoint] := rfl
  rw [Catalog.load_eq_ok_iff (Node.readText_of_locate hlocate), Catalog.ofJson_toJson_eq_self hvalid,
    Catalog.nesting_le_maxDepth, hendpoints]
  have hnumbers : (catalog endpoint).numbers = [] := by
    simp [Catalog.numbers, hendpoints, Endpoint.numbers, hparameters, hresponses, Json.Value.numbers,
      Json.Value.itemNumbers, Json.Value.memberNumbers]
  rw [List.forall_mem_singleton, hparameters, hresponses, hnumbers]
  exact ⟨by decide, List.forall_mem_nil _⟩

theorem hits_catalog {endpoint : Endpoint} {query : String}
    (h : endpoint.holds (Text.lowercase query.toList) = true) :
    (catalog endpoint).searchEntriesWithMethod query = [hit endpoint] := by
  have hrows : (catalog endpoint).rows = [hit endpoint] := rfl
  rw [Catalog.searchEntriesWithMethod, hrows]
  exact List.filter_eq_self.2 (List.forall_mem_singleton.2 (by simp [hit, h]))

theorem search_arguments : Command.ofArguments ["search", "c.json", "a"] = .ok (.search (.ofText "c.json") "a") := by
  decide +kernel

end Lone

open Lone in
theorem run_search_of_summary :
    let endpoint := { Endpoint.plain "GET" "/a" with summary := some "One\nTwo" }
    Command.ofArguments ["search", "c.json", "a"] = .ok (.search (.ofText "c.json") "a") ∧
    Catalog.load (tree endpoint) (.ofText "c.json") = .ok (catalog endpoint) ∧
    (catalog endpoint).searchEntriesWithMethod "a" = [hit endpoint] ∧
    ∃ printed, run ["search", "c.json", "a"] (tree endpoint) ⟨0, 0⟩ = (tree endpoint, .done printed none) ∧
      InLines printed.toList [row (hit endpoint), total [hit endpoint]] := by
  intro endpoint
  have hload : Catalog.load (tree endpoint) (.ofText "c.json") = .ok (catalog endpoint) := load_tree rfl rfl
  have hhits : (catalog endpoint).searchEntriesWithMethod "a" = [hit endpoint] := hits_catalog (by decide +kernel)
  obtain ⟨printed, hrun, -, hsome⟩ := run_search search_arguments (by decide) hload ⟨0, 0⟩
  rw [hhits] at hsome
  obtain ⟨hlines, -⟩ := hsome (List.cons_ne_nil _ _)
  refine ⟨search_arguments, hload, hhits, printed, hrun, hlines.2 ?_⟩
  exact List.forall_mem_singleton.2 (by decide +kernel)

open Lone in
/-- **A path with a line feed breaks its row.** -/
theorem not_run_search :
    let endpoint := Endpoint.plain "GET" "/a\n/b"
    Command.ofArguments ["search", "c.json", "a"] = .ok (.search (.ofText "c.json") "a") ∧ '\n' ∉ "a".toList ∧
    Catalog.load (tree endpoint) (.ofText "c.json") = .ok (catalog endpoint) ∧
    (catalog endpoint).searchEntriesWithMethod "a" = [hit endpoint] ∧
    ∃ printed, run ["search", "c.json", "a"] (tree endpoint) ⟨0, 0⟩ = (tree endpoint, .done printed none) ∧
      ¬ ∃ lines, InLines printed.toList lines ∧ lines.length = [hit endpoint].length + 1 := by
  intro endpoint
  have hload : Catalog.load (tree endpoint) (.ofText "c.json") = .ok (catalog endpoint) := load_tree rfl rfl
  have hhits : (catalog endpoint).searchEntriesWithMethod "a" = [hit endpoint] := hits_catalog (by decide +kernel)
  refine ⟨search_arguments, by decide, hload, hhits, _, run_search_eq search_arguments hload _, fun hlines => ?_⟩
  rw [toList_report_hits (hhits.trans_ne (List.cons_ne_nil _ _)), hhits] at hlines
  have hrow := (@Text.exists_inLines_iff [row (hit endpoint), total [hit endpoint]]).1 hlines _ List.mem_cons_self
  exact feed_notMem_row.1 hrow endpoint.path (by simp [verbatim, hit]) (by decide)

end ApiCatalog.CommandLine
