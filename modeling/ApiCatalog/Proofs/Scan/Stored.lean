import ApiCatalog.CommandLine.Run
import ApiCatalog.Proofs.Catalog.Stats
import ApiCatalog.Proofs.Catalog.Storage
import ApiCatalog.Proofs.Extract.Opaque
import ApiCatalog.Proofs.Scan.Entries
/-!
# Scans that are stored

The catalog of a scan that was written to a path is loaded from there if what its endpoints keep of specifications is not
nested too deep for its place in the catalog and has no float that is read as another one, and is not loaded otherwise
(`load_scanned`).
-/

namespace ApiCatalog

open Json (Value Number)

/-- The times of all files can be written. -/
def Node.Dated (root : Node) : Prop :=
  ∀ place content modified, root.at? place = some (.file content modified) → modified.Valid

/-- The opaque values of the endpoint are nested no deeper than the levels that are left for them in a catalog, and
the text of each of their floats is read as the float. -/
structure Endpoint.Storable (endpoint : Endpoint) : Prop where
  parameters : (Value.array endpoint.parameters).nesting ≤ 122
  responses : (Value.object endpoint.responses).nesting ≤ 122
  reals : ∀ x, .real x ∈ endpoint.numbers → Json.parse (Number.real x).text = .ok (.number (.real x))

/-- **The catalog of a scan is one that its document stands for**, and its opaque values are as values are read. -/
theorem valid_of_scan {tree : Node} (hdated : tree.Dated) {options : ScanOptions} {root : Path} {now : Instant}
    (hnow : now.Valid) {excludes : Ignore.Excludes} {catalog : Catalog}
    (h : scan tree .builtin options root now excludes = .ok catalog) :
    catalog.Valid ∧ ∀ endpoint ∈ catalog.endpoints, endpoint.Sound := by
  obtain ⟨files, hfiles, h⟩ := Json.bind_eq_ok h
  cases h
  have hentry : ∀ entry ∈ files.filterMap (fun file => Registry.builtin.dispatch tree file options.teamOwner),
      (∀ instant ∈ entry.metadata.lastUpdated, instant.Valid) ∧ ∀ endpoint ∈ entry.endpoints, endpoint.Sound := by
    intro entry hentry
    obtain ⟨file, -, hdispatch⟩ := List.mem_filterMap.1 hentry
    refine ⟨fun instant hinstant => ?_, Registry.sound_of_dispatch hdispatch⟩
    obtain ⟨place, content, modified, hlocate⟩ := Registry.locate_of_dispatch hdispatch
    rw [(Registry.marked_of_dispatch hdispatch).lastUpdated, Node.modified?, Node.node?, hlocate] at hinstant
    cases hinstant
    exact hdated place content _ (Node.at?_of_locate hlocate)
  constructor
  · exact ⟨hnow, fun entry he =>
      ⟨(hentry entry he).1, fun endpoint hp => ((hentry entry he).2 endpoint hp).distinctKeys⟩⟩
  · intro endpoint hendpoint
    obtain ⟨entry, he, hp⟩ := List.mem_flatMap.1 hendpoint
    exact (hentry entry he).2 endpoint hp

/-- The text of a number is read as the number that it is reread as. -/
theorem Json.parse_text {n m : Number} : Json.parse n.text = .ok (.number m) ↔ n.reread? = some m := by
  have hdoc : Json.Doc.ofText n.text = ⟨.ok (.scalar (.number n.reread?)), false⟩ := by
    rw [Json.Doc.ofText, Json.tokens_text]
    rfl
  rw [Json.parse, Json.Reader.run, hdoc]
  cases hn : n.reread? with
  | none => simp [Json.Reader.value, bind, Except.bind]
  | some k => simp [Json.Reader.value, bind, Except.bind, pure, Except.pure]

/-- **What is written to a path is loaded from there if it is storable, and only then.** -/
theorem Catalog.load_save {store store' : Node} {path : Path} {later : Instant} {catalog : Catalog}
    (hvalid : catalog.Valid) (hsound : ∀ endpoint ∈ catalog.endpoints, endpoint.Sound)
    (hsave : catalog.save store path .json later = (store', .ok ())) :
    Catalog.load store' path = .ok catalog ↔ ∀ endpoint ∈ catalog.endpoints, endpoint.Storable := by
  obtain ⟨place, hlocate, -⟩ := locate_save hsave
  have hread : store'.readText path = .ok catalog.toJson := Node.readText_of_locate hlocate
  rw [load_eq_ok_iff hread, ofJson_toJson_eq_self hvalid, nesting_le_maxDepth]
  constructor
  · rintro ⟨hnesting, hnumbers⟩ endpoint hendpoint
    exact ⟨(hnesting endpoint hendpoint).1, (hnesting endpoint hendpoint).2, fun x hx =>
      Json.parse_text.2 (hnumbers _ (List.mem_flatMap.2 ⟨endpoint, hendpoint, hx⟩))⟩
  · intro h
    refine ⟨fun endpoint he => ⟨(h endpoint he).parameters, (h endpoint he).responses⟩, fun n hn => ?_⟩
    obtain ⟨endpoint, hendpoint, hn⟩ := List.mem_flatMap.1 hn
    cases n with
    | whole n => exact Number.reread?_whole ((hsound endpoint hendpoint).fits _ hn)
    | real x => exact Json.parse_text.1 ((h endpoint hendpoint).reals x hn)

theorem Catalog.stats_counts (catalog : Catalog) :
    catalog.stats.sources = catalog.entries.length ∧ catalog.stats.endpoints = catalog.endpointCount :=
  ⟨catalog.sources_stats, by rw [endpoints_stats, endpointCount_eq]⟩

open CommandLine in
/-- **The catalog of a scan that was written to a path is loaded from there if and only if all its endpoints are storable;
then the statistics of the stored catalog count the sources and endpoints that were found.** -/
theorem load_scanned {tree store store' : Node} (hdated : tree.Dated) {options : ScanOptions} {root path : Path}
    {now later : Instant} (hnow : now.Valid) {excludes : Ignore.Excludes} {catalog : Catalog}
    (hscan : scan tree .builtin options root now excludes = .ok catalog)
    (hsave : catalog.save store path .json later = (store', .ok ())) :
    (Catalog.load store' path = .ok catalog ↔ ∀ endpoint ∈ catalog.endpoints, endpoint.Storable) ∧
    ((∀ endpoint ∈ catalog.endpoints, endpoint.Storable) →
      (Command.stats path).run store' later = (store', .done (statsReport catalog) none) ∧
      catalog.stats.sources = catalog.entries.length ∧ catalog.stats.endpoints = catalog.endpointCount) := by
  obtain ⟨hvalid, hsound⟩ := valid_of_scan hdated hnow hscan
  have hload := Catalog.load_save hvalid hsound hsave
  refine ⟨hload, fun h => ⟨?_, catalog.stats_counts⟩⟩
  rw [Command.run, runReport, hload.2 h]

/-! ## Specifications with deep parameters -/

namespace Deep

def nested : Nat → Value
  | 0 => .array []
  | n + 1 => .array [nested n]

theorem nesting_nested : ∀ n, (nested n).nesting = n + 1
  | 0 => rfl
  | n + 1 => by
    have ih := nesting_nested n
    simp only [nested, Value.nesting, Value.itemNesting] at ih ⊢
    omega

theorem sound_nested : ∀ n, (nested n).Sound
  | 0 => Value.sound_array.2 fun _ hv => absurd hv List.not_mem_nil
  | n + 1 => Value.sound_array.2 (List.forall_mem_singleton.2 (sound_nested n))

theorem numbers_nested : ∀ n, (nested n).numbers = []
  | 0 => rfl
  | n + 1 => by
    simp only [nested, Value.numbers, Value.itemNumbers, numbers_nested n]
    rfl

def specification (n : Nat) : Value :=
  .object [("openapi", .string "3.0.0"),
    ("paths", .object [("/a", .object [("get", .object [("parameters", .array [nested n])])])])]

def tree (n : Nat) : Node := .folder [(Name.ofText "s.json", .file (specification n).pretty.toUTF8 ⟨0, 0⟩)]

def source : Path := .ofText "s.json"

def endpoint (n : Nat) : Endpoint := { Endpoint.plain "GET" "/a" with parameters := [nested n] }

/-- A specification is read if its parameters are nested no deeper than readers go, four levels below the root. -/
theorem parse_specification {n : Nat} (h : n ≤ 121) :
    Json.parse (specification n).pretty.toList = .ok (specification n) := by
  have hnested := sound_nested n
  have hdistinct : (specification n).DistinctKeys := by
    simp [specification, Value.DistinctKeys, Value.MembersDistinct, Value.ItemsDistinct, hnested.keys]
  have hnesting : (specification n).nesting ≤ Json.Reader.maxDepth := by
    simp only [specification, Value.nesting, Value.memberNesting, Value.itemNesting, nesting_nested,
      Json.Reader.maxDepth]
    omega
  have hnumbers : (specification n).numbers = [] := by
    simp [specification, Value.numbers, Value.memberNumbers, Value.itemNumbers, numbers_nested]
  exact Json.parse_pretty hdistinct hnesting (by simp [hnumbers])

theorem locate_source (n : Nat) : (tree n).locate source =
    .ok ([Name.ofText "s.json"], .file (specification n).pretty.toUTF8 ⟨0, 0⟩) := rfl

theorem load_source {n : Nat} (h : n ≤ 121) : Specification.load (tree n) source = .ok (specification n) :=
  Specification.load_of_parse (readSource_of_locate (locate_source n)) (by decide) (parse_specification h)

theorem operation_get (n : Nat) :
    Specification.operation? "/a" ("get", .object [("parameters", .array [nested n])]) = some (endpoint n) := by
  have hmethod : String.ofList (Text.asciiUpper "get".toList) = "GET" := by decide
  have hknown : Specification.methods.contains "GET" = true := by decide
  simp only [Specification.operation?, hmethod, hknown, if_true]
  simp [Value.object?, Specification.endpointOf, Json.Members.get?, Value.array?, Specification.statusOf, endpoint,
    Endpoint.plain]

theorem scan_source {n : Nat} (h : n ≤ 121) (now : Instant) : ∃ entry : Entry, entry.endpoints = [endpoint n] ∧
    scan (tree n) .builtin .unset source now = .ok ⟨now, [entry]⟩ := by
  have hclaims : Specification.claims (tree n) source = true := by
    rw [Specification.claims, load_source h]
    rfl
  obtain ⟨entry, hentry, hextract⟩ : ∃ entry : Entry, entry.endpoints = [endpoint n] ∧
      Specification.extractor.extract (tree n) source none = .ok (some entry) := by
    refine ⟨⟨source.id, Metadata.ofSource (tree n) source none, [endpoint n]⟩, rfl, ?_⟩
    simp only [Specification.extractor, load_source h, bind, Except.bind]
    simp [specification, Value.object?, Specification.described?, Specification.endpoints, Specification.baseUrl?,
      Json.Members.get?, operation_get, Metadata.ofSource, Metadata.blank, pure, Except.pure]
  have hfile : (tree n).hasFile source = true := rfl
  have hdispatch : Registry.builtin.dispatch (tree n) source none = some entry :=
    Registry.dispatch_eq_some_iff.2
      ⟨0, Specification.extractor, .specification hclaims, hextract, by rw [hentry]; exact List.cons_ne_nil _ _⟩
  refine ⟨entry, hentry, ?_⟩
  rw [scan_of_hasFile hfile, fileEntries]
  rw [show ScanOptions.unset.teamOwner = none from rfl, hdispatch]
  rfl

def target : Path := .ofText "c.json"

theorem save_target (catalog : Catalog) (n : Nat) (later : Instant) :
    ∃ store, catalog.save (tree n) target .json later = (store, .ok ()) := ⟨_, rfl⟩

theorem dated_tree (n : Nat) : (tree n).Dated := by
  intro place content modified hat
  cases place with
  | nil => cases hat
  | cons name names =>
    obtain ⟨inner, hnamed, hat⟩ := Option.bind_eq_some_iff.1 hat
    cases List.mem_singleton.1 (Node.mem_of_named? hnamed)
    cases names with
    | nil =>
      cases hat
      exact ⟨by decide, by decide⟩
    | cons => cases hat

def now : Instant := ⟨1704164645, 0⟩

theorem valid_now : now.Valid := ⟨by decide, by decide⟩

theorem storable_endpoint (n : Nat) : (endpoint n).Storable ↔ n ≤ 120 := by
  have hparameters : (Value.array (endpoint n).parameters).nesting = n + 2 := by
    simp [endpoint, Value.nesting, Value.itemNesting, nesting_nested]
  have hresponses : (Value.object (endpoint n).responses).nesting = 1 := rfl
  constructor
  · intro h
    have hle := h.parameters
    omega
  · intro h
    refine ⟨by omega, by omega, fun x hx => ?_⟩
    have hnumbers : (endpoint n).numbers = [] := by
      simp [Endpoint.numbers, endpoint, Endpoint.plain, Value.numbers, Value.itemNumbers,
        Value.memberNumbers, numbers_nested]
    rw [hnumbers] at hx
    cases hx

end Deep

open Deep in
theorem load_scanned_deep : ∃ catalog store, scan (tree 120) .builtin .unset source now = .ok catalog ∧
    catalog.save (tree 120) target .json now = (store, .ok ()) ∧ Catalog.load store target = .ok catalog := by
  obtain ⟨entry, hentry, hscan⟩ := scan_source (n := 120) (by decide) now
  obtain ⟨store, hsave⟩ := save_target ⟨now, [entry]⟩ 120 now
  refine ⟨_, store, hscan, hsave, (load_scanned (dated_tree 120) valid_now hscan hsave).1.2 fun e he => ?_⟩
  simp only [Catalog.endpoints, List.flatMap_singleton, hentry, List.mem_singleton] at he
  rw [he]
  exact (storable_endpoint 120).2 (by decide)

open Deep in
/-- **One level deeper, the catalog is written and cannot be loaded.** -/
theorem not_load_scanned_deeper : ∃ catalog store, scan (tree 121) .builtin .unset source now = .ok catalog ∧
    catalog.save (tree 121) target .json now = (store, .ok ()) ∧ Catalog.load store target ≠ .ok catalog := by
  obtain ⟨entry, hentry, hscan⟩ := scan_source (n := 121) (by decide) now
  obtain ⟨store, hsave⟩ := save_target ⟨now, [entry]⟩ 121 now
  obtain ⟨hvalid, hsound⟩ := valid_of_scan (dated_tree 121) valid_now hscan
  refine ⟨_, store, hscan, hsave, fun hload => ?_⟩
  have hstorable := (Catalog.load_save hvalid hsound hsave).1 hload (endpoint 121)
    (by simp [Catalog.endpoints, hentry])
  exact absurd ((storable_endpoint 121).1 hstorable) (by decide)

end ApiCatalog
