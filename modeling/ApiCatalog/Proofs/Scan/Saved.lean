import ApiCatalog.Proofs.Catalog.Storage
import ApiCatalog.Proofs.Scan.Isolation
import ApiCatalog.Proofs.Yaml.Document
/-!
# Scans after a catalog was saved

No extractor claims the document or the page of a catalog under a name of its own kind (`dispatch_rendered`), so that a
scan finds the same before and after a catalog was saved to a new file in the tree without links that it looks at.  If
the catalog has taken the place of an old file, only the entry of that file is gone (`scan_save`).
-/

namespace ApiCatalog

open Ignore (Excludes)
open Json (Value)

/-! ## Catalogs are no sources -/

/-- An object with no other keys than a catalog has is no specification. -/
theorem Specification.not_isSpecification {root : Json.Members} (hkeys : ∀ m ∈ root, m.1 ∈ ["generated_at", "entries"]) :
    isSpecification (.object root) = false := by
  rw [Bool.eq_false_iff]
  intro hmarked
  obtain ⟨marker, hmarker, hfound⟩ := List.any_eq_true.1 hmarked
  obtain ⟨v, hv⟩ := Option.isSome_iff_exists.1 hfound
  obtain ⟨m, hm, -⟩ := Option.map_eq_some_iff.1 hv
  have hkey := List.find?_some hm
  rw [beq_iff_eq] at hkey
  have hnone : ∀ marker ∈ markers, marker ∉ ["generated_at", "entries"] := by decide
  exact hnone marker hmarker (hkey ▸ hkeys m (List.mem_of_find?_eq_some hm))

/-- **Whatever the document of a catalog is read as, in JSON or YAML, it is no specification**: its keys at the top are
the catalog's, and those of opaque values lie deeper. -/
theorem Specification.not_isSpecification_of_parse? {catalog : Catalog} {extension : String} {document : Value}
    (h : parse? catalog.toJson extension = some document) : isSpecification document = false := by
  obtain ⟨root, rfl, hkeys⟩ : ∃ root : Json.Members, document = .object root ∧
      ∀ m ∈ root, m.1 ∈ ["generated_at", "entries"] := by
    unfold parse? at h
    split at h
    · cases hparse : Json.parse catalog.toJson.toList with
      | error e =>
        rw [hparse] at h
        cases h
      | ok read =>
        rw [hparse] at h
        cases h
        exact Json.object_of_parse_pretty hparse
    · obtain ⟨read, hread, rfl⟩ := Option.map_eq_some_iff.1 h
      refine Yaml.Value.object_of_ofText?_pretty (fun m hm => ?_) hread
      have hplain : ["generated_at", "entries"].all (fun key => key.toList.all Yaml.isNameChar) = true := by decide
      exact List.all_eq_true.1 (List.all_eq_true.1 hplain m.1 (List.mem_map_of_mem hm))
  exact not_isSpecification hkeys

theorem Specification.not_claims_document {catalog : Catalog} {tree : Node} {file : Path}
    (hread : tree.readText file = .ok catalog.toJson) : claims tree file = false := by
  have hload : load tree file = (parse? catalog.toJson file.extension).elim (.error (.malformed file)) .ok := by
    rw [load, readSource, hread]
    dsimp only [bind, Except.bind]
    cases parse? catalog.toJson file.extension <;> rfl
  rw [claims, hload, Bool.and_eq_false_iff]
  right
  cases hparse : parse? catalog.toJson file.extension with
  | none => rfl
  | some document => exact not_isSpecification_of_parse? hparse

/-- **Nothing comes of a file that holds a catalog in the format that the file is named for.** -/
theorem Registry.dispatch_rendered {catalog : Catalog} {tree : Node} {file : Path} {format : OutputFormat}
    (hextension : file.extension = format.name) (hread : tree.readText file = .ok (catalog.render format))
    (team : Option String) : Registry.builtin.dispatch tree file team = none := by
  have hspecification : Specification.claims tree file = false := by
    cases format with
    | json => exact Specification.not_claims_document hread
    | html =>
      have hknown : Specification.documentExtensions.contains OutputFormat.html.name = false := by decide
      rw [Specification.claims, hextension, hknown, Bool.false_and]
  refine dispatch_of_extension ?_ ?_ hspecification team <;> rw [hextension] <;> cases format <;> decide

/-! ## What a scan finds while a tree changes -/

/-- What a scan finds comes from files below its root, by names that lead to them. -/
theorem below_of_mem_sources {tree : Node} (hwf : tree.WellFormed) {options : ScanOptions} {excludes : Excludes}
    {root : Path} (hroot : tree.hasFolder root = true) {source : Path × Entry}
    (h : source ∈ sources tree options root excludes) :
    (∃ names, (∀ name ∈ names, name.Plain) ∧ source.1 = root.below names) ∧
    Registry.builtin.dispatch tree source.1 options.teamOwner = some source.2 := by
  obtain ⟨around, entries, hlocate⟩ := hasFolder_iff.1 hroot
  obtain ⟨all, hall, -, hfinds⟩ := @Walk.names_of_folder _ hwf options _ excludes _ _ hlocate
  rw [sources, scanFiles_of_hasFolder hroot (Walk.walk_of_names hall)] at h
  obtain ⟨file, hfile, hfound⟩ := List.mem_filterMap.1 h
  obtain ⟨entry, hdispatch, rfl⟩ := Option.map_eq_some_iff.1 hfound
  obtain ⟨names, hnames, rfl⟩ := List.mem_map.1 hfile
  exact ⟨⟨names, (hfinds names hnames).plain, rfl⟩, hdispatch⟩

/-- A well-formed tree without links, and what a scan of a folder in it finds. -/
structure Scans (options : ScanOptions) (excludes : Excludes) (root : Path) (found : List (Path × Entry))
    (tree : Node) : Prop where
  wellFormed : tree.WellFormed
  linkFree : tree.LinkFree
  folder : tree.hasFolder root = true
  sources : sources tree options root excludes = found

namespace Scans

variable {options : ScanOptions} {excludes : Excludes} {root : Path} {found : List (Path × Entry)} {tree new : Node}
    {place : List Name}

theorem scan_eq (h : Scans options excludes root found tree) (now : Instant) :
    scan tree .builtin options root now excludes = .ok ⟨now, found.map (·.2)⟩ := by
  rw [scan_eq_sources_of_hasFolder h.wellFormed options h.folder, h.sources]

/-- What is found comes from a file that can be read, at the place that its path tells. -/
theorem locate_of_mem (h : Scans options excludes root found tree) {source : Path × Entry} (hsource : source ∈ found) :
    ∃ content modified, tree.locate source.1 = .ok (Node.placeOf source.1, .file content modified) := by
  rw [← h.sources] at hsource
  obtain ⟨place, content, modified, hlocate⟩ :=
    Registry.locate_of_dispatch (below_of_mem_sources h.wellFormed h.folder hsource).2
  exact ⟨content, modified, Node.place_of_locate h.linkFree hlocate ▸ hlocate⟩

/-- What is found at a place is called by the last of its names. -/
theorem name?_of_mem (h : Scans options excludes root found tree) {source : Path × Entry} (hsource : source ∈ found) :
    source.1.name? = (Node.placeOf source.1).getLast? := by
  obtain ⟨content, modified, hlocate⟩ := h.locate_of_mem hsource
  rw [← h.sources] at hsource
  obtain ⟨⟨names, hplain, hbelow⟩, -⟩ := below_of_mem_sources h.wellFormed h.folder hsource
  obtain ⟨around, entries, hroot⟩ := hasFolder_iff.1 h.folder
  rw [hbelow] at hlocate ⊢
  have hne : names ≠ [] := by
    rintro rfl
    rw [Path.below, List.foldl_nil, hroot] at hlocate
    cases hlocate
  rw [root.name?_below hne hplain, Node.goal_of_locate_below h.linkFree hroot hplain hlocate,
    List.getLast?_append_of_ne_nil _ hne]

theorem leadsTo_eq (h : Scans options excludes root found tree) {source : Path × Entry} (hsource : source ∈ found)
    (place : List Name) : tree.leadsTo source.1 place = decide (Node.placeOf source.1 = place) := by
  obtain ⟨content, modified, hlocate⟩ := h.locate_of_mem hsource
  simp [Node.leadsTo, hlocate, Except.toOption, beq_eq_decide]

/-- Where there is no file nothing is found. -/
theorem place_ne (h : Scans options excludes root found tree)
    (hnone : ∀ content modified, tree.at? place ≠ some (.file content modified)) :
    ∀ source ∈ found, Node.placeOf source.1 ≠ place := by
  rintro source hsource rfl
  obtain ⟨content, modified, hlocate⟩ := h.locate_of_mem hsource
  exact hnone content modified (Node.at?_of_locate hlocate)

/-- Nothing is found in a file that no extractor makes anything of. -/
theorem place_ne_of_file (h : Scans options excludes root found tree) {content : ByteArray} {modified : Instant}
    (hat : tree.at? place = some (.file content modified))
    (hnone : ∀ file : Path, file.name? = place.getLast? →
      tree.locate file = .ok (place, .file content modified) →
      Registry.builtin.dispatch tree file options.teamOwner = none) :
    ∀ source ∈ found, Node.placeOf source.1 ≠ place := by
  rintro source hsource rfl
  obtain ⟨old, time, hlocate⟩ := h.locate_of_mem hsource
  cases hat.symm.trans (Node.at?_of_locate hlocate)
  have hdispatch := (below_of_mem_sources h.wellFormed h.folder (h.sources.symm ▸ hsource)).2
  rw [hnone _ (h.name?_of_mem hsource) hlocate] at hdispatch
  cases hdispatch

theorem of_put (h : Scans options excludes root found tree) (hplain : ∀ name ∈ place, name.Plain)
    (hfits : tree.Fits place new) :
    Scans options excludes root (ApiCatalog.sources (tree.put place new) options root excludes)
      (tree.put place new) where
  wellFormed := Node.WellFormed.put hfits.wellFormed h.wellFormed hplain
  linkFree := Node.LinkFree.put hfits.linkFree h.linkFree
  folder := hasFolder_put hfits h.folder
  sources := rfl

/-- **After something was put somewhere a scan that finds nothing there finds what it found elsewhere.** -/
theorem put (h : Scans options excludes root found tree) (hplain : ∀ name ∈ place, name.Plain)
    (hfits : tree.Fits place new) (hunread : new.isFile = true → Unread place)
    (hsilent : ∀ source ∈ ApiCatalog.sources (tree.put place new) options root excludes,
      Node.placeOf source.1 ≠ place) :
    Scans options excludes root (found.filter fun source => Node.placeOf source.1 ≠ place) (tree.put place new) where
  wellFormed := (h.of_put hplain hfits).wellFormed
  linkFree := (h.of_put hplain hfits).linkFree
  folder := (h.of_put hplain hfits).folder
  sources := by
    have hput := sources_put h.wellFormed h.linkFree hplain hfits hunread options excludes h.folder
    rw [h.sources, List.filter_eq_self.2 fun source hsource => by
      rw [(h.of_put hplain hfits).leadsTo_eq hsource, decide_eq_false (hsilent source hsource)]
      rfl] at hput
    rw [hput]
    exact List.filter_congr fun source hsource => by rw [h.leadsTo_eq hsource, decide_not]

theorem makeFolder (h : Scans options excludes root found tree) {path : Path} {tree' : Node}
    (hmake : tree.makeFolder path = .ok tree') : Scans options excludes root found tree' := by
  obtain ⟨place, hnone, rfl, hplain⟩ := Node.makeFolder_eq_put hmake
  have hplain := hplain h.wellFormed
  have hfits : tree.Fits place .emptyFolder := .folder hnone
  have hput := h.put hplain hfits (fun hfile => by cases hfile)
    ((h.of_put hplain hfits).place_ne fun content modified hat => by cases Node.eq_of_at?_put hat)
  have hbefore := h.place_ne fun content modified hat => by
    rw [hnone] at hat
    cases hat
  rwa [List.filter_eq_self.2 fun source hsource => decide_eq_true (hbefore source hsource)] at hput

/-- **To make folders changes nothing for a scan.** -/
theorem makeFolders (h : Scans options excludes root found tree) (path : Path) :
    Scans options excludes root found (tree.makeFolders path).1 :=
  Node.makeFolders_induction (fun _ _ _ h hmake => h.makeFolder hmake) h path

end Scans

/-! ## Saving -/

/-- No rules are read from a file that has the extension of a format. -/
theorem unread_of_extension {path : Path} {format : OutputFormat} (h : path.extension = format.name) {place : List Name}
    (hname : path.name? = place.getLast?) : Unread place := by
  rintro names hnames ⟨around, rfl⟩
  have hnone : ∀ names ∈ [[Ignore.Level.customName], [Ignore.Level.gitName], Ignore.Level.excludeNames],
      names ≠ [] ∧ names.getLast?.bind Path.Name.extension? = none := by decide
  obtain ⟨hne, hextension⟩ := hnone names hnames
  rw [List.getLast?_append_of_ne_nil _ hne] at hname
  rw [Path.extension, hname, hextension] at h
  cases format <;> exact absurd h (by decide)

theorem Scans.save {options : ScanOptions} {excludes : Excludes} {root : Path} {found : List (Path × Entry)}
    {tree store : Node} (h : Scans options excludes root found tree) {catalog : Catalog} {path : Path}
    {format : OutputFormat} (hextension : path.extension = format.name) {later : Instant}
    (hsave : catalog.save tree path format later = (store, .ok ())) :
    Scans options excludes root (found.filter fun source => Node.placeOf source.1 ≠ Node.placeOf path) store := by
  have hmade := h.makeFolders (path.parent?.getD ⟨[]⟩)
  obtain ⟨spot, hspot, hopen, rfl, hlocate⟩ := Node.write_eq_put (Catalog.write_of_save hsave)
  have hname := Node.name?_of_open hmade.linkFree hspot hopen
  have hplain := Node.plain_of_spot hmade.wellFormed hspot
  have hfits := Node.Fits.file (.file (catalog.render format).toUTF8 later) rfl hopen
  rw [← Node.place_of_spot hmade.linkFree hspot]
  refine hmade.put hplain hfits (fun _ => unread_of_extension hextension hname)
    ((hmade.of_put hplain hfits).place_ne_of_file (Node.at?_of_locate hlocate) fun file hfile hread => ?_)
  have hsame : file.extension = format.name := by
    rw [← hextension, Path.extension, Path.extension, hname, hfile]
  exact Registry.dispatch_rendered hsame (Node.readText_of_locate hread) options.teamOwner

/-- A path to nothing, unless it goes back behind a folder that is missing, leads to a place where there is nothing. -/
theorem Catalog.place_of_save {catalog : Catalog} {tree store : Node} {path : Path} {format : OutputFormat}
    {later : Instant} (hfree : tree.LinkFree) (hsave : catalog.save tree path format later = (store, .ok ()))
    (habsent : tree.hasPath path = false) (hback : ¬ tree.GoesBack path) : tree.at? (Node.placeOf path) = none := by
  have hfreeMade := Node.linkFree_makeFolders hfree (path.parent?.getD ⟨[]⟩)
  obtain ⟨spot, hspot, -⟩ := Node.write_eq_put (Catalog.write_of_save hsave)
  obtain ⟨habs, hbytes, hfollow⟩ := Node.spot_eq_ok.1 hspot
  rw [← Node.place_of_spot hfreeMade hspot, Option.eq_none_iff_forall_ne_some]
  intro node hat
  have hthere := Node.followAt_of_makeFolders hfreeMade hfollow hback hat
  rw [Node.hasPath, Node.node?, Node.locate_eq_ok.2 ⟨habs, hbytes, hthere⟩] at habsent
  cases habsent

/-- **A catalog that is saved, under a name with the extension of its format, changes nothing for a scan of a folder in
the tree**, also if it is below the folder, but for the entry of a file whose place it takes.  Where there was nothing at
its path it takes the place of a file only if the path goes up again behind a folder that was missing, since that folder
is made; and the document of a catalog, in whatever file, is never taken for a specification, whatever values of
specifications the catalog holds.  The path is one within the tree, and no time of a file stops the program, see
`Metadata.ofSource`. -/
theorem scan_save {tree store : Node} (hwf : tree.WellFormed) (hfree : tree.LinkFree) (options : ScanOptions)
    (excludes : Excludes) {root : Path} (hroot : tree.hasFolder root = true) {catalog : Catalog} {path : Path}
    {format : OutputFormat} (hextension : path.extension = format.name) {later : Instant}
    (hsave : catalog.save tree path format later = (store, .ok ())) :
    (∀ now, scan tree .builtin options root now excludes = .ok ⟨now, (sources tree options root excludes).map (·.2)⟩ ∧
      scan store .builtin options root now excludes = .ok ⟨now, ((sources tree options root excludes).filter
        fun source => Node.placeOf source.1 ≠ Node.placeOf path).map (·.2)⟩) ∧
    (tree.hasPath path = false → (tree.GoesBack path → tree.at? (Node.placeOf path) = none) →
      ∀ now, scan store .builtin options root now excludes = scan tree .builtin options root now excludes) ∧
    ∀ (other : Node) (file : Path), other.readText file = .ok catalog.toJson →
      Specification.claims other file = false := by
  have hbefore : Scans options excludes root (sources tree options root excludes) tree := ⟨hwf, hfree, hroot, rfl⟩
  have hafter := hbefore.save hextension hsave
  refine ⟨fun now => ⟨hbefore.scan_eq now, hafter.scan_eq now⟩, fun habsent hplace now => ?_,
    fun _ _ => Specification.not_claims_document⟩
  have hnone : tree.at? (Node.placeOf path) = none := by
    by_cases hback : tree.GoesBack path
    · exact hplace hback
    · exact Catalog.place_of_save hfree hsave habsent hback
  have hall := hbefore.place_ne fun content modified hat => by
    rw [hnone] at hat
    cases hat
  rw [hafter.scan_eq, hbefore.scan_eq, List.filter_eq_self.2 fun source hsource => decide_eq_true (hall source hsource)]

def Catalog.posing : Catalog where
  generatedAt := ⟨0, 0⟩
  entries := [⟨"", Metadata.blank, [{ Endpoint.plain "GET" "/" with
    responses := [("openapi", .string "3.0.0"), ("paths", .object [])] }]⟩]

/-- The catalog is saved in a new folder below the root of the scans, which find two entries before and after. -/
theorem scan_save_posing : ∃ store, ∃ users tagged : Entry,
    Node.sample.hasPath (.ofText "api/out/c.json") = false ∧
    Catalog.posing.save Node.sample (.ofText "api/out/c.json") .json ⟨1, 0⟩ = (store, .ok ()) ∧
    users.offers = [("GET", "/users")] ∧ tagged.offers = [("GET", "/a")] ∧
    scan Node.sample .builtin .unset (.ofText "api") ⟨2, 0⟩ = .ok ⟨⟨2, 0⟩, [users, tagged]⟩ ∧
    scan store .builtin .unset (.ofText "api") ⟨2, 0⟩ = .ok ⟨⟨2, 0⟩, [users, tagged]⟩ := by
  obtain ⟨store, hsave⟩ : ∃ store,
      Catalog.posing.save Node.sample (.ofText "api/out/c.json") .json ⟨1, 0⟩ = (store, .ok ()) := ⟨_, rfl⟩
  have habsent : Node.sample.hasPath (.ofText "api/out/c.json") = false := rfl
  have hback : ¬ Node.sample.GoesBack (.ofText "api/out/c.json") := Node.not_goBack (by decide) _ _
  obtain ⟨users, tagged, hsources, hroute, hoperation⟩ := exists_sources_sample
  obtain ⟨hscans, hsame, -⟩ := scan_save wellFormed_sample linkFree_sample .unset .none hasFolder_sample
    (by decide : (Path.ofText "api/out/c.json").extension = OutputFormat.json.name) hsave
  obtain ⟨hbefore, -⟩ := hscans ⟨2, 0⟩
  rw [hsources] at hbefore
  exact ⟨store, users, tagged, habsent, hsave, hroute, hoperation, hbefore,
    (hsame habsent (fun h => absurd h hback) ⟨2, 0⟩).trans hbefore⟩

/-- **A catalog can take the place of a specification although there was nothing at its path**, if the path goes up
again behind a folder that is made for it. -/
theorem scan_save_behind_missing : ∃ store, ∃ users tagged : Entry,
    Node.sample.LinkFree ∧ Node.sample.hasFolder (.ofText "api") = true ∧
    Node.sample.hasPath (.ofText "api/new/../b.json") = false ∧
    (Path.ofText "api/new/../b.json").extension = OutputFormat.json.name ∧
    Catalog.posing.save Node.sample (.ofText "api/new/../b.json") .json ⟨1, 0⟩ = (store, .ok ()) ∧
    scan Node.sample .builtin .unset (.ofText "api") ⟨2, 0⟩ = .ok ⟨⟨2, 0⟩, [users, tagged]⟩ ∧
    scan store .builtin .unset (.ofText "api") ⟨2, 0⟩ = .ok ⟨⟨2, 0⟩, [users]⟩ := by
  obtain ⟨store, hsave⟩ : ∃ store,
      Catalog.posing.save Node.sample (.ofText "api/new/../b.json") .json ⟨1, 0⟩ = (store, .ok ()) := ⟨_, rfl⟩
  have habsent : Node.sample.hasPath (.ofText "api/new/../b.json") = false := rfl
  have hextension : (Path.ofText "api/new/../b.json").extension = OutputFormat.json.name := by decide
  obtain ⟨users, tagged, hsources, -, -⟩ := exists_sources_sample
  have hbefore : Scans .unset .none (.ofText "api") _ Node.sample :=
    ⟨wellFormed_sample, linkFree_sample, hasFolder_sample, hsources⟩
  exact ⟨store, users, tagged, linkFree_sample, hasFolder_sample, habsent, hextension, hsave, hbefore.scan_eq ⟨2, 0⟩,
    (hbefore.save hextension hsave).scan_eq ⟨2, 0⟩⟩

end ApiCatalog
