import ApiCatalog.Proofs.Extract.Claims
import ApiCatalog.Proofs.Scan.Walk
import ApiCatalog.Scan.Basic
/-!
# What a scan finds

A scan of a folder is made of the scans of the files below it, one after the other, and nothing in a file can make it
fail (`scan_folder`).
-/

namespace ApiCatalog

open Ignore (Excludes)

def fileEntries (tree : Node) (registry : Registry) (options : ScanOptions) (file : Path) : List Entry :=
  (registry.dispatch tree file options.teamOwner).toList

theorem length_fileEntries (tree : Node) (registry : Registry) (options : ScanOptions) (file : Path) :
    (fileEntries tree registry options file).length ≤ 1 := by
  unfold fileEntries
  cases registry.dispatch tree file options.teamOwner <;> simp

theorem filterMap_dispatch (tree : Node) (registry : Registry) (options : ScanOptions) (files : List Path) :
    files.filterMap (fun file => registry.dispatch tree file options.teamOwner) =
      files.flatMap (fileEntries tree registry options) := by
  induction files with
  | nil => rfl
  | cons file files ih =>
    rw [List.filterMap_cons, List.flatMap_cons, ← ih, fileEntries]
    cases registry.dispatch tree file options.teamOwner <;> rfl

theorem scan_of_files {tree : Node} {options : ScanOptions} {root : Path} {excludes : Excludes} {files : List Path}
    (h : scanFiles tree options root excludes = .ok files) (registry : Registry) (now : Instant) :
    scan tree registry options root now excludes = .ok ⟨now, files.flatMap (fileEntries tree registry options)⟩ := by
  rw [scan, h, ← filterMap_dispatch]
  rfl

theorem hasPath_of_hasFile {tree : Node} {path : Path} (h : tree.hasFile path = true) : tree.hasPath path = true := by
  unfold Node.hasFile at h
  unfold Node.hasPath
  cases hnode : tree.node? path with
  | none => rw [hnode] at h; cases h
  | some node => rfl

theorem scan_of_hasFile {tree : Node} {file : Path} (h : tree.hasFile file = true) (registry : Registry)
    (options : ScanOptions) (now : Instant) (excludes : Excludes) :
    scan tree registry options file now excludes = .ok ⟨now, fileEntries tree registry options file⟩ := by
  have hfiles : scanFiles tree options file excludes = .ok [file] := by
    rw [scanFiles, hasPath_of_hasFile h, h]
    rfl
  rw [scan_of_files hfiles, List.flatMap_singleton]

theorem hasFolder_iff {tree : Node} {path : Path} : tree.hasFolder path = true ↔
    ∃ place entries, tree.locate path = .ok (place, .folder entries) := by
  unfold Node.hasFolder Node.node?
  cases h : tree.locate path with
  | error e => simp [Except.toOption]
  | ok found =>
    obtain ⟨place, node⟩ := found
    cases node <;> simp [Except.toOption, Node.isFolder]

/-- There are files and folders where paths lead, and nothing else. -/
theorem hasPath_iff (tree : Node) (path : Path) : tree.hasPath path = true ↔ tree.hasFile path = true ∨
    tree.hasFolder path = true ∨ ∃ place refusal, tree.locate path = .ok (place, .barred refusal) := by
  unfold Node.hasPath Node.hasFile Node.hasFolder Node.node?
  cases h : tree.locate path with
  | error e => simp [Except.toOption]
  | ok found =>
    obtain ⟨place, node⟩ := found
    cases node with
    | link target => exact absurd h (Node.locate_ne_link tree path place target)
    | file _ _ | folder _ | sealed _ _ _ | barred _ => simp [Except.toOption, Node.isFolder, Node.isFile]

theorem scanFiles_of_hasFolder {tree : Node} {options : ScanOptions} {root : Path} {excludes : Excludes}
    {files : List Path} (h : tree.hasFolder root = true) (hwalk : walk tree options root excludes = .ok files) :
    scanFiles tree options root excludes = .ok files := by
  obtain ⟨place, entries, hlocate⟩ := hasFolder_iff.1 h
  have hfile : tree.hasFile root = false := by simp [Node.hasFile, Node.node?, hlocate, Except.toOption, Node.isFile]
  rw [scanFiles, (hasPath_iff tree root).2 (.inr (.inl h)), hfile, hwalk]
  rfl

theorem scanFiles_of_barred {tree : Node} {root : Path} {place : List Name} {refusal : Refusal}
    (h : tree.locate root = .ok (place, .barred refusal)) (options : ScanOptions) (excludes : Excludes) :
    scanFiles tree options root excludes = .error (.walk root (.refused refusal)) := by
  have hfile : tree.hasFile root = false := by simp [Node.hasFile, Node.node?, h, Except.toOption, Node.isFile]
  have hwalk : walk tree options root excludes = .error (.refused refusal) := by
    simp only [walk, Walk.names, h]
    rfl
  rw [scanFiles, (hasPath_iff tree root).2 (.inr (.inr ⟨place, refusal, h⟩)), hfile, hwalk]
  rfl

/-- The files of a scan are told unless the root is missing or cannot be entered. -/
theorem scanFiles_cases {tree : Node} (hwf : tree.WellFormed) (options : ScanOptions) (root : Path)
    (excludes : Excludes) : (∃ files, scanFiles tree options root excludes = .ok files) ∨
      (tree.hasPath root = false ∧ scanFiles tree options root excludes = .error (.rootNotFound root)) ∨
      ∃ place refusal, tree.locate root = .ok (place, .barred refusal) ∧
        scanFiles tree options root excludes = .error (.walk root (.refused refusal)) := by
  cases hpath : tree.hasPath root with
  | false => exact .inr (.inl ⟨rfl, by rw [scanFiles, hpath]; rfl⟩)
  | true =>
    rcases (hasPath_iff tree root).1 hpath with hfile | hfolder | ⟨place, refusal, hbarred⟩
    · exact .inl ⟨[root], by rw [scanFiles, hpath, hfile]; rfl⟩
    · obtain ⟨place, entries, hlocate⟩ := hasFolder_iff.1 hfolder
      obtain ⟨files, hwalk, -⟩ := Walk.walk_of_folder hwf options hlocate
      exact .inl ⟨files, scanFiles_of_hasFolder hfolder hwalk⟩
    · exact .inr (.inr ⟨place, refusal, hbarred, scanFiles_of_barred hbarred options excludes⟩)

/-- **A scan of a folder lists the entries of the files below it, file after file in strictly ascending order, at most
one for each; the entry of a file has endpoints and is marked with the file and the team. A scan fails on nothing
but a root that is missing or cannot be entered.**  Nothing is said of files whose times stop the program, see
`Metadata.ofSource`. -/
theorem scan_folder {tree : Node} (hwf : tree.WellFormed) (options : ScanOptions) (root : Path) (now : Instant)
    (excludes : Excludes) :
    (∀ e, scan tree .builtin options root now excludes = .error e ↔
      tree.hasPath root = false ∧ e = .rootNotFound root ∨
      ∃ place refusal, tree.locate root = .ok (place, .barred refusal) ∧ e = .walk root (.refused refusal)) ∧
    (tree.hasFolder root = true → ∃ (files : List Path) (found : Path → List Entry),
      walk tree options root excludes = .ok files ∧
      scan tree .builtin options root now excludes = .ok ⟨now, files.flatMap found⟩ ∧
      (files.map Path.steps).Pairwise (· < ·) ∧
      ∀ file ∈ files, scan tree .builtin options file now excludes = .ok ⟨now, found file⟩ ∧ (found file).length ≤ 1 ∧
        ∀ entry ∈ found file, entry.endpoints ≠ [] ∧ entry.id = file.id ∧ entry.metadata.sourceFile = file.text ∧
          entry.metadata.teamOwner = options.teamOwner) := by
  constructor
  · intro e
    rcases scanFiles_cases hwf options root excludes with
      ⟨files, hfiles⟩ | ⟨hpath, hfiles⟩ | ⟨place, refusal, hbarred, hfiles⟩
    · rw [scan_of_files hfiles]
      refine ⟨fun h => (by cases h), ?_⟩
      rintro (⟨hpath, -⟩ | ⟨place, refusal, hbarred, -⟩)
      · rw [scanFiles, hpath] at hfiles
        cases hfiles
      · rw [scanFiles_of_barred hbarred] at hfiles
        cases hfiles
    · have hlocate : ∀ found, tree.locate root ≠ .ok found := fun found he => by
        simp [Node.hasPath, Node.node?, he, Except.toOption] at hpath
      rw [scan, hfiles]
      simp [bind, Except.bind, hpath, hlocate, eq_comm]
    · have hpath := (hasPath_iff tree root).2 (.inr (.inr ⟨place, refusal, hbarred⟩))
      rw [scan, hfiles]
      simp [bind, Except.bind, hpath, hbarred, eq_comm]
  · intro hroot
    obtain ⟨place, entries, hlocate⟩ := hasFolder_iff.1 hroot
    obtain ⟨files, hwalk, hsorted, hfiles⟩ := Walk.walk_of_folder hwf options hlocate
    refine ⟨files, fileEntries tree .builtin options, hwalk, scan_of_files (scanFiles_of_hasFolder hroot hwalk) _ now,
      hsorted, fun file hfile => ⟨scan_of_hasFile (hfiles file hfile) _ options now excludes,
        length_fileEntries tree .builtin options file, fun entry hentry => ?_⟩⟩
    have hdispatch := Option.mem_toList.1 hentry
    have hmarked := Registry.marked_of_dispatch hdispatch
    exact ⟨(Registry.of_dispatch hdispatch).1, hmarked.id, hmarked.sourceFile, hmarked.teamOwner⟩

/-! ## A tree with files of all kinds -/

/-- A specification, a routing file in a folder of its own, bytes that are no text, a document that breaks off, a routing
file that cannot be opened, and a folder that cannot be entered. -/
def Node.sample : Node :=
  .folder [(Name.ofText "api", .folder [
    (Name.ofText "b.json", .file (Tagged.document "internal" "beta").pretty.toUTF8 ⟨0, 0⟩),
    (Name.ofText "b", .folder [(Name.ofText "routes.py", .file "@app.route('/users')".toUTF8 ⟨0, 0⟩)]),
    (Name.ofText "a.json", .file ⟨#[0xff]⟩ ⟨0, 0⟩),
    (Name.ofText "c.json", .file "[".toUTF8 ⟨0, 0⟩),
    (Name.ofText "api.py", .sealed 20 ⟨0, 0⟩ ⟨"Permission denied", 13⟩),
    (Name.ofText "d", .barred ⟨"Permission denied", 13⟩)])]

theorem wellFormed_sample : Node.sample.WellFormed := by
  simp only [Node.sample, Node.WellFormed, Node.EntriesWellFormed, List.map_cons, List.map_nil]
  decide

theorem linkFree_sample : Node.sample.LinkFree := by
  simp [Node.sample, Node.LinkFree, Node.EntriesLinkFree]

theorem hasFolder_sample : Node.sample.hasFolder (Path.ofText "api") = true := rfl

/-- The folder `b` comes before the document beside it, although a slash is behind a dot. -/
theorem walk_sample : ∀ options ∈ [ScanOptions.unset, { ScanOptions.unset with teamOwner := some "core" }],
    walk Node.sample options (.ofText "api") =
      .ok (["api/a.json", "api/api.py", "api/b/routes.py", "api/b.json", "api/c.json"].map Path.ofText) := by
  refine List.forall_mem_cons.2 ⟨?_, List.forall_mem_singleton.2 ?_⟩
  all_goals
    exact Walk.walk_of_perm rfl (by decide) [[Name.ofText "a.json"], [Name.ofText "api.py"],
      [Name.ofText "b", Name.ofText "routes.py"], [Name.ofText "b.json"], [Name.ofText "c.json"]] (by decide +kernel)
      (by decide) (by decide)

theorem locate_sample_routing : Node.sample.locate (.ofText "api/b/routes.py") =
    .ok ([Name.ofText "api", Name.ofText "b", Name.ofText "routes.py"], .file "@app.route('/users')".toUTF8 ⟨0, 0⟩) :=
  rfl

theorem locate_sample_specification : Node.sample.locate (.ofText "api/b.json") =
    .ok ([Name.ofText "api", Name.ofText "b.json"], .file (Tagged.document "internal" "beta").pretty.toUTF8 ⟨0, 0⟩) :=
  rfl

theorem exists_dispatch_sample (team : Option String) : ∃ users tagged : Entry,
    Registry.builtin.dispatch Node.sample (.ofText "api/b/routes.py") team = some users ∧
    users.offers = [("GET", "/users")] ∧
    Registry.builtin.dispatch Node.sample (.ofText "api/b.json") team = some tagged ∧
    tagged.offers = [("GET", "/a")] := by
  have hclaims : Controller.claims (.ofText "api/b/routes.py") = true := by decide +kernel
  have hfinds := Finds.controller (readSource_of_locate locate_sample_routing)
  generalize hfound : Controller.endpoints _ _ _ = found at hfinds
  have hoffers : found.map (fun endpoint => (endpoint.method, endpoint.path)) = [("GET", "/users")] := by
    rw [← hfound]
    decide +kernel
  have hne : found ≠ [] := fun h => by
    rw [h] at hoffers
    cases hoffers
  obtain ⟨users, husers, hendpoints⟩ := (Registry.FirstClaim.routing hclaims _).exists_dispatch hfinds hne team
  obtain ⟨tagged, htagged, htags⟩ := Tagged.exists_dispatch locate_sample_specification (by decide) team
  exact ⟨users, tagged, husers, by rw [Entry.offers, hendpoints, hoffers], htagged, htags⟩

/-- Nothing comes of what is no text, cannot be opened, or breaks off. -/
theorem dispatch_sample_eq_none (team : Option String) :
    Registry.builtin.dispatch Node.sample (.ofText "api/a.json") team = none ∧
    Registry.builtin.dispatch Node.sample (.ofText "api/api.py") team = none ∧
    Registry.builtin.dispatch Node.sample (.ofText "api/c.json") team = none := by
  have hbinary : Node.sample.locate (.ofText "api/a.json") =
      .ok ([Name.ofText "api", Name.ofText "a.json"], .file ⟨#[0xff]⟩ ⟨0, 0⟩) := rfl
  have hsealed : Node.sample.locate (.ofText "api/api.py") =
      .ok ([Name.ofText "api", Name.ofText "api.py"], .sealed 20 ⟨0, 0⟩ ⟨"Permission denied", 13⟩) := rfl
  have hbroken : Node.sample.locate (.ofText "api/c.json") =
      .ok ([Name.ofText "api", Name.ofText "c.json"], .file "[".toUTF8 ⟨0, 0⟩) := rfl
  refine ⟨Registry.dispatch_of_extension (by decide) (by decide) ?_ team, ?_,
    Registry.dispatch_of_extension (by decide) (by decide) ?_ team⟩
  · have hread := readSource_eq_error_iff.2 ⟨_, .inl (.binary hbinary (by decide +kernel)), rfl⟩
    rw [Specification.claims, Specification.load, hread]
    rfl
  · have hclaims : Controller.claims (.ofText "api/api.py") = true := by decide +kernel
    exact (Registry.FirstClaim.routing hclaims _).dispatch_of_error
      (Controller.extract_eq_error_iff.2 ⟨_, .inr (.sealed hsealed), rfl⟩)
  · have hparse : Specification.parse? "[" (Path.ofText "api/c.json").extension = none := by decide +kernel
    rw [Specification.claims, Specification.load, readSource_of_locate hbroken]
    simp only [bind, Except.bind, hparse]
    rfl

/-- The scan of the tree, under a team: two of its five files have an entry. -/
theorem scan_folder_of_sample :
    let options := { ScanOptions.unset with teamOwner := some "core" }
    Node.sample.WellFormed ∧ Node.sample.hasFolder (.ofText "api") = true ∧
    (∃ (files : List Path) (found : Path → List Entry),
      walk Node.sample options (.ofText "api") = .ok files ∧
      scan Node.sample .builtin options (.ofText "api") ⟨7, 0⟩ = .ok ⟨⟨7, 0⟩, files.flatMap found⟩ ∧
      (files.map Path.steps).Pairwise (· < ·) ∧
      (∀ file ∈ files, scan Node.sample .builtin options file ⟨7, 0⟩ = .ok ⟨⟨7, 0⟩, found file⟩ ∧
        (found file).length ≤ 1 ∧ ∀ entry ∈ found file, entry.endpoints ≠ [] ∧ entry.id = file.id ∧
          entry.metadata.sourceFile = file.text ∧ entry.metadata.teamOwner = some "core") ∧
      files = ["api/a.json", "api/api.py", "api/b/routes.py", "api/b.json", "api/c.json"].map Path.ofText ∧
      (files.flatMap found).map (fun entry => (entry.metadata.sourceFile, entry.metadata.teamOwner, entry.offers)) =
        [("api/b/routes.py", some "core", [("GET", "/users")]), ("api/b.json", some "core", [("GET", "/a")])]) ∧
    scan Node.sample .builtin options (.ofText "api/e") ⟨7, 0⟩ = .error (.rootNotFound (.ofText "api/e")) ∧
    scan Node.sample .builtin options (.ofText "api/d") ⟨7, 0⟩ =
      .error (.walk (.ofText "api/d") (.refused ⟨"Permission denied", 13⟩)) := by
  intro options
  obtain ⟨files, found, hwalk, hscan, hsorted, hfound⟩ :=
    (scan_folder wellFormed_sample options (.ofText "api") ⟨7, 0⟩ .none).2 hasFolder_sample
  obtain rfl := Except.ok.inj (hwalk.symm.trans (walk_sample options (by simp [options])))
  refine ⟨wellFormed_sample, hasFolder_sample, ⟨_, found, hwalk, hscan, hsorted, hfound, rfl, ?_⟩, ?_, ?_⟩
  · obtain ⟨users, tagged, husers, hroute, htagged, hoperation⟩ := exists_dispatch_sample (some "core")
    obtain ⟨hbinary, hsealed, hbroken⟩ := dispatch_sample_eq_none (some "core")
    have hentries := (scan_of_files (scanFiles_of_hasFolder hasFolder_sample hwalk) .builtin ⟨7, 0⟩).symm.trans hscan
    rw [Except.ok.injEq, Catalog.mk.injEq] at hentries
    have hteam : options.teamOwner = some "core" := rfl
    have hmarked := Registry.marked_of_dispatch husers
    have hmarked' := Registry.marked_of_dispatch htagged
    rw [← hentries.2]
    unfold fileEntries
    generalize Registry.builtin.dispatch Node.sample = dispatch at husers htagged hbinary hsealed hbroken ⊢
    simp only [List.map_cons, List.map_nil, List.flatMap_cons, List.flatMap_nil, hteam, hbinary, hsealed, husers,
      htagged, hbroken, Option.toList, List.nil_append, List.cons_append, hroute, hoperation, hmarked.sourceFile,
      hmarked.teamOwner, hmarked'.sourceFile, hmarked'.teamOwner]
    decide
  · have hmissing : Node.sample.hasPath (.ofText "api/e") = false := rfl
    exact ((scan_folder wellFormed_sample options (.ofText "api/e") ⟨7, 0⟩ .none).1 _).2 (.inl ⟨hmissing, rfl⟩)
  · have hbarred : Node.sample.locate (.ofText "api/d") =
        .ok ([Name.ofText "api", Name.ofText "d"], .barred ⟨"Permission denied", 13⟩) := rfl
    exact ((scan_folder wellFormed_sample options (.ofText "api/d") ⟨7, 0⟩ .none).1 _).2
      (.inr ⟨_, _, hbarred, rfl⟩)

end ApiCatalog
