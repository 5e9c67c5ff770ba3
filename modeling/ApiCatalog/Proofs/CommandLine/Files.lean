import ApiCatalog.CommandLine.Run
import ApiCatalog.Proofs.Catalog.Storage
import ApiCatalog.Proofs.Scan.Entries
/-!
# What commands do to files

No command changes a file but a scan that goes well, and that one changes no file but its catalog (`run_files`).
-/

namespace ApiCatalog.CommandLine

open Ignore (Excludes)

/-! ## What is in effect -/

/-- The options, the format and the path that are in effect for a scan: what the arguments say goes before what the
configuration says, and that before what is usual. -/
structure ScanRequest.Settles (request : ScanRequest) (config : Config) (options : ScanOptions) (format : OutputFormat)
    (output : Path) : Prop where
  options_eq : options = { config.scan with
    teamOwner := request.team.or config.scan.teamOwner
    recursive := if request.topOnly then some false else config.scan.recursive }
  format_asked : ∀ text, request.format = some text → OutputFormat.ofText text = .ok format
  format_usual : request.format = none → format = config.output.format.getD .json
  output_eq : output = (request.output.or config.output.path).getD (.ofText ("catalog." ++ format.name))

theorem ScanRequest.settles_of_configure {request : ScanRequest} {config settled : Config}
    (h : request.configure config = .ok settled) :
    request.Settles config settled.scan settled.output.formatInEffect settled.output.pathInEffect := by
  unfold ScanRequest.configure at h
  cases hasked : request.format with
  | none =>
    rw [hasked] at h
    cases h
    exact ⟨rfl, fun text he => (by cases hasked.symm.trans he), fun _ => rfl, rfl⟩
  | some text =>
    rw [hasked] at h
    dsimp only at h
    cases hformat : OutputFormat.ofText text with
    | error e =>
      rw [hformat] at h
      cases h
    | ok format =>
      rw [hformat] at h
      cases h
      refine ⟨rfl, fun other he => ?_, fun he => (by cases hasked.symm.trans he), rfl⟩
      cases hasked.symm.trans he
      exact hformat

/-! ## Scans -/

section
variable {request : ScanRequest} {tree : Node} {now : Instant} {excludes : Excludes}

/-- **What a scan does**: it ends before anything is written, or it saves the catalog that was found under the options in
effect, and ends well if that went well. -/
theorem runScan_cases (request : ScanRequest) (tree : Node) (now : Instant) (excludes : Excludes) :
    (∃ messages, runScan request tree now excludes = (tree, .failed messages)) ∨
    ∃ config options format output catalog saved, Config.load tree request.root request.config = .ok config ∧
      request.Settles config options format output ∧ scan tree .builtin options request.root now excludes = .ok catalog ∧
      catalog.save tree output format now = saved ∧ (runScan request tree now excludes).1 = saved.1 ∧
      ((∃ e messages, saved.2 = .error e ∧ (runScan request tree now excludes).2 = .failed messages) ∨
        saved.2 = .ok () ∧ (runScan request tree now excludes).2 = .done (scanSummary catalog output) (some output)) := by
  unfold runScan
  split
  · exact .inl ⟨_, rfl⟩
  · rename_i config hconfig
    split
    · exact .inl ⟨_, rfl⟩
    · rename_i settled hsettled
      split
      · exact .inl ⟨_, rfl⟩
      · rename_i catalog hscan
        refine .inr ⟨config, settled.scan, settled.output.formatInEffect, settled.output.pathInEffect, catalog, _,
          hconfig, ScanRequest.settles_of_configure hsettled, hscan, rfl, ?_⟩
        dsimp only
        split
        · rename_i e hsave
          exact ⟨by rw [hsave], .inl ⟨e, _, by rw [hsave], rfl⟩⟩
        · rename_i hsave
          exact ⟨by rw [hsave], .inr ⟨by rw [hsave], rfl⟩⟩

/-- A scan that ends with an error leaves all files. -/
theorem sameFiles_failed_scan (h : (runScan request tree now excludes).2.exitCode ≠ 0) :
    tree.SameFilesBut [] (runScan request tree now excludes).1 := by
  rcases runScan_cases request tree now excludes with
    ⟨messages, he⟩ | ⟨_, _, _, _, catalog, ⟨store, result⟩, -, -, -, hsave, hstore, ⟨e, messages, herror, -⟩ | ⟨-, hdone⟩⟩
  · rw [he]
    exact .refl [] tree
  · rw [hstore]
    cases herror
    exact Catalog.sameFiles_failed_save hsave
  · rw [hdone] at h
    exact absurd rfl h

/-- **A scan that goes well leaves all files but the one that the path in effect leads to, and that one holds the catalog
in the format in effect.** -/
theorem written_of_scan (h : (runScan request tree now excludes).2.exitCode = 0) :
    ∃ config options format output catalog place, Config.load tree request.root request.config = .ok config ∧
      request.Settles config options format output ∧ scan tree .builtin options request.root now excludes = .ok catalog ∧
      (runScan request tree now excludes).1.locate output = .ok (place, .file (catalog.render format).toUTF8 now) ∧
      (runScan request tree now excludes).1.readText output = .ok (catalog.render format) ∧
      tree.SameFilesBut [place] (runScan request tree now excludes).1 := by
  rcases runScan_cases request tree now excludes with
    ⟨messages, he⟩ | ⟨config, options, format, output, catalog, ⟨store, result⟩, hconfig, hsettles, hscan, hsave, hstore,
      ⟨e, messages, -, hfailed⟩ | ⟨hok, -⟩⟩
  · rw [he] at h
    cases h
  · rw [hfailed] at h
    cases h
  · cases hok
    obtain ⟨place, hlocate, hsame⟩ := Catalog.locate_save hsave
    rw [hstore]
    exact ⟨config, options, format, output, catalog, place, hconfig, hsettles, hscan, hlocate,
      Node.readText_of_locate hlocate, hsame⟩

end

/-! ## All commands -/

/-- Every run but that of a scan leaves the tree as it is. -/
theorem run_fst {arguments : List String} (h : ∀ request, Command.ofArguments arguments ≠ .ok (.scan request))
    (tree : Node) (now : Instant) (excludes : Excludes) : (run arguments tree now excludes).1 = tree := by
  unfold run
  cases hcommand : Command.ofArguments arguments with
  | error stop => cases stop <;> rfl
  | ok command =>
    cases command with
    | scan request => exact absurd hcommand (h request)
    | search _ _ | stats _ => rfl

/-- **A run that ends with an error leaves all files**, though folders may have been made.  **A scan that goes well
leaves all files but the one that the path in effect leads to, and what is read back from there is the catalog that was
found, in the format in effect.**  All other runs leave the whole tree.  The paths of a run are followed within the tree:
one that leads out of it leads nowhere. -/
theorem run_files (arguments : List String) (tree : Node) (now : Instant) (excludes : Excludes) :
    ((run arguments tree now excludes).2.exitCode ≠ 0 → tree.SameFilesBut [] (run arguments tree now excludes).1) ∧
    (∀ request, Command.ofArguments arguments = .ok (.scan request) → (run arguments tree now excludes).2.exitCode = 0 →
      ∃ config options format output catalog place, Config.load tree request.root request.config = .ok config ∧
        request.Settles config options format output ∧
        scan tree .builtin options request.root now excludes = .ok catalog ∧
        (run arguments tree now excludes).1.locate output = .ok (place, .file (catalog.render format).toUTF8 now) ∧
        (run arguments tree now excludes).1.readText output = .ok (catalog.render format) ∧
        tree.SameFilesBut [place] (run arguments tree now excludes).1) ∧
    ((∀ request, Command.ofArguments arguments ≠ .ok (.scan request)) → (run arguments tree now excludes).1 = tree) := by
  have hscan : ∀ request, Command.ofArguments arguments = .ok (.scan request) →
      run arguments tree now excludes = runScan request tree now excludes := fun request h => by
    rw [run, h]
    rfl
  refine ⟨fun hexit => ?_, fun request hcommand hexit => ?_, fun h => run_fst h tree now excludes⟩
  · by_cases hcommand : ∃ request, Command.ofArguments arguments = .ok (.scan request)
    · obtain ⟨request, hcommand⟩ := hcommand
      rw [hscan request hcommand] at hexit ⊢
      exact sameFiles_failed_scan hexit
    · rw [run_fst (fun request h => hcommand ⟨request, h⟩) tree now excludes]
      exact .refl [] tree
  · rw [hscan request hcommand] at hexit ⊢
    exact written_of_scan hexit

theorem run_files_page : ∃ catalog place,
    (run ["scan", "-f", "HTML", "-o", "out/c.html", "api"] Node.sample ⟨0, 0⟩).1.readText (.ofText "out/c.html") =
      .ok (Html.page catalog) ∧
    Node.sample.SameFilesBut [place]
      (run ["scan", "-f", "HTML", "-o", "out/c.html", "api"] Node.sample ⟨0, 0⟩).1 := by
  let request : ScanRequest := ⟨.ofText "api", some (.ofText "out/c.html"), some "HTML", none, false, none⟩
  have hcommand : Command.ofArguments ["scan", "-f", "HTML", "-o", "out/c.html", "api"] = .ok (.scan request) := by
    decide +kernel
  have hexit : (run ["scan", "-f", "HTML", "-o", "out/c.html", "api"] Node.sample ⟨0, 0⟩).2.exitCode = 0 := by
    rw [run, hcommand]
    rfl
  obtain ⟨config, options, format, output, catalog, place, -, hsettles, -, -, hread, hsame⟩ :=
    (run_files _ Node.sample ⟨0, 0⟩ .none).2.1 request hcommand hexit
  have hformat := hsettles.format_asked "HTML" rfl
  have hhtml : OutputFormat.ofText "HTML" = .ok .html := by decide
  cases hhtml.symm.trans hformat
  rw [hsettles.output_eq] at hread
  exact ⟨catalog, place, hread, hsame⟩

end ApiCatalog.CommandLine
