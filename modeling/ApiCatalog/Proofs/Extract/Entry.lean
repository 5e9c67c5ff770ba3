import ApiCatalog.Extract.Registry
import ApiCatalog.Proofs.Files.Write
import ApiCatalog.Proofs.Json.Reread
/-!
# Entries of files

The entry of a file is made by the first extractor that claims the file (`dispatch_eq_some_iff`).  Whatever extractor
makes it, the entry has endpoints (`of_dispatch`), is marked with the file and the team (`marked_of_dispatch`), and
depends on nothing but what the path of the file leads to (`dispatch_congr`).
-/

namespace ApiCatalog

/-- The entry is marked with the file that it is made of and with the team. -/
structure Entry.Marked (tree : Node) (file : Path) (team : Option String) (entry : Entry) : Prop where
  id : entry.id = file.id
  sourceFile : entry.metadata.sourceFile = file.text
  teamOwner : entry.metadata.teamOwner = team
  lastUpdated : entry.metadata.lastUpdated = tree.modified? file

section
variable {tree : Node} {file : Path} {team : Option String} {entry : Entry}

/-- What an extractor makes of a file, one extractor after the other. -/
theorem Specification.of_extract (h : extractor.extract tree file team = .ok (some entry)) :
    entry.Marked tree file team ∧ ∃ document root, load tree file = .ok document ∧ document.object? = some root ∧
      entry.endpoints = endpoints root := by
  obtain ⟨document, hload, h⟩ := Json.bind_eq_ok h
  split at h
  · rename_i root hroot
    have hdescribed : described? tree file team root = some entry := Except.ok.inj h
    unfold described? at hdescribed
    split at hdescribed
    · cases hdescribed
    · cases hdescribed
      exact ⟨⟨rfl, rfl, rfl, rfl⟩, document, root, hload, hroot, rfl⟩
  · cases h

theorem Controller.of_extract (h : extractor.extract tree file team = .ok (some entry)) :
    entry.Marked tree file team ∧ ∃ content, readSource tree file = .ok content ∧
      entry.endpoints = endpoints content.toList file.extension
        (Framework.detect content.toList file.extension) := by
  obtain ⟨content, hread, h⟩ := Json.bind_eq_ok h
  dsimp only at h
  split at h
  · cases h
  · cases h
    exact ⟨⟨rfl, rfl, rfl, rfl⟩, content, hread, rfl⟩

theorem Annotated.of_extract (h : extractor.extract tree file team = .ok (some entry)) :
    entry.Marked tree file team ∧ ∃ content language, readSource tree file = .ok content ∧
      Language.ofExtension? file.extension = some language ∧
      entry.endpoints = endpoints content.toList file.extension language := by
  simp only [extractor] at h
  split at h
  · cases h
  · rename_i language hlanguage
    obtain ⟨content, hread, h⟩ := Json.bind_eq_ok h
    split at h
    · cases h
    · cases h
      exact ⟨⟨rfl, rfl, rfl, rfl⟩, content, language, hread, hlanguage, rfl⟩

end

/-- The extractor looks at nothing but what the path of a file leads to. -/
structure Extractor.Local (extractor : Extractor) : Prop where
  claims {tree tree' : Node} {file : Path} : tree'.locate file = tree.locate file →
    extractor.claims tree' file = extractor.claims tree file
  extract {tree tree' : Node} {file : Path} (team : Option String) : tree'.locate file = tree.locate file →
    extractor.extract tree' file team = extractor.extract tree file team

theorem readSource_congr {tree tree' : Node} {file : Path} (h : tree'.locate file = tree.locate file) :
    readSource tree' file = readSource tree file := by
  rw [readSource, readSource, Node.readText, Node.readText, h]

theorem readSource_of_locate {tree : Node} {path : Path} {place : List Name} {text : String} {modified : Instant}
    (h : tree.locate path = .ok (place, .file text.toUTF8 modified)) : readSource tree path = .ok text := by
  rw [readSource, Node.readText_of_locate h]

theorem locate_of_readSource {tree : Node} {path : Path} {text : String} (h : readSource tree path = .ok text) :
    ∃ place content modified, tree.locate path = .ok (place, .file content modified) := by
  unfold readSource Node.readText at h
  cases hlocate : tree.locate path with
  | error e => rw [hlocate] at h; cases h
  | ok found =>
    obtain ⟨place, node⟩ := found
    rw [hlocate] at h
    cases node with
    | file content modified => exact ⟨place, content, modified, rfl⟩
    | folder _ | link _ | sealed _ _ _ | barred _ => cases h

theorem Specification.load_of_parse {tree : Node} {path : Path} {content : String} {document : Json.Value}
    (hread : readSource tree path = .ok content) (hextension : path.extension = "json")
    (hparse : Json.parse content.toList = .ok document) : load tree path = .ok document := by
  simp only [load, hread, bind, Except.bind, parse?, hextension, if_true, hparse]
  rfl

theorem Specification.extract_of_load {tree : Node} {path : Path} {document : Json.Value}
    (hload : load tree path = .ok document) (team : Option String) :
    extractor.extract tree path team = match document.object? with
      | some root => .ok (described? tree path team root)
      | none => .error (.notMapping path) := by
  simp only [extractor, hload, bind, Except.bind]
  cases document.object? <;> rfl

theorem Metadata.ofSource_congr {tree tree' : Node} {file : Path} (h : tree'.locate file = tree.locate file)
    (team : Option String) : Metadata.ofSource tree' file team = Metadata.ofSource tree file team := by
  rw [Metadata.ofSource, Metadata.ofSource, Node.modified?, Node.modified?, Node.node?, Node.node?, h]

theorem Specification.isLocal : extractor.Local where
  claims h := by simp only [extractor, claims, load, readSource_congr h]
  extract team h := by simp only [extractor, load, described?, readSource_congr h, Metadata.ofSource_congr h team]

theorem Controller.isLocal : extractor.Local where
  claims _ := rfl
  extract team h := by simp only [extractor, readSource_congr h, Metadata.ofSource_congr h team]

theorem Annotated.isLocal : extractor.Local where
  claims h := by simp only [extractor, claims, readSource_congr h]
  extract team h := by simp only [extractor, readSource_congr h, Metadata.ofSource_congr h team]

namespace Registry

/-- The extractor at a position is the first one that claims a file. -/
def FirstClaim (registry : Registry) (tree : Node) (file : Path) (position : Nat) (extractor : Extractor) : Prop :=
  registry[position]? = some extractor ∧ extractor.claims tree file = true ∧
    ∀ earlier < position, ∀ other, registry[earlier]? = some other → other.claims tree file = false

section
variable {registry : Registry} {tree : Node} {file : Path} {team : Option String}

theorem find?_eq_some_iff {extractor : Extractor} :
    registry.find? (fun extractor => extractor.claims tree file) = some extractor ↔
      ∃ position, registry.FirstClaim tree file position extractor := by
  rw [List.find?_eq_some_iff_getElem]
  constructor
  · rintro ⟨hclaims, position, hposition, rfl, hfirst⟩
    refine ⟨position, List.getElem?_eq_getElem hposition, hclaims, fun earlier hearlier other hother => ?_⟩
    obtain ⟨-, rfl⟩ := List.getElem?_eq_some_iff.1 hother
    simpa using hfirst earlier hearlier
  · rintro ⟨position, hextractor, hclaims, hfirst⟩
    obtain ⟨hposition, rfl⟩ := List.getElem?_eq_some_iff.1 hextractor
    refine ⟨hclaims, position, hposition, rfl, fun earlier hearlier => ?_⟩
    simp [hfirst earlier hearlier _ (List.getElem?_eq_getElem (Nat.lt_trans hearlier hposition))]

/-- **An entry comes from the first extractor that claims the file**, and has endpoints. -/
theorem dispatch_eq_some_iff {entry : Entry} : registry.dispatch tree file team = some entry ↔
    ∃ position extractor, registry.FirstClaim tree file position extractor ∧
      extractor.extract tree file team = .ok (some entry) ∧ entry.endpoints ≠ [] := by
  rw [dispatch]
  constructor
  · intro h
    split at h
    · cases h
    · rename_i extractor hfind
      obtain ⟨position, hfirst⟩ := find?_eq_some_iff.1 hfind
      split at h
      · rename_i found hextract
        split at h
        · cases h
        · rename_i hempty
          cases h
          exact ⟨position, extractor, hfirst, hextract, by simpa using hempty⟩
      · cases h
      · cases h
  · rintro ⟨position, extractor, hfirst, hextract, hendpoints⟩
    rw [find?_eq_some_iff.2 ⟨position, hfirst⟩]
    simp only [hextract]
    rw [if_neg (by simpa using hendpoints)]

end

/-- What is dispatched comes from an extractor and has endpoints. -/
theorem of_dispatch {registry : Registry} {tree : Node} {file : Path} {team : Option String} {entry : Entry}
    (h : registry.dispatch tree file team = some entry) : entry.endpoints ≠ [] ∧
      ∃ extractor ∈ registry, extractor.claims tree file = true ∧
        extractor.extract tree file team = .ok (some entry) := by
  obtain ⟨position, extractor, ⟨hextractor, hclaims, -⟩, hextract, hendpoints⟩ := dispatch_eq_some_iff.1 h
  exact ⟨hendpoints, extractor, List.mem_of_getElem? hextractor, hclaims, hextract⟩

/-- A file at which nothing has changed is dispatched to the same end. -/
theorem dispatch_congr {registry : Registry} {tree tree' : Node} {file : Path}
    (hlocal : ∀ extractor ∈ registry, extractor.Local)
    (h : tree'.locate file = tree.locate file) (team : Option String) :
    registry.dispatch tree' file team = registry.dispatch tree file team := by
  have hfind : registry.find? (fun extractor => extractor.claims tree' file) =
      registry.find? (fun extractor => extractor.claims tree file) := by
    induction registry with
    | nil => rfl
    | cons extractor registry ih =>
      rw [List.forall_mem_cons] at hlocal
      rw [List.find?_cons, List.find?_cons, hlocal.1.claims h, ih hlocal.2]
  rw [dispatch, dispatch, hfind]
  split
  · rfl
  · rename_i extractor hextractor
    rw [(hlocal extractor (List.mem_of_find?_eq_some hextractor)).extract team h]

theorem mem_builtin_iff {extractor : Extractor} : extractor ∈ builtin ↔
    extractor = Specification.extractor ∨ extractor = Controller.extractor ∨ extractor = Annotated.extractor := by
  simp only [builtin, List.mem_cons, List.not_mem_nil, or_false]

namespace FirstClaim

variable {tree : Node} {file : Path}

theorem specification (h : Specification.claims tree file = true) :
    builtin.FirstClaim tree file 0 Specification.extractor :=
  ⟨rfl, h, fun _ hearlier => absurd hearlier (Nat.not_lt_zero _)⟩

/-- A file that is claimed by its name is no document. -/
theorem routing (h : Controller.claims file = true) (tree : Node) :
    builtin.FirstClaim tree file 1 Controller.extractor := by
  refine ⟨rfl, h, fun earlier hearlier other hother => ?_⟩
  obtain rfl : earlier = 0 := Nat.lt_one_iff.1 hearlier
  obtain rfl : Specification.extractor = other := Option.some.inj hother
  have hsource := List.contains_iff_mem.1 (Bool.and_eq_true_iff.1 h).1
  have hnone : ∀ extension ∈ Controller.sourceExtensions,
      Specification.documentExtensions.contains extension = false := by decide
  change Specification.claims tree file = false
  rw [Specification.claims, hnone _ hsource, Bool.false_and]

end FirstClaim

/-- Nothing comes of a file that is no specification and not named as a source. -/
theorem dispatch_of_extension {tree : Node} {file : Path}
    (hsource : Controller.sourceExtensions.contains file.extension = false)
    (hlanguage : Language.ofExtension? file.extension = none) (h : Specification.claims tree file = false)
    (team : Option String) : builtin.dispatch tree file team = none := by
  have hfind : builtin.find? (fun extractor => extractor.claims tree file) = none := by
    refine List.find?_eq_none.2 fun extractor hmem => Bool.eq_false_iff.1 ?_
    rcases mem_builtin_iff.1 hmem with rfl | rfl | rfl
    · exact h
    · change Controller.claims file = false
      rw [Controller.claims, hsource, Bool.false_and]
    · change Annotated.claims tree file = false
      rw [Annotated.claims, hlanguage]
      rfl
  rw [dispatch, hfind]

theorem isLocal_of_mem_builtin : ∀ extractor ∈ builtin, extractor.Local := by
  intro extractor hmem
  rcases mem_builtin_iff.1 hmem with rfl | rfl | rfl
  · exact Specification.isLocal
  · exact Controller.isLocal
  · exact Annotated.isLocal

/-- **Every entry is marked with its file and the team, whichever extractor made it.** -/
theorem marked_of_dispatch {tree : Node} {file : Path} {team : Option String} {entry : Entry}
    (h : builtin.dispatch tree file team = some entry) : entry.Marked tree file team := by
  obtain ⟨-, extractor, hmem, -, hextract⟩ := of_dispatch h
  rcases mem_builtin_iff.1 hmem with rfl | rfl | rfl
  · exact (Specification.of_extract hextract).1
  · exact (Controller.of_extract hextract).1
  · exact (Annotated.of_extract hextract).1

/-- An entry is made of a file that can be read. -/
theorem locate_of_dispatch {tree : Node} {file : Path} {team : Option String} {entry : Entry}
    (h : builtin.dispatch tree file team = some entry) :
    ∃ place content modified, tree.locate file = .ok (place, .file content modified) := by
  obtain ⟨-, extractor, hmem, -, hextract⟩ := of_dispatch h
  suffices hread : ∃ content, readSource tree file = .ok content by
    obtain ⟨content, hread⟩ := hread
    exact locate_of_readSource hread
  rcases mem_builtin_iff.1 hmem with rfl | rfl | rfl
  · obtain ⟨-, document, -, hload, -, -⟩ := Specification.of_extract hextract
    obtain ⟨content, hread, -⟩ := Json.bind_eq_ok hload
    exact ⟨content, hread⟩
  · obtain ⟨-, content, hread, -⟩ := Controller.of_extract hextract
    exact ⟨content, hread⟩
  · obtain ⟨-, content, -, hread, -, -⟩ := Annotated.of_extract hextract
    exact ⟨content, hread⟩

end Registry

end ApiCatalog
