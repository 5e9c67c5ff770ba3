import ApiCatalog.Catalog.Storage
import ApiCatalog.Proofs.Files.Write
/-!
# Files of stored catalogs

To save a catalog changes no file but the one that its path leads to then (`locate_save`), and none on failure
(`sameFiles_failed_save`).  What is loaded from a path is what the text there stands for (`load_eq_ok_iff`).
-/

namespace ApiCatalog.Catalog

section
variable {catalog : Catalog} {tree store : Node} {path : Path} {format : OutputFormat} {now : Instant}

/-- A catalog that was saved was written when the folders around it had been made. -/
theorem write_of_save (h : catalog.save tree path format now = (store, .ok ())) :
    (tree.makeFolders (path.parent?.getD ⟨[]⟩)).1.write path (catalog.render format).toUTF8 now = .ok store := by
  unfold save at h
  dsimp only at h
  split at h
  · cases h
  · rename_i hfolders
    split at h
    · rename_i hwrite
      cases h
      rwa [hfolders]
    · cases h

/-- **A catalog that was saved is the text of the file that its path leads to, and no other file has changed.** -/
theorem locate_save (h : catalog.save tree path format now = (store, .ok ())) : ∃ place,
    store.locate path = .ok (place, .file (catalog.render format).toUTF8 now) ∧ tree.SameFilesBut [place] store := by
  obtain ⟨spot, -, hopen, hstore, hlocate⟩ := Node.write_eq_put (write_of_save h)
  have hfolders := tree.sameFiles_makeFolders (path.parent?.getD ⟨[]⟩)
  refine ⟨spot.place, hlocate, (hfolders.mono (List.nil_subset _)).trans ?_⟩
  rw [hstore]
  exact Node.sameFiles_put (.file _ rfl hopen) fun _ => List.mem_singleton_self _

/-- **A catalog that could not be saved has changed no file.** -/
theorem sameFiles_failed_save {e : OutputError} (h : catalog.save tree path format now = (store, .error e)) :
    tree.SameFilesBut [] store := by
  have hfolders := tree.sameFiles_makeFolders (path.parent?.getD ⟨[]⟩)
  unfold save at h
  dsimp only at h
  split at h
  · rename_i hmade
    cases h
    rwa [hmade] at hfolders
  · rename_i hmade
    split at h
    · cases h
    · cases h
      rwa [hmade] at hfolders

theorem load_eq_ok_iff {text : String} (hread : tree.readText path = .ok text) :
    load tree path = .ok catalog ↔ ofJson text = .ok catalog := by
  rw [load, hread]
  dsimp only [Catalog.read]
  cases ofJson text <;> simp [Except.mapError]

end

end ApiCatalog.Catalog
