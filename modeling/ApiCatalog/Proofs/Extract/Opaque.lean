import ApiCatalog.Proofs.Catalog.Document
import ApiCatalog.Proofs.Extract.Entry
import ApiCatalog.Proofs.Yaml.Sound
/-!
# Opaque values of endpoints

What an extractor takes over into an endpoint as it stands comes from a document that was read, in JSON or in YAML, and is
sound (`sound_of_dispatch`).
-/

namespace ApiCatalog

open Json (Value Members Number)

/-- The opaque values of the endpoint are as values are read. -/
structure Endpoint.Sound (endpoint : Endpoint) : Prop where
  parameters : (Value.array endpoint.parameters).Sound
  responses : (Value.object endpoint.responses).Sound

theorem Endpoint.Sound.distinctKeys {endpoint : Endpoint} (h : endpoint.Sound) : endpoint.DistinctKeys :=
  ⟨h.parameters.keys, h.responses.keys⟩

theorem Endpoint.Sound.fits {endpoint : Endpoint} (h : endpoint.Sound) : ∀ n ∈ endpoint.numbers, n.Fits :=
  List.forall_mem_append.2 ⟨h.parameters.fits, h.responses.fits⟩

theorem Endpoint.sound_of_nil {endpoint : Endpoint} (hparameters : endpoint.parameters = [])
    (hresponses : endpoint.responses = []) : endpoint.Sound where
  parameters := by
    rw [hparameters]
    exact Value.sound_array.2 fun _ hv => absurd hv List.not_mem_nil
  responses := by
    rw [hresponses]
    exact Members.sound_nil

namespace Specification

theorem sound_items {v : Option Value} (h : ∀ w, v = some w → w.Sound) :
    (Value.array ((v.bind Value.array?).getD [])).Sound := by
  cases v with
  | none => exact Value.sound_array.2 fun _ hv => absurd hv List.not_mem_nil
  | some v =>
    cases v with
    | array items => exact h _ rfl
    | _ => exact Value.sound_array.2 fun _ hv => absurd hv List.not_mem_nil

theorem sound_members {v : Option Value} (h : ∀ w, v = some w → w.Sound) :
    (Value.object ((v.bind Value.object?).getD [])).Sound := by
  cases v with
  | none => exact Members.sound_nil
  | some v =>
    cases v with
    | object members => exact h _ rfl
    | _ => exact Members.sound_nil

theorem sound_endpointOf (path method : String) {operation : Members} (h : (Value.object operation).Sound) :
    (endpointOf path method operation).Sound where
  parameters := sound_items fun _ hv => Value.sound_of_get? h hv
  responses := sound_members fun _ hv => Value.sound_of_get? h hv

theorem sound_of_parse? {content extension : String} {document : Value}
    (h : parse? content extension = some document) : document.Sound := by
  unfold parse? at h
  split at h
  · cases hparse : Json.parse content.toList with
    | error e => rw [hparse] at h; cases h
    | ok v =>
      rw [hparse] at h
      cases h
      exact Json.sound_of_parse hparse
  · obtain ⟨v, hv, rfl⟩ := Option.map_eq_some_iff.1 h
    exact Yaml.Value.sound_toJson (Yaml.Value.fits_of_ofText? hv)

theorem sound_of_load {tree : Node} {path : Path} {document : Value} (h : load tree path = .ok document) :
    document.Sound := by
  obtain ⟨content, -, h⟩ := Json.bind_eq_ok h
  split at h
  · rename_i hparse
    cases h
    exact sound_of_parse? hparse
  · cases h

theorem sound_endpoints {root : Members} (h : (Value.object root).Sound) :
    ∀ endpoint ∈ endpoints root, endpoint.Sound := by
  intro endpoint hendpoint
  obtain ⟨⟨path, item⟩, hitem, hendpoint⟩ := List.mem_flatMap.1 hendpoint
  obtain ⟨⟨key, operation⟩, hoperation, hendpoint⟩ := List.mem_filterMap.1 hendpoint
  have hpaths := sound_members (v := root.get? "paths") fun _ hv => Value.sound_of_get? h hv
  have hitemSound := (Value.sound_object.1 hpaths).2 _ hitem
  have hmembers : (Value.object (item.object?.getD [])).Sound :=
    sound_members (v := some item) fun w hw => Option.some.inj hw ▸ hitemSound
  have hsound := (Value.sound_object.1 hmembers).2 _ hoperation
  unfold operation? at hendpoint
  dsimp only at hendpoint
  split at hendpoint
  · cases operation with
    | object members =>
      cases hendpoint
      exact sound_endpointOf path _ hsound
    | _ => cases hendpoint
  · cases hendpoint

end Specification

/-- Whatever the extractor finds in a file is sound. -/
def Extractor.Sound (extractor : Extractor) : Prop :=
  ∀ {tree file team entry}, extractor.extract tree file team = .ok (some entry) →
  ∀ endpoint ∈ entry.endpoints, endpoint.Sound

theorem Specification.isSound : extractor.Sound := by
  intro tree file team entry h
  obtain ⟨-, document, root, hload, hroot, hendpoints⟩ := of_extract h
  have hdocument := sound_of_load hload
  rw [hendpoints]
  cases document with
  | object members =>
    cases hroot
    exact sound_endpoints hdocument
  | _ => cases hroot

theorem Controller.isSound : extractor.Sound := by
  intro tree file team entry h
  obtain ⟨-, content, -, hendpoints⟩ := of_extract h
  rw [hendpoints]
  intro endpoint hendpoint
  obtain ⟨route, -, rfl⟩ := List.mem_map.1 hendpoint
  unfold endpointOf
  dsimp only
  split <;> exact Endpoint.sound_of_nil rfl rfl

theorem Annotated.isSound : extractor.Sound := by
  intro tree file team entry h
  obtain ⟨-, content, language, -, -, hendpoints⟩ := of_extract h
  rw [hendpoints]
  intro endpoint hendpoint
  obtain ⟨route, -, rfl⟩ := List.mem_map.1 hendpoint
  exact Endpoint.sound_of_nil rfl rfl

/-- **Whatever is found in a file is sound.** -/
theorem Registry.sound_of_dispatch {tree : Node} {file : Path} {team : Option String} {entry : Entry}
    (h : builtin.dispatch tree file team = some entry) : ∀ endpoint ∈ entry.endpoints, endpoint.Sound := by
  obtain ⟨-, extractor, hmem, -, hextract⟩ := of_dispatch h
  rcases mem_builtin_iff.1 hmem with rfl | rfl | rfl
  · exact Specification.isSound hextract
  · exact Controller.isSound hextract
  · exact Annotated.isSound hextract

end ApiCatalog
