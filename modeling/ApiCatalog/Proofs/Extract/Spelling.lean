import ApiCatalog.Proofs.Extract.Entry
import ApiCatalog.Proofs.Yaml.Alike
/-!
# Spellings of specifications

A specification in YAML gives the same endpoints, base URL and texts whether the paths and response codes in it stand in
quotes or not and whether its values have tags or not (`extract_spellings`).
-/

namespace ApiCatalog.Specification

open Yaml (Written)
open Yaml.Value (Respelled ofText?)

/-- What a specification tells, apart from the file that it stands in. -/
structure Told where
  endpoints : List Endpoint
  baseUrl : Option String
  title : Option String
  version : Option String
  description : Option String

def Told.ofEntry (entry : Entry) : Told :=
  ⟨entry.endpoints, entry.metadata.baseUrl, entry.metadata.title, entry.metadata.version, entry.metadata.description⟩

/-- What is told of the specification at a path: nothing if it has no operation or cannot be read. -/
def told? (tree : Node) (file : Path) (team : Option String) : Option Told :=
  (extractor.extract tree file team).toOption.join.map Told.ofEntry

theorem told_described? (tree tree' : Node) (file file' : Path) (team team' : Option String) (root : Json.Members) :
    (described? tree' file' team' root).map Told.ofEntry = (described? tree file team root).map Told.ofEntry := by
  unfold described?
  split
  · rfl
  · simp only [Option.map_some, Told.ofEntry]

/-- The path leads to a document in YAML with this text. -/
def YamlAt (tree : Node) (file : Path) (content : String) : Prop :=
  file.extension ≠ "json" ∧ readSource tree file = .ok content

theorem load_of_read {tree : Node} {file : Path} {content : String} {document : Json.Value}
    (hread : readSource tree file = .ok content) (hparse : parse? content file.extension = some document) :
    load tree file = .ok document := by
  simp only [load, hread, bind, Except.bind, hparse]
  rfl

theorem told?_of_yaml {tree : Node} {file : Path} {content : String} {v : Yaml.Value} (h : YamlAt tree file content)
    (hv : ofText? content.toList = some v) (team : Option String) :
    told? tree file team = v.toJson.object?.bind fun root => (described? tree file team root).map Told.ofEntry := by
  have hparse : parse? content file.extension = some v.toJson := by rw [parse?, if_neg h.1, hv, Option.map_some]
  rw [told?, extract_of_load (load_of_read h.2 hparse)]
  cases v.toJson.object? <;> rfl

theorem told?_congr {tree tree' : Node} {file file' : Path} {content content' : String} {v v' : Yaml.Value}
    (h : YamlAt tree file content) (h' : YamlAt tree' file' content') (hv : ofText? content.toList = some v)
    (hv' : ofText? content'.toList = some v') (hsame : v'.toJson = v.toJson) (team team' : Option String) :
    told? tree' file' team' = told? tree file team := by
  rw [told?_of_yaml h hv, told?_of_yaml h' hv', hsame]
  exact Option.bind_congr fun root _ => told_described? tree tree' file file' team team' root

/-- **How a specification is spelled in YAML does not matter.**  In JSON the YAML value with the structure of a JSON
value is that value.  A YAML value is the same in JSON if keys in it are replaced by the numbers or truth values of
which they are the texts, or the other way around, and if values in it get tags or lose them.  So two documents tell
the same if they are read as values that differ in this way alone, and also if they are written as nodes that differ in
nothing but in own tags of values and in quotes around keys that are numbers, truth values or texts that stand for
themselves, such as paths. -/
theorem extract_spellings :
    (∀ v : Json.Value, v.DistinctKeys → (∀ n ∈ v.numbers, Yaml.Value.IsFinite n) → (Yaml.Value.ofJson v).toJson = v) ∧
    (∀ v v' : Yaml.Value, Relation.EqvGen Respelled v v' → v'.toJson = v.toJson) ∧
    (∀ {tree tree' : Node} {file file' : Path} {content content' : String}, YamlAt tree file content →
      YamlAt tree' file' content' → ∀ team team' : Option String,
      (∀ v v', ofText? content.toList = some v → ofText? content'.toList = some v' → Relation.EqvGen Respelled v v' →
        told? tree' file' team' = told? tree file team) ∧
      (∀ w w', Written.Writes content.toList w → Written.Writes content'.toList w' → Written.Alike w w' →
        (ofText? content.toList).isSome = true → (ofText? content'.toList).isSome = true →
        told? tree' file' team' = told? tree file team)) ∧
    ∀ path : String, path.toList.head? = some '/' → Written.Quotable path := by
  refine ⟨fun v => Yaml.Value.toJson_ofJson, fun v v' => Yaml.Value.toJson_of_eqvGen, ?_, fun path hpath => ?_⟩
  · intro tree tree' file file' content content' h h' team team'
    refine ⟨fun v v' hv hv' hsame => ?_, fun w w' hw hw' halike hread hread' => ?_⟩
    · exact told?_congr h h' hv hv' (Yaml.Value.toJson_of_eqvGen hsame) team team'
    · obtain ⟨v, hv⟩ := Option.isSome_iff_exists.1 hread
      obtain ⟨v', hv'⟩ := Option.isSome_iff_exists.1 hread'
      have hsame := Written.toJson_of_alike halike ((Written.ofText?_of_writes hw).symm.trans hv)
        ((Written.ofText?_of_writes hw').symm.trans hv')
      exact told?_congr h h' hv hv' hsame team team'
  · exact .text (Yaml.Value.ofPlain?_path hpath)

/-- A specification whose path and response code stand in quotes or not, and whose operation has an own tag or none. -/
def spelled (quoted : Bool) (tag : Option (List Char)) : Written :=
  .mapping none [(.scalar none "paths" true, .mapping none [(.scalar none "/a" (!quoted), .mapping none
    [(.scalar none "get" true, .mapping tag [(.scalar none "responses" true, .mapping none
      [(.scalar none "200" (!quoted), .scalar none "b" true)])])])])]

def fileOf (content : String) : Node := .folder [(Name.ofText "s.yaml", .file content.toUTF8 ⟨0, 0⟩)]

theorem yamlAt_fileOf (content : String) : YamlAt (fileOf content) (.ofText "s.yaml") content := by
  have hlocate : (fileOf content).locate (.ofText "s.yaml") =
      .ok ([Name.ofText "s.yaml"], .file content.toUTF8 ⟨0, 0⟩) := rfl
  exact ⟨by decide, readSource_of_locate hlocate⟩

/-- Two files with one specification, in JSON a value with a number, and a key and a value spelled in another way. -/
theorem extract_spellings_of_codes :
    let quoted := "paths: \x7b\"/a\": \x7bget: \x7bresponses: \x7b\"200\": b\x7d\x7d\x7d\x7d"
    let tagged := "paths: \x7b/a: \x7bget: !op \x7bresponses: \x7b200: b\x7d\x7d\x7d\x7d"
    let document := Json.Value.object [("200", .array [.number (.whole (-7)), .null])]
    told? (fileOf tagged) (.ofText "s.yaml") none = told? (fileOf quoted) (.ofText "s.yaml") none ∧
      (told? (fileOf quoted) (.ofText "s.yaml") none).isSome = true ∧
      (Yaml.Value.ofJson document).toJson = document ∧
      (Yaml.Value.mapping [(.whole 200, .tagged "op" .null)]).toJson =
        (Yaml.Value.mapping [(.string "200", .null)]).toJson := by
  intro quoted tagged document
  obtain ⟨hstructure, hspelled, hfiles, hpath⟩ := extract_spellings
  obtain ⟨-, hnodes⟩ := hfiles (yamlAt_fileOf quoted) (yamlAt_fileOf tagged) none none
  have hquoted : Written.Writes quoted.toList (spelled true none) := by decide +kernel
  have htagged : Written.Writes tagged.toList (spelled false (some "!op".toList)) := by decide +kernel
  have halike : Written.Alike (spelled true none) (spelled false (some "!op".toList)) := by
    have hcode : Written.KeysAlike (.scalar none "200" false) (.scalar none "200" true) :=
      .inr ⟨_, _, _, rfl, rfl, @Written.Quotable.whole 200 (by decide) (by decide)⟩
    have hroute : Written.KeysAlike (.scalar none "/a" false) (.scalar none "/a" true) :=
      .inr ⟨_, _, _, rfl, rfl, hpath "/a" (by decide)⟩
    have hown : Written.TagsAlike none (some "!op".toList) := .inr ⟨.inl rfl, .inr ⟨"op".toList, rfl⟩⟩
    have hnone : Written.TagsAlike none none := .inl rfl
    have hcall : Written.Alike (.mapping none [(.scalar none "200" false, .scalar none "b" true)])
        (.mapping none [(.scalar none "200" true, .scalar none "b" true)]) :=
      ⟨hnone, hcode, ⟨hnone, rfl, rfl⟩, trivial⟩
    exact ⟨hnone, .inl rfl, ⟨hnone, hroute, ⟨hnone, .inl rfl, ⟨hown, .inl rfl, hcall, trivial⟩, trivial⟩, trivial⟩,
      trivial⟩
  have hvalue : ofText? quoted.toList = some _ := (Written.ofText?_of_writes hquoted).trans rfl
  have hvalue' : ofText? tagged.toList = some _ := (Written.ofText?_of_writes htagged).trans rfl
  refine ⟨?_, ?_, ?_, ?_⟩
  · exact hnodes _ _ hquoted htagged halike (by rw [hvalue]; rfl) (by rw [hvalue']; rfl)
  · rw [told?_of_yaml (yamlAt_fileOf quoted) hvalue]
    rfl
  · refine hstructure document ?_ ?_
    · simp [document, Json.Value.DistinctKeys, Json.Value.MembersDistinct, Json.Value.ItemsDistinct]
    · simp [document, Json.Value.numbers, Json.Value.memberNumbers, Json.Value.itemNumbers, Yaml.Value.IsFinite]
  · refine hspelled _ _ (.trans _ (.mapping [(.whole 200, .null)]) _ (.rel _ _ ?_) (.rel _ _ ?_))
    · exact .within (.key [] [] .null (.whole 200))
    · exact .within (.member [] [] (.whole 200) (.tag "op" .null))

end ApiCatalog.Specification
