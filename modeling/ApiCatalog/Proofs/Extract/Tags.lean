import ApiCatalog.Proofs.Extract.Entry
import ApiCatalog.Proofs.Json.Reread
import ApiCatalog.Proofs.List.First
/-!
# Tags of endpoints

A routing file gives its endpoints no tags.  An annotated route has the words behind the at signs of the block before
it, each once, in the order in which they come first (`tagsOf_eq`).  The operation of a specification keeps the tags
that it lists as they stand, and as often as they stand there (`tags_of_extract`).
-/

namespace ApiCatalog

namespace Docs

/-! ## Words behind at signs -/

def nonempty (word : List Char) : List (List Char) := if word = [] then [] else [word]

/-- The words behind the at signs of a text, from left to right. -/
def atWords : List Char → List (List Char)
  | [] => []
  | c :: text => (if c = '@' then nonempty (text.takeWhile Text.isWordChar) else []) ++ atWords text

/-- The word that is open in front of a text, its letters held nearest first. -/
def opened (tag : Option (List Char)) (text : List Char) : List (List Char) :=
  tag.elim [] fun letters => nonempty (letters.reverse ++ text.takeWhile Text.isWordChar)

theorem opened_nil (tag : Option (List Char)) :
    opened tag [] = tag.elim [] fun letters => nonempty letters.reverse := by
  cases tag with
  | none => rfl
  | some letters => rw [opened, Option.elim, List.takeWhile_nil, List.append_nil]; rfl

theorem opened_word {c : Char} (hc : Text.isWordChar c = true) (letters text : List Char) :
    opened (some letters) (c :: text) = opened (some (c :: letters)) text := by
  simp [opened, hc]

theorem opened_other {c : Char} (hc : Text.isWordChar c = false) (tag : Option (List Char)) (text : List Char) :
    opened tag (c :: text) = opened tag [] := by
  cases tag with
  | none => rfl
  | some letters => simp [opened, hc]

theorem opened_at (c : Char) (text : List Char) :
    opened (if c = '@' then some [] else .none) text ++ atWords text = atWords (c :: text) := by
  rw [atWords]
  split <;> rfl

theorem isWordChar_at : Text.isWordChar '@' = false := by decide

theorem nodup_closeTag {found : List (List Char)} (h : found.Nodup) (tag : Option (List Char)) :
    (closeTag found tag).Nodup := by
  unfold closeTag
  split
  · exact h
  · exact h
  · split
    · exact h
    · rename_i hnew
      exact List.nodup_cons.2 ⟨by simpa using hnew, h⟩

/-- A tag that is closed is kept like one that stands in front of the text. -/
theorem eraseDups_closeTag (found : List (List Char)) (tag : Option (List Char)) (rest : List (List Char)) :
    ((closeTag found tag).reverse ++ rest).eraseDups = (found.reverse ++ (opened tag [] ++ rest)).eraseDups := by
  rw [opened_nil]
  match tag with
  | .none => rfl
  | some [] => rfl
  | some (c :: letters) =>
    have hword : nonempty (c :: letters).reverse = [(c :: letters).reverse] := if_neg (by simp)
    have hclose : closeTag found (some (c :: letters)) =
        if found.contains (c :: letters).reverse then found else (c :: letters).reverse :: found := rfl
    rw [hclose, Option.elim, hword]
    split
    · rename_i hknown
      have hmem : (c :: letters).reverse ∈ found.reverse := List.mem_reverse.2 (by simpa using hknown)
      exact (eraseDups_append_cons_of_mem hmem rest).symm
    · rw [List.reverse_cons, List.append_assoc]

/-- **Collecting keeps each word once, where it comes first.** -/
theorem tagsFrom_eq {found : List (List Char)} (hfound : found.Nodup) (tag : Option (List Char)) (text : List Char) :
    tagsFrom found tag text = (found.reverse ++ (opened tag text ++ atWords text)).eraseDups := by
  induction text generalizing found tag with
  | nil =>
    have hclosed := List.nodup_reverse.2 (nodup_closeTag hfound tag)
    have h := eraseDups_closeTag found tag []
    rw [List.append_nil, eraseDups_of_nodup hclosed] at h
    rw [tagsFrom, h, atWords]
  | cons c text ih =>
    cases tag with
    | none =>
      rw [tagsFrom, ih hfound, opened_at]
      rfl
    | some letters =>
      rw [tagsFrom]
      by_cases hc : Text.isWordChar c = true
      · have hne : c ≠ '@' := fun h => by rw [h, isWordChar_at] at hc; cases hc
        rw [if_pos hc, ih hfound, opened_word hc, atWords, if_neg hne, List.nil_append]
      · rw [if_neg hc, ih (nodup_closeTag hfound _), opened_at, eraseDups_closeTag, opened_other (by simpa using hc)]

/-- **The tags of a block are the words behind its at signs, each once, in the order in which they come first.** -/
theorem tagsOf_eq (text : List Char) : tagsOf text = (atWords text).eraseDups :=
  tagsFrom_eq List.nodup_nil .none text

example : tagsOf "@b, @a (see @@b) @".toList = ["b".toList, "a".toList] := by decide

/-- The words behind the at signs of the block that ends a text given in reverse. -/
def wordsBefore (reversed : List Char) : List (List Char) :=
  (blockBefore? reversed).elim [] fun block => atWords (Text.trim block)

theorem tags_before (reversed : List Char) : (before reversed).tags = (wordsBefore reversed).eraseDups := by
  rw [before, wordsBefore]
  cases blockBefore? reversed with
  | none => rfl
  | some block => exact tagsOf_eq (Text.trim block)

end Docs

/-! ## Routing files -/

theorem Controller.tags_eq_nil {tree : Node} {file : Path} {team : Option String} {entry : Entry}
    (h : extractor.extract tree file team = .ok (some entry)) : ∀ endpoint ∈ entry.endpoints, endpoint.tags = [] := by
  obtain ⟨-, content, -, hendpoints⟩ := Controller.of_extract h
  rw [hendpoints]
  intro endpoint hendpoint
  obtain ⟨route, -, rfl⟩ := List.mem_map.1 hendpoint
  unfold endpointOf
  dsimp only
  split <;> rfl

/-! ## Annotated sources -/

theorem Annotated.tags_endpoints (content : List Char) (extension : String) (language : Language) :
    (endpoints content extension language).map (·.tags) = (language.table.routes content extension).map fun route =>
      (Docs.wordsBefore route.start.passed).eraseDups.map String.ofList := by
  rw [endpoints, List.map_map]
  refine List.map_congr_left fun route _ => ?_
  rw [Function.comp, endpointOf, Docs.tags_before]

/-! ## Specifications -/

namespace Specification

open Json (Value Members)

/-- The operations of a specification, each with its path and its method. -/
def operations (root : Members) : List (String × String × Members) :=
  (((root.get? "paths").bind Value.object?).getD []).flatMap fun (path, item) =>
    (item.object?.getD []).filterMap fun (key, value) =>
      let method := String.ofList (Text.asciiUpper key.toList)
      if methods.contains method then value.object?.map (path, method, ·) else none

/-- The texts among the items that an operation lists as its tags. -/
def listedTags (operation : Members) : List String :=
  (((operation.get? "tags").bind Value.array?).getD []).filterMap Value.string?

theorem endpoints_eq (root : Members) :
    endpoints root = (operations root).map fun (path, method, operation) => endpointOf path method operation := by
  rw [endpoints, operations, List.map_flatMap]
  refine List.flatMap_congr fun (path, item) _ => ?_
  rw [List.map_filterMap]
  refine List.filterMap_congr fun (key, value) _ => ?_
  unfold operation?
  dsimp only
  split
  · rw [Option.map_map]
    rfl
  · rfl

theorem tags_endpoints (root : Members) :
    (endpoints root).map (·.tags) = (operations root).map fun (_, _, operation) => listedTags operation := by
  rw [endpoints_eq, List.map_map]
  rfl

theorem exists_described (tree : Node) (file : Path) (team : Option String) {root : Members} (h : endpoints root ≠ []) :
    ∃ entry, described? tree file team root = some entry ∧ entry.endpoints = endpoints root := by
  unfold described?
  split
  · rename_i hnil
    exact absurd hnil h
  · exact ⟨_, rfl, rfl⟩

end Specification

/-! ## Extractors -/

/-- **Where the tags of an endpoint come from.**  No endpoint of a routing file has any.  An annotated route has the
words behind the at signs of the block before it, each once, in the order in which they come first.  An operation has
the tags that its specification lists, so that none of them comes twice if and only if none is listed twice. -/
theorem Registry.tags_of_extract (tree : Node) (file : Path) (team : Option String) (entry : Entry) :
    (Controller.extractor.extract tree file team = .ok (some entry) →
      ∀ endpoint ∈ entry.endpoints, endpoint.tags = []) ∧
    (Annotated.extractor.extract tree file team = .ok (some entry) →
      (∃ content language, readSource tree file = .ok content ∧
        Language.ofExtension? file.extension = some language ∧
        entry.endpoints.map (·.tags) = (language.table.routes content.toList file.extension).map fun route =>
          (Docs.wordsBefore route.start.passed).eraseDups.map String.ofList) ∧
      ∀ endpoint ∈ entry.endpoints, endpoint.tags.Nodup) ∧
    (Specification.extractor.extract tree file team = .ok (some entry) →
      ∃ document root, Specification.load tree file = .ok document ∧ document.object? = some root ∧
        entry.endpoints.map (·.tags) =
          (Specification.operations root).map (fun (_, _, operation) => Specification.listedTags operation) ∧
        ((∀ endpoint ∈ entry.endpoints, endpoint.tags.Nodup) ↔
          ∀ operation ∈ Specification.operations root, (Specification.listedTags operation.2.2).Nodup)) := by
  refine ⟨Controller.tags_eq_nil, fun h => ?_, fun h => ?_⟩
  · obtain ⟨-, content, language, hread, hlanguage, hendpoints⟩ := Annotated.of_extract h
    have htags := Annotated.tags_endpoints content.toList file.extension language
    rw [← hendpoints] at htags
    refine ⟨⟨content, language, hread, hlanguage, htags⟩, fun endpoint hendpoint => ?_⟩
    have hmem := List.mem_map_of_mem (f := (·.tags)) hendpoint
    rw [htags] at hmem
    obtain ⟨route, -, hroute⟩ := List.mem_map.1 hmem
    rw [← hroute]
    exact (nodup_eraseDups _).map fun _ _ => String.ofList_injective
  · obtain ⟨-, document, root, hload, hroot, hendpoints⟩ := Specification.of_extract h
    have htags := Specification.tags_endpoints root
    rw [← hendpoints] at htags
    refine ⟨document, root, hload, hroot, htags, ?_⟩
    calc (∀ endpoint ∈ entry.endpoints, endpoint.tags.Nodup)
        ↔ ∀ tags ∈ entry.endpoints.map (·.tags), tags.Nodup := List.forall_mem_map.symm
      _ ↔ ∀ operation ∈ Specification.operations root, (Specification.listedTags operation.2.2).Nodup := by
        rw [htags, List.forall_mem_map]

/-! ## A specification with two tags -/

namespace Tagged

open Json (Value)

def document (first second : String) : Value :=
  .object [("openapi", .string "3.0.0"),
    ("paths", .object [("/a", .object [("get", .object [("tags", .array [.string first, .string second])])])])]

def tree (first second : String) : Node :=
  .folder [(Name.ofText "s.json", .file (document first second).pretty.toUTF8 ⟨0, 0⟩)]

def source : Path := .ofText "s.json"

theorem load_of_locate {tree : Node} {file : Path} {place : List Name} {first second : String} {modified : Instant}
    (h : tree.locate file = .ok (place, .file (document first second).pretty.toUTF8 modified))
    (hextension : file.extension = "json") : Specification.load tree file = .ok (document first second) := by
  have hparse : Json.parse (document first second).pretty.toList = .ok (document first second) := by
    refine Json.parse_pretty ?_ ?_ ?_
    · simp [document, Value.DistinctKeys, Value.MembersDistinct, Value.ItemsDistinct]
    · exact of_decide_eq_true rfl
    · simp [document, Value.numbers, Value.memberNumbers, Value.itemNumbers]
  exact Specification.load_of_parse (readSource_of_locate h) hextension hparse

theorem load_source (first second : String) :
    Specification.load (tree first second) source = .ok (document first second) :=
  load_of_locate rfl (by decide)

def operation (first second : String) : Json.Members := [("tags", .array [.string first, .string second])]

theorem operations_document (first second : String) : ∃ root, (document first second).object? = some root ∧
    Specification.operations root = [("/a", "GET", operation first second)] :=
  ⟨_, rfl, rfl⟩

theorem extract_source (first second : String) : ∃ entry,
    Specification.extractor.extract (tree first second) source none = .ok (some entry) ∧
    entry.endpoints.map (·.tags) = [[first, second]] := by
  obtain ⟨root, hroot, hoperations⟩ := operations_document first second
  have htags := Specification.tags_endpoints root
  rw [hoperations] at htags
  have hfound : Specification.endpoints root ≠ [] := fun h => by rw [h] at htags; cases htags
  obtain ⟨entry, hdescribed, hendpoints⟩ := Specification.exists_described (tree first second) source none hfound
  refine ⟨entry, ?_, by rw [hendpoints, htags]; rfl⟩
  simp only [Specification.extractor, load_source, bind, Except.bind, hroot, hdescribed]
  rfl

end Tagged

open Tagged in
theorem tags_of_extract_differing : ∃ entry,
    Specification.extractor.extract (tree "b" "a") source none = .ok (some entry) ∧
    ∀ endpoint ∈ entry.endpoints, endpoint.tags.Nodup := by
  obtain ⟨entry, hextract, -⟩ := extract_source "b" "a"
  obtain ⟨root, hroot, hoperations⟩ := operations_document "b" "a"
  obtain ⟨-, -, hspecification⟩ := Registry.tags_of_extract (tree "b" "a") source none entry
  obtain ⟨document, root', hload, hroot', -, hiff⟩ := hspecification hextract
  refine ⟨entry, hextract, hiff.2 ?_⟩
  rw [load_source] at hload
  cases hload
  cases hroot.symm.trans hroot'
  rw [hoperations, List.forall_mem_singleton]
  decide

open Tagged in
/-- **A tag that is listed twice is kept twice.** -/
theorem not_nodup_tags_of_extract : ∃ entry,
    Specification.extractor.extract (tree "a" "a") source none = .ok (some entry) ∧
    ∃ endpoint ∈ entry.endpoints, ¬ endpoint.tags.Nodup := by
  obtain ⟨entry, hextract, htags⟩ := extract_source "a" "a"
  refine ⟨entry, hextract, ?_⟩
  have hmem : ["a", "a"] ∈ entry.endpoints.map (·.tags) := by rw [htags]; exact List.mem_singleton_self _
  obtain ⟨endpoint, hendpoint, hequal⟩ := List.mem_map.1 hmem
  exact ⟨endpoint, hendpoint, by rw [hequal]; decide⟩

end ApiCatalog
