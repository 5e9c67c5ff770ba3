import ApiCatalog.Proofs.Extract.Tags
import ApiCatalog.Proofs.List.Places
import Mathlib.Logic.Relation
/-!
# Operations of specifications

The endpoints of a specification are its operations: one for each place below its paths at which an operation stands,
in the order of the document, and told by its path, its key and its own members alone (`extract_operations`).
-/

namespace ApiCatalog.Specification

open Json (Value Members)

/-! ## Where operations stand -/

/-- Whether a member of a path item is an operation: a mapping below a key that names a method. -/
def IsOperation (key : String) (value : Value) : Prop :=
  String.ofList (Text.asciiUpper key.toList) ∈ ["GET", "POST", "PUT", "DELETE", "PATCH", "HEAD", "OPTIONS"] ∧
    ∃ operation, value = .object operation

/-- An operation stands below the paths of a specification, in the path item and at the member with these numbers. -/
def OperationAt (root : Members) (place : ℕ × ℕ) (path key : String) (operation : Members) : Prop :=
  ∃ paths item, root.get? "paths" = some (.object paths) ∧ paths[place.1]? = some (path, .object item) ∧
    item[place.2]? = some (key, .object operation) ∧ IsOperation key (.object operation)

theorem getElem?_getD_nil {α : Type} {all : Option (List α)} {i : ℕ} {a : α} :
    (all.getD [])[i]? = some a ↔ ∃ items, all = some items ∧ items[i]? = some a := by
  cases all <;> simp

theorem mem_getD_nil {α : Type} {all : Option (List α)} {a : α} :
    a ∈ all.getD [] ↔ ∃ items, all = some items ∧ a ∈ items := by
  cases all <;> simp

theorem object?_eq_some_iff {value : Value} {members : Members} :
    value.object? = some members ↔ value = .object members := by
  cases value <;> simp [Value.object?]

/-- The endpoint of the operation below a path and a key. -/
def describe (path key : String) (operation : Members) : Endpoint :=
  endpointOf path (String.ofList (Text.asciiUpper key.toList)) operation

theorem operation?_eq_some_iff {path key : String} {value : Value} {endpoint : Endpoint} :
    operation? path (key, value) = some endpoint ↔
      ∃ operation, value = .object operation ∧ IsOperation key value ∧ endpoint = describe path key operation := by
  have hmethod : methods.contains (String.ofList (Text.asciiUpper key.toList)) = true ↔
      String.ofList (Text.asciiUpper key.toList) ∈ ["GET", "POST", "PUT", "DELETE", "PATCH", "HEAD", "OPTIONS"] :=
    List.contains_iff_mem
  rw [operation?]
  dsimp only
  split
  · rename_i hcontains
    rw [Option.map_eq_some_iff]
    simp only [object?_eq_some_iff]
    constructor
    · rintro ⟨operation, rfl, rfl⟩
      exact ⟨operation, rfl, ⟨hmethod.1 hcontains, operation, rfl⟩, rfl⟩
    · rintro ⟨operation, rfl, -, rfl⟩
      exact ⟨operation, rfl, rfl⟩
  · rename_i hcontains
    constructor
    · intro h
      cases h
    · rintro ⟨_, -, hoperation, -⟩
      exact absurd (hmethod.2 hoperation.1) hcontains

theorem operation?_eq_none {path key : String} {value : Value} (h : ¬ IsOperation key value) :
    operation? path (key, value) = none :=
  Option.eq_none_iff_forall_ne_some.2 fun _ hsome => by
    obtain ⟨_, -, hoperation, -⟩ := operation?_eq_some_iff.1 hsome
    exact h hoperation

/-- **The endpoints of a specification stand where its operations do**, in the order of the document. -/
theorem inOrder_endpoints (root : Members) : InOrder (Prod.Lex (· < ·) (· < ·))
    (fun place endpoint => ∃ path key operation,
      OperationAt root place path key operation ∧ endpoint = describe path key operation)
    (endpoints root) := by
  refine (inOrder_flatMap fun member _ => inOrder_filterMap (operation? member.1) (member.2.object?.getD [])).congr
    fun place endpoint => ?_
  simp only [getElem?_getD_nil, Option.bind_eq_some_iff, object?_eq_some_iff]
  constructor
  · rintro ⟨⟨path, value⟩, ⟨paths, ⟨document, hdocument, rfl⟩, hitem⟩, ⟨key, value'⟩, ⟨item, rfl, hvalue⟩, hendpoint⟩
    obtain ⟨operation, rfl, hoperation, rfl⟩ := operation?_eq_some_iff.1 hendpoint
    exact ⟨path, key, operation, ⟨paths, item, hdocument, hitem, hvalue, hoperation⟩, rfl⟩
  · rintro ⟨path, key, operation, ⟨paths, item, hpaths, hitem, hvalue, hoperation⟩, rfl⟩
    exact ⟨(path, .object item), ⟨paths, ⟨_, hpaths, rfl⟩, hitem⟩, (key, .object operation), ⟨item, rfl, hvalue⟩,
      operation?_eq_some_iff.2 ⟨operation, rfl, hoperation, rfl⟩⟩

/-! ## What an endpoint says of its operation -/

/-- An operation lists a text as one of its tags. -/
def HasTag (operation : Members) (tag : String) : Prop :=
  ∃ items, operation.get? "tags" = some (.array items) ∧ .string tag ∈ items

/-- An endpoint says what the operation below a path and a key says. -/
structure Describes (path key : String) (operation : Members) (endpoint : Endpoint) : Prop where
  path_eq : endpoint.path = path
  method_eq : endpoint.method = String.ofList (Text.asciiUpper key.toList)
  parameters_eq : ∀ items, operation.get? "parameters" = some (.array items) → endpoint.parameters = items
  parameters_eq_nil : (∀ items, operation.get? "parameters" ≠ some (.array items)) → endpoint.parameters = []
  responses_eq : ∀ members, operation.get? "responses" = some (.object members) → endpoint.responses = members
  responses_eq_nil : (∀ members, operation.get? "responses" ≠ some (.object members)) → endpoint.responses = []
  deprecated : operation.get? "deprecated" = some (.bool true) → endpoint.status = .deprecated
  beta : operation.get? "deprecated" ≠ some (.bool true) → HasTag operation "beta" → endpoint.status = .beta
  internal : operation.get? "deprecated" ≠ some (.bool true) → ¬ HasTag operation "beta" →
    HasTag operation "internal" → endpoint.status = .internal
  active : operation.get? "deprecated" ≠ some (.bool true) → ¬ HasTag operation "beta" →
    ¬ HasTag operation "internal" → endpoint.status = .active

theorem string?_eq_some_iff {value : Value} {text : String} : value.string? = some text ↔ value = .string text := by
  cases value <;> simp [Value.string?]

theorem array?_eq_some_iff {value : Value} {items : List Value} : value.array? = some items ↔ value = .array items := by
  cases value <;> simp [Value.array?]

theorem bool?_eq_some_iff {value : Value} {b : Bool} : value.bool? = some b ↔ value = .bool b := by
  cases value <;> simp [Value.bool?]

theorem contains_listedTags {operation : Members} {tag : String} :
    (listedTags operation).contains tag = true ↔ HasTag operation tag := by
  rw [List.contains_iff_mem, listedTags, List.mem_filterMap]
  simp only [mem_getD_nil, Option.bind_eq_some_iff, array?_eq_some_iff, string?_eq_some_iff]
  constructor
  · rintro ⟨_, ⟨items, ⟨_, hitems, rfl⟩, hmem⟩, rfl⟩
    exact ⟨items, hitems, hmem⟩
  · rintro ⟨items, hitems, hmem⟩
    exact ⟨_, ⟨items, ⟨_, hitems, rfl⟩, hmem⟩, rfl⟩

/-- What is read of a value is none, unless the value is of the kind that is read. -/
theorem bind_eq_none {α : Type} {read : Value → Option α} {of : α → Value}
    (hread : ∀ {value a}, read value = some a ↔ value = of a) {value : Option Value} (h : ∀ a, value ≠ some (of a)) :
    value.bind read = none :=
  Option.eq_none_iff_forall_ne_some.2 fun a hsome => by
    obtain ⟨_, hvalue, ha⟩ := Option.bind_eq_some_iff.1 hsome
    exact h a (hvalue.trans (congrArg some (hread.1 ha)))

theorem status_describe (path key : String) (operation : Members) : (describe path key operation).status =
    statusOf (((operation.get? "deprecated").bind Value.bool?).getD false) (listedTags operation) := rfl

theorem deprecated_iff {operation : Members} : ((operation.get? "deprecated").bind Value.bool?).getD false = true ↔
    operation.get? "deprecated" = some (.bool true) := by
  rw [Option.getD_eq_iff]
  simp [Option.bind_eq_some_iff, bool?_eq_some_iff]

theorem describes_describe (path key : String) (operation : Members) :
    Describes path key operation (describe path key operation) where
  path_eq := rfl
  method_eq := rfl
  parameters_eq items h := by
    rw [describe, endpointOf, h]
    rfl
  parameters_eq_nil h := by
    rw [describe, endpointOf, bind_eq_none array?_eq_some_iff h]
    rfl
  responses_eq members h := by
    rw [describe, endpointOf, h]
    rfl
  responses_eq_nil h := by
    rw [describe, endpointOf, bind_eq_none object?_eq_some_iff h]
    rfl
  deprecated h := by rw [status_describe, statusOf, if_pos (deprecated_iff.2 h)]
  beta h hbeta := by
    rw [status_describe, statusOf, if_neg (mt deprecated_iff.1 h), if_pos (contains_listedTags.2 hbeta)]
  internal h hbeta hinternal := by
    rw [status_describe, statusOf, if_neg (mt deprecated_iff.1 h), if_neg (mt contains_listedTags.1 hbeta),
      if_pos (contains_listedTags.2 hinternal)]
  active h hbeta hinternal := by
    rw [status_describe, statusOf, if_neg (mt deprecated_iff.1 h), if_neg (mt contains_listedTags.1 hbeta),
      if_neg (mt contains_listedTags.1 hinternal)]

/-! ## Insertions -/

/-- Something that is no operation is put below the paths: a member of a path item, or a path whose item has no
operation, in particular one whose item is no mapping. -/
inductive Inserted : Members → Members → Prop
  | member {front back item item' : Members} {path key : String} {value : Value} : ¬ IsOperation key value →
      Inserted (front ++ (path, .object (item ++ item')) :: back)
        (front ++ (path, .object (item ++ (key, value) :: item')) :: back)
  | path {front back : Members} {path : String} {item : Value} :
      (∀ members, item = .object members → ∀ member ∈ members, ¬ IsOperation member.1 member.2) →
        Inserted (front ++ back) (front ++ (path, item) :: back)

def itemEndpoints (member : String × Value) : List Endpoint :=
  (member.2.object?.getD []).filterMap (operation? member.1)

theorem endpoints_of_paths {root paths : Members} (h : root.get? "paths" = some (.object paths)) :
    endpoints root = paths.flatMap itemEndpoints := by
  rw [endpoints, h]
  rfl

theorem Inserted.flatMap_eq {paths paths' : Members} (h : Inserted paths paths') :
    paths'.flatMap itemEndpoints = paths.flatMap itemEndpoints := by
  cases h with
  | @member front back item item' path key value hvalue =>
    have hitem : itemEndpoints (path, .object (item ++ (key, value) :: item')) =
        itemEndpoints (path, .object (item ++ item')) := by
      simp only [itemEndpoints, Value.object?, Option.getD_some, List.filterMap_append,
        List.filterMap_cons_none (operation?_eq_none hvalue)]
    rw [List.flatMap_append, List.flatMap_cons, hitem, ← List.flatMap_cons, ← List.flatMap_append]
  | @path front back path item hitem =>
    have hnil : itemEndpoints (path, item) = [] := by
      rw [itemEndpoints, List.filterMap_eq_nil_iff]
      intro member hmember
      obtain ⟨members, hmembers, hmember⟩ := mem_getD_nil.1 hmember
      exact operation?_eq_none (hitem members (object?_eq_some_iff.1 hmembers) member hmember)
    rw [List.flatMap_append, List.flatMap_cons, hnil, List.nil_append, ← List.flatMap_append]

theorem flatMap_eq_of_inserted {paths paths' : Members} (h : Relation.ReflTransGen Inserted paths paths') :
    paths'.flatMap itemEndpoints = paths.flatMap itemEndpoints := by
  induction h with
  | refl => rfl
  | tail _ hstep ih => exact hstep.flatMap_eq.trans ih

/-! ## Extraction -/

/-- **The operations of a specification and its endpoints are one to one.**  The endpoints are those of the places below
the paths at which an operation stands, each once and in the order of the document.  Each says what its operation says,
and depends on nothing but the path, the key and the members of the operation.  What else is put below the paths changes
nothing, and a document gives an entry, with these endpoints, unless there is no such place. -/
theorem extract_operations : ∃ told : String → String → Members → Endpoint,
    (∀ path key operation, Describes path key operation (told path key operation)) ∧
    (∀ root, InOrder (Prod.Lex (· < ·) (· < ·))
      (fun place endpoint => ∃ path key operation,
        OperationAt root place path key operation ∧ endpoint = told path key operation)
      (endpoints root)) ∧
    (∀ root root' paths paths', root.get? "paths" = some (.object paths) →
      root'.get? "paths" = some (.object paths') → Relation.ReflTransGen Inserted paths paths' →
        endpoints root' = endpoints root) ∧
    ∀ tree file team document root, load tree file = .ok document → document.object? = some root →
      ∃ found, extractor.extract tree file team = .ok found ∧
        (found = none ↔ ∀ place path key operation, ¬ OperationAt root place path key operation) ∧
        ∀ entry ∈ found, entry.endpoints = endpoints root := by
  refine ⟨describe, describes_describe, inOrder_endpoints, ?_, ?_⟩
  · intro root root' paths paths' hpaths hpaths' hinserted
    rw [endpoints_of_paths hpaths, endpoints_of_paths hpaths', flatMap_eq_of_inserted hinserted]
  · intro tree file team document root hload hroot
    have hnone : endpoints root = [] ↔ ∀ place path key operation, ¬ OperationAt root place path key operation := by
      rw [(inOrder_endpoints root).eq_nil_iff]
      constructor
      · intro h place path key operation hat
        exact h place _ ⟨path, key, operation, hat, rfl⟩
      · rintro h place endpoint ⟨path, key, operation, hat, -⟩
        exact h place path key operation hat
    have hextract : extractor.extract tree file team = .ok (described? tree file team root) := by
      rw [extract_of_load hload, hroot]
    refine ⟨_, hextract, ?_⟩
    rw [← hnone]
    by_cases hempty : endpoints root = []
    · have hdescribed : described? tree file team root = none := by rw [described?, hempty]
      simp [hdescribed, hempty]
    · obtain ⟨entry, hdescribed, hentry⟩ := exists_described tree file team hempty
      simp [hdescribed, hempty, hentry]

/-- The one operation of a document, with a tag that has precedence over another, and the same operation among members
and paths that are none. -/
theorem extract_operations_of_tagged :
    let operation := Tagged.operation "internal" "beta"
    let paths := [("/a", .object [("servers", .null), ("get", .object operation), ("head", .string "none")]),
      ("/b", .null)]
    ∃ entry, extractor.extract (Tagged.tree "internal" "beta") Tagged.source none = .ok (some entry) ∧
      (∃ endpoint ∈ entry.endpoints, Describes "/a" "get" operation endpoint ∧ endpoint.status = .beta) ∧
      endpoints [("paths", .object paths)] = entry.endpoints := by
  intro operation paths
  obtain ⟨told, hdescribes, hplaces, hinserted, hextract⟩ := extract_operations
  let root : Members :=
    [("openapi", .string "3.0.0"), ("paths", .object [("/a", .object [("get", .object operation)])])]
  have hpaths : root.get? "paths" = some (.object [("/a", .object [("get", .object operation)])]) := rfl
  have hat : OperationAt root (0, 0) "/a" "get" operation :=
    ⟨_, _, hpaths, rfl, rfl, by decide, _, rfl⟩
  obtain ⟨found, hfound, hnone, hentry⟩ := hextract _ _ none _ root (Tagged.load_source "internal" "beta") rfl
  cases found with
  | none => exact absurd hat (hnone.1 rfl _ _ _ _)
  | some entry =>
    refine ⟨entry, hfound, ?_, ?_⟩
    · obtain ⟨endpoint, hmem, path, key, operation', ⟨_, _, hpaths', hitem, hmember, -⟩, rfl⟩ :=
        (hplaces root).exists_mem ⟨_, _, _, hat, rfl⟩
      cases hpaths.symm.trans hpaths'
      cases hitem
      cases hmember
      refine ⟨_, hentry entry rfl ▸ hmem, hdescribes _ _ _, (hdescribes _ _ _).beta (by nofun) ?_⟩
      exact ⟨_, rfl, by simp⟩
    · rw [hentry entry rfl]
      have hservers : ¬ IsOperation "servers" .null := fun h => absurd h.1 (by decide)
      have hhead : ¬ IsOperation "head" (.string "none") := fun ⟨_, _, h⟩ => by cases h
      exact hinserted root _ _ paths hpaths rfl <|
        ((Relation.ReflTransGen.single (@Inserted.member [] [] [] [("get", .object operation)] "/a" _ _ hservers)).tail
          (@Inserted.member [] [] [("servers", .null), ("get", .object operation)] [] "/a" _ _ hhead)).tail
            (@Inserted.path [_] [] "/b" .null nofun)

end ApiCatalog.Specification
