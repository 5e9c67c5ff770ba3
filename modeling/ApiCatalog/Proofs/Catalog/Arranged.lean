import ApiCatalog.Proofs.Catalog.Document
import ApiCatalog.Proofs.Json.Arranged
/-!
# Catalog documents in any arrangement

A catalog is read from every document that shows it, however the members of its objects are arranged (`read_of_shown`),
and no document in which one of these objects has a field twice is read as a catalog (`not_repeats_of_reader`).
-/

namespace ApiCatalog

open Json Json.Reader

/-! ## Documents that show a catalog -/

/-- The fields of an endpoint that may be left out, with what they are then. -/
def Endpoint.defaults : Members := [("description", .null), ("summary", .null), ("parameters", .array []),
  ("responses", .object []), ("tags", .array []), ("status", .string "active")]

def Metadata.defaults : Members := [("team_owner", .null), ("last_updated", .null), ("version", .null),
  ("title", .null), ("description", .null), ("source_file", .string ""), ("base_url", .null)]

def Entry.defaults : Members := [("endpoints", .array [])]

def Catalog.defaults : Members := [("entries", .array [])]

def Endpoint.form (endpoint : Endpoint) : List (Key × Doc) := (Doc.written endpoint.toValue).members

def Metadata.form (metadata : Metadata) : List (Key × Doc) := (Doc.written metadata.toValue).members

def Endpoint.Shown (endpoint : Endpoint) : Doc → Prop := Doc.Arranged defaults endpoint.form

def Metadata.Shown (metadata : Metadata) : Doc → Prop := Doc.Arranged defaults metadata.form

/-- The document is that of an entry in some arrangement, and so are those of its metadata and endpoints. -/
def Entry.Shown (entry : Entry) (doc : Doc) : Prop :=
  ∃ metadata endpoints, entry.metadata.Shown metadata ∧ List.Forall₂ Endpoint.Shown entry.endpoints endpoints ∧
    doc.Arranged defaults [(some "id", Doc.written (ofText entry.id)), (some "metadata", metadata),
      (some "endpoints", .array endpoints none)]

/-- The document is that of a catalog in some arrangement, and so are those of its entries. -/
def Catalog.Shown (catalog : Catalog) (doc : Doc) : Prop :=
  ∃ entries, List.Forall₂ Entry.Shown catalog.entries entries ∧
    doc.Arranged defaults [(some "generated_at", Doc.written (ofInstant catalog.generatedAt)),
      (some "entries", .array entries none)]

theorem forall₂_written {α : Type} {P : α → Doc → Prop} {write : α → Value} (h : ∀ a, P a (Doc.written (write a))) :
    ∀ all : List α, List.Forall₂ P all (Doc.writtenItems (all.map write))
  | [] => .nil
  | a :: all => .cons (h a) (forall₂_written h all)

theorem Catalog.shown_written (catalog : Catalog) : catalog.Shown (Doc.written catalog.toValue) :=
  ⟨_, forall₂_written (fun entry => ⟨_, _, .refl _ _, forall₂_written (fun _ => .refl _ _) entry.endpoints, .refl _ _⟩)
    catalog.entries, .refl _ _⟩

/-! ## Documents that repeat a field -/

def Endpoint.keys : List String := Endpoint.fields.map (·.name)

def Metadata.keys : List String := Metadata.fields.map (·.name)

def Entry.keys : List String := Entry.fields.map (·.name)

def Catalog.keys : List String := Catalog.fields.map (·.name)

/-- Where an entry is read from the document, a field comes twice in the object of the entry, of its metadata or of one
of its endpoints. -/
inductive Entry.Repeats (doc : Doc) : Prop
  | entry : doc.Repeats keys → Repeats doc
  | metadata {metadata : Doc} : doc.Has "metadata" metadata → metadata.Repeats Metadata.keys → Repeats doc
  | endpoint {endpoints : List Doc} {cut : Option Cut} {endpoint : Doc} : doc.Has "endpoints" (.array endpoints cut) →
    endpoint ∈ endpoints → endpoint.Repeats Endpoint.keys → Repeats doc

/-- Where a catalog is read from the document, a field comes twice in the object of the catalog or within an entry. -/
inductive Catalog.Repeats (doc : Doc) : Prop
  | catalog : doc.Repeats keys → Repeats doc
  | entry {entries : List Doc} {cut : Option Cut} {entry : Doc} : doc.Has "entries" (.array entries cut) →
    entry ∈ entries → Entry.Repeats entry → Repeats doc

/-! ## Fields that may be left out -/

theorem Endpoint.spare_defaults :
    ∀ m ∈ Doc.writtenMembers Endpoint.defaults, Spare Endpoint.fields Endpoint.Draft.finish m := by
  simp only [Endpoint.defaults, Doc.writtenMembers, List.forall_mem_cons]
  refine ⟨?_, ?_, ?_, ?_, ?_, ?_, fun _ h => absurd h List.not_mem_nil⟩
  · exact spare_null rfl (fun _ => rfl) (fun _ _ _ => rfl) fun _ h => by simp [Draft.finish, h]
  · exact spare_null rfl (fun _ => rfl) (fun _ _ _ => rfl) fun _ h => by simp [Draft.finish, h]
  · exact spare_of_default [] rfl (fun _ => rfl) (fun _ _ _ => rfl) (fun _ _ => list_empty)
      fun _ h => by simp [Draft.finish, h]
  · exact spare_of_default [] rfl (fun _ => rfl) (fun _ _ _ => rfl) (fun _ _ => members_empty)
      fun _ h => by simp [Draft.finish, h]
  · exact spare_of_default [] rfl (fun _ => rfl) (fun _ _ _ => rfl) (fun _ _ => list_empty)
      fun _ h => by simp [Draft.finish, h]
  · exact spare_of_default .active rfl (fun _ => rfl) (fun _ _ _ => rfl) (fun _ _ h => (Except.ok.inj h).symm)
      fun _ h => by simp [Draft.finish, h]

theorem Metadata.spare_defaults :
    ∀ m ∈ Doc.writtenMembers Metadata.defaults, Spare Metadata.fields Metadata.Draft.finish m := by
  simp only [Metadata.defaults, Doc.writtenMembers, List.forall_mem_cons]
  refine ⟨?_, ?_, ?_, ?_, ?_, ?_, ?_, fun _ h => absurd h List.not_mem_nil⟩
  · exact spare_null rfl (fun _ => rfl) (fun _ _ _ => rfl) fun _ h => by simp [Draft.finish, h]
  · exact spare_null rfl (fun _ => rfl) (fun _ _ _ => rfl) fun _ h => by simp [Draft.finish, h]
  · exact spare_null rfl (fun _ => rfl) (fun _ _ _ => rfl) fun _ h => by simp [Draft.finish, h]
  · exact spare_null rfl (fun _ => rfl) (fun _ _ _ => rfl) fun _ h => by simp [Draft.finish, h]
  · exact spare_null rfl (fun _ => rfl) (fun _ _ _ => rfl) fun _ h => by simp [Draft.finish, h]
  · exact spare_of_default "" rfl (fun _ => rfl) (fun _ _ _ => rfl) (fun _ _ h => (Except.ok.inj h).symm)
      fun _ h => by simp [Draft.finish, h]
  · exact spare_null rfl (fun _ => rfl) (fun _ _ _ => rfl) fun _ h => by simp [Draft.finish, h]

theorem Entry.spare_defaults :
    ∀ m ∈ Doc.writtenMembers Entry.defaults, Spare Entry.fields Entry.Draft.finish m := by
  simp only [Entry.defaults, Doc.writtenMembers, List.forall_mem_cons]
  refine ⟨?_, fun _ h => absurd h List.not_mem_nil⟩
  exact spare_of_default [] rfl (fun _ => rfl) (fun _ _ _ => rfl) (fun _ _ => list_empty)
    fun _ h => by simp [Draft.finish, h]

theorem Catalog.spare_defaults :
    ∀ m ∈ Doc.writtenMembers Catalog.defaults, Spare Catalog.fields Catalog.Draft.finish m := by
  simp only [Catalog.defaults, Doc.writtenMembers, List.forall_mem_cons]
  refine ⟨?_, fun _ h => absurd h List.not_mem_nil⟩
  exact spare_of_default [] rfl (fun _ => rfl) (fun _ _ _ => rfl) (fun _ _ => list_empty)
    fun _ h => by simp [Draft.finish, h]

/-! ## Reading what is shown -/

theorem eq_ok_of_toOption {ε α : Type} {x : Except ε α} {a : α} (h : x.toOption = some a) : x = .ok a := by
  cases x with
  | error e => cases h
  | ok b => exact congrArg _ (Option.some.inj h)

theorem Endpoint.read_of_shown {endpoint : Endpoint} {doc : Doc} {depth : Nat} (hkeys : endpoint.DistinctKeys)
    (hnumbers : ∀ n ∈ endpoint.numbers, n.reread? = some n) (hnesting : endpoint.toValue.nesting ≤ depth)
    (hshown : endpoint.Shown doc) : Endpoint.reader depth doc = .ok endpoint := by
  have hread : Endpoint.reader depth (Doc.written endpoint.toValue) = .ok endpoint := by
    refine eq_ok_of_toOption ?_
    rw [Endpoint.restores_reader hkeys depth, if_pos hnesting, (Endpoint.reread?_eq_self endpoint).2 hnumbers]
  exact record_of_arranged orderly_fields rfl spare_defaults hread hshown

theorem Metadata.read_of_shown {metadata : Metadata} {doc : Doc} {depth : Nat}
    (hvalid : ∀ instant ∈ metadata.lastUpdated, instant.Valid) (hdepth : 1 ≤ depth) (hshown : metadata.Shown doc) :
    Metadata.reader depth doc = .ok metadata := by
  have hread : Metadata.reader depth (Doc.written metadata.toValue) = .ok metadata := by
    refine eq_ok_of_toOption ?_
    rw [Metadata.restores_reader hvalid depth, Metadata.nesting_toValue, if_pos hdepth]
  exact record_of_arranged orderly_fields rfl spare_defaults hread hshown

theorem Entry.read_of_shown {entry : Entry} {doc : Doc} {depth : Nat} (hvalid : entry.Valid)
    (hnumbers : ∀ endpoint ∈ entry.endpoints, ∀ n ∈ endpoint.numbers, n.reread? = some n)
    (hnesting : entry.toValue.nesting ≤ depth + 2) (hshown : entry.Shown doc) :
    Entry.reader (depth + 2) doc = .ok entry := by
  obtain ⟨metadata, endpoints, hmetadata, hendpoints, harranged⟩ := hshown
  rw [Entry.nesting_le, Value.nesting_array_le, List.forall_mem_map] at hnesting
  have hlist := list_of_forall₂ hendpoints fun e he _ => Endpoint.read_of_shown (hvalid.keys e he) (hnumbers e he)
    (hnesting.2 e he)
  refine record_of_arranged orderly_fields rfl spare_defaults (eq_ok_of_toOption ?_) harranged
  refine (record_object Entry.fields {} Entry.Draft.finish [Doc.written (ofText entry.id), metadata,
    .array endpoints none] orderly_fields (by simp [Entry.fields, slot]) (depth + 1) rfl).trans ?_
  simp only [positional, Entry.fields, slot, Metadata.read_of_shown hvalid.lastUpdated hnesting.1 hmetadata,
    hlist]
  rfl

/-- **A catalog is read from every document that shows it**, as deep as readers go. -/
theorem Catalog.read_of_shown {catalog : Catalog} {doc : Doc} (hvalid : catalog.Valid)
    (hnumbers : ∀ n ∈ catalog.numbers, n.reread? = some n) (hnesting : catalog.toValue.nesting ≤ maxDepth)
    (hshown : catalog.Shown doc) : Catalog.reader maxDepth doc = .ok catalog := by
  obtain ⟨entries, hentries, harranged⟩ := hshown
  rw [show maxDepth = 125 + 2 from rfl] at hnesting ⊢
  rw [Catalog.nesting_le, Value.nesting_array_le, List.forall_mem_map] at hnesting
  have hentryNumbers : ∀ entry ∈ catalog.entries, ∀ endpoint ∈ entry.endpoints, ∀ n ∈ endpoint.numbers,
      n.reread? = some n := fun entry he endpoint hp n hn =>
    hnumbers n (List.mem_flatMap.2 ⟨endpoint, List.mem_flatMap.2 ⟨entry, he, hp⟩, hn⟩)
  have hlist := list_of_forall₂ hentries fun e he _ => Entry.read_of_shown (hvalid.entries e he) (hentryNumbers e he)
    (hnesting e he)
  refine record_of_arranged orderly_fields rfl spare_defaults (eq_ok_of_toOption ?_) harranged
  refine (record_object Catalog.fields {} Catalog.Draft.finish [Doc.written (ofInstant catalog.generatedAt),
    .array entries none] orderly_fields (by simp [Catalog.fields, slot]) 126 rfl).trans ?_
  simp only [positional, Catalog.fields, slot, toOption_bind, toOption_map, restores_instant hvalid.generatedAt 126,
    hlist]
  rfl

/-! ## Refusing what comes twice -/

theorem Metadata.not_repeats_of_reader {metadata : Metadata} {doc : Doc} {depth : Nat}
    (h : Metadata.reader depth doc = .ok metadata) : ¬ doc.Repeats keys := not_repeats_of_record orderly_fields h

theorem Endpoint.not_repeats_of_reader {endpoint : Endpoint} {doc : Doc} {depth : Nat}
    (h : Endpoint.reader depth doc = .ok endpoint) : ¬ doc.Repeats keys := not_repeats_of_record orderly_fields h

theorem Entry.not_repeats_of_reader {entry : Entry} {doc : Doc} {depth : Nat}
    (h : Entry.reader depth doc = .ok entry) : ¬ Entry.Repeats doc := by
  rintro (hrepeats | ⟨hhas, hrepeats⟩ | ⟨hhas, hmem, hrepeats⟩)
  · exact not_repeats_of_record orderly_fields h hrepeats
  · obtain ⟨level, metadata, hread⟩ := exists_read_of_record orderly_fields (.tail _ (.head _))
      (fun _ _ _ => rfl) h hhas
    exact Metadata.not_repeats_of_reader hread hrepeats
  · obtain ⟨level, endpoints, hread⟩ := exists_read_of_record orderly_fields (.tail _ (.tail _ (.head _)))
      (fun _ _ _ => rfl) h hhas
    obtain ⟨_, endpoint, hread⟩ := exists_read_of_list hread _ hmem
    exact Endpoint.not_repeats_of_reader hread hrepeats

/-- **No document in which an object of a catalog has a field twice is read as a catalog.** -/
theorem Catalog.not_repeats_of_reader {catalog : Catalog} {doc : Doc} {depth : Nat}
    (h : Catalog.reader depth doc = .ok catalog) : ¬ Catalog.Repeats doc := by
  rintro (hrepeats | ⟨hhas, hmem, hrepeats⟩)
  · exact not_repeats_of_record orderly_fields h hrepeats
  · obtain ⟨level, entries, hread⟩ := exists_read_of_record orderly_fields (.tail _ (.head _))
      (fun _ _ _ => rfl) h hhas
    obtain ⟨_, entry, hread⟩ := exists_read_of_list hread _ hmem
    exact Entry.not_repeats_of_reader hread hrepeats

/-! ## Texts -/

namespace Catalog

/-- **A catalog that comes back from its document comes back from every text of a document that shows it**: whatever the
order of the members in the objects of the catalog, its entries, their metadata and endpoints, whichever members that
hold their defaults are left out, and whatever stands under other keys.  A text in which one of these objects has a
field twice is refused. -/
theorem ofJson_arranged (catalog : Catalog) (hvalid : catalog.Valid)
    (hnumbers : ∀ n ∈ catalog.numbers, ∃ i : Int, n = .whole i ∧ -(2 ^ 63) ≤ i ∧ i < 2 ^ 64)
    (hnesting : catalog.toValue.nesting ≤ 127) :
    catalog.Shown (Doc.written catalog.toValue) ∧
    (∀ (text : String) doc, Doc.ofText text.toList = ⟨.ok doc, false⟩ → catalog.Shown doc →
      ofJson text = .ok catalog) ∧
    (∀ v : Value, catalog.Shown (Doc.written v) → ofJson v.pretty = .ok catalog) ∧
    ∀ (text : String) doc trailing, Doc.ofText text.toList = ⟨.ok doc, trailing⟩ → Repeats doc →
      ∃ e, ofJson text = .error e := by
  have hreread : ∀ n ∈ catalog.numbers, n.reread? = some n := by
    intro n hn
    obtain ⟨i, rfl, hi⟩ := hnumbers n hn
    exact Number.reread?_whole hi
  have hshown : ∀ (text : String) doc, Doc.ofText text.toList = ⟨.ok doc, false⟩ → catalog.Shown doc →
      ofJson text = .ok catalog := by
    intro text doc htext hdoc
    rw [ofJson, Reader.run, htext]
    dsimp only
    rw [read_of_shown hvalid hreread hnesting hdoc]
    rfl
  refine ⟨shown_written catalog, hshown, fun v hv => hshown _ _ (Doc.ofText_pretty v) hv, ?_⟩
  intro text doc trailing htext hrepeats
  cases hread : ofJson text with
  | error e => exact ⟨e, rfl⟩
  | ok other =>
    rw [ofJson, Reader.run, htext] at hread
    obtain ⟨found, hfound, -⟩ := bind_eq_ok hread
    exact absurd hrepeats (not_repeats_of_reader hfound)

/-- A catalog with one endpoint, of which all but the required fields have their defaults. -/
def sparse : Catalog where
  generatedAt := ⟨1483228799, 1999999999⟩
  entries := [⟨"0", Metadata.blank, [Endpoint.plain "GET" "/a"]⟩]

/-- A document of `sparse` in another order, without all that may be left out, and with half of a surrogate pair under
another key. -/
def sparseText : String :=
  "\x7b\"\":\"\\ud800\",\"entries\": [\x7b\"endpoints\":[\x7b\"note\":[\x7b\x7d,null],\"method\":\"GET\","
    ++ "\"path\":\"\\u002fa\"\x7d],\n\"metadata\":\x7b\x7d,\"id\":\"0\"\x7d],"
    ++ "\"generated_at\":\"2016-12-31T23:59:60.999999999Z\"\x7d"

/-- A member that no endpoint has. -/
def note : Key × Doc := (some "note", .array [.object [] none, .scalar .null] none)

/-- Method and path of the endpoint in `sparse`. -/
def sparseRoute : List (Key × Doc) :=
  [(some "method", .scalar (.string (some "GET"))), (some "path", .scalar (.string (some "/a")))]

def sparseEntry : List (Key × Doc) :=
  [(some "endpoints", .array [.object (note :: sparseRoute) none] none), (some "metadata", .object [] none),
    (some "id", .scalar (.string (some "0")))]

def sparseDoc : Doc :=
  .object [(some "", .scalar (.string none)), (some "entries", .array [.object sparseEntry none] none),
    (some "generated_at", .scalar (.string (some "2016-12-31T23:59:60.999999999Z")))] none

set_option maxRecDepth 4000 in
theorem ofText_sparseText : Doc.ofText sparseText.toList = ⟨.ok sparseDoc, false⟩ := rfl

theorem shown_sparseDoc : sparse.Shown sparseDoc := by
  have hendpoint : (Endpoint.plain "GET" "/a").Shown (.object (note :: sparseRoute) none) := by
    refine ⟨_, sparseRoute, Doc.writtenMembers Endpoint.defaults, [note], rfl, .swap _ _ _, List.Subset.refl _,
      (List.perm_append_singleton _ _).symm, ?_⟩
    rw [List.forall_mem_singleton]
    exact ⟨"note", rfl, by decide, rfl⟩
  have hmetadata : Metadata.blank.Shown (.object [] none) :=
    ⟨[], [], Doc.writtenMembers Metadata.defaults, [], rfl, .refl _, List.Subset.refl _, .nil, by simp⟩
  have hentry : Entry.Shown ⟨"0", Metadata.blank, [Endpoint.plain "GET" "/a"]⟩ (.object sparseEntry none) :=
    ⟨_, _, hmetadata, .cons hendpoint .nil, _, sparseEntry, [], [], rfl, (List.reverse_perm sparseEntry),
      List.nil_subset _, .refl _, by simp⟩
  refine ⟨_, .cons hentry .nil, _, sparseDoc.members.tail, [], [_], rfl, .swap _ _ _, List.nil_subset _,
    (List.perm_append_singleton _ _).symm, ?_⟩
  rw [List.forall_mem_singleton]
  exact ⟨"", rfl, by decide, rfl⟩

/-- A value in which the one entry names itself twice. -/
def sparseTwice : Value :=
  .object [("entries", .array [.object [("id", .string "0"), ("metadata", .object []), ("id", .string "1")]])]

theorem repeats_sparseTwice : Repeats (Doc.written sparseTwice) :=
  .entry ⟨_, _, rfl, .head _⟩ (.head _)
    (.entry ⟨"id", by decide, [], .scalar (.string (some "0")), [(some "metadata", .object [] none)],
      .scalar (.string (some "1")), [], none, rfl⟩)

theorem ofJson_arranged_sparse :
    ofJson sparseText = .ok sparse ∧ ∃ e, ofJson sparseTwice.pretty = .error e := by
  have hvalid : sparse.Valid := by
    refine ⟨⟨by decide, by decide⟩, fun entry hentry => ?_⟩
    obtain rfl := List.mem_singleton.1 hentry
    refine ⟨fun _ h => absurd h (Option.not_mem_none _), fun endpoint hendpoint => ?_⟩
    obtain rfl := List.mem_singleton.1 hendpoint
    simp [Endpoint.DistinctKeys, Endpoint.plain, Value.DistinctKeys, Value.ItemsDistinct, Value.MembersDistinct]
  have hnumbers : sparse.numbers = [] := rfl
  obtain ⟨-, hshown, -, hrepeats⟩ := ofJson_arranged sparse hvalid (by simp [hnumbers]) (by decide)
  exact ⟨hshown sparseText sparseDoc ofText_sparseText shown_sparseDoc,
    hrepeats _ _ _ (Doc.ofText_pretty sparseTwice) repeats_sparseTwice⟩

end Catalog

end ApiCatalog
