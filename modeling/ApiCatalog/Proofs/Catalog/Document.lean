import ApiCatalog.Catalog.Document
import ApiCatalog.Proofs.Json.Record
import ApiCatalog.Proofs.Time.Reading
/-!
# Catalog documents that are read again

The document of a catalog is read as the catalog, with each opaque number as its text is read, if and only if it nests
no deeper than readers go (`ofJson_toJson`).
-/

namespace ApiCatalog

open Json Json.Reader

/-! ## What is written into a document -/

def Endpoint.numbers (endpoint : Endpoint) : List Number :=
  (Value.array endpoint.parameters).numbers ++ (Value.object endpoint.responses).numbers

/-- No object in the opaque values of an endpoint has a key twice. -/
def Endpoint.DistinctKeys (endpoint : Endpoint) : Prop :=
  (Value.array endpoint.parameters).DistinctKeys ∧ (Value.object endpoint.responses).DistinctKeys

/-- The endpoint with its numbers as their texts are read. -/
def Endpoint.reread? (endpoint : Endpoint) : Option Endpoint := do
  let parameters ← Value.rereadItems? endpoint.parameters
  let responses ← Value.rereadMembers? endpoint.responses
  pure { endpoint with parameters, responses }

/-- The time of an entry can be written, and its endpoints can. -/
structure Entry.Valid (entry : Entry) : Prop where
  lastUpdated : ∀ instant ∈ entry.metadata.lastUpdated, instant.Valid
  keys : ∀ endpoint ∈ entry.endpoints, endpoint.DistinctKeys

def Entry.reread? (entry : Entry) : Option Entry := do
  pure { entry with endpoints := ← entry.endpoints.mapM Endpoint.reread? }

namespace Catalog

/-- What a catalog has to be for its document to stand for it: its times can be written, and the keys of its opaque
objects are distinct. -/
structure Valid (catalog : Catalog) : Prop where
  generatedAt : catalog.generatedAt.Valid
  entries : ∀ entry ∈ catalog.entries, entry.Valid

def numbers (catalog : Catalog) : List Number := catalog.endpoints.flatMap Endpoint.numbers

def reread? (catalog : Catalog) : Option Catalog := do
  pure { catalog with entries := ← catalog.entries.mapM Entry.reread? }

end Catalog

/-! ## Readers of fields -/

theorem Value.rereadItems?_eq (vs : List Value) : vs.mapM Value.reread? = Value.rereadItems? vs := by
  induction vs with
  | nil => rfl
  | cons v vs ih =>
    rw [List.mapM_cons, ih, Value.rereadItems?]
    cases v.reread? <;> cases Value.rereadItems? vs <;> rfl

theorem mapM_some {α : Type} : ∀ all : List α, all.mapM some = some all
  | [] => rfl
  | a :: all => by rw [List.mapM_cons, mapM_some all]; rfl

theorem nesting_ofText (text : String) : (ofText text).nesting = 0 := rfl

theorem nesting_ofOption (text : Option String) : (ofOption text).nesting = 0 := by cases text <;> rfl

theorem nesting_ofInstant (instant : Instant) : (ofInstant instant).nesting = 0 := rfl

theorem restores_ofText (text : String) : Restores string Json.ofText some text := restores_string text

theorem restores_ofOption (text : Option String) : Restores (optional string) Json.ofOption some text := by
  have h := restores_optional (o := text) (fun a => by simp [Doc.written]) fun a _ => restores_string a
  intro depth
  have hd := h depth
  cases text <;> exact hd

theorem restores_instant {instant : Instant} (h : instant.Valid) :
    Restores Instant.reader Json.ofInstant some instant := fun depth => by
  simp [Json.ofInstant, Value.nesting, Doc.written, Instant.reader, string, Instant.ofText?_text h, bind, Except.bind,
    pure, Except.pure, Except.toOption]

theorem restores_lastUpdated {instant : Option Instant} (h : ∀ i ∈ instant, i.Valid) :
    Restores (optional Instant.reader) (fun o => o.elim .null Json.ofInstant) some instant := by
  have hopt := restores_optional (fun a => by simp [Json.ofInstant, Doc.written]) fun a ha => restores_instant (h a ha)
  intro depth
  have hd := hopt depth
  cases instant <;> exact hd

theorem restores_status (status : Status) : Restores Status.reader (fun s => Json.ofText s.text) some status :=
  fun depth => by
    simp [Json.ofText, Value.nesting, Doc.written, Status.reader, key, Status.ofText?_text, bind, Except.bind, pure,
      Except.pure, Except.toOption]

theorem restores_tags (tags : List String) :
    Restores (list string) (fun tags => .array (tags.map Json.ofText)) some tags := fun depth => by
  have h := restores_list (fun tag (_ : tag ∈ tags) => restores_ofText tag) depth
  simpa only [mapM_some] using h

theorem restores_parameters {parameters : List Value} (h : (Value.array parameters).DistinctKeys) :
    Restores (list value) .array Value.rereadItems? parameters := by
  have hall : ∀ v ∈ parameters, v.DistinctKeys := by
    induction parameters with
    | nil => exact fun v hv => by cases hv
    | cons w ws ih =>
      intro v hv
      rcases List.mem_cons.1 hv with rfl | hv
      · exact h.1
      · exact ih h.2 v hv
  intro depth
  have hlist := restores_list (fun v hv => restores_value (hall v hv)) depth
  simpa only [List.map_id, Value.rereadItems?_eq] using hlist

/-! ## Readers of records -/

theorem Endpoint.orderly_fields : Orderly Endpoint.fields where
  names := by decide
  fills := by
    simp only [Endpoint.fields, List.forall_mem_cons]
    repeat' apply And.intro
    all_goals first
      | exact Slot.Sets.fills (fun _ _ _ => rfl) fun _ _ => rfl
      | exact fun _ h => absurd h List.not_mem_nil
  apart := by
    simp only [Endpoint.fields, List.pairwise_cons, List.forall_mem_cons, List.Pairwise.nil]
    repeat' apply And.intro
    all_goals first
      | exact Slot.Sets.apart (fun _ _ _ => rfl) (fun _ _ _ => rfl) (fun _ _ _ => rfl) (fun _ _ => rfl) fun _ _ => rfl
      | exact fun _ h => absurd h List.not_mem_nil
      | trivial

theorem Endpoint.nesting_le (endpoint : Endpoint) (depth : Nat) : endpoint.toValue.nesting ≤ depth + 1 ↔
    (Value.array endpoint.parameters).nesting ≤ depth ∧ (Value.object endpoint.responses).nesting ≤ depth ∧
      (Value.array (endpoint.tags.map ofText)).nesting ≤ depth := by
  change Value.memberNesting _ + 1 ≤ depth + 1 ↔ _
  simp only [Value.memberNesting, nesting_ofText, nesting_ofOption]
  omega

theorem Endpoint.restores_reader {endpoint : Endpoint} (h : endpoint.DistinctKeys) :
    Restores Endpoint.reader Endpoint.toValue Endpoint.reread? endpoint := by
  intro depth
  cases depth with
  | zero => simp [Endpoint.toValue, Doc.written, Endpoint.reader, record, Value.nesting, Except.toOption]
  | succ depth =>
    have hrecord := record_object Endpoint.fields {} Endpoint.Draft.finish
      [Doc.written (Json.ofText endpoint.path), Doc.written (Json.ofText endpoint.method),
        Doc.written (Json.ofOption endpoint.description), Doc.written (Json.ofOption endpoint.summary),
        Doc.written (.array endpoint.parameters), Doc.written (.object endpoint.responses),
        Doc.written (.array (endpoint.tags.map Json.ofText)), Doc.written (Json.ofText endpoint.status.text)]
      Endpoint.orderly_fields (by simp [Endpoint.fields, slot]) depth rfl
    refine Eq.trans hrecord ?_
    simp only [positional, Endpoint.fields, slot, toOption_bind, toOption_map,
      restores_ofText _ depth, restores_ofOption _ depth, restores_parameters h.1 depth, restores_members h.2 depth,
      restores_tags _ depth, restores_status _ depth, nesting_ofText, nesting_ofOption, Nat.zero_le, if_true,
      Option.map_some, Option.bind_some]
    by_cases hp : (Value.array endpoint.parameters).nesting ≤ depth <;>
      by_cases hr : (Value.object endpoint.responses).nesting ≤ depth <;>
      by_cases ht : (Value.array (endpoint.tags.map Json.ofText)).nesting ≤ depth <;>
      simp only [Endpoint.nesting_le, hp, hr, ht, if_true, if_false, and_self, and_false, false_and, Option.map_none,
        Option.bind_none, Option.map_some, Option.bind_some, Except.toOption, Endpoint.reread?]
    all_goals cases Value.rereadItems? endpoint.parameters <;> cases Value.rereadMembers? endpoint.responses <;> rfl

theorem Metadata.orderly_fields : Orderly Metadata.fields where
  names := by decide
  fills := by
    simp only [Metadata.fields, List.forall_mem_cons]
    repeat' apply And.intro
    all_goals first
      | exact Slot.Sets.fills (fun _ _ _ => rfl) fun _ _ => rfl
      | exact fun _ h => absurd h List.not_mem_nil
  apart := by
    simp only [Metadata.fields, List.pairwise_cons, List.forall_mem_cons, List.Pairwise.nil]
    repeat' apply And.intro
    all_goals first
      | exact Slot.Sets.apart (fun _ _ _ => rfl) (fun _ _ _ => rfl) (fun _ _ _ => rfl) (fun _ _ => rfl) fun _ _ => rfl
      | exact fun _ h => absurd h List.not_mem_nil
      | trivial

theorem Metadata.nesting_toValue (metadata : Metadata) : metadata.toValue.nesting = 1 := by
  have hupdated : (metadata.lastUpdated.elim Value.null ofInstant).nesting = 0 := by
    cases metadata.lastUpdated <;> rfl
  rw [Metadata.toValue, Value.nesting]
  simp [Value.memberNesting, nesting_ofText, nesting_ofOption, hupdated]

theorem Metadata.restores_reader {metadata : Metadata} (h : ∀ instant ∈ metadata.lastUpdated, instant.Valid) :
    Restores Metadata.reader Metadata.toValue some metadata := by
  intro depth
  have hupdated : (metadata.lastUpdated.elim Value.null ofInstant).nesting = 0 := by
    cases metadata.lastUpdated <;> rfl
  rw [Metadata.nesting_toValue]
  cases depth with
  | zero => simp [Metadata.toValue, Doc.written, Metadata.reader, record, Except.toOption]
  | succ depth =>
    have hrecord := record_object Metadata.fields {} Metadata.Draft.finish
      [Doc.written (ofOption metadata.teamOwner), Doc.written (metadata.lastUpdated.elim .null ofInstant),
        Doc.written (ofOption metadata.version), Doc.written (ofOption metadata.title),
        Doc.written (ofOption metadata.description), Doc.written (ofText metadata.sourceFile),
        Doc.written (ofOption metadata.baseUrl)]
      Metadata.orderly_fields (by simp [Metadata.fields, slot]) depth rfl
    refine Eq.trans hrecord ?_
    simp only [positional, Metadata.fields, slot, toOption_bind, toOption_map, restores_ofText _ depth,
      restores_ofOption _ depth, restores_lastUpdated h depth, nesting_ofText, nesting_ofOption, hupdated,
      Nat.zero_le, if_true, Option.map_some, Option.bind_some]
    simp [Except.toOption, Metadata.Draft.finish]

theorem Entry.orderly_fields : Orderly Entry.fields where
  names := by decide
  fills := by
    simp only [Entry.fields, List.forall_mem_cons]
    repeat' apply And.intro
    all_goals first
      | exact Slot.Sets.fills (fun _ _ _ => rfl) fun _ _ => rfl
      | exact fun _ h => absurd h List.not_mem_nil
  apart := by
    simp only [Entry.fields, List.pairwise_cons, List.forall_mem_cons, List.Pairwise.nil]
    repeat' apply And.intro
    all_goals first
      | exact Slot.Sets.apart (fun _ _ _ => rfl) (fun _ _ _ => rfl) (fun _ _ _ => rfl) (fun _ _ => rfl) fun _ _ => rfl
      | exact fun _ h => absurd h List.not_mem_nil
      | trivial

theorem Entry.nesting_le (entry : Entry) (depth : Nat) : entry.toValue.nesting ≤ depth + 1 ↔
    1 ≤ depth ∧ (Value.array (entry.endpoints.map Endpoint.toValue)).nesting ≤ depth := by
  change Value.memberNesting _ + 1 ≤ depth + 1 ↔ _
  simp only [Value.memberNesting, nesting_ofText, Metadata.nesting_toValue]
  omega

theorem Entry.restores_reader {entry : Entry} (h : entry.Valid) :
    Restores Entry.reader Entry.toValue Entry.reread? entry := by
  intro depth
  cases depth with
  | zero => simp [Entry.toValue, Doc.written, Entry.reader, record, Value.nesting, Except.toOption]
  | succ depth =>
    have hendpoints := restores_list (fun e he => Endpoint.restores_reader (h.keys e he)) depth
    have hrecord := record_object Entry.fields {} Entry.Draft.finish
      [Doc.written (ofText entry.id), Doc.written entry.metadata.toValue,
        Doc.written (.array (entry.endpoints.map Endpoint.toValue))]
      Entry.orderly_fields (by simp [Entry.fields, slot]) depth rfl
    refine Eq.trans hrecord ?_
    simp only [positional, Entry.fields, slot, toOption_bind, toOption_map, restores_ofText _ depth,
      Metadata.restores_reader h.lastUpdated depth, hendpoints, nesting_ofText, Nat.zero_le, if_true, Option.map_some,
      Option.bind_some]
    by_cases hm : 1 ≤ depth <;>
      by_cases he : (Value.array (entry.endpoints.map Endpoint.toValue)).nesting ≤ depth <;>
      simp only [Entry.nesting_le, Metadata.nesting_toValue, hm, he, if_true, if_false, and_self,
        and_false, false_and,
        Option.map_none, Option.bind_none, Option.map_some, Option.bind_some, Except.toOption, Entry.reread?]
    cases entry.endpoints.mapM Endpoint.reread? <;> rfl

namespace Catalog

theorem orderly_fields : Orderly Catalog.fields where
  names := by decide
  fills := by
    simp only [Catalog.fields, List.forall_mem_cons]
    repeat' apply And.intro
    all_goals first
      | exact Slot.Sets.fills (fun _ _ _ => rfl) fun _ _ => rfl
      | exact fun _ h => absurd h List.not_mem_nil
  apart := by
    simp only [Catalog.fields, List.pairwise_cons, List.forall_mem_cons, List.Pairwise.nil]
    repeat' apply And.intro
    all_goals first
      | exact Slot.Sets.apart (fun _ _ _ => rfl) (fun _ _ _ => rfl) (fun _ _ _ => rfl) (fun _ _ => rfl) fun _ _ => rfl
      | exact fun _ h => absurd h List.not_mem_nil
      | trivial

theorem nesting_le (catalog : Catalog) (depth : Nat) : catalog.toValue.nesting ≤ depth + 1 ↔
    (Value.array (catalog.entries.map Entry.toValue)).nesting ≤ depth := by
  change Value.memberNesting _ + 1 ≤ depth + 1 ↔ _
  simp only [Value.memberNesting, nesting_ofInstant]
  omega

theorem restores_reader {catalog : Catalog} (h : catalog.Valid) :
    Restores Catalog.reader Catalog.toValue Catalog.reread? catalog := by
  intro depth
  cases depth with
  | zero => simp [Catalog.toValue, Doc.written, Catalog.reader, record, Value.nesting, Except.toOption]
  | succ depth =>
    have hentries := restores_list (fun e he => Entry.restores_reader (h.entries e he)) depth
    have hrecord := record_object Catalog.fields {} Catalog.Draft.finish
      [Doc.written (ofInstant catalog.generatedAt), Doc.written (.array (catalog.entries.map Entry.toValue))]
      orderly_fields (by simp [Catalog.fields, slot]) depth rfl
    refine Eq.trans hrecord ?_
    simp only [positional, Catalog.fields, slot, toOption_bind, toOption_map, restores_instant h.generatedAt depth,
      hentries, nesting_ofInstant, Nat.zero_le, if_true, Option.map_some, Option.bind_some]
    by_cases he : (Value.array (catalog.entries.map Entry.toValue)).nesting ≤ depth <;>
      simp only [nesting_le, he, if_true, if_false, Option.map_none, Option.bind_none, Catalog.reread?]
    cases catalog.entries.mapM Entry.reread? <;> rfl

/-- **The document of a catalog is read as the catalog, each number as its text is read, if it nests no deeper than
readers go, and as none otherwise.** -/
theorem ofJson_toJson {catalog : Catalog} (h : catalog.Valid) : (ofJson catalog.toJson).toOption =
    if catalog.toValue.nesting ≤ maxDepth then catalog.reread? else none := by
  rw [ofJson, toJson, Reader.run, Doc.ofText_pretty, toOption_bind, ← restores_reader h maxDepth]
  cases Catalog.reader maxDepth (Doc.written catalog.toValue) <;> rfl

end Catalog

/-! ## Catalogs that come back as they are -/

theorem mapM_eq_self {α : Type} {f : α → Option α} {all : List α} :
    all.mapM f = some all ↔ ∀ a ∈ all, f a = some a := by
  induction all with
  | nil => simp
  | cons a all ih =>
    simp only [List.mapM_cons, List.forall_mem_cons, ← ih, Option.bind_eq_bind, Option.bind_eq_some_iff,
      Option.pure_def, Option.some.injEq, List.cons.injEq]
    constructor
    · rintro ⟨b, hb, bs, hbs, rfl, rfl⟩
      exact ⟨hb, hbs⟩
    · rintro ⟨ha, hall⟩
      exact ⟨a, ha, all, hall, rfl, rfl⟩

theorem Endpoint.reread?_eq_self (endpoint : Endpoint) :
    endpoint.reread? = some endpoint ↔ ∀ n ∈ endpoint.numbers, n.reread? = some n := by
  rw [Endpoint.numbers, List.forall_mem_append]
  simp only [Value.numbers, ← Value.rereadItems?_eq_self, ← Value.rereadMembers?_eq_self, Endpoint.reread?,
    Option.bind_eq_bind, Option.bind_eq_some_iff, Option.pure_def, Option.some.injEq]
  constructor
  · rintro ⟨parameters, hp, responses, hr, he⟩
    rw [← he]
    exact ⟨by rw [← hp, ← he], by rw [← hr, ← he]⟩
  · rintro ⟨hp, hr⟩
    exact ⟨_, hp, _, hr, rfl⟩

theorem Entry.reread?_eq_self (entry : Entry) :
    entry.reread? = some entry ↔ ∀ endpoint ∈ entry.endpoints, ∀ n ∈ endpoint.numbers, n.reread? = some n := by
  have hnumbers : (∀ endpoint ∈ entry.endpoints, ∀ n ∈ endpoint.numbers, n.reread? = some n) ↔
      ∀ endpoint ∈ entry.endpoints, endpoint.reread? = some endpoint :=
    forall₂_congr fun endpoint _ => (Endpoint.reread?_eq_self endpoint).symm
  rw [hnumbers, ← mapM_eq_self]
  simp only [Entry.reread?, Option.bind_eq_bind, Option.bind_eq_some_iff, Option.pure_def, Option.some.injEq]
  constructor
  · rintro ⟨endpoints, hall, he⟩
    rw [hall]
    exact congrArg (some ·.endpoints) he
  · exact fun hall => ⟨_, hall, rfl⟩

namespace Catalog

/-- **A catalog is reread as itself if its numbers are.** -/
theorem reread?_eq_self (catalog : Catalog) :
    catalog.reread? = some catalog ↔ ∀ n ∈ catalog.numbers, n.reread? = some n := by
  have hnumbers : (∀ n ∈ catalog.numbers, n.reread? = some n) ↔
      ∀ entry ∈ catalog.entries, entry.reread? = some entry := by
    simp only [Entry.reread?_eq_self, numbers, endpoints, List.mem_flatMap]
    constructor
    · exact fun h entry he endpoint hp n hn => h n ⟨endpoint, ⟨entry, he, hp⟩, hn⟩
    · rintro h n ⟨endpoint, ⟨entry, he, hp⟩, hn⟩
      exact h entry he endpoint hp n hn
  rw [hnumbers, ← mapM_eq_self]
  simp only [Catalog.reread?, Option.bind_eq_bind, Option.bind_eq_some_iff, Option.pure_def, Option.some.injEq]
  constructor
  · rintro ⟨entries, hall, he⟩
    rw [hall]
    exact congrArg (some ·.entries) he
  · exact fun hall => ⟨_, hall, rfl⟩

theorem ofJson_toJson_eq_self {catalog : Catalog} (h : catalog.Valid) : ofJson catalog.toJson = .ok catalog ↔
    catalog.toValue.nesting ≤ maxDepth ∧ ∀ n ∈ catalog.numbers, n.reread? = some n := by
  have hread := ofJson_toJson h
  rw [← reread?_eq_self]
  have hok : ofJson catalog.toJson = .ok catalog ↔ (ofJson catalog.toJson).toOption = some catalog := by
    cases ofJson catalog.toJson <;> simp [Except.toOption]
  rw [hok, hread]
  by_cases hn : catalog.toValue.nesting ≤ maxDepth <;> simp [hn]

/-- **What is left of the levels of a reader for the opaque values of a catalog**: five are taken up by the document. -/
theorem nesting_le_maxDepth (catalog : Catalog) : catalog.toValue.nesting ≤ maxDepth ↔
    ∀ endpoint ∈ catalog.endpoints, (Value.array endpoint.parameters).nesting ≤ 122 ∧
      (Value.object endpoint.responses).nesting ≤ 122 := by
  have htags : ∀ tags : List String, (Value.array (tags.map ofText)).nesting ≤ 121 + 1 := fun tags => by
    rw [Value.nesting_array_le]
    intro v hv
    obtain ⟨tag, -, rfl⟩ := List.mem_map.1 hv
    exact Nat.zero_le _
  have hentry : ∀ entry : Entry, entry.toValue.nesting ≤ 124 + 1 ↔ ∀ endpoint ∈ entry.endpoints,
      (Value.array endpoint.parameters).nesting ≤ 122 ∧ (Value.object endpoint.responses).nesting ≤ 122 := by
    intro entry
    rw [Entry.nesting_le, Value.nesting_array_le, List.forall_mem_map]
    refine (and_iff_right (by decide)).trans (forall₂_congr fun endpoint _ => ?_)
    rw [Endpoint.nesting_le]
    exact ⟨fun h => ⟨h.1, h.2.1⟩, fun h => ⟨h.1, h.2, htags _⟩⟩
  rw [show maxDepth = 126 + 1 from rfl, nesting_le, Value.nesting_array_le, List.forall_mem_map]
  simp only [hentry, endpoints, List.mem_flatMap]
  constructor
  · rintro h endpoint ⟨entry, he, hp⟩
    exact h entry he endpoint hp
  · exact fun h entry he endpoint hp => h endpoint ⟨entry, he, hp⟩

/-- **Every catalog comes back from its document**: with its times in years that can be told apart, distinct keys in each
opaque object, opaque numbers that are integers of 64 bits, and arrays and objects nested as deep as readers go.  A
time within a leap second is one behind the last second of a minute; a whole second of nanoseconds behind any other
second, which no clock gives, would be read back as the next second. -/
theorem ofJson_toJson_of_whole (catalog : Catalog) (hvalid : catalog.Valid)
    (hnumbers : ∀ n ∈ catalog.numbers, ∃ i : Int, n = .whole i ∧ -(2 ^ 63) ≤ i ∧ i < 2 ^ 64)
    (hnesting : catalog.toValue.nesting ≤ 127) : ofJson catalog.toJson = .ok catalog := by
  refine (ofJson_toJson_eq_self hvalid).2 ⟨hnesting, fun n hn => ?_⟩
  obtain ⟨i, rfl, hi⟩ := hnumbers n hn
  exact Number.reread?_whole hi

/-- A catalog with texts to escape, a leap second and opaque values of all kinds. -/
def sample : Catalog where
  generatedAt := ⟨1483228799, 1999999999⟩
  entries := [{
    id := "0\u0000\t\"\\é😀\x7f"
    metadata := { Metadata.blank with teamOwner := some "", lastUpdated := some ⟨-62167219200, 1000⟩ }
    endpoints := [{ Endpoint.plain "GET" "/" with
      parameters := [.null, .array [.object [("", .bool true), ("\n", .array [])]], .number (.whole (2 ^ 64 - 1))]
      responses := [("b", .number (.whole (-(2 ^ 63)))), ("a", .object []), ("", .string "\u2028/")]
      tags := ["b", "a", "b"]
      status := .internal }] }]

theorem ofJson_toJson_sample : ofJson sample.toJson = .ok sample := by
  refine ofJson_toJson_of_whole sample ⟨⟨by decide, by decide⟩, ?_⟩ ?_ (by decide)
  · intro entry hentry
    obtain rfl := List.mem_singleton.1 hentry
    refine ⟨fun instant hinstant => ?_, fun endpoint hendpoint => ?_⟩
    · cases hinstant
      exact ⟨by decide, by decide⟩
    · obtain rfl := List.mem_singleton.1 hendpoint
      simp [Endpoint.DistinctKeys, Json.Value.DistinctKeys, Json.Value.ItemsDistinct, Json.Value.MembersDistinct]
  · have hnumbers : sample.numbers = [.whole (2 ^ 64 - 1), .whole (-(2 ^ 63))] := rfl
    rw [hnumbers]
    simp

end Catalog

end ApiCatalog
