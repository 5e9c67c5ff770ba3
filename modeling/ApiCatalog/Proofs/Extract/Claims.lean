import ApiCatalog.Proofs.Extract.Tags
/-!
# Claims

What is known of a file because an extractor claims it.  Of the built-in extractors, those that look into a file before
they claim it do not fail on it afterwards; the one that claims by the name alone fails if the file has no text, or has
one that cannot be had (`extract_of_claims`).
-/

namespace ApiCatalog

/-- Why a path leads to no text: nothing is there, or a folder, or bytes that are no text. -/
inductive Node.NoText (tree : Node) (path : Path) : OsError → Prop
  | missing {cause : OsError} : tree.locate path = .error cause → cause = .notFound ∨ cause = .notDirectory →
      NoText tree path cause
  | folder {place : List Name} {entries : List (Name × Node)} : tree.locate path = .ok (place, .folder entries) →
      NoText tree path .isDirectory
  | barred {place : List Name} {refusal : Refusal} : tree.locate path = .ok (place, .barred refusal) →
      NoText tree path (.refused refusal)
  | binary {place : List Name} {content : ByteArray} {modified : Instant} :
      tree.locate path = .ok (place, .file content modified) → ¬ content.IsValidUTF8 → NoText tree path .notUtf8

/-- Why a file at the end of a path cannot be read although it may be a text: it is not opened, or the way there is not,
or there are too many links on it. -/
inductive Node.Withheld (tree : Node) (path : Path) : OsError → Prop
  | sealed {place : List Name} {size : ℕ} {modified : Instant} {refusal : Refusal} :
      tree.locate path = .ok (place, .sealed size modified refusal) → Withheld tree path (.refused refusal)
  | way {refusal : Refusal} : tree.locate path = .error (.refused refusal) → Withheld tree path (.refused refusal)
  | links : tree.locate path = .error .tooManyLinks → Withheld tree path .tooManyLinks

theorem Node.readText_eq_error_iff {tree : Node} {path : Path} {cause : OsError} :
    tree.readText path = .error cause ↔ tree.NoText path cause ∨ tree.Withheld path cause := by
  constructor
  · intro h
    unfold Node.readText at h
    split at h
    · rename_i hlocate
      cases h
      rcases Node.cause_of_locate hlocate with rfl | rfl | rfl | ⟨refusal, rfl⟩
      · exact .inl (.missing hlocate (.inl rfl))
      · exact .inl (.missing hlocate (.inr rfl))
      · exact .inr (.links hlocate)
      · exact .inr (.way hlocate)
    · rename_i hlocate
      split at h
      · cases h
      · rename_i htext
        cases h
        refine .inl (.binary hlocate fun hvalid => ?_)
        rw [String.fromUTF8?, dif_pos hvalid] at htext
        cases htext
    · rename_i hlocate
      cases h
      exact .inr (.sealed hlocate)
    · rename_i hlocate
      cases h
      exact .inl (.barred hlocate)
    · rename_i found hfile hsealed hbarred hlocate
      cases h
      obtain ⟨place, node⟩ := found
      cases node with
      | file content modified => exact absurd rfl (hfile place content modified)
      | folder entries => exact .inl (.folder hlocate)
      | link target => exact absurd hlocate (Node.locate_ne_link tree path place target)
      | sealed size modified refusal => exact absurd rfl (hsealed place size modified refusal)
      | barred refusal => exact absurd rfl (hbarred place refusal)
  · rw [Node.readText]
    rintro ((⟨hlocate, -⟩ | hlocate | hlocate | ⟨hlocate, hvalid⟩) | (hlocate | hlocate | hlocate)) <;> rw [hlocate]
    dsimp only
    rw [String.fromUTF8?, dif_neg hvalid]

theorem readSource_eq_error_iff {tree : Node} {path : Path} {e : ExtractError} :
    readSource tree path = .error e ↔
      ∃ cause, (tree.NoText path cause ∨ tree.Withheld path cause) ∧ e = .unreadable path cause := by
  simp only [← Node.readText_eq_error_iff, readSource]
  cases tree.readText path with
  | ok text => simp
  | error cause => simp [eq_comm]

/-! ## Outcomes -/

/-- What comes of a file in which some endpoints were found: an entry of them, or nothing if there are none. -/
inductive Extractor.Yields : Except ExtractError (Option Entry) → List Endpoint → Prop
  | nothing : Yields (.ok none) []
  | entry {entry : Entry} : entry.endpoints ≠ [] → Yields (.ok (some entry)) entry.endpoints

theorem Extractor.Yields.exists_ok {result : Except ExtractError (Option Entry)} {found : List Endpoint}
    (h : Yields result found) : ∃ entry?, result = .ok entry? := by
  cases h with
  | nothing => exact ⟨none, rfl⟩
  | entry _ => exact ⟨_, rfl⟩

/-- The endpoints that an extractor finds in a file that it can read. -/
inductive Finds (tree : Node) (file : Path) : Extractor → List Endpoint → Prop
  | specification {document : Json.Value} {root : Json.Members} : Specification.load tree file = .ok document →
      document.object? = some root → Finds tree file Specification.extractor (Specification.endpoints root)
  | controller {content : String} : readSource tree file = .ok content →
      Finds tree file Controller.extractor (Controller.endpoints content.toList file.extension
        (Framework.detect content.toList file.extension))
  | annotated {content : String} {language : Language} : Language.ofExtension? file.extension = some language →
      readSource tree file = .ok content →
      Finds tree file Annotated.extractor (Annotated.endpoints content.toList file.extension language)

section
variable {tree : Node} {file : Path}

theorem Specification.yields_described (team : Option String) (root : Json.Members) :
    Extractor.Yields (.ok (described? tree file team root)) (endpoints root) := by
  by_cases hnone : endpoints root = []
  · rw [described?, hnone]
    exact .nothing
  · obtain ⟨entry, hdescribed, hendpoints⟩ := exists_described tree file team hnone
    rw [hdescribed, ← hendpoints]
    exact .entry (hendpoints ▸ hnone)

/-- **Where endpoints can be looked for, the extractor does not fail**, and makes an entry of those that it finds. -/
theorem Finds.yields {extractor : Extractor} {found : List Endpoint} (h : Finds tree file extractor found)
    (team : Option String) : Extractor.Yields (extractor.extract tree file team) found := by
  cases h with
  | @specification document root hload hroot =>
    rw [Specification.extract_of_load hload, hroot]
    exact Specification.yields_described team root
  | @controller content hread =>
    simp only [Controller.extractor, hread, bind, Except.bind]
    generalize hfound : Controller.endpoints _ _ _ = found
    cases found with
    | nil => exact .nothing
    | cons endpoint found => exact .entry (List.cons_ne_nil endpoint found)
  | @annotated content language hlanguage hread =>
    simp only [Annotated.extractor, hlanguage, hread, bind, Except.bind]
    generalize hfound : Annotated.endpoints _ _ _ = found
    cases found with
    | nil => exact .nothing
    | cons endpoint found => exact .entry (List.cons_ne_nil endpoint found)

theorem Specification.exists_finds (h : claims tree file = true) : ∃ found, Finds tree file extractor found := by
  rw [claims, Bool.and_eq_true] at h
  cases hload : load tree file with
  | error e => rw [hload] at h; cases h.2
  | ok document =>
    rw [hload] at h
    obtain ⟨root, hroot, -⟩ := Option.any_eq_true _ _ |>.1 h.2
    exact ⟨_, .specification hload hroot⟩

theorem Annotated.exists_finds (h : claims tree file = true) : ∃ found, Finds tree file extractor found := by
  rw [claims, Bool.and_eq_true, Option.isSome_iff_exists] at h
  obtain ⟨⟨language, hlanguage⟩, hcontent⟩ := h
  cases hread : readSource tree file with
  | error e => rw [hread] at hcontent; cases hcontent
  | ok content => exact ⟨_, .annotated hlanguage hread⟩

/-- A routing file is not looked into before it is claimed: its extractor fails if the file has no text, or none that
can be had. -/
theorem Controller.extract_eq_error_iff {team : Option String} {e : ExtractError} :
    extractor.extract tree file team = .error e ↔
      ∃ cause, (tree.NoText file cause ∨ tree.Withheld file cause) ∧ e = .unreadable file cause := by
  rw [← readSource_eq_error_iff]
  cases hread : readSource tree file with
  | ok content =>
    have hyields := (Finds.controller hread).yields team
    constructor
    · intro h
      rw [h] at hyields
      cases hyields
    · intro h
      cases h
  | error cause =>
    simp only [extractor, hread, bind, Except.bind, Except.error.injEq]

theorem Controller.exists_finds {team : Option String} (h : ∀ e, extractor.extract tree file team ≠ .error e) :
    ∃ found, Finds tree file extractor found := by
  cases hread : readSource tree file with
  | ok content => exact ⟨_, .controller hread⟩
  | error e => exact absurd (extract_eq_error_iff.2 (readSource_eq_error_iff.1 hread)) (h e)

end

namespace Registry.FirstClaim

variable {registry : Registry} {tree : Node} {file : Path} {team : Option String} {position : ℕ} {extractor : Extractor}

theorem dispatch_eq_none_iff (h : registry.FirstClaim tree file position extractor) {found : List Endpoint}
    (hyields : Extractor.Yields (extractor.extract tree file team) found) :
    registry.dispatch tree file team = none ↔ found = [] := by
  rw [dispatch, find?_eq_some_iff.2 ⟨position, h⟩]
  dsimp only
  generalize extractor.extract tree file team = result at hyields
  cases hyields with
  | nothing => simp
  | entry hendpoints => simp [hendpoints]

theorem dispatch_of_error (h : registry.FirstClaim tree file position extractor) {e : ExtractError}
    (he : extractor.extract tree file team = .error e) : registry.dispatch tree file team = none := by
  rw [dispatch, find?_eq_some_iff.2 ⟨position, h⟩]
  dsimp only
  rw [he]

/-- What is found in a file makes its entry. -/
theorem exists_dispatch (h : registry.FirstClaim tree file position extractor) {found : List Endpoint}
    (hfinds : Finds tree file extractor found) (hfound : found ≠ []) (team : Option String) :
    ∃ entry, registry.dispatch tree file team = some entry ∧ entry.endpoints = found := by
  have hyields := hfinds.yields team
  generalize hextract : extractor.extract tree file team = result at hyields
  cases hyields with
  | nothing => exact absurd rfl hfound
  | @entry entry hendpoints =>
    exact ⟨entry, dispatch_eq_some_iff.2 ⟨position, extractor, h, hextract, hendpoints⟩, rfl⟩

end Registry.FirstClaim

/-- The methods and paths of an entry's endpoints. -/
def Entry.offers (entry : Entry) : List (String × String) :=
  entry.endpoints.map fun endpoint => (endpoint.method, endpoint.path)

theorem Tagged.exists_dispatch {tree : Node} {file : Path} {place : List Name} {first second : String}
    {modified : Instant} (h : tree.locate file = .ok (place, .file (document first second).pretty.toUTF8 modified))
    (hextension : file.extension = "json") (team : Option String) : ∃ entry : Entry,
      Registry.builtin.dispatch tree file team = some entry ∧ entry.offers = [("GET", "/a")] := by
  have hload := load_of_locate h hextension
  have hclaims : Specification.claims tree file = true := by
    rw [Specification.claims, hload, hextension]
    rfl
  obtain ⟨root, hroot, hoperations⟩ := operations_document first second
  have hoffers : (Specification.endpoints root).map (fun endpoint => (endpoint.method, endpoint.path)) =
      [("GET", "/a")] := by
    rw [Specification.endpoints_eq, hoperations]
    rfl
  have hfound : Specification.endpoints root ≠ [] := fun h => by
    rw [h] at hoffers
    cases hoffers
  obtain ⟨entry, hdispatch, hendpoints⟩ := (Registry.FirstClaim.specification hclaims).exists_dispatch
    (.specification hload hroot) hfound team
  exact ⟨entry, hdispatch, by rw [Entry.offers, hendpoints, hoffers]⟩

/-- **An extractor that looks into a file before it claims it does not fail on it afterwards.**  So with the built-in
extractors nothing fails but a routing file, claimed by its name, that is missing, a folder, or no text, or that the
system does not let be read.  Any other file that is claimed has no entry if and only if the extractor that claims it
finds no endpoint in it.  Nothing is said of files whose times stop the program, see `Metadata.ofSource`. -/
theorem extract_of_claims (tree : Node) (file : Path) (team : Option String) :
    (Specification.claims tree file = true → ∃ found, Specification.extractor.extract tree file team = .ok found) ∧
    (Annotated.claims tree file = true → ∃ found, Annotated.extractor.extract tree file team = .ok found) ∧
    ∀ position extractor, Registry.builtin.FirstClaim tree file position extractor →
      (∀ e, extractor.extract tree file team = .error e ↔ extractor = Controller.extractor ∧
        Controller.claims file = true ∧
        ∃ cause, (tree.NoText file cause ∨ tree.Withheld file cause) ∧ e = .unreadable file cause) ∧
      ((∃ e, extractor.extract tree file team = .error e) → Registry.builtin.dispatch tree file team = none) ∧
      ((∀ e, extractor.extract tree file team ≠ .error e) → ∃ found, Finds tree file extractor found ∧
        (Registry.builtin.dispatch tree file team = none ↔ found = [])) := by
  have hok {extractor : Extractor} (h : ∃ found, Finds tree file extractor found) :
      ∃ found, extractor.extract tree file team = .ok found := by
    obtain ⟨found, hfinds⟩ := h
    exact (hfinds.yields team).exists_ok
  refine ⟨fun h => hok (Specification.exists_finds h), fun h => hok (Annotated.exists_finds h),
    fun position extractor hfirst => ?_⟩
  have hfound (h : ∃ found, Finds tree file extractor found) : ∃ found, Finds tree file extractor found ∧
      (Registry.builtin.dispatch tree file team = none ↔ found = []) := by
    obtain ⟨found, hfinds⟩ := h
    exact ⟨found, hfinds, hfirst.dispatch_eq_none_iff (hfinds.yields team)⟩
  -- An extractor other than that of routing files has looked for endpoints already.
  have hsafe (hname : extractor.name ≠ Controller.extractor.name) (h : ∃ found, Finds tree file extractor found)
      (e : ExtractError) : extractor.extract tree file team = .error e ↔ extractor = Controller.extractor ∧
        Controller.claims file = true ∧
        ∃ cause, (tree.NoText file cause ∨ tree.Withheld file cause) ∧ e = .unreadable file cause := by
    obtain ⟨found, hextract⟩ := hok h
    rw [hextract]
    constructor
    · intro he
      cases he
    · rintro ⟨rfl, -⟩
      exact absurd rfl hname
  refine ⟨?_, fun ⟨e, he⟩ => hfirst.dispatch_of_error he, fun hne => hfound ?_⟩
  all_goals
    obtain rfl | rfl | rfl := Registry.mem_builtin_iff.1 (List.mem_of_getElem? hfirst.1)
  · exact hsafe (by decide) (Specification.exists_finds hfirst.2.1)
  · intro e
    have hclaims : Controller.claims file = true := hfirst.2.1
    rw [Controller.extract_eq_error_iff, and_iff_right rfl, and_iff_right hclaims]
  · exact hsafe (by decide) (Annotated.exists_finds hfirst.2.1)
  · exact Specification.exists_finds hfirst.2.1
  · exact Controller.exists_finds hne
  · exact Annotated.exists_finds hfirst.2.1

/-- A routing file that is no text, claimed by its name, and files of the two other kinds. -/
theorem extract_of_claims_of_binary :
    let routing := Path.ofText "api.py"
    let binary := Node.folder [(Name.ofText "api.py", .file ⟨#[0xff]⟩ ⟨0, 0⟩)]
    let source := Path.ofText "a.ts"
    let annotated := Node.folder [(Name.ofText "a.ts", .file "@Path(".toUTF8 ⟨0, 0⟩)]
    (∃ found, Specification.extractor.extract (Tagged.tree "a" "b") Tagged.source none = .ok found) ∧
    (∃ found, Annotated.extractor.extract annotated source none = .ok found) ∧
    Registry.builtin.FirstClaim binary routing 1 Controller.extractor ∧
    Controller.extractor.extract binary routing none = .error (.unreadable routing .notUtf8) ∧
    Registry.builtin.dispatch binary routing none = none ∧
    Registry.builtin.FirstClaim (Tagged.tree "a" "b") Tagged.source 0 Specification.extractor ∧
    ∃ found, Finds (Tagged.tree "a" "b") Tagged.source Specification.extractor found ∧
      (Registry.builtin.dispatch (Tagged.tree "a" "b") Tagged.source none = none ↔ found = []) := by
  intro routing binary source annotated
  have hspecification : Specification.claims (Tagged.tree "a" "b") Tagged.source = true := by
    rw [Specification.claims, Tagged.load_source]
    decide +kernel
  have hannotated : Annotated.claims annotated source = true := by
    have hlocate : annotated.locate source = .ok ([Name.ofText "a.ts"], .file "@Path(".toUTF8 ⟨0, 0⟩) := rfl
    rw [Annotated.claims, readSource_of_locate hlocate]
    decide +kernel
  have hclaims : Controller.claims routing = true := by decide +kernel
  have hrouting := Registry.FirstClaim.routing hclaims binary
  have hfirst := Registry.FirstClaim.specification hspecification
  have htext : binary.NoText routing .notUtf8 := by
    have hlocate : binary.locate routing = .ok ([Name.ofText "api.py"], .file ⟨#[0xff]⟩ ⟨0, 0⟩) := rfl
    exact .binary hlocate (by decide +kernel)
  obtain ⟨hsafe, -, hdocument⟩ := extract_of_claims (Tagged.tree "a" "b") Tagged.source none
  obtain ⟨-, hsafe', -⟩ := extract_of_claims annotated source none
  obtain ⟨-, -, hcode⟩ := extract_of_claims binary routing none
  obtain ⟨hfails, hnone, -⟩ := hcode 1 Controller.extractor hrouting
  have herror := (hfails _).2 ⟨rfl, hclaims, .notUtf8, .inl htext, rfl⟩
  refine ⟨hsafe hspecification, hsafe' hannotated, hrouting, herror, hnone ⟨_, herror⟩, hfirst, ?_⟩
  obtain ⟨-, -, hfound⟩ := hdocument 0 Specification.extractor hfirst
  refine hfound fun e he => ?_
  obtain ⟨found, hextract⟩ := hsafe hspecification
  rw [hextract] at he
  cases he

/-- Links, one after the other, to a file with a route. -/
def Node.chained (links : ℕ) : Node :=
  let name (k : ℕ) : Name := Name.ofText "api" ++ List.replicate k 0x2d ++ Name.ofText ".py"
  .folder ((name links, .file "@app.route('/users')".toUTF8 ⟨0, 0⟩) ::
    (List.range links).map fun k => (name k, .link ⟨name (k + 1)⟩))

theorem readSource_chained : readSource (.chained 40) (.ofText "api.py") = .ok "@app.route('/users')" := by
  decide +kernel

theorem locate_chained : (Node.chained 45).locate (.ofText "api.py") = .error .tooManyLinks := rfl

/-- **A routing file can fail although it is there and is a text**: behind more links than are followed, and where it
may not be opened. -/
theorem not_noText_of_extract_error :
    let routing := Path.ofText "api.py"
    let denied : Refusal := ⟨"Permission denied", 13⟩
    let shut := Node.folder [(Name.ofText "api.py", .sealed 20 ⟨0, 0⟩ denied)]
    (∃ entry, Registry.builtin.dispatch (.chained 40) routing none = some entry) ∧
    (Registry.builtin.FirstClaim (.chained 45) routing 1 Controller.extractor ∧
      Controller.extractor.extract (.chained 45) routing none = .error (.unreadable routing .tooManyLinks) ∧
      Registry.builtin.dispatch (.chained 45) routing none = none ∧ ∀ cause, ¬ (Node.chained 45).NoText routing cause) ∧
    Registry.builtin.FirstClaim shut routing 1 Controller.extractor ∧
      Controller.extractor.extract shut routing none = .error (.unreadable routing (.refused denied)) ∧
      Registry.builtin.dispatch shut routing none = none ∧ ∀ cause, ¬ shut.NoText routing cause := by
  intro routing denied shut
  have hclaims : Controller.claims routing = true := by decide +kernel
  have hfirst := Registry.FirstClaim.routing hclaims
  have hshut : shut.locate routing = .ok ([Name.ofText "api.py"], .sealed 20 ⟨0, 0⟩ denied) := rfl
  have hchained : Controller.extractor.extract (.chained 45) routing none = .error (.unreadable routing .tooManyLinks) :=
    Controller.extract_eq_error_iff.2 ⟨.tooManyLinks, .inr (.links locate_chained), rfl⟩
  have hsealed : Controller.extractor.extract shut routing none = .error (.unreadable routing (.refused denied)) :=
    Controller.extract_eq_error_iff.2 ⟨.refused denied, .inr (.sealed hshut), rfl⟩
  refine ⟨?_, ⟨hfirst _, hchained, (hfirst _).dispatch_of_error hchained, ?_⟩,
    hfirst _, hsealed, (hfirst _).dispatch_of_error hsealed, ?_⟩
  · obtain ⟨entry, hdispatch, -⟩ := (hfirst _).exists_dispatch (.controller readSource_chained) (by decide +kernel) none
    exact ⟨entry, hdispatch⟩
  · rintro cause (⟨h, rfl | rfl⟩ | h | h | ⟨h, -⟩) <;> cases locate_chained.symm.trans h
  · rintro cause (⟨h, -⟩ | h | h | ⟨h, -⟩) <;> cases hshut.symm.trans h

end ApiCatalog
