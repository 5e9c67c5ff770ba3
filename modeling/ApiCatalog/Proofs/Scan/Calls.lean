import ApiCatalog.Proofs.Extract.Claims
import ApiCatalog.Proofs.Scan.Entries
import ApiCatalog.Scan.Calls
import Mathlib.Order.Monotone.Basic
/-!
# Which extractors are called

A scan calls, for each file that is walked, the first extractor of the registry that claims it and no other, and its
catalog has an entry of the file if that call gave one with endpoints (`scan_first_claim`).  So extractors that claim
nothing that another before them does not claim may be put anywhere into the registry: they are not called, and the
calls of the others stay as they are.
-/

namespace ApiCatalog

open Ignore (Excludes)

namespace Registry

/-- Another registry has the extractors of a registry, in their order: the one at a position has moved to `place` of
it. -/
structure Spread (registry spread : Registry) (place : ℕ → ℕ) : Prop where
  strictMono : StrictMono place
  kept : ∀ position extractor, registry[position]? = some extractor → spread[place position]? = some extractor

/-- An extractor of the other registry that is none of those that have moved. -/
def Besides (registry spread : Registry) (place : ℕ → ℕ) (position : ℕ) (extractor : Extractor) : Prop :=
  spread[position]? = some extractor ∧ ∀ old < registry.length, place old ≠ position

/-- Those that are none of them claim a file only behind another one that claims it. -/
def Shadows (registry spread : Registry) (place : ℕ → ℕ) (tree : Node) (file : Path) : Prop :=
  ∀ position extractor, registry.Besides spread place position extractor → extractor.claims tree file = true →
    ∃ earlier < position, ∃ other, spread[earlier]? = some other ∧ other.claims tree file = true

def calls (registry : Registry) (tree : Node) (file : Path) : List Call :=
  ((registry.claimant? tree file).map fun position => ⟨position, file⟩).toList

section
variable {registry : Registry} {tree : Node} {file : Path} {team : Option String}

theorem claimant?_eq_some_iff {position : ℕ} : registry.claimant? tree file = some position ↔
    ∃ extractor, registry.FirstClaim tree file position extractor := by
  rw [claimant?, List.findIdx?_eq_some_iff_getElem]
  constructor
  · rintro ⟨hposition, hclaims, hfirst⟩
    refine ⟨registry[position], List.getElem?_eq_getElem hposition, hclaims, fun earlier hearlier other hother => ?_⟩
    obtain ⟨-, rfl⟩ := List.getElem?_eq_some_iff.1 hother
    exact Bool.eq_false_iff.2 (hfirst earlier hearlier)
  · rintro ⟨extractor, hextractor, hclaims, hfirst⟩
    obtain ⟨hposition, rfl⟩ := List.getElem?_eq_some_iff.1 hextractor
    exact ⟨hposition, hclaims, fun earlier hearlier => Bool.eq_false_iff.1 <|
      hfirst earlier hearlier _ (List.getElem?_eq_getElem (hearlier.trans hposition))⟩

/-! ## Recorded runs -/

/-- **To dispatch a file is to call the first extractor that claims it, once.** -/
theorem run_dispatchFrom (registry : Registry) (position : ℕ) (record : List Call) :
    (registry.dispatchFrom tree file team position).run record = (registry.dispatch tree file team,
      record ++ ((registry.claimant? tree file).map fun i => ⟨position + i, file⟩).toList) := by
  induction registry generalizing position with
  | nil => exact congrArg (Prod.mk none) (List.append_nil record).symm
  | cons extractor registry ih =>
    rw [dispatchFrom, dispatch, claimant?, List.find?_cons, List.findIdx?_cons]
    cases hclaims : extractor.claims tree file with
    | true =>
      simp only [if_true, Extractor.call]
      cases hextract : extractor.extract tree file team with
      | error e => rfl
      | ok found => cases found <;> rfl
    | false =>
      have hbehind : (fun i => (⟨position + 1 + i, file⟩ : Call)) = (fun i => ⟨position + i, file⟩) ∘ (· + 1) := by
        funext i
        rw [Function.comp_apply, Nat.add_assoc, Nat.add_comm 1]
      rw [if_neg Bool.false_ne_true, if_neg Bool.false_ne_true, ih, hbehind, ← Option.map_map]
      rfl

theorem run_gather (registry : Registry) (tree : Node) (team : Option String) (catalog : Catalog) (files : List Path)
    (record : List Call) : (registry.gather tree team catalog files).run record =
      (⟨catalog.generatedAt, catalog.entries ++ files.filterMap fun file => registry.dispatch tree file team⟩,
        record ++ files.flatMap (registry.calls tree)) := by
  induction files generalizing catalog record with
  | nil =>
    rw [List.filterMap_nil, List.append_nil, List.flatMap_nil, List.append_nil]
    rfl
  | cons file files ih =>
    have hcall : (registry.dispatchFrom tree file team 0).run record =
        (registry.dispatch tree file team, record ++ registry.calls tree file) := by
      simpa only [Nat.zero_add, calls] using run_dispatchFrom registry 0 record
    rw [gather, StateT.run_bind, hcall, List.filterMap_cons, List.flatMap_cons, ← List.append_assoc]
    cases hdispatch : registry.dispatch tree file team with
    | none => exact ih catalog _
    | some entry =>
      refine (ih (catalog.add entry) _).trans ?_
      rw [Catalog.add, List.append_assoc]
      rfl

end

end Registry

/-- **The record makes no difference to a scan.** -/
theorem fst_run_scanRecorded (tree : Node) (registry : Registry) (options : ScanOptions) (root : Path) (now : Instant)
    (excludes : Excludes) (record : List Call) :
    ((scanRecorded tree registry options root now excludes).run record).1 =
      scan tree registry options root now excludes := by
  rw [scanRecorded, scan]
  cases scanFiles tree options root excludes with
  | error e => rfl
  | ok files =>
    have hgather := registry.run_gather tree options.teamOwner (.empty now) files record
    dsimp only
    rw [StateT.run_bind, hgather]
    rfl

theorem run_scanRecorded {tree : Node} {options : ScanOptions} {root : Path} {excludes : Excludes} {files : List Path}
    (h : scanFiles tree options root excludes = .ok files) (registry : Registry) (now : Instant) :
    (scanRecorded tree registry options root now excludes).run [] =
      (.ok ⟨now, files.filterMap fun file => registry.dispatch tree file options.teamOwner⟩,
        files.flatMap (registry.calls tree)) := by
  rw [scanRecorded, h]
  dsimp only
  rw [StateT.run_bind, Registry.run_gather]
  rfl

/-! ## The calls of a scan -/

/-- The call of an extractor that has moved. -/
def Call.moved (place : ℕ → ℕ) (call : Call) : Call := { call with position := place call.position }

namespace Registry

section
variable {registry : Registry} {tree : Node} {files : List Path}

theorem mem_flatMap_calls {call : Call} : call ∈ files.flatMap (registry.calls tree) ↔
    call.file ∈ files ∧ ∃ extractor, registry.FirstClaim tree call.file call.position extractor := by
  simp only [List.mem_flatMap, calls, Option.mem_toList, Option.map_eq_some_iff, ← claimant?_eq_some_iff]
  constructor
  · rintro ⟨file, hfile, position, hposition, rfl⟩
    exact ⟨hfile, hposition⟩
  · rintro ⟨hfile, hposition⟩
    exact ⟨call.file, hfile, call.position, hposition, rfl⟩

/-- The files of the calls are some of all files, in their order. -/
theorem map_file_sublist (registry : Registry) (tree : Node) (files : List Path) :
    ((files.flatMap (registry.calls tree)).map Call.file).Sublist files := by
  induction files with
  | nil => exact .slnil
  | cons file files ih =>
    rw [List.flatMap_cons, List.map_append, calls]
    cases registry.claimant? tree file with
    | none => exact ih.cons file
    | some position => exact ih.cons_cons file

end

section
variable {registry spread : Registry} {place : ℕ → ℕ} {tree : Node} {file : Path}

theorem Spread.moved_or_besides (h : registry.Spread spread place) {position : ℕ} {extractor : Extractor}
    (hextractor : spread[position]? = some extractor) :
    (∃ old, position = place old ∧ registry[old]? = some extractor) ∨
      registry.Besides spread place position extractor := by
  by_cases hold : ∃ old < registry.length, place old = position
  · obtain ⟨old, hlength, rfl⟩ := hold
    have hsame := h.kept old _ (List.getElem?_eq_getElem hlength)
    exact .inl ⟨old, rfl, (List.getElem?_eq_getElem hlength).trans (hsame.symm.trans hextractor)⟩
  · exact .inr ⟨hextractor, fun old hlength hplace => hold ⟨old, hlength, hplace⟩⟩

/-- **Where extractors are put besides that claim a file only behind others that claim it, the first one that claims it
stays the same**, wherever it has moved. -/
theorem Spread.firstClaim_iff (h : registry.Spread spread place)
    (hshadows : registry.Shadows spread place tree file) {position : ℕ} {extractor : Extractor} :
    spread.FirstClaim tree file position extractor ↔
      ∃ old, position = place old ∧ registry.FirstClaim tree file old extractor := by
  constructor
  · rintro ⟨hextractor, hclaims, hfirst⟩
    rcases h.moved_or_besides hextractor with ⟨old, rfl, hold⟩ | hbesides
    · refine ⟨old, rfl, hold, hclaims, fun earlier hearlier other hother => ?_⟩
      exact hfirst (place earlier) (h.strictMono hearlier) other (h.kept earlier other hother)
    · obtain ⟨earlier, hearlier, other, hother, hother_claims⟩ := hshadows position extractor hbesides hclaims
      rw [hfirst earlier hearlier other hother] at hother_claims
      cases hother_claims
  · rintro ⟨old, rfl, hextractor, hclaims, hfirst⟩
    refine ⟨h.kept old extractor hextractor, hclaims, fun earlier hearlier other hother => ?_⟩
    -- What was put in claims the file only behind another, and that one cannot claim it.
    induction earlier using Nat.strong_induction_on generalizing other with
    | h earlier ih =>
      rcases h.moved_or_besides hother with ⟨first, rfl, hfirst'⟩ | hbesides
      · exact hfirst first (h.strictMono.lt_iff_lt.1 hearlier) other hfirst'
      · rw [← Bool.not_eq_true]
        intro hclaimed
        obtain ⟨first, hlt, another, hanother, hclaims'⟩ := hshadows earlier other hbesides hclaimed
        rw [ih first hlt (hlt.trans hearlier) another hanother] at hclaims'
        cases hclaims'

theorem spread_append (registry more : Registry) : registry.Spread (registry ++ more) id where
  strictMono := strictMono_id
  kept _ _ h := by
    rw [id, List.getElem?_append_left (List.getElem?_eq_some_iff.1 h).1, h]

/-- What stands behind a registry has all that stands before it there before it. -/
theorem exists_earlier_append {registry more : Registry} {position : ℕ} {extractor : Extractor} {tree : Node}
    {file : Path} (hbesides : registry.Besides (registry ++ more) id position extractor)
    (h : ∀ front back, more = front ++ extractor :: back →
      ∃ earlier ∈ registry ++ front, earlier.claims tree file = true) :
    ∃ earlier < position, ∃ other, (registry ++ more)[earlier]? = some other ∧ other.claims tree file = true := by
  obtain ⟨hextractor, hold⟩ := hbesides
  have hlength : registry.length ≤ position := not_lt.1 fun hlt => hold position hlt rfl
  rw [List.getElem?_append_right hlength] at hextractor
  obtain ⟨front, back, rfl, hfront⟩ : ∃ front back, more = front ++ extractor :: back ∧
      front.length = position - registry.length := by
    obtain ⟨hlt, rfl⟩ := List.getElem?_eq_some_iff.1 hextractor
    refine ⟨more.take (position - registry.length), more.drop (position - registry.length + 1), ?_,
      List.length_take_of_le hlt.le⟩
    rw [List.getElem_cons_drop, List.take_append_drop]
  obtain ⟨earlier, hmem, hclaims⟩ := h front back rfl
  obtain ⟨i, hi⟩ := List.mem_iff_getElem?.1 hmem
  have hbefore : i < (registry ++ front).length := (List.getElem?_eq_some_iff.1 hi).1
  refine ⟨i, ?_, earlier, ?_, hclaims⟩
  · rw [List.length_append] at hbefore
    omega
  · rw [← List.append_assoc, List.getElem?_append_left hbefore, hi]

theorem Spread.dispatch_eq (h : registry.Spread spread place)
    (hshadows : registry.Shadows spread place tree file) (team : Option String) :
    spread.dispatch tree file team = registry.dispatch tree file team := by
  refine Option.ext fun entry => ?_
  simp only [dispatch_eq_some_iff, h.firstClaim_iff hshadows]
  constructor
  · rintro ⟨_, extractor, ⟨old, rfl, hfirst⟩, hentry⟩
    exact ⟨old, extractor, hfirst, hentry⟩
  · rintro ⟨old, extractor, hfirst, hentry⟩
    exact ⟨_, extractor, ⟨old, rfl, hfirst⟩, hentry⟩

theorem Spread.calls_eq (h : registry.Spread spread place)
    (hshadows : registry.Shadows spread place tree file) :
    spread.calls tree file = (registry.calls tree file).map (Call.moved place) := by
  have hclaimant : spread.claimant? tree file = (registry.claimant? tree file).map place := by
    refine Option.ext fun position => ?_
    simp only [claimant?_eq_some_iff, h.firstClaim_iff hshadows, Option.map_eq_some_iff]
    constructor
    · rintro ⟨extractor, old, rfl, hfirst⟩
      exact ⟨old, ⟨extractor, hfirst⟩, rfl⟩
    · rintro ⟨old, ⟨extractor, hfirst⟩, rfl⟩
      exact ⟨extractor, old, rfl, hfirst⟩
  rw [calls, calls, hclaimant]
  cases registry.claimant? tree file <;> rfl

end

end Registry

/-- A scan with extractors put besides has the same catalog and the same calls, of extractors that have moved. -/
theorem Registry.Spread.run_scanRecorded {registry spread : Registry} {place : ℕ → ℕ} (h : registry.Spread spread place)
    {tree : Node} {options : ScanOptions} {root : Path} {excludes : Excludes} {files : List Path} {now : Instant}
    (hfiles : scanFiles tree options root excludes = .ok files)
    (hshadows : ∀ file ∈ files, registry.Shadows spread place tree file) :
    (scanRecorded tree spread options root now excludes).run [] =
      (scan tree registry options root now excludes, (files.flatMap (registry.calls tree)).map (Call.moved place)) := by
  have hcatalog : files.filterMap (fun file => spread.dispatch tree file options.teamOwner) =
      files.filterMap fun file => registry.dispatch tree file options.teamOwner :=
    List.filterMap_congr fun file hfile => h.dispatch_eq (hshadows file hfile) _
  have hcalls : files.flatMap (spread.calls tree) =
      files.flatMap fun file => (registry.calls tree file).map (Call.moved place) :=
    List.flatMap_congr fun file hfile => h.calls_eq (hshadows file hfile)
  rw [← fst_run_scanRecorded tree registry options root now excludes [], ApiCatalog.run_scanRecorded hfiles,
    ApiCatalog.run_scanRecorded hfiles, hcatalog, hcalls, List.map_flatMap]

/-- **The first extractor that claims a file is called, once, and no other.**  The calls are made for files that are
walked, in their order and at most once for each, and each is a call of the first extractor that claims the file.  A
file has an entry in the catalog if and only if its call gave one with endpoints.  Extractors that claim none of the
files may be put anywhere, and those that claim only files that are claimed already may be put behind: the catalog and
the calls of the others stay the same. -/
theorem scan_first_claim {tree : Node} (hwf : tree.WellFormed) (registry : Registry) (options : ScanOptions)
    {root : Path} (hroot : tree.hasFolder root = true) (now : Instant) (excludes : Excludes) :
    ∃ files catalog calls, walk tree options root excludes = .ok files ∧ files.Nodup ∧
      scan tree registry options root now excludes = .ok catalog ∧
      (scanRecorded tree registry options root now excludes).run [] = (.ok catalog, calls) ∧
      (calls.map Call.file).Sublist files ∧
      (∀ file ∈ files, ∀ position, ⟨position, file⟩ ∈ calls ↔
        ∃ extractor, registry.FirstClaim tree file position extractor) ∧
      (∃ found : Path → Option Entry, catalog.entries = files.filterMap found ∧
        ∀ file ∈ files, ∀ entry, found file = some entry ↔ ∃ position extractor, ⟨position, file⟩ ∈ calls ∧
          registry[position]? = some extractor ∧ extractor.extract tree file options.teamOwner = .ok (some entry) ∧
          entry.endpoints ≠ []) ∧
      (∀ spread place, registry.Spread spread place →
        (∀ position extractor, registry.Besides spread place position extractor →
          ∀ file ∈ files, extractor.claims tree file = false) →
        (scanRecorded tree spread options root now excludes).run [] = (.ok catalog, calls.map (Call.moved place))) ∧
      ∀ more : Registry, (∀ front extractor back, more = front ++ extractor :: back → ∀ file ∈ files,
          extractor.claims tree file = true → ∃ earlier ∈ registry ++ front, earlier.claims tree file = true) →
        (scanRecorded tree (registry ++ more) options root now excludes).run [] = (.ok catalog, calls) := by
  obtain ⟨place, entries, hlocate⟩ := hasFolder_iff.1 hroot
  obtain ⟨files, hwalk, hsorted, -⟩ := @Walk.walk_of_folder tree hwf options root excludes place entries hlocate
  have hfiles := scanFiles_of_hasFolder hroot hwalk
  have hrun := run_scanRecorded hfiles registry now
  have hscan := fst_run_scanRecorded tree registry options root now excludes []
  rw [hrun] at hscan
  have hnodup : files.Nodup := (List.pairwise_map.1 hsorted).imp fun {file later} hlt (heq : file = later) => by
    subst heq
    exact List.lt_irrefl _ hlt
  have hcalls : ∀ file ∈ files, ∀ position, ⟨position, file⟩ ∈ files.flatMap (registry.calls tree) ↔
      ∃ extractor, registry.FirstClaim tree file position extractor := fun file hfile position => by
    rw [Registry.mem_flatMap_calls, and_iff_right hfile]
  refine ⟨files, _, _, hwalk, hnodup, hscan.symm, hrun, registry.map_file_sublist tree files, hcalls,
    ⟨_, rfl, fun file hfile entry => ?_⟩, fun spread place hspread hbesides => ?_, fun more hmore => ?_⟩
  · rw [Registry.dispatch_eq_some_iff]
    constructor
    · rintro ⟨position, extractor, hfirst, hentry⟩
      exact ⟨position, extractor, (hcalls file hfile position).2 ⟨extractor, hfirst⟩, hfirst.1, hentry⟩
    · rintro ⟨position, extractor, hcall, hextractor, hentry⟩
      obtain ⟨called, hfirst⟩ := (hcalls file hfile position).1 hcall
      obtain rfl : called = extractor := Option.some.inj (hfirst.1.symm.trans hextractor)
      exact ⟨position, called, hfirst, hentry⟩
  · rw [hspread.run_scanRecorded hfiles fun file hfile position extractor hput hclaims => ?_, ← hscan]
    rw [hbesides position extractor hput file hfile] at hclaims
    cases hclaims
  · have hmoved : Call.moved id = id := rfl
    rw [(Registry.spread_append registry more).run_scanRecorded hfiles fun file hfile position extractor hput hclaims =>
      Registry.exists_earlier_append hput fun front back hsplit => hmore front extractor back hsplit file hfile hclaims,
      ← hscan, hmoved, List.map_id]

/-- An extractor that finds nothing keeps the files from the one behind it, and is called also behind one that claims
nothing; one that finds something makes all the entries. -/
theorem scan_first_claim_of_shadowed :
    let never : Extractor := ⟨"never", fun _ _ => false, fun _ _ _ => .ok none⟩
    let empty : Extractor := ⟨"empty", fun _ _ => true, fun _ file _ => .ok (some ⟨file.id, .blank, []⟩)⟩
    let rich : Extractor :=
      ⟨"rich", fun _ _ => true, fun _ file _ => .ok (some ⟨file.id, .blank, [Endpoint.plain "GET" "/"]⟩)⟩
    let run (registry : Registry) :=
      (scanRecorded Node.sample registry .unset (Path.ofText "api") ⟨0, 0⟩).run []
    let files := ["api/a.json", "api/api.py", "api/b/routes.py", "api/b.json", "api/c.json"].map Path.ofText
    Node.sample.WellFormed ∧ Node.sample.hasFolder (Path.ofText "api") = true ∧
      run [empty] = (.ok ⟨⟨0, 0⟩, []⟩, files.map fun file => ⟨0, file⟩) ∧
      run [never, empty] = (.ok ⟨⟨0, 0⟩, []⟩, files.map fun file => ⟨1, file⟩) ∧
      run [empty, rich] = (.ok ⟨⟨0, 0⟩, []⟩, files.map fun file => ⟨0, file⟩) ∧
      run [rich, empty] = (.ok ⟨⟨0, 0⟩, files.map fun file => ⟨file.id, .blank, [Endpoint.plain "GET" "/"]⟩⟩,
        files.map fun file => ⟨0, file⟩) := by
  intro never empty rich run files
  have hscanned := scanFiles_of_hasFolder hasFolder_sample (walk_sample .unset (by simp))
  have hrun : run [empty] = (.ok ⟨⟨0, 0⟩, []⟩, files.map fun file => ⟨0, file⟩) :=
    run_scanRecorded hscanned [empty] ⟨0, 0⟩
  have hrich : run [rich] = (.ok ⟨⟨0, 0⟩, files.map fun file => ⟨file.id, .blank, [Endpoint.plain "GET" "/"]⟩⟩,
      files.map fun file => ⟨0, file⟩) := run_scanRecorded hscanned [rich] ⟨0, 0⟩
  obtain ⟨_, catalog, calls, -, -, -, hcalls, -, -, -, hspread, hmore⟩ :=
    scan_first_claim wellFormed_sample [empty] .unset hasFolder_sample ⟨0, 0⟩ .none
  obtain ⟨_, catalog', calls', -, -, -, hcalls', -, -, -, -, hmore'⟩ :=
    scan_first_claim wellFormed_sample [rich] .unset hasFolder_sample ⟨0, 0⟩ .none
  obtain ⟨hcatalog, rfl⟩ := Prod.mk.inj (hcalls.symm.trans hrun)
  obtain rfl := Except.ok.inj hcatalog
  obtain ⟨hcatalog', rfl⟩ := Prod.mk.inj (hcalls'.symm.trans hrich)
  obtain rfl := Except.ok.inj hcatalog'
  refine ⟨wellFormed_sample, hasFolder_sample, hrun, ?_, ?_, ?_⟩
  · have hmoved : Registry.Spread [empty] [never, empty] (· + 1) :=
      ⟨fun _ _ h => Nat.succ_lt_succ h, fun _ _ h => h⟩
    refine hspread [never, empty] (· + 1) hmoved fun position extractor hput file _ => ?_
    obtain ⟨hextractor, hold⟩ := hput
    obtain rfl | hlater := position.eq_zero_or_pos
    · obtain rfl : never = extractor := Option.some.inj hextractor
      rfl
    · have hlength : position < [never, empty].length := (List.getElem?_eq_some_iff.1 hextractor).1
      exact absurd (Nat.le_antisymm hlater (Nat.le_of_lt_succ hlength)) (hold 0 Nat.one_pos)
  · refine hmore [rich] fun front extractor back hsplit file _ _ => ?_
    exact ⟨empty, List.mem_append_left _ (List.mem_singleton_self _), rfl⟩
  · refine hmore' [empty] fun front extractor back hsplit file _ _ => ?_
    exact ⟨rich, List.mem_append_left _ (List.mem_singleton_self _), rfl⟩

end ApiCatalog
