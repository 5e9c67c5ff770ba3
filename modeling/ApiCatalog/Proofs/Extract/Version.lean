import ApiCatalog.Proofs.Extract.Spelling
import ApiCatalog.Proofs.Yaml.Keys
import ApiCatalog.Proofs.Yaml.Numeral
/-!
# Versions without quotes

A specification in YAML whose version is a numeral without quotes tells the text of the float that the numeral is read
as (`extract_numbered`).  So `1.10` is told as `1.1` (`extract_oneTen`).
-/

namespace ApiCatalog.Specification

open Json (NumberText)
open Yaml (Written)
open Yaml.Value (Unquoted)

/-- The path leads to a specification in YAML that has an operation, and a numeral without quotes for its version. -/
structure Numbered (tree : Node) (file : Path) (t : NumberText) : Prop where
  numeral : t.Plain
  document : ∃ content root, YamlAt tree file content ∧ parse? content file.extension = some (.object root) ∧
    endpoints root ≠ [] ∧ Unquoted content.toList ["info", "version"] t.chars

theorem described?_of_endpoints (tree : Node) (path : Path) (team : Option String) {root : Json.Members}
    (h : endpoints root ≠ []) : ∃ entry, described? tree path team root = some entry ∧ entry.metadata.version =
      ((root.get? "info").bind (·.get? "version")).bind scalarText? := by
  unfold described?
  split
  · contradiction
  · exact ⟨_, rfl, rfl⟩

theorem scalarText?_numeral {t : NumberText} {w : Yaml.Value} (h : t.Plain)
    (hw : Yaml.Value.ofPlain? (String.ofList t.chars) = some w) :
    scalarText? w.toJson = some (String.ofList t.shown) := by
  rw [Yaml.Value.ofPlain?_chars h, Option.some.injEq] at hw
  subst hw
  rw [NumberText.shown]
  split
  · rename_i hfinite
    rw [Yaml.Value.toJson, if_pos hfinite]
    rfl
  · rfl

theorem Numbered.exists_entry {tree : Node} {file : Path} {t : NumberText} (h : Numbered tree file t)
    (team : Option String) : ∃ entry, extractor.extract tree file team = .ok (some entry) ∧
      entry.metadata.version = some (String.ofList t.shown) := by
  obtain ⟨content, root, hyaml, hparse, hoperations, hversion⟩ := h.document
  have hload := load_of_read hyaml.2 hparse
  rw [parse?, if_neg hyaml.1] at hparse
  obtain ⟨v, hv, hjson⟩ := Option.map_eq_some_iff.1 hparse
  have hkeys : ∀ key ∈ ["info", "version"], key.toList.all Yaml.Value.isKeyMark = false := by simp; decide
  obtain ⟨w, hw, hfound⟩ := Yaml.Value.toJson_of_unquoted hversion hkeys hv
  have hfound : (Json.Members.get? root "info").bind (·.get? "version") = some w.toJson := by
    rw [hjson] at hfound
    simpa [Json.Value.get?, Json.Value.object?] using hfound
  obtain ⟨entry, hentry, htold⟩ := described?_of_endpoints tree file team hoperations
  refine ⟨entry, ?_, ?_⟩
  · rw [extract_of_load hload]
    exact congrArg Except.ok hentry
  · rw [htold, hfound, Option.bind_some, scalarText?_numeral h.numeral hw]

/-! ## Versions with and without a zero at the end -/

/-- The text of a specification that has an operation and a version. -/
def versioned (t : NumberText) : String :=
  "openapi: 3.0.0\ninfo:\n  title: A\n  version: " ++ String.ofList t.chars ++
    "\npaths:\n  /a:\n    get:\n      summary: x\n"

def versionedNodes (t : NumberText) : Written :=
  .mapping none [(.scalar none "openapi" true, .scalar none "3.0.0" true),
    (.scalar none "info" true, .mapping none [(.scalar none "title" true, .scalar none "A" true),
      (.scalar none "version" true, .scalar none (String.ofList t.chars) true)]),
    (.scalar none "paths" true, .mapping none [(.scalar none "/a" true, .mapping none [(.scalar none "get" true,
      .mapping none [(.scalar none "summary" true, .scalar none "x" true)])])])]

theorem numbered_versioned {t : NumberText} (ht : t.Plain)
    (hwrites : Written.Writes (versioned t).toList (versionedNodes t)) {root : Json.Members}
    (hroot : ((versionedNodes t).value? Yaml.Value.maxDepth).map Yaml.Value.toJson = some (.object root))
    (hoperations : endpoints root ≠ []) : Numbered (fileOf (versioned t)) (.ofText "s.yaml") t := by
  have hopenapi : Written.valued 127 [(.scalar none "openapi" true, .scalar none "3.0.0" true)] = true := rfl
  have htitle : Written.valued 126 [(.scalar none "title" true, .scalar none "A" true)] = true := rfl
  have hversion : (versionedNodes t).Leads Yaml.Value.maxDepth ["info", "version"]
      (.scalar none (String.ofList t.chars) true) := .member hopenapi rfl (.member htitle rfl .here)
  have hunquoted := Written.unquoted_of_writes hwrites hversion
  have hyaml := yamlAt_fileOf (versioned t)
  rw [String.toList_ofList] at hunquoted
  refine ⟨ht, _, root, hyaml, ?_, hoperations, hunquoted⟩
  rw [parse?, if_neg hyaml.1, Written.ofText?_of_writes hwrites, hroot]

def oneOne : NumberText := ⟨false, ['1'], ['1'], none⟩

def oneTen : NumberText := ⟨false, ['1'], ['1', '0'], none⟩

theorem numbered_oneOne : Numbered (fileOf (versioned oneOne)) (.ofText "s.yaml") oneOne := by
  have hplain : oneOne.Plain :=
    ⟨⟨.inr ⟨'1', [], rfl, rfl, by decide, nofun⟩, by simp [oneOne], nofun⟩, rfl, nofun, rfl⟩
  exact numbered_versioned hplain (by decide +kernel) rfl (List.cons_ne_nil _ _)

theorem numbered_oneTen : Numbered (fileOf (versioned oneTen)) (.ofText "s.yaml") oneTen := by
  have hplain : oneTen.Plain :=
    ⟨⟨.inr ⟨'1', [], rfl, rfl, by decide, nofun⟩, by simp [oneTen], nofun⟩, rfl, nofun, rfl⟩
  exact numbered_versioned hplain (by decide +kernel) rfl (List.cons_ne_nil _ _)

/-! ## Versions as they are told -/

/-- **A version without quotes is told as the text of the float that it is read as.**  It keeps its own text exactly if
it is too large for a float, zero, or canonical; so it does if it has no more than fifteen digits, has no zero that
could be left out, and is neither very small nor large.  Two versions are told alike exactly if they are the same
numeral or round to the same float. -/
theorem extract_numbered {tree tree' : Node} {file file' : Path} {t t' : NumberText} (h : Numbered tree file t)
    (h' : Numbered tree' file' t') (team team' : Option String) :
    ∃ entry entry', extractor.extract tree file team = .ok (some entry) ∧
      extractor.extract tree' file' team' = .ok (some entry') ∧
      entry.metadata.version = some (String.ofList t.shown) ∧
      (entry.metadata.version = some (String.ofList t.chars) ↔ t.Overflows ∨ t = .zero ∨ t.Canonical) ∧
      (t.Tidy → t.Short → 10 ^ (-5 : Int) ≤ t.size → t.size < 10 ^ (16 : Int) →
        entry.metadata.version = some (String.ofList t.chars)) ∧
      (entry.metadata.version = entry'.metadata.version ↔ t = t' ∨ t.SameFloat t') := by
  obtain ⟨entry, hextract, hversion⟩ := h.exists_entry team
  obtain ⟨entry', hextract', hversion'⟩ := h'.exists_entry team'
  have hkeeps := h.numeral.shown_eq_chars_iff
  have halike := h.numeral.shown_eq_iff h'.numeral
  refine ⟨entry, entry', hextract, hextract', hversion, ?_, fun htidy hshort hleast hmost => ?_, ?_⟩
  · rw [hversion, Option.some.injEq, String.ofList_inj, hkeeps]
  · rw [hversion, hkeeps.2 (.inr (.inr (h.numeral.canonical_of_short htidy hshort hleast hmost)))]
  · rw [hversion, hversion', Option.some.injEq, String.ofList_inj, halike]

/-- A version that keeps its text, and another one that is told alike. -/
theorem extract_numbered_oneOne : ∃ entry entry',
    extractor.extract (fileOf (versioned oneOne)) (.ofText "s.yaml") none = .ok (some entry) ∧
      extractor.extract (fileOf (versioned oneTen)) (.ofText "s.yaml") none = .ok (some entry') ∧
      entry.metadata.version = some "1.1" ∧ entry.metadata.version = entry'.metadata.version := by
  obtain ⟨entry, entry', hextract, hextract', -, -, hkeeps, halike⟩ :=
    extract_numbered numbered_oneOne numbered_oneTen none none
  have hdigits : oneOne.digits = 11 := rfl
  have hsize : oneOne.size = 11 / 10 := by
    rw [numbered_oneOne.numeral.size_eq, hdigits]
    norm_num [oneOne]
  have hshort : oneOne.Short := ⟨⟨11, -1⟩, by rw [hsize, Decimal.Scaled.value]; norm_num, by norm_num⟩
  have hversion := hkeeps (.inr (by decide)) hshort (by norm_num [hsize]) (by norm_num [hsize])
  have hsame : oneOne.shown = oneTen.shown := by decide +kernel
  have hfloat := (numbered_oneOne.numeral.shown_eq_iff numbered_oneTen.numeral).1 hsame
  exact ⟨entry, entry', hextract, hextract', hversion, halike.2 hfloat⟩

/-- **A version loses a zero at its end**, so two versions with different texts are told alike. -/
theorem extract_oneTen : Numbered (fileOf (versioned oneTen)) (.ofText "s.yaml") oneTen ∧
    Numbered (fileOf (versioned oneOne)) (.ofText "s.yaml") oneOne ∧
    String.ofList oneTen.chars = "1.10" ∧ String.ofList oneOne.chars = "1.1" ∧ ∃ entry entry',
      extractor.extract (fileOf (versioned oneTen)) (.ofText "s.yaml") none = .ok (some entry) ∧
      extractor.extract (fileOf (versioned oneOne)) (.ofText "s.yaml") none = .ok (some entry') ∧
      entry.metadata.version = some "1.1" ∧ entry'.metadata.version = some "1.1" := by
  obtain ⟨entry, hextract, hversion⟩ := numbered_oneTen.exists_entry none
  obtain ⟨entry', hextract', hversion'⟩ := numbered_oneOne.exists_entry none
  have hshown : oneTen.shown = "1.1".toList := by decide +kernel
  have hshown' : oneOne.shown = "1.1".toList := by decide +kernel
  rw [hshown, String.ofList_toList] at hversion
  rw [hshown', String.ofList_toList] at hversion'
  exact ⟨numbered_oneTen, numbered_oneOne, rfl, rfl, entry, entry', hextract, hextract', hversion, hversion'⟩

end ApiCatalog.Specification
