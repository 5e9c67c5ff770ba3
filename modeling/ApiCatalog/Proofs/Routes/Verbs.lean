import ApiCatalog.Proofs.Extract.Flask
import ApiCatalog.Proofs.Text.Lower
/-!
# The normal form of a verb

The method of a route is meant to be a normal form: nothing around it, in upper case, and no generic verb.  It is one
exactly if there are no blanks just inside the quotation marks that the verb was written in (`resolve?_normal`), since
these are taken off after the blanks around them and not before.
-/

namespace ApiCatalog

namespace Verb

/-- A character that may stand around a verb. -/
def wraps (c : Char) : Bool := Text.isBlank c || isQuote c

/-- The verb alone, without the blanks and quotation marks around it. -/
def bare (raw : List Char) : List Char := Text.trimBy wraps raw

/-- No blank stands between the verb and its quotation marks. -/
def Snug (raw : List Char) : Prop :=
  Text.trim (Text.trimBy isQuote (Text.trim raw)) = Text.trimBy isQuote (Text.trim raw)

/-- The method has some character besides blanks, and neither blanks nor quotation marks at its ends; it is in upper
case, is not the generic verb, and stands for itself. -/
structure Normal (method : List Char) : Prop where
  notBlank : ∃ c ∈ method, Text.isBlank c = false
  bare : Verb.bare method = method
  upper : ∀ c ∈ method, c.isLower = false
  ne_route : method ≠ "ROUTE".toList
  fixed : normalize? method = some method

section
variable {raw method : List Char}

/-! ## Case -/

theorem case_ascii (c : Char) : c.toUpper.isLower = false ∧ c.toUpper.toLower = c.toLower ∧
    c.toUpper.toUpper = c.toUpper ∧ isQuote c.toUpper = isQuote c ∧ Text.isBlank c.toUpper = Text.isBlank c ∧
    Text.isBlank c.toLower = Text.isBlank c := by
  by_cases hascii : c.toNat < 0x80
  · have hall : ∀ n < 0x80, (Char.ofNat n).toUpper.isLower = false ∧
        (Char.ofNat n).toUpper.toLower = (Char.ofNat n).toLower ∧
        (Char.ofNat n).toUpper.toUpper = (Char.ofNat n).toUpper ∧
        isQuote (Char.ofNat n).toUpper = isQuote (Char.ofNat n) ∧
        Text.isBlank (Char.ofNat n).toUpper = Text.isBlank (Char.ofNat n) ∧
        Text.isBlank (Char.ofNat n).toLower = Text.isBlank (Char.ofNat n) := by
      decide +kernel
    have hpoint := hall c.toNat hascii
    rwa [Char.ofNat_toNat] at hpoint
  · have hlower : ¬ (c.val ≥ 'a'.val ∧ c.val ≤ 'z'.val) := by
      rintro ⟨-, hlast⟩
      have hpoint : c.toNat ≤ 0x7A := hlast
      omega
    have hupper : c.toUpper = c := dif_neg hlower
    have hnot : c.isLower = false := by
      rw [← Bool.not_eq_true]
      intro h
      obtain ⟨hfirst, hlast⟩ := (Bool.and_eq_true _ _).mp h
      exact hlower ⟨of_decide_eq_true hfirst, of_decide_eq_true hlast⟩
    rw [hupper, hupper, Text.toLower_of_le (Nat.not_lt.1 hascii)]
    exact ⟨hnot, rfl, rfl, rfl, rfl, rfl⟩

theorem asciiLower_asciiUpper (text : List Char) : Text.asciiLower (Text.asciiUpper text) = Text.asciiLower text := by
  rw [Text.asciiLower, Text.asciiUpper, List.map_map]
  exact List.map_congr_left fun c _ => (case_ascii c).2.1

theorem asciiUpper_asciiUpper (text : List Char) : Text.asciiUpper (Text.asciiUpper text) = Text.asciiUpper text := by
  rw [Text.asciiUpper, Text.asciiUpper, List.map_map]
  exact List.map_congr_left fun c _ => (case_ascii c).2.2.1

/-- Case does not matter for the ends of a text, as trimming looks at them. -/
theorem trimBy_map_iff {p : Char → Bool} {f : Char → Char} (hp : ∀ c, p (f c) = p c) (text : List Char) :
    Text.trimBy p (text.map f) = text.map f ↔ Text.trimBy p text = text := by
  rw [Text.trimBy_eq_self_iff, Text.trimBy_eq_self_iff, List.head?_map, List.getLast?_map]
  simp [hp]

/-! ## What a verb becomes -/

/-- What a verb stands for is told by the text between its quotation marks. -/
theorem normalize?_eq_some_iff : normalize? raw = some method ↔
    Text.trimBy isQuote (Text.trim raw) ≠ [] ∧
      method = if Text.asciiLower (Text.trimBy isQuote (Text.trim raw)) = "route".toList then "GET".toList
        else Text.asciiUpper (Text.trimBy isQuote (Text.trim raw)) := by
  rw [normalize?]
  split
  · rename_i hempty
    simp [List.isEmpty_iff.1 hempty]
  · rename_i hempty
    rw [List.isEmpty_iff] at hempty
    split <;> simp [hempty, eq_comm]

theorem normal_get : Normal "GET".toList where
  notBlank := ⟨'G', by decide, rfl⟩
  bare := by decide
  upper := by simp
  ne_route := by decide
  fixed := by decide

/-- Whatever is captured, the method is not empty, has no quotation mark at its ends and no small letter of ASCII, and
is not the generic verb. -/
theorem method_of_normalize? (h : normalize? raw = some method) : method ≠ [] ∧ Text.trimBy isQuote method = method ∧
    (∀ c ∈ method, c.isLower = false) ∧ method ≠ "ROUTE".toList := by
  obtain ⟨hne, rfl⟩ := normalize?_eq_some_iff.1 h
  split
  · exact ⟨by decide, by decide, normal_get.upper, normal_get.ne_route⟩
  · rename_i hroute
    refine ⟨by simpa [Text.asciiUpper] using hne, ?_, ?_, fun he => hroute ?_⟩
    · exact (trimBy_map_iff (fun c => (case_ascii c).2.2.2.1) _).2 (Text.trimBy_trimBy isQuote _)
    · intro c hc
      obtain ⟨d, -, rfl⟩ := List.mem_map.1 hc
      exact (case_ascii d).1
    · rw [← asciiLower_asciiUpper, he]
      rfl

theorem bare_eq_self_iff {text : List Char} :
    bare text = text ↔ Text.trim text = text ∧ Text.trimBy isQuote text = text := by
  rw [bare, Text.trim, Text.trimBy_eq_self_iff, Text.trimBy_eq_self_iff, Text.trimBy_eq_self_iff]
  simp only [wraps, Bool.or_eq_false_iff]
  constructor
  · exact fun h => ⟨⟨fun c hc => (h.1 c hc).1, fun c hc => (h.2 c hc).1⟩,
      fun c hc => (h.1 c hc).2, fun c hc => (h.2 c hc).2⟩
  · exact fun h => ⟨fun c hc => ⟨h.1.1 c hc, h.2.1 c hc⟩, fun c hc => ⟨h.1.2 c hc, h.2.2 c hc⟩⟩

theorem bare_append {front back : List Char} (hfront : ∀ c ∈ front, wraps c = true)
    (hback : ∀ c ∈ back, wraps c = true) (text : List Char) : bare (front ++ text ++ back) = bare text :=
  Text.trimBy_append hfront hback text

/-- Blanks that are taken off first do not matter for the verb alone, nor do quotation marks. -/
theorem bare_trimBy {p : Char → Bool} (hp : ∀ c, p c = true → wraps c = true) (text : List Char) :
    bare (Text.trimBy p text) = bare text := by
  obtain ⟨front, back, htext, hfront, hback⟩ := Text.exists_trimBy p text
  have h := bare_append (fun c hc => hp c (hfront c hc)) (fun c hc => hp c (hback c hc)) (Text.trimBy p text)
  rw [← htext] at h
  exact h.symm

theorem wraps_of_isBlank (c : Char) (h : Text.isBlank c = true) : wraps c = true := by
  rw [wraps, h, Bool.true_or]

theorem wraps_of_isQuote (c : Char) (h : isQuote c = true) : wraps c = true := by
  rw [wraps, h, Bool.or_true]

theorem bare_unquoted (raw : List Char) : bare (Text.trimBy isQuote (Text.trim raw)) = bare raw :=
  (bare_trimBy wraps_of_isQuote _).trans (bare_trimBy wraps_of_isBlank _)

theorem snug_iff : Snug raw ↔ Text.trimBy isQuote (Text.trim raw) = bare raw := by
  rw [← bare_unquoted, eq_comm, bare_eq_self_iff, Snug]
  exact (and_iff_left (Text.trimBy_trimBy isQuote _)).symm

/-- A verb without anything around it becomes what it is captured as with it, if its quotation marks are snug. -/
theorem normalize?_bare_of_snug (h : Snug raw) : normalize? (bare raw) = normalize? raw := by
  obtain ⟨hblanks, hquotes⟩ := bare_eq_self_iff.1 (Text.trimBy_trimBy wraps raw)
  have hsame : Text.trimBy isQuote (Text.trim (bare raw)) = Text.trimBy isQuote (Text.trim raw) := by
    rw [snug_iff.1 h]
    exact (congrArg (Text.trimBy isQuote) hblanks).trans hquotes
  rw [normalize?, normalize?, hsame]

/-- **The method is a normal form exactly if the quotation marks of the verb are snug.** -/
theorem normal_iff_snug (h : normalize? raw = some method) : Normal method ↔ Snug raw := by
  obtain ⟨hne, hquotes, hupper, hroute⟩ := method_of_normalize? h
  obtain ⟨hverb, hmethod⟩ := normalize?_eq_some_iff.1 h
  have hblank (c : Char) := (case_ascii c).2.2.2.2.1
  constructor
  · intro hnormal
    have htrim := (bare_eq_self_iff.1 hnormal.bare).1
    rw [hmethod] at htrim
    split at htrim
    · rename_i hlower
      refine (trimBy_map_iff (fun c => (case_ascii c).2.2.2.2.2) _).1 ?_
      rw [Text.asciiLower] at hlower
      rw [hlower]
      decide
    · exact (trimBy_map_iff hblank _).1 htrim
  · intro hsnug
    have htrim : Text.trim method = method := by
      rw [hmethod]
      split
      · decide
      · exact (trimBy_map_iff hblank _).2 hsnug
    have hbare := bare_eq_self_iff.2 ⟨htrim, hquotes⟩
    refine ⟨?_, hbare, hupper, hroute, ?_⟩
    · by_contra hnone
      have hnil : Text.trim method = [] := Text.trim_eq_nil_iff.2 fun c hc => by
        by_contra hb
        exact hnone ⟨c, hc, by simpa using hb⟩
      exact hne (htrim.symm.trans hnil)
    · rw [normalize?_eq_some_iff, htrim, hquotes]
      refine ⟨hne, ?_⟩
      rw [hmethod]
      split
      · rfl
      · rename_i hlower
        rw [asciiLower_asciiUpper, if_neg hlower, asciiUpper_asciiUpper]

/-! ## Lists of verbs -/

/-- Of a list what is left of some entry counts, and there is nothing but blanks and quotation marks in those before. -/
theorem exists_entry_of_firstListed? {list : List Char} (h : firstListed? list = some raw) :
    ∃ before item after, Text.split ',' list = before ++ item :: after ∧ (∀ other ∈ before, bare other = []) ∧
      bare item = bare raw := by
  rw [firstListed?, List.find?_map, Option.map_eq_some_iff] at h
  obtain ⟨item, hfind, rfl⟩ := h
  obtain ⟨hitem, before, after, hsplit, hbefore⟩ := List.find?_eq_some_iff_append.1 hfind
  have hbare (other : List Char) : bare (Text.trim (Text.trimBy isQuote (Text.trim other))) = bare other :=
    (bare_trimBy wraps_of_isBlank _).trans (bare_unquoted other)
  refine ⟨before, item, after, hsplit, fun other hother => ?_, (hbare item).symm⟩
  have hempty : Text.trim (Text.trimBy isQuote (Text.trim other)) = [] := by simpa using hbefore other hother
  rw [← hbare other, hempty]
  rfl

end
end Verb

namespace Layout

/-- The text that the method of a match is told by. -/
def written? (layout : Layout) (found : Found) : Option (List Char) :=
  match layout.verb with
  | .group number => found.group? number
  | .firstListed number => (found.group? number).bind Verb.firstListed?
  | .implicit => none

section
variable {layout : Layout} {found : Found} {method path : List Char}

theorem of_resolve? (h : layout.resolve? found = some (method, path)) : (path ≠ [] ∧ Text.trim path = path) ∧
    ((layout.written? found = none ∧ layout.verb = .implicit ∧ method = "GET".toList) ∨
      ∃ raw, layout.written? found = some raw ∧ Verb.normalize? raw = some method) := by
  obtain ⟨verb, group⟩ := layout
  rw [resolve?] at h
  simp only [bind, Option.bind_eq_some_iff, pure] at h
  obtain ⟨raw, -, h⟩ := h
  split at h
  · cases h
  · rename_i hpath
    rw [List.isEmpty_iff] at hpath
    cases verb with
    | group number =>
      simp only [Option.bind_eq_some_iff, Option.some.injEq, Prod.mk.injEq] at h
      obtain ⟨verb, hverb, method, hmethod, rfl, rfl⟩ := h
      exact ⟨⟨hpath, Text.trim_trim raw⟩, .inr ⟨verb, hverb, hmethod⟩⟩
    | firstListed number =>
      simp only [Option.bind_eq_some_iff, Option.some.injEq, Prod.mk.injEq] at h
      obtain ⟨list, hlist, verb, hverb, method, hmethod, rfl, rfl⟩ := h
      refine ⟨⟨hpath, Text.trim_trim raw⟩, .inr ⟨verb, ?_, hmethod⟩⟩
      exact Option.bind_eq_some_iff.2 ⟨list, hlist, hverb⟩
    | implicit =>
      cases h
      exact ⟨⟨hpath, Text.trim_trim raw⟩, .inl ⟨rfl, rfl, rfl⟩⟩

/-- **A route has a path without blanks around it, and a method that is in normal form exactly if the quotation marks of
its verb are snug**; then, of a list, it is that of the first entry in which there is more than blanks and quotation
marks.  Whatever the quotation marks, the method is not empty, has none at its ends and no small letter of ASCII, and is
not the generic verb. -/
theorem resolve?_normal (h : layout.resolve? found = some (method, path)) :
    (path ≠ [] ∧ Text.trim path = path) ∧
    (method ≠ [] ∧ Text.trimBy Verb.isQuote method = method ∧ (∀ c ∈ method, c.isLower = false) ∧
      method ≠ "ROUTE".toList) ∧
    (Verb.Normal method ↔ ∀ raw ∈ layout.written? found, Verb.Snug raw) ∧
    ∀ number, layout.verb = .firstListed number → (∀ raw ∈ layout.written? found, Verb.Snug raw) →
      ∃ list before item after, found.group? number = some list ∧ Text.split ',' list = before ++ item :: after ∧
        (∀ other ∈ before, Verb.bare other = []) ∧ Verb.bare item ≠ [] ∧
        Verb.normalize? (Verb.bare item) = some method := by
  obtain ⟨hpath, ⟨hnone, himplicit, rfl⟩ | ⟨raw, hraw, hmethod⟩⟩ := of_resolve? h
  · refine ⟨hpath, ⟨by decide, by decide, Verb.normal_get.upper, Verb.normal_get.ne_route⟩,
      ⟨fun _ _ hmem => ?_, fun _ => Verb.normal_get⟩, fun number hlisted _ => ?_⟩
    · rw [hnone] at hmem
      cases hmem
    · rw [himplicit] at hlisted
      cases hlisted
  · have hsnug : (∀ other ∈ layout.written? found, Verb.Snug other) ↔ Verb.Snug raw := by
      simp [hraw]
    refine ⟨hpath, Verb.method_of_normalize? hmethod, ?_, fun number hlisted h => ?_⟩
    · rw [hsnug]
      exact Verb.normal_iff_snug hmethod
    · rw [written?, hlisted] at hraw
      obtain ⟨list, hlist, hfirst⟩ := Option.bind_eq_some_iff.1 hraw
      obtain ⟨before, item, after, hsplit, hbefore, hitem⟩ := Verb.exists_entry_of_firstListed? hfirst
      have hbare : Verb.normalize? (Verb.bare item) = some method := by
        rw [hitem, Verb.normalize?_bare_of_snug (hsnug.1 h), hmethod]
      refine ⟨list, before, item, after, hlist, hsplit, hbefore, fun hnil => ?_, hbare⟩
      rw [hnil] at hbare
      cases hbare

/-- The first verb of a list, with an entry in front of it that says nothing. -/
theorem resolve?_normal_of_list : ∃ found ∈ Flask.listRule.regex.findAll
      "@app.route('/a', methods=[\" \", ' post ', 'PUT'])".toList,
    Flask.listRule.layout.resolve? found = some ("POST".toList, "/a".toList) ∧ Verb.Normal "POST".toList := by
  have hfound : (Flask.listRule.regex.findAll "@app.route('/a', methods=[\" \", ' post ', 'PUT'])".toList).map
      (fun found => (Flask.listRule.layout.resolve? found, Flask.listRule.layout.written? found)) =
        [(some ("POST".toList, "/a".toList), some "post".toList)] := by
    rfl
  obtain ⟨found, hmem, hpair⟩ := List.mem_map.1 (hfound ▸ List.mem_singleton_self _)
  obtain ⟨hresolve, hwritten⟩ := Prod.mk.inj hpair
  refine ⟨found, hmem, hresolve, (resolve?_normal hresolve).2.2.1.2 fun raw hraw => ?_⟩
  rw [hwritten] at hraw
  cases hraw
  rw [Verb.Snug]
  decide

/-- A list whose first entry stands between two kinds of quotation marks with blanks between them. -/
theorem not_resolve?_normal : ∃ found ∈ Flask.listRule.regex.findAll
      "@app.route('/a', methods=[\" ' get ' \"])".toList, ∃ method path,
    Flask.listRule.layout.resolve? found = some (method, path) ∧ method = " GET ".toList ∧
      Text.trim method ≠ method ∧ Verb.normalize? method ≠ some method ∧ ¬ Verb.Normal method := by
  have hfound : (Flask.listRule.regex.findAll "@app.route('/a', methods=[\" ' get ' \"])".toList).map
      Flask.listRule.layout.resolve? = [some (" GET ".toList, "/a".toList)] := by
    rfl
  obtain ⟨found, hmem, hresolve⟩ := List.mem_map.1 (hfound ▸ List.mem_singleton_self _)
  have htrim : Text.trim " GET ".toList ≠ " GET ".toList := by decide
  exact ⟨found, hmem, _, _, hresolve, rfl, htrim, by decide, fun h => htrim (Verb.bare_eq_self_iff.1 h.bare).1⟩

end
end Layout
end ApiCatalog
