import ApiCatalog.Catalog.Html
/-!
# Escaped texts

An escaped text has none of the marks that end a text or an attribute (`isMark_of_mem_escape`), and it is decoded to
the text that was escaped (`decoded_escape`).  The texts of its form (`IsEscaped`) are the escaped texts of exactly one
text each (`escape_lossless`).
-/

namespace ApiCatalog.Html

/-- The characters with which tags and the values of attributes begin and end. -/
def isMark (c : Char) : Bool := c == '<' || c == '>' || c == '"' || c == '\''

/-- The characters that are not written as themselves, each with what is written for it. -/
def entities : List (Char × List Char) :=
  [('&', "&amp;".toList), ('<', "&lt;".toList), ('>', "&gt;".toList), ('"', "&quot;".toList), ('\'', "&#39;".toList)]

theorem escapeChar_of_mem_entities {entity : Char × List Char} (h : entity ∈ entities) :
    escapeChar entity.1 = entity.2 := by
  have hentities : (entities.all fun entity => escapeChar entity.1 == entity.2) = true := by decide
  exact beq_iff_eq.1 (List.all_eq_true.1 hentities entity h)

theorem escapeChar_cases (c : Char) :
    (c, escapeChar c) ∈ entities ∨ c ≠ '&' ∧ isMark c = false ∧ escapeChar c = [c] := by
  by_cases h : c ∈ entities.map Prod.fst
  · obtain ⟨entity, hentity, rfl⟩ := List.mem_map.1 h
    rw [escapeChar_of_mem_entities hentity]
    exact .inl hentity
  · simp only [entities, List.map_cons, List.map_nil, List.mem_cons, List.not_mem_nil, or_false, not_or] at h
    exact .inr ⟨h.1, by simp [isMark, h], by simp [escapeChar, h]⟩

theorem isMark_of_mem_escapeChar {c d : Char} (h : d ∈ escapeChar c) : isMark d = false := by
  rcases escapeChar_cases c with hentity | ⟨-, hc, hself⟩
  · have hentities : (entities.all fun entity => entity.2.all (!isMark ·)) = true := by decide
    simp only [List.all_eq_true, Bool.not_eq_true'] at hentities
    exact hentities _ hentity d h
  · rw [hself, List.mem_singleton] at h
    rwa [h]

theorem toList_escape (text : String) : (escape text).toList = text.toList.flatMap escapeChar := String.toList_ofList

/-- **An escaped text has no marks.** -/
theorem isMark_of_mem_escape {text : String} {c : Char} (h : c ∈ (escape text).toList) : isMark c = false := by
  rw [toList_escape] at h
  obtain ⟨d, -, hc⟩ := List.mem_flatMap.1 h
  exact isMark_of_mem_escapeChar hc

theorem takeWhile_escape (text : String) (rest : List Char) :
    ((escape text).toList ++ '"' :: rest).takeWhile (· ≠ '"') = (escape text).toList := by
  have htext : ∀ c ∈ (escape text).toList, decide (c ≠ '"') = true :=
    fun c hc => decide_eq_true (by rintro rfl; exact absurd (isMark_of_mem_escape hc) (by decide))
  rw [List.takeWhile_append_of_pos htext]
  simp

/-- Puts the characters back that the five entities stand for. -/
def unescape : List Char → List Char
  | '&' :: 'a' :: 'm' :: 'p' :: ';' :: text => '&' :: unescape text
  | '&' :: 'l' :: 't' :: ';' :: text => '<' :: unescape text
  | '&' :: 'g' :: 't' :: ';' :: text => '>' :: unescape text
  | '&' :: 'q' :: 'u' :: 'o' :: 't' :: ';' :: text => '"' :: unescape text
  | '&' :: '#' :: '3' :: '9' :: ';' :: text => '\'' :: unescape text
  | c :: text => c :: unescape text
  | [] => []

theorem unescape_escapeChar (c : Char) (text : List Char) : unescape (escapeChar c ++ text) = c :: unescape text := by
  rcases escapeChar_cases c with hentity | ⟨hamp, -, hself⟩
  · have hentities : ∀ entity ∈ entities, unescape (entity.2 ++ text) = entity.1 :: unescape text := by
      simp [entities, unescape]
    exact hentities _ hentity
  · rw [hself, List.singleton_append]
    simp [unescape, hamp]

def decoded (text : List Char) : String := String.ofList (unescape text)

/-- **Decoding an escaped text gives the text.** -/
theorem decoded_escape (text : String) : decoded (escape text).toList = text := by
  have h : ∀ chars : List Char, unescape (chars.flatMap escapeChar) = chars := by
    intro chars
    induction chars with
    | nil => rfl
    | cons c chars ih => rw [List.flatMap_cons, unescape_escapeChar, ih]
  rw [decoded, toList_escape, h, String.ofList_toList]

/-! ## Which texts are escaped ones -/

/-- No marks, and no ampersand but where one of the five entities begins. -/
structure IsEscaped (text : List Char) : Prop where
  unmarked : ∀ c ∈ text, isMark c = false
  begun : ∀ rest, '&' :: rest <:+ text → ∃ entity ∈ entities, entity.2 <+: '&' :: rest

/-- Of an entity only the first character is an ampersand. -/
theorem exists_cons_of_mem_entities {c : Char} {written : List Char} (h : (c, written) ∈ entities) :
    ∃ name, written = '&' :: name ∧ '&' ∉ name := by
  have hentities : ∀ entity ∈ entities, entity.2.head? = some '&' ∧ '&' ∉ entity.2.tail := by decide
  obtain ⟨hhead, htail⟩ := hentities _ h
  obtain ⟨name, rfl⟩ := List.head?_eq_some_iff.1 hhead
  exact ⟨name, rfl, htail⟩

theorem escapeChar_ne_nil (c : Char) : escapeChar c ≠ [] := by
  rcases escapeChar_cases c with hentity | ⟨-, -, hself⟩
  · obtain ⟨name, hname, -⟩ := exists_cons_of_mem_entities hentity
    rw [hname]
    exact List.cons_ne_nil _ _
  · rw [hself]
    exact List.cons_ne_nil _ _

namespace IsEscaped

variable {text rest : List Char} {c : Char}

theorem of_suffix (h : IsEscaped text) (hrest : rest <:+ text) : IsEscaped rest where
  unmarked c hc := h.unmarked c (hrest.subset hc)
  begun more hmore := h.begun more (hmore.trans hrest)

theorem cons (h : IsEscaped text) (hmark : isMark c = false)
    (hentity : c = '&' → ∃ entity ∈ entities, entity.2 <+: '&' :: text) : IsEscaped (c :: text) where
  unmarked := List.forall_mem_cons.2 ⟨hmark, h.unmarked⟩
  begun rest hrest := by
    rcases List.suffix_cons_iff.1 hrest with heq | hrest
    · obtain ⟨rfl, rfl⟩ := List.cons.inj heq
      exact hentity rfl
    · exact h.begun rest hrest

theorem plain_append {plain : List Char} (h : IsEscaped text) (hmark : ∀ c ∈ plain, isMark c = false)
    (hamp : '&' ∉ plain) : IsEscaped (plain ++ text) := by
  induction plain with
  | nil => exact h
  | cons c plain ih =>
    rw [List.forall_mem_cons] at hmark
    rw [List.mem_cons, not_or] at hamp
    exact (ih hmark.2 hamp.2).cons hmark.1 fun hc => absurd hc.symm hamp.1

/-- What is written for a character can stand in front of an escaped text. -/
theorem escapeChar_append (h : IsEscaped text) (c : Char) : IsEscaped (escapeChar c ++ text) := by
  have hmark : ∀ d ∈ escapeChar c, isMark d = false := fun d hd => isMark_of_mem_escapeChar hd
  rcases escapeChar_cases c with hentity | ⟨hamp, -, hself⟩
  · obtain ⟨name, hname, hamp⟩ := exists_cons_of_mem_entities hentity
    have hbegun : escapeChar c <+: '&' :: (name ++ text) := ⟨text, by rw [hname, List.cons_append]⟩
    rw [hname, List.forall_mem_cons] at hmark
    rw [hname, List.cons_append]
    exact (h.plain_append hmark.2 hamp).cons hmark.1 fun _ => ⟨_, hentity, hbegun⟩
  · refine h.plain_append hmark ?_
    rw [hself, List.mem_singleton]
    exact hamp.symm

/-- An escaped text begins with what is written for some character, and is an escaped one behind that. -/
theorem exists_escapeChar_append (h : IsEscaped (c :: text)) :
    ∃ d more, c :: text = escapeChar d ++ more ∧ IsEscaped more := by
  rcases escapeChar_cases c with hescaped | ⟨-, -, hself⟩
  · have hentities : ∀ entity ∈ entities, entity.1 = '&' ∨ isMark entity.1 = true := by decide
    have hmark : isMark c = false := h.unmarked c List.mem_cons_self
    obtain rfl : c = '&' := (hentities _ hescaped).resolve_right (Bool.eq_false_iff.1 hmark)
    obtain ⟨entity, hentity, more, hmore⟩ := h.begun text List.suffix_rfl
    exact ⟨entity.1, more, by rw [escapeChar_of_mem_entities hentity, hmore], h.of_suffix ⟨_, hmore⟩⟩
  · exact ⟨c, text, by rw [hself, List.singleton_append], h.of_suffix (List.suffix_cons c text)⟩

/-- **Escaping what an escaped text stands for gives the text.** -/
theorem flatMap_unescape : ∀ {text : List Char}, IsEscaped text → (unescape text).flatMap escapeChar = text
  | [], _ => rfl
  | c :: text, h => by
    obtain ⟨d, more, htext, hmore⟩ := h.exists_escapeChar_append
    have hshorter : more.length < (c :: text).length := by
      rw [htext, List.length_append]
      exact Nat.lt_add_of_pos_left (List.length_pos_iff.2 (escapeChar_ne_nil d))
    rw [htext, unescape_escapeChar, List.flatMap_cons, flatMap_unescape hmore]
termination_by text => text.length
decreasing_by exact hshorter

end IsEscaped

theorem isEscaped_escape (text : String) : IsEscaped (escape text).toList := by
  rw [toList_escape]
  induction text.toList with
  | nil => exact ⟨by simp, by simp⟩
  | cons c chars ih => exact ih.escapeChar_append c

theorem isEscaped_iff {text : String} : IsEscaped text.toList ↔ escape (decoded text.toList) = text := by
  constructor
  · intro h
    rw [escape, decoded, String.toList_ofList, h.flatMap_unescape, String.ofList_toList]
  · intro h
    rw [← h]
    exact isEscaped_escape _

theorem escape_append (a b : String) : escape (a ++ b) = escape a ++ escape b := by
  rw [escape, String.toList_append, List.flatMap_append, String.ofList_append, escape, escape]

/-- **Escaping loses nothing.**  An escaped text has no marks, each of its ampersands begins one of the entities, and
decoding gives back the text that was escaped, so that no two texts are escaped to the same one.  Every text of that
form is the escaped text of what it is decoded to.  Texts are escaped piece by piece. -/
theorem escape_lossless :
    (∀ text, IsEscaped (escape text).toList ∧ decoded (escape text).toList = text) ∧
    Function.Injective escape ∧
    (∀ text : String, IsEscaped text.toList ↔ escape (decoded text.toList) = text) ∧
    ∀ a b, escape (a ++ b) = escape a ++ escape b := by
  have hdecoded : Function.LeftInverse (fun text : String => decoded text.toList) escape := decoded_escape
  exact ⟨fun text => ⟨isEscaped_escape text, decoded_escape text⟩, hdecoded.injective, fun _ => isEscaped_iff,
    escape_append⟩

/-- What looks like an entity is told from one that was put in. -/
example : escape "&amp;lt; &#39" = "&amp;amp;lt; &amp;#39" := by decide

end ApiCatalog.Html
