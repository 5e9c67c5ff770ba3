import ApiCatalog.Proofs.Regex.Reads
import ApiCatalog.Regex.Pattern
import Mathlib.Data.List.Basic
/-!
# Names in patterns

The pieces of a written pattern take texts of a class (`Regex.Takes`): a name its letters in any case
(`takes_literal`), a mark itself (`takes_mark`), a word a stretch of word characters (`takes_word`).  A sequence is read
piece by piece (`reads_cons`, `reads_noted_cons`).
-/

namespace ApiCatalog

/-- What is read from any place on are the texts of a class, and no group is noted. -/
def Regex.Takes (regex : Regex) (P : List Char → Prop) : Prop :=
  ∀ p q : Progress, regex.Reads p q ↔ ∃ text rest, P text ∧ p.cursor.rest = text ++ rest ∧ q = p.past text rest

/-- What is read from any place on are the texts of a class, whichever groups are noted. -/
def Regex.Covers (regex : Regex) (P : List Char → Prop) : Prop :=
  ∀ (p : Progress) (cursor : Cursor), (∃ q, regex.Reads p q ∧ q.cursor = cursor) ↔
    ∃ text rest, P text ∧ p.cursor.rest = text ++ rest ∧ cursor = p.cursor.past text rest

theorem Regex.Takes.covers {regex : Regex} {P : List Char → Prop} (h : regex.Takes P) : regex.Covers P := by
  intro p cursor
  constructor
  · rintro ⟨q, hq, rfl⟩
    obtain ⟨text, rest, htext, hrest, rfl⟩ := (h p q).1 hq
    exact ⟨text, rest, htext, hrest, rfl⟩
  · rintro ⟨text, rest, htext, hrest, rfl⟩
    exact ⟨p.past text rest, (h p _).2 ⟨text, rest, htext, hrest, rfl⟩, rfl⟩

theorem Regex.Covers.group {regex : Regex} {P : List Char → Prop} (h : regex.Covers P) (number : Nat) :
    (Regex.group number regex).Covers P := by
  intro p cursor
  rw [← h p cursor]
  constructor
  · rintro ⟨_, ⟨m, hm, rfl⟩, hcursor⟩
    exact ⟨m, hm, hcursor⟩
  · rintro ⟨m, hm, hcursor⟩
    exact ⟨_, ⟨m, hm, rfl⟩, hcursor⟩

theorem Progress.past_nil {p : Progress} {rest : List Char} (h : p.cursor.rest = rest) : p.past [] rest = p := by
  rw [past, Cursor.past_nil h]

theorem Progress.past_past (p : Progress) (a b rest rest' : List Char) :
    (p.past a rest').past b rest = p.past (a ++ b) rest := by
  rw [past, past, past, Cursor.past_past]

theorem Progress.past_cons (p : Progress) (c : Char) (text rest rest' : List Char) :
    (p.past [c] rest').past text rest = p.past (c :: text) rest :=
  p.past_past [c] text rest rest'

/-- The place behind `text`, with it noted as a group. -/
def Progress.noted (p : Progress) (number : Nat) (text rest : List Char) : Progress :=
  { p.past text rest with groups := (number, ⟨p.cursor, p.cursor.past text rest⟩) :: p.groups }

def Progress.texts (p : Progress) : List (Nat × List Char) := p.groups.map fun group => (group.1, group.2.text)

@[simp] theorem Progress.texts_past (p : Progress) (text rest : List Char) : (p.past text rest).texts = p.texts := rfl

theorem Progress.texts_noted {p : Progress} {number : Nat} {text rest : List Char}
    (h : p.cursor.rest = text ++ rest) : (p.noted number text rest).texts = (number, text) :: p.texts := by
  rw [texts, noted, List.map_cons, Span.text, Cursor.upTo_past h]
  rfl

theorem Found.group?_of_texts {start : Cursor} {q : Progress} {number : Nat} (h : number ≠ 0) :
    Found.group? ⟨⟨start, q.cursor⟩, q.groups⟩ number = (q.texts.find? (·.1 == number)).map (·.2) := by
  rw [Found.group?, if_neg h, Progress.texts, List.find?_map, Option.map_map]
  rfl

/-- Where one text with its groups is all that can be read, it is what matches. -/
theorem Regex.exists_matchAt? {regex : Regex} {start : Cursor} (text rest : List Char) (texts : List (Nat × List Char))
    (hreads : ∃ q, regex.Reads ⟨start, []⟩ q)
    (honly : ∀ q, regex.Reads ⟨start, []⟩ q → q.cursor = start.past text rest ∧ q.texts = texts) :
    ∃ found, regex.matchAt? start = some found ∧ found.whole = ⟨start, start.past text rest⟩ ∧
      ∀ number ≠ 0, found.group? number = (texts.find? (·.1 == number)).map (·.2) := by
  obtain ⟨found, hfound⟩ := Option.isSome_iff_exists.1 (isSome_matchAt?_iff.2 hreads)
  obtain ⟨q, hq, rfl⟩ := exists_of_matchAt? hfound
  obtain ⟨hstop, htexts⟩ := honly q hq
  exact ⟨_, hfound, by rw [hstop], fun number hnumber => by rw [Found.group?_of_texts hnumber, htexts]⟩

namespace Pattern

/-- A character of a pattern that disregards case. -/
def letter (c : Char) : Regex := .oneOf ⟨false, letterCases c⟩

def literal (name : String) : List Regex := name.toList.map letter

def anyName (names : List String) : Regex := choice (names.map fun name => sequence (literal name))

def word : Regex := .atLeastOne (.oneOf ⟨false, [.word]⟩)

/-- Whether a text is a name, written in letters of any case. -/
def spells : (name text : List Char) → Bool
  | [], [] => true
  | c :: name, d :: text => (CharSet.mk false (letterCases c)).has d && spells name text
  | _, _ => false

/-! ## Sequences -/

section
variable {p q : Progress} {item : Regex} {items : List Regex} {P : List Char → Prop}

theorem reads_sequence_cons : ∀ {items : List Regex}, (sequence (item :: items)).Reads p q ↔
    ∃ m, item.Reads p m ∧ (sequence items).Reads m q
  | [] => by
    constructor
    · exact fun h => ⟨q, h, rfl⟩
    · rintro ⟨m, h, rfl⟩
      exact h
  | _ :: _ => Iff.rfl

theorem reads_sequence_append : ∀ {items more : List Regex} {p : Progress}, (sequence (items ++ more)).Reads p q ↔
    ∃ m, (sequence items).Reads p m ∧ (sequence more).Reads m q
  | [], more, p => by
    constructor
    · exact fun h => ⟨p, rfl, h⟩
    · rintro ⟨m, rfl, h⟩
      exact h
  | item :: items, more, p => by
    rw [List.cons_append, reads_sequence_cons]
    constructor
    · rintro ⟨m, hitem, h⟩
      obtain ⟨n, hitems, hmore⟩ := reads_sequence_append.1 h
      exact ⟨n, reads_sequence_cons.2 ⟨m, hitem, hitems⟩, hmore⟩
    · rintro ⟨n, h, hmore⟩
      obtain ⟨m, hitem, hitems⟩ := reads_sequence_cons.1 h
      exact ⟨m, hitem, reads_sequence_append.2 ⟨n, hitems, hmore⟩⟩

theorem reads_choice {branches : List Regex} (hne : branches ≠ []) :
    (choice branches).Reads p q ↔ ∃ branch ∈ branches, branch.Reads p q := by
  induction branches with
  | nil => exact absurd rfl hne
  | cons branch branches ih =>
    cases branches with
    | nil => simp [choice]
    | cons second branches =>
      rw [List.exists_mem_cons_iff, ← ih (List.cons_ne_nil _ _)]
      rfl

theorem reads_cons (h : item.Takes P) : (sequence (item :: items)).Reads p q ↔
    ∃ text rest, P text ∧ p.cursor.rest = text ++ rest ∧ (sequence items).Reads (p.past text rest) q := by
  rw [reads_sequence_cons]
  constructor
  · rintro ⟨m, hm, hitems⟩
    obtain ⟨text, rest, htext, hrest, rfl⟩ := (h p m).1 hm
    exact ⟨text, rest, htext, hrest, hitems⟩
  · rintro ⟨text, rest, htext, hrest, hitems⟩
    exact ⟨_, (h p _).2 ⟨text, rest, htext, hrest, rfl⟩, hitems⟩

theorem reads_noted_cons (h : item.Takes P) {number : Nat} : (sequence (.group number item :: items)).Reads p q ↔
    ∃ text rest, P text ∧ p.cursor.rest = text ++ rest ∧ (sequence items).Reads (p.noted number text rest) q := by
  rw [reads_sequence_cons]
  constructor
  · rintro ⟨_, ⟨m, hm, rfl⟩, hitems⟩
    obtain ⟨text, rest, htext, hrest, rfl⟩ := (h p m).1 hm
    exact ⟨text, rest, htext, hrest, hitems⟩
  · rintro ⟨text, rest, htext, hrest, hitems⟩
    exact ⟨_, ⟨_, (h p _).2 ⟨text, rest, htext, hrest, rfl⟩, rfl⟩, hitems⟩

theorem reads_append {front : List Regex} (h : (sequence front).Takes P) : (sequence (front ++ items)).Reads p q ↔
    ∃ text rest, P text ∧ p.cursor.rest = text ++ rest ∧ (sequence items).Reads (p.past text rest) q := by
  rw [reads_sequence_append, ← reads_sequence_cons, reads_cons h]

theorem reads_covered_cons (h : item.Covers P) : (sequence (item :: items)).Reads p q →
    ∃ text rest m, P text ∧ p.cursor.rest = text ++ rest ∧ m.cursor = p.cursor.past text rest ∧
      (sequence items).Reads m q := by
  rw [reads_sequence_cons]
  rintro ⟨m, hm, hitems⟩
  obtain ⟨text, rest, htext, hrest, hcursor⟩ := (h p m.cursor).1 ⟨m, hm, rfl⟩
  exact ⟨text, rest, m, htext, hrest, hcursor, hitems⟩

/-! Whether there is something to read at all: -/

theorem exists_reads_cons (h : item.Takes P) {text rest : List Char} (htext : P text)
    (hrest : p.cursor.rest = text ++ rest) (hitems : ∃ q, (sequence items).Reads (p.past text rest) q) :
    ∃ q, (sequence (item :: items)).Reads p q := by
  obtain ⟨q, hq⟩ := hitems
  exact ⟨q, (reads_cons h).2 ⟨text, rest, htext, hrest, hq⟩⟩

theorem exists_reads_noted_cons (h : item.Takes P) {number : Nat} {text rest : List Char} (htext : P text)
    (hrest : p.cursor.rest = text ++ rest) (hitems : ∃ q, (sequence items).Reads (p.noted number text rest) q) :
    ∃ q, (sequence (.group number item :: items)).Reads p q := by
  obtain ⟨q, hq⟩ := hitems
  exact ⟨q, (reads_noted_cons h).2 ⟨text, rest, htext, hrest, hq⟩⟩

theorem exists_reads_covered_cons (h : item.Covers P) {text rest : List Char} (htext : P text)
    (hrest : p.cursor.rest = text ++ rest)
    (hitems : ∀ m : Progress, m.cursor = p.cursor.past text rest → ∃ q, (sequence items).Reads m q) :
    ∃ q, (sequence (item :: items)).Reads p q := by
  obtain ⟨m, hm, hcursor⟩ := (h p _).2 ⟨text, rest, htext, hrest, rfl⟩
  obtain ⟨q, hq⟩ := hitems m hcursor
  exact ⟨q, reads_sequence_cons.2 ⟨m, hm, hq⟩⟩

theorem exists_reads_append {front : List Regex} (h : (sequence front).Takes P) {text rest : List Char}
    (htext : P text) (hrest : p.cursor.rest = text ++ rest)
    (hitems : ∃ q, (sequence items).Reads (p.past text rest) q) : ∃ q, (sequence (front ++ items)).Reads p q := by
  obtain ⟨q, hq⟩ := hitems
  exact ⟨q, (reads_append h).2 ⟨text, rest, htext, hrest, hq⟩⟩

theorem exists_reads_of_takes {regex : Regex} (h : regex.Takes P) {text rest : List Char} (htext : P text)
    (hrest : p.cursor.rest = text ++ rest) : ∃ q, regex.Reads p q :=
  ⟨_, (h p _).2 ⟨text, rest, htext, hrest, rfl⟩⟩

end

/-! ## Pieces -/

theorem has_single {c d : Char} : (CharItem.range c c).has d = true ↔ d = c := by
  rw [CharItem.has, Bool.and_eq_true, decide_eq_true_iff, decide_eq_true_iff]
  exact ⟨fun h => Char.le_antisymm h.2 h.1, fun h => h ▸ ⟨Char.le_refl _, Char.le_refl _⟩⟩

theorem has_range_self (c d : Char) : (CharItem.range c c).has d = (d == c) := by
  rw [Bool.eq_iff_iff, has_single, beq_iff_eq]

theorem has_items {items : List CharItem} {d : Char} :
    (CharSet.mk false items).has d = true ↔ ∃ item ∈ items, item.has d = true := by
  rw [CharSet.has, Bool.bne_false, List.any_eq_true]

theorem takes_oneOf (set : CharSet) : (Regex.oneOf set).Takes fun text => ∃ c, set.has c = true ∧ text = [c] := by
  intro p q
  constructor
  · rintro ⟨c, rest, hrest, hc, rfl⟩
    exact ⟨[c], rest, ⟨c, hc, rfl⟩, hrest, rfl⟩
  · rintro ⟨_, rest, ⟨c, hc, rfl⟩, hrest, rfl⟩
    exact ⟨c, rest, hrest, hc, rfl⟩

theorem takes_mark {c : Char} (hc : c.isAlpha = false) : (letter c).Takes (· = [c]) := by
  have hhas : ∀ d, (CharSet.mk false (letterCases c)).has d = true ↔ d = c := fun d => by
    simp [has_items, letterCases, hc, has_single]
  intro p q
  rw [letter, takes_oneOf]
  simp [hhas]

theorem takes_letters : ∀ name : List Char, (sequence (name.map letter)).Takes (spells name · = true)
  | [], p, q => by
    constructor
    · rintro rfl
      exact ⟨[], _, rfl, rfl, (Progress.past_nil rfl).symm⟩
    · rintro ⟨text, rest, hspells, hrest, rfl⟩
      cases text with
      | nil => exact Progress.past_nil hrest
      | cons _ _ => cases hspells
  | c :: name, p, q => by
    rw [List.map_cons, letter, reads_cons (takes_oneOf _)]
    constructor
    · rintro ⟨_, rest, ⟨d, hd, rfl⟩, hrest, h⟩
      obtain ⟨text, rest', hspells, hrest', rfl⟩ := (takes_letters name _ _).1 h
      obtain rfl : rest = text ++ rest' := hrest'
      exact ⟨d :: text, rest', by simp [spells, hd, hspells], hrest, Progress.past_cons _ _ _ _ _⟩
    · rintro ⟨text, rest, hspells, hrest, rfl⟩
      cases text with
      | nil => cases hspells
      | cons d text =>
        rw [spells, Bool.and_eq_true] at hspells
        exact ⟨[d], text ++ rest, ⟨d, hspells.1, rfl⟩, hrest,
          (takes_letters name _ _).2 ⟨text, rest, hspells.2, rfl, (Progress.past_cons _ _ _ _ _).symm⟩⟩

/-- **A name is read in letters of any case.** -/
theorem takes_literal (name : String) : (sequence (literal name)).Takes (spells name.toList · = true) :=
  takes_letters name.toList

theorem takes_anyName {names : List String} (hne : names ≠ []) :
    (anyName names).Takes fun text => ∃ name ∈ names, spells name.toList text = true := by
  intro p q
  rw [anyName, reads_choice (by simpa using hne)]
  constructor
  · rintro ⟨branch, hbranch, h⟩
    obtain ⟨name, hname, rfl⟩ := List.mem_map.1 hbranch
    obtain ⟨text, rest, hspells, hrest, hq⟩ := (takes_literal name p q).1 h
    exact ⟨text, rest, ⟨name, hname, hspells⟩, hrest, hq⟩
  · rintro ⟨text, rest, ⟨name, hname, hspells⟩, hrest, hq⟩
    exact ⟨_, List.mem_map_of_mem hname, (takes_literal name p q).2 ⟨text, rest, hspells, hrest, hq⟩⟩

theorem takes_run (set : CharSet) : (Regex.run set).Takes fun text => ∀ c ∈ text, set.has c = true := by
  intro p q
  constructor
  · rintro ⟨text, rest, hrest, htext, hq⟩
    exact ⟨text, rest, htext, hrest, hq⟩
  · rintro ⟨text, rest, htext, hrest, hq⟩
    exact ⟨text, rest, hrest, htext, hq⟩

theorem takes_atLeastOne (set : CharSet) :
    (Regex.atLeastOne (.oneOf set)).Takes fun text => text ≠ [] ∧ ∀ c ∈ text, set.has c = true := by
  intro p q
  constructor
  · rintro ⟨m, ⟨c, rest, hrest, hc, rfl⟩, text, rest', hrest', htext, rfl⟩
    obtain rfl : rest = text ++ rest' := hrest'
    exact ⟨c :: text, rest', ⟨List.cons_ne_nil _ _, List.forall_mem_cons.2 ⟨hc, htext⟩⟩, hrest,
      Progress.past_cons _ _ _ _ _⟩
  · rintro ⟨text, rest, ⟨hne, htext⟩, hrest, rfl⟩
    obtain ⟨c, text, rfl⟩ := List.exists_cons_of_ne_nil hne
    rw [List.forall_mem_cons] at htext
    exact ⟨p.past [c] (text ++ rest), ⟨c, _, hrest, htext.1, rfl⟩, text, rest, rfl, htext.2,
      (Progress.past_cons _ _ _ _ _).symm⟩

theorem takes_word : word.Takes fun text => text ≠ [] ∧ ∀ c ∈ text, Text.isWordChar c = true := by
  have hhas : ∀ c, (CharSet.mk false [.word]).has c = Text.isWordChar c := fun c => by simp [CharSet.has, CharItem.has]
  intro p q
  rw [word, takes_atLeastOne]
  simp only [hhas]

def alphabet : List Char := "abcdefghijklmnopqrstuvwxyz".toList

/-- What the letters can be written as: besides the two cases, the long s and the sign of the unit kelvin. -/
def spellings : List Char := alphabet ++ alphabet.map Char.toUpper ++ ['ſ', '\u212a']

/-- The letter that a character is a way to write. -/
def plain (c : Char) : Char := if c = 'ſ' then 's' else if c = '\u212a' then 'k' else c.toLower

theorem mem_spellings_of_spells : ∀ {name text : List Char}, (∀ c ∈ name, c ∈ alphabet) → spells name text = true →
    (∀ d ∈ text, d ∈ spellings) ∧ text.map plain = name
  | [], [], _, _ => by simp
  | [], _ :: _, _, h => by cases h
  | _ :: _, [], _, h => by cases h
  | c :: name, d :: text, hname, h => by
    rw [spells, Bool.and_eq_true] at h
    rw [List.forall_mem_cons] at hname ⊢
    obtain ⟨htext, hplain⟩ := mem_spellings_of_spells hname.2 h.2
    have hletters : (alphabet.all fun c => (letterCases c).all fun item =>
        spellings.any fun d => item == .range d d && plain d == c) = true := by decide +kernel
    simp only [List.all_eq_true, List.any_eq_true, Bool.and_eq_true, beq_iff_eq] at hletters
    obtain ⟨item, hitem, hd⟩ := has_items.1 h.1
    obtain ⟨e, he, rfl, hc⟩ := hletters c hname.1 item hitem
    obtain rfl := has_single.1 hd
    exact ⟨⟨he, htext⟩, by rw [List.map_cons, hc, hplain]⟩

theorem spells_inj {name name' text : List Char} (hname : ∀ c ∈ name, c ∈ alphabet) (hname' : ∀ c ∈ name', c ∈ alphabet)
    (h : spells name text = true) (h' : spells name' text = true) : name = name' :=
  (mem_spellings_of_spells hname h).2.symm.trans (mem_spellings_of_spells hname' h').2

/-- A name without the two letters that have another way to be written is spelled in the two cases. -/
theorem asciiLower_of_spells {name text : List Char} (hname : ∀ c ∈ name, c ∈ alphabet) (hs : 's' ∉ name)
    (hk : 'k' ∉ name) (h : spells name text = true) : Text.asciiLower text = name := by
  have hplain := (mem_spellings_of_spells hname h).2
  refine Eq.trans (List.map_congr_left fun d hd => ?_) hplain
  have hmem : plain d ∈ name := hplain ▸ List.mem_map_of_mem hd
  have hlong : d ≠ 'ſ' := by
    rintro rfl
    exact hs hmem
  have hkelvin : d ≠ '\u212a' := by
    rintro rfl
    exact hk hmem
  rw [plain, if_neg hlong, if_neg hkelvin]

theorem isWordChar_of_mem_spellings : ∀ c ∈ spellings, Text.isWordChar c = true := by
  have hall : spellings.all Text.isWordChar = true := by decide +kernel
  exact List.all_eq_true.1 hall

theorem ne_nil_of_spells {name text : List Char} (hname : name ≠ []) (h : spells name text = true) : text ≠ [] := by
  rintro rfl
  obtain ⟨c, name, rfl⟩ := List.exists_cons_of_ne_nil hname
  cases h

end Pattern

end ApiCatalog
