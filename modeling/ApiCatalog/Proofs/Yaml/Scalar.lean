import ApiCatalog.Json.Print
import ApiCatalog.Proofs.Json.NumberText
import ApiCatalog.Yaml.Scalar
import Mathlib.Data.List.Basic
/-!
# JSON scalars in YAML texts

A string of a JSON text that is read as a quoted scalar of a YAML text ends where it ends as a string, whatever it holds
(`rest_readQuoted`); one of plain characters is read as itself (`readQuoted_simple`).  A number, and every other word, is
read as a plain scalar up to the mark behind it (`readPlain_word`).
-/

namespace ApiCatalog.Yaml.Scalar

open Json (NumberText escapeChar quoted)

/-! ## Characters of strings -/

/-- A character stands for itself, or behind a backslash as one letter or as `u` with four digits. -/
theorem escapeChar_cases (c : Char) :
    (∃ letter next, escapeChar c = '\\' :: letter :: next ∧ isBreak letter = false ∧
      (next = [] ∧ (escape? letter).isSome ∨ letter = 'u' ∧ next.length = 4)) ∨
    (escapeChar c = [c] ∧ c ≠ '"' ∧ c ≠ '\\' ∧ c ≠ '\r') := by
  unfold escapeChar
  split
  · exact .inl ⟨'"', [], rfl, by decide, .inl ⟨rfl, rfl⟩⟩
  split
  · exact .inl ⟨'\\', [], rfl, by decide, .inl ⟨rfl, rfl⟩⟩
  split
  · exact .inl ⟨'n', [], rfl, by decide, .inl ⟨rfl, rfl⟩⟩
  split
  · exact .inl ⟨'r', [], rfl, by decide, .inl ⟨rfl, rfl⟩⟩
  split
  · exact .inl ⟨'t', [], rfl, by decide, .inl ⟨rfl, rfl⟩⟩
  split
  · exact .inl ⟨'b', [], rfl, by decide, .inl ⟨rfl, rfl⟩⟩
  split
  · exact .inl ⟨'f', [], rfl, by decide, .inl ⟨rfl, rfl⟩⟩
  split
  · exact .inl ⟨'u', _, rfl, by decide, .inr ⟨rfl, rfl⟩⟩
  · exact .inr ⟨rfl, ‹_›, ‹_›, ‹_›⟩

/-- The place is in a string of a JSON text, between two of its characters, and the tail follows the string. -/
structure Within (size : Nat) (tail : List Char) (src : Source) : Prop where
  size : src.size = size
  rest : ∃ s : List Char, src.rest = s.flatMap escapeChar ++ '"' :: tail

section
variable {size : Nat} {tail : List Char} {src : Source}

theorem Within.of_rest (h : Within size tail src) {src' : Source} (hsize : src'.size = src.size) {s : List Char}
    (hrest : src'.rest = s.flatMap escapeChar ++ '"' :: tail) : Within size tail src' :=
  ⟨hsize.trans h.size, s, hrest⟩

theorem size_skipBreak (src : Source) : src.skipBreak.size = src.size := by
  unfold Source.skipBreak
  split
  · rfl
  · split <;> rfl
  · rfl

theorem rest_skipBreak {c : Char} {rest : List Char} (h : src.rest = c :: rest) (hbreak : isBreak c = true)
    (hne : c ≠ '\r') : src.skipBreak.rest = rest := by
  unfold Source.skipBreak
  split
  · rename_i he
    rw [h] at he
    cases he
    exact absurd rfl hne
  · rename_i he
    rw [h] at he
    cases he
    rw [if_pos hbreak]
  · rename_i he
    rw [h] at he
    cases he

/-! ## Words -/

section
variable {fuel : Nat} {text : List Char} {c : Char} {rest : List Char}

theorem readQuotedWord_end (h : src.rest = '"' :: rest) :
    readQuotedWord false (fuel + 1) text src = some (text, src, false) := by
  rw [readQuotedWord, h]
  rfl

theorem readQuotedWord_gap (h : src.rest = c :: rest) (hgap : (isBlank c || isBreak c) = true) :
    readQuotedWord false (fuel + 1) text src = some (text, src, false) := by
  rw [readQuotedWord, h]
  simp only [hgap, if_true]

theorem readQuotedWord_escape (h : src.rest = '\\' :: c :: rest) (hbreak : isBreak c = false) :
    readQuotedWord false (fuel + 1) text src = (readEscape src).bind fun (c, src) =>
      readQuotedWord false fuel (c :: text) src := by
  rw [readQuotedWord, h]
  simp only [List.head?_cons, Option.any_some, hbreak]
  cases readEscape src <;> rfl

theorem readQuotedWord_char (h : src.rest = c :: rest) (hgap : (isBlank c || isBreak c) = false) (hquote : c ≠ '"')
    (hslash : c ≠ '\\') :
    readQuotedWord false (fuel + 1) text src = readQuotedWord false fuel (c :: text) (src.skip 1) := by
  rw [readQuotedWord, h]
  simp only [hgap, hquote, hslash, Bool.false_eq_true, if_false]

end

theorem rest_readEscape {letter d : Char} {next rest : List Char} {src' : Source}
    (hnext : next = [] ∧ (escape? letter).isSome ∨ letter = 'u' ∧ next.length = 4)
    (h : src.rest = '\\' :: letter :: next ++ rest) (hread : readEscape src = some (d, src')) :
    src'.rest = rest ∧ src'.size = src.size := by
  have hpeek : src.peek 1 = some letter := by simp [Source.peek, h]
  unfold readEscape at hread
  rw [hpeek] at hread
  simp only [Option.bind_eq_bind, Option.bind_some] at hread
  rcases hnext with ⟨rfl, hletter⟩ | ⟨rfl, hlength⟩
  · obtain ⟨e, he⟩ := Option.isSome_iff_exists.1 hletter
    rw [he] at hread
    cases hread
    exact ⟨by simp [Source.skip, h], rfl⟩
  · obtain ⟨n, hn, hread⟩ := Option.bind_eq_some_iff.1 hread
    cases hn
    obtain ⟨value, -, hread⟩ := Option.bind_eq_some_iff.1 hread
    split at hread
    · cases hread
    · cases hread
      refine ⟨?_, rfl⟩
      simp [Source.skip, h, hlength]

theorem within_readQuotedWord : ∀ {fuel : Nat} {text text' : List Char} {src src' : Source} {escaped : Bool},
    Within size tail src → readQuotedWord false fuel text src = some (text', src', escaped) → Within size tail src'
  | 0, _, _, _, _, _, h, hread => by
    cases hread
    exact h
  | fuel + 1, text, text', src, src', escaped, h, hread => by
    obtain ⟨s, hrest⟩ := h.rest
    cases s with
    | nil =>
      rw [readQuotedWord_end hrest] at hread
      cases hread
      exact h
    | cons c s =>
      rw [List.flatMap_cons, List.append_assoc] at hrest
      rcases escapeChar_cases c with ⟨letter, next, he, hbreak, hnext⟩ | ⟨he, hquote, hslash, -⟩
      · rw [he] at hrest
        rw [readQuotedWord_escape hrest hbreak] at hread
        obtain ⟨⟨d, after⟩, hescape, hread⟩ := Option.bind_eq_some_iff.1 hread
        obtain ⟨hafter, hsize⟩ := rest_readEscape hnext hrest hescape
        exact within_readQuotedWord (h.of_rest hsize hafter) hread
      · rw [he] at hrest
        cases hgap : isBlank c || isBreak c with
        | true =>
          rw [readQuotedWord_gap hrest hgap] at hread
          cases hread
          exact h
        | false =>
          rw [readQuotedWord_char hrest hgap hquote hslash] at hread
          have hskip : Within size tail (src.skip 1) := h.of_rest rfl (s := s) (by simp [Source.skip, hrest])
          exact within_readQuotedWord hskip hread

theorem within_readGap : ∀ {fuel : Nat} {gap gap' : Gap} {src src' : Source}, Within size tail src →
    readGap none fuel gap src = some (gap', src') → Within size tail src'
  | 0, _, _, _, _, h, hread => by
    cases hread
    exact h
  | fuel + 1, gap, gap', src, src', h, hread => by
    obtain ⟨s, hrest⟩ := h.rest
    rw [readGap] at hread
    cases s with
    | nil =>
      rw [List.flatMap_nil, List.nil_append] at hrest
      rw [hrest] at hread
      cases hread
      exact h
    | cons c s =>
      rw [List.flatMap_cons, List.append_assoc] at hrest
      rcases escapeChar_cases c with ⟨letter, next, he, -, -⟩ | ⟨he, -, -, hreturn⟩
      · rw [he] at hrest
        rw [hrest] at hread
        cases hread
        exact h
      · rw [he] at hrest
        have hskip : Within size tail (src.skip 1) := h.of_rest rfl (s := s) (by simp [Source.skip, hrest])
        rw [hrest] at hread
        dsimp only [List.singleton_append] at hread
        split at hread
        · split at hread
          · cases hread
          · split at hread <;> exact within_readGap hskip hread
        · split at hread
          · rename_i hbreak
            have hbreak : Within size tail src.skipBreak :=
              h.of_rest (size_skipBreak src) (rest_skipBreak hrest hbreak hreturn)
            split at hread <;> exact within_readGap hbreak hread
          · cases hread
            exact h

theorem rest_readQuotedFrom : ∀ {fuel : Nat} {text text' : List Char} {src src' : Source}, Within size tail src →
    readQuotedFrom false fuel text src = some (text', src') → src'.rest = tail ∧ src'.size = size
  | 0, _, _, _, _, _, hread => by cases hread
  | fuel + 1, text, text', src, src', h, hread => by
    rw [readQuotedFrom] at hread
    split at hread
    · cases hread
    · split at hread
      · cases hread
      · rename_i text' after escaped hword
        have hafter := within_readQuotedWord h hword
        simp only [Bool.false_eq_true, if_false] at hread
        split at hread
        · rename_i hend
          cases hread
          obtain ⟨s, hrest⟩ := hafter.rest
          cases s with
          | nil => exact ⟨by simp [Source.skip, hrest], hafter.size⟩
          | cons c s =>
            -- No character of a string is printed as a quote alone.
            exfalso
            rw [List.flatMap_cons, List.append_assoc] at hrest
            rcases escapeChar_cases c with ⟨letter, next, he, -, -⟩ | ⟨he, hquote, -, -⟩
            · simp [Source.at_, hrest, he] at hend
            · simp [Source.at_, hrest, he, hquote] at hend
        · split at hread
          · cases hread
          · rename_i hgap
            exact rest_readQuotedFrom (within_readGap hafter hgap) hread

/-- **A string of a JSON text, if it is read as a quoted scalar, is read to its end.** -/
theorem rest_readQuoted {s : String} {text : List Char} {src' : Source} (h : src.rest = quoted s ++ tail)
    (hread : readQuoted false src = some (text, src')) : src'.rest = tail ∧ src'.size = src.size := by
  have hwithin : Within src.size tail (src.skip 1) := ⟨rfl, s.toList, by simp [Source.skip, h, quoted]⟩
  exact rest_readQuotedFrom hwithin hread

/-! ## Strings of plain characters -/

theorem ne_of_class {p : Char → Bool} {c d : Char} (hc : p c = true) (hd : p d = false) : c ≠ d := fun he => by
  rw [he, hd] at hc
  cases hc

def gaps : List Char := [' ', '\t', '\n', '\r', '\x85', '\u2028', '\u2029']

theorem gap_of_class {p : Char → Bool} {c : Char} (hc : p c = true) (hp : gaps.any p = false) :
    (isBlank c || isBreak c) = false := by
  have hne : ∀ d ∈ gaps, c ≠ d := fun d hd => ne_of_class hc (Bool.eq_false_iff.2 (List.any_eq_false.1 hp d hd))
  simpa [gaps, isBlank, isBreak, and_assoc] using hne

theorem isNameChar_spec {c : Char} (h : isNameChar c = true) :
    escapeChar c = [c] ∧ (isBlank c || isBreak c) = false ∧ c ≠ '"' ∧ c ≠ '\\' := by
  have hne : ∀ d : Char, isNameChar d = false → c ≠ d := fun _ => ne_of_class h
  have hcontrol : ¬ c.toNat < 0x20 := fun hlt => by
    have hnone : ∀ n < 0x20, isNameChar (Char.ofNat n) = false := by decide
    exact hne _ (hnone _ hlt) (Char.ofNat_toNat c).symm
  refine ⟨?_, gap_of_class h rfl, hne '"' (by decide), hne '\\' (by decide)⟩
  unfold escapeChar
  rw [if_neg (hne _ (by decide)), if_neg (hne _ (by decide)), if_neg (hne _ (by decide)), if_neg (hne _ (by decide)),
    if_neg (hne _ (by decide)), if_neg (hne _ (by decide)), if_neg (hne _ (by decide)), if_neg hcontrol]

theorem readQuotedWord_simple : ∀ {s : List Char} {fuel : Nat} {text : List Char} {src : Source},
    (∀ c ∈ s, isNameChar c = true) → src.rest = s ++ '"' :: tail → s.length < fuel →
    readQuotedWord false fuel text src = some (s.reverse ++ text, src.skip s.length, false)
  | [], fuel + 1, text, src, _, hrest, _ => readQuotedWord_end hrest
  | c :: s, fuel + 1, text, src, hs, hrest, hfuel => by
    rw [List.forall_mem_cons] at hs
    obtain ⟨-, hgap, hquote, hslash⟩ := isNameChar_spec hs.1
    rw [readQuotedWord_char hrest hgap hquote hslash,
      readQuotedWord_simple hs.2 (by simp [Source.skip, hrest]) (Nat.lt_of_succ_lt_succ hfuel)]
    simp [Source.skip, Nat.add_comm, Nat.add_left_comm]

theorem quoted_simple {s : String} (hs : ∀ c ∈ s.toList, isNameChar c = true) :
    quoted s = '"' :: s.toList ++ ['"'] := by
  rw [quoted, List.flatMap_congr fun c hc => (isNameChar_spec (hs c hc)).1, List.flatMap_singleton']

/-- **A string of plain characters is read as itself.** -/
theorem readQuoted_simple {s : String} (hs : ∀ c ∈ s.toList, isNameChar c = true)
    (h : src.rest = quoted s ++ tail) (hsize : src.rest.length ≤ src.size) {text : List Char} {src' : Source}
    (hread : readQuoted false src = some (text, src')) : text = s.toList := by
  rw [quoted_simple hs] at h
  have hfuel : s.toList.length < (src.skip 1).size := by
    simp only [h, List.cons_append, List.append_assoc, List.length_cons, List.length_append] at hsize
    simp only [Source.skip]
    omega
  have hrest : (src.skip 1).rest = s.toList ++ '"' :: tail := by simp [Source.skip, h]
  rw [readQuoted, readQuotedFrom] at hread
  split at hread
  · cases hread
  · rw [readQuotedWord_simple hs hrest hfuel] at hread
    simp [Source.skip, Source.at_, h] at hread
    exact hread.1.symm

end

/-! ## Layout -/

/-- Spaces and line feeds, as they stand between the tokens of a printed text. -/
def isLayout (c : Char) : Bool := c == ' ' || c == '\n'

theorem eq_of_isLayout {c : Char} (h : isLayout c = true) : c = ' ' ∨ c = '\n' := by simpa [isLayout] using h

def strip (text : List Char) : List Char := text.dropWhile isLayout

theorem strip_append {gap : List Char} (hgap : ∀ c ∈ gap, isLayout c = true) (rest : List Char) :
    strip (gap ++ rest) = strip rest := List.dropWhile_append_of_pos hgap

theorem strip_layout {c : Char} (h : isLayout c = true) (rest : List Char) : strip (c :: rest) = strip rest :=
  List.dropWhile_cons_of_pos h

theorem strip_cons {c : Char} (h : isLayout c = false) (rest : List Char) : strip (c :: rest) = c :: rest :=
  List.dropWhile_cons_of_neg (by rw [h]; exact Bool.false_ne_true)

theorem length_strip_le (text : List Char) : (strip text).length ≤ text.length :=
  (List.dropWhile_sublist _).length_le

theorem isFlowMark_spec {c : Char} (h : isFlowMark c = true) :
    isLayout c = false ∧ (isBlank c || isBreak c) = false ∧ c ≠ ':' := by
  have hne : ∀ d : Char, isFlowMark d = false → c ≠ d := fun _ => ne_of_class h
  refine ⟨?_, gap_of_class h rfl, hne _ (by decide)⟩
  simp [isLayout, hne ' ' (by decide), hne '\n' (by decide)]

/-- The next token is a mark of a flow collection. -/
def Ends (text : List Char) : Prop := ∃ c tail, strip text = c :: tail ∧ isFlowMark c = true

theorem ends_cons {c : Char} (h : isFlowMark c = true) (tail : List Char) : Ends (c :: tail) :=
  ⟨c, tail, strip_cons (isFlowMark_spec h).1 tail, h⟩

theorem Ends.cases {text : List Char} (h : Ends text) :
    ∃ c tail, text = c :: tail ∧ (isLayout c = true ∧ Ends tail ∨ isFlowMark c = true) := by
  obtain ⟨mark, behind, hstrip, hmark⟩ := h
  cases text with
  | nil => cases hstrip
  | cons c tail =>
    refine ⟨c, tail, rfl, ?_⟩
    cases hlayout : isLayout c with
    | true => exact .inl ⟨rfl, mark, behind, (strip_layout hlayout tail).symm.trans hstrip, hmark⟩
    | false =>
      rw [strip_cons hlayout] at hstrip
      cases hstrip
      exact .inr hmark

/-! ## Words -/

def isWordChar (c : Char) : Bool := c.isAlphanum || c == '-' || c == '+' || c == '.'

/-- The words of JSON texts: `null`, `true`, `false` and the numbers. -/
structure IsWord (w : List Char) : Prop where
  chars : ∀ c ∈ w, isWordChar c = true
  head : (∃ c next, w = c :: next ∧ c.isAlphanum = true) ∨ ∃ c next, w = '-' :: c :: next ∧ c.isAlphanum = true

theorem IsWord.ne_nil {w : List Char} (hw : IsWord w) : w ≠ [] := by
  rcases hw.head with ⟨_, _, rfl, -⟩ | ⟨_, _, rfl, -⟩ <;> exact List.cons_ne_nil _ _

theorem isWordChar_spec {c : Char} (h : isWordChar c = true) :
    (isBlank c || isBreak c) = false ∧ isFlowMark c = false ∧ c ≠ ':' ∧ c ≠ '#' := by
  have hne : ∀ d : Char, isWordChar d = false → c ≠ d := fun _ => ne_of_class h
  refine ⟨gap_of_class h rfl, ?_, hne _ (by decide), hne _ (by decide)⟩
  simp [isFlowMark, hne ',' (by decide), hne '[' (by decide), hne ']' (by decide), hne '\x7b' (by decide),
    hne '\x7d' (by decide)]

theorem isAlphanum_of_isDigit {c : Char} (h : c.isDigit = true) : c.isAlphanum = true := by simp [Char.isAlphanum, h]

theorem isWordChar_of_isMark {c : Char} (h : Decimal.isMark c = true) : isWordChar c = true := by
  rw [Decimal.isMark, Bool.or_eq_true, List.contains_iff_mem] at h
  rcases h with h | h
  · simp [isWordChar, isAlphanum_of_isDigit h]
  · simp only [List.mem_cons, List.not_mem_nil, or_false] at h
    rcases h with rfl | rfl | rfl | rfl <;> rfl

theorem isWord_chars {t : NumberText} (h : t.Valid) : IsWord t.chars := by
  refine ⟨fun c hc => isWordChar_of_isMark (Decimal.all_isMark_chars h c hc), ?_⟩
  obtain ⟨first, more, hwhole, hdigits⟩ := h.exists_whole
  have hfirst := isAlphanum_of_isDigit (hdigits first List.mem_cons_self)
  rw [NumberText.chars, hwhole]
  cases t.negative
  · exact .inl ⟨first, _, rfl, hfirst⟩
  · exact .inr ⟨first, _, rfl, hfirst⟩

theorem isWord_text (n : Json.Number) : IsWord n.text := by
  rw [← n.chars_parts]
  exact isWord_chars n.valid_parts

section
variable {src : Source} {rest : List Char}

theorem readPlainWord_stop {fuel : Nat} {text : List Char} (hrest : src.rest = rest) (hends : Ends rest) :
    readPlainWord true (fuel + 1) text src = some (text, src) := by
  obtain ⟨c, tail, rfl, hc⟩ := hends.cases
  rw [readPlainWord, hrest]
  rcases hc with ⟨hlayout, -⟩ | hmark
  · rcases eq_of_isLayout hlayout with rfl | rfl <;> rfl
  · obtain ⟨-, hgap, hcolon⟩ := isFlowMark_spec hmark
    simp [hgap, hcolon, hmark]

theorem readPlainWord_word (hends : Ends rest) : ∀ {w : List Char} {fuel : Nat} {text : List Char} {src : Source},
    (∀ c ∈ w, isWordChar c = true) → src.rest = w ++ rest → w.length < fuel →
    readPlainWord true fuel text src = some (w.reverse ++ text, src.skip w.length)
  | [], fuel + 1, text, src, _, hrest, _ => readPlainWord_stop hrest hends
  | c :: w, fuel + 1, text, src, hw, hrest, hfuel => by
    rw [List.forall_mem_cons] at hw
    obtain ⟨hgap, hmark, hcolon, -⟩ := isWordChar_spec hw.1
    have hread : readPlainWord true (fuel + 1) text src = readPlainWord true fuel (c :: text) (src.skip 1) := by
      rw [readPlainWord, hrest]
      simp [hgap, hmark, hcolon]
    rw [hread, readPlainWord_word hends hw.2 (by simp [Source.skip, hrest]) (Nat.lt_of_succ_lt_succ hfuel)]
    simp [Source.skip, Nat.add_comm, Nat.add_left_comm]

theorem readGap_layout {indent : Option Int} : ∀ {fuel : Nat} (gap : Gap) {src : Source}, Ends src.rest →
    src.rest.length ≤ fuel → ∃ gap' src', readGap indent fuel gap src = some (gap', src') ∧
      src'.rest = strip src.rest ∧ src'.size = src.size
  | 0, gap, src, hends, hfuel => by
    obtain ⟨c, tail, hrest, -⟩ := hends.cases
    rw [hrest] at hfuel
    cases hfuel
  | fuel + 1, gap, src, hends, hfuel => by
    obtain ⟨c, tail, hrest, hc⟩ := hends.cases
    rw [hrest] at hfuel
    rw [readGap, hrest]
    have hnext : ∀ (gap : Gap) {src' : Source}, src'.rest = tail → src'.size = src.size → Ends tail →
        ∃ gap' after, readGap indent fuel gap src' = some (gap', after) ∧ after.rest = strip tail ∧
          after.size = src.size := fun gap src' htail hsize hends => by
      obtain ⟨gap', after, hread, hafter, hsame⟩ :=
        readGap_layout gap (htail.symm ▸ hends) (htail.symm ▸ Nat.le_of_succ_le_succ hfuel)
      exact ⟨gap', after, hread, htail ▸ hafter, hsame.trans hsize⟩
    rcases hc with ⟨hlayout, htail⟩ | hmark
    · rw [strip_layout hlayout]
      have hskip : (src.skip 1).rest = tail := by simp [Source.skip, hrest]
      have hspace : (' ' == '\t') = false := rfl
      have hline : isBlank '\n' = false := rfl
      have hbreak : isBreak '\n' = true := rfl
      rcases eq_of_isLayout hlayout with rfl | rfl
      · cases hbroken : gap.broken <;>
          simpa [isBlank, hbroken, hspace] using hnext _ hskip rfl htail
      · have hskip := rest_skipBreak hrest hbreak (by decide)
        cases hbroken : gap.broken <;>
          simpa [hline, hbreak, hbroken] using hnext _ hskip (size_skipBreak src) htail
    · obtain ⟨hlayout, hgap, -⟩ := isFlowMark_spec hmark
      rw [Bool.or_eq_false_iff] at hgap
      exact ⟨gap, src, by simp [hgap], by rw [hrest, strip_cons hlayout], rfl⟩

theorem marks_of_ne {c d : Char} {tail : List Char} (hrest : src.rest = c :: tail) (hne : c ≠ d) :
    src.marks d = false := by
  simp [Source.marks, Source.at_, hrest, hne]

/-- No document starts or ends at a word. -/
theorem marks_word {w : List Char} (hw : IsWord w) (hrest : src.rest = w ++ rest) {d : Char} (hd : d = '-' ∨ d = '.') :
    src.marks d = false := by
  have hne : ∀ {c : Char}, c.isAlphanum = true → c ≠ d := fun hc => ne_of_class hc (by rcases hd with rfl | rfl <;> rfl)
  rcases hw.head with ⟨c, next, rfl, hc⟩ | ⟨c, next, rfl, hc⟩
  · exact marks_of_ne hrest (hne hc)
  · simp [Source.marks, Source.at_, hrest, hne hc]

/-- Behind the layout a plain scalar ends at a mark. -/
theorem readPlainFrom_mark {indent : Int} {fuel : Nat} {text : List Char} {gap : Gap} {c : Char} {tail : List Char}
    (hrest : src.rest = c :: tail) (hmark : isFlowMark c = true) (hfuel : 0 < fuel) (hsize : 0 < src.size) :
    readPlainFrom true indent fuel text gap src = some ⟨text.reverse, src, gap.broken⟩ := by
  obtain ⟨fuel, rfl⟩ := Nat.exists_eq_add_of_le' hfuel
  rw [readPlainFrom]
  split
  · rfl
  · obtain ⟨n, hn⟩ := Nat.exists_eq_add_of_le' hsize
    rw [hn, readPlainWord_stop hrest (ends_cons hmark tail)]
    simp [hrest, (isFlowMark_spec hmark).2.1]

/-- **A word is read as a plain scalar up to the mark behind it.** -/
theorem readPlain_word {w : List Char} (hw : IsWord w) (hends : Ends rest) (hrest : src.rest = w ++ rest)
    (hsize : src.rest.length ≤ src.size) (indent : Int) :
    ∃ plain, readPlain true indent src = some plain ∧ plain.text = w ∧ plain.next.rest = strip rest ∧
      plain.next.size = src.size := by
  have hne := hw.ne_nil
  have hpos : 0 < rest.length := by
    obtain ⟨c, tail, rfl, -⟩ := hends.cases
    exact Nat.succ_pos _
  have hlength : w.length + rest.length ≤ src.size := by rwa [hrest, List.length_append] at hsize
  have hmarks : (src.atDocumentMark || src.at_ 0 '#') = false := by
    have hcomment : src.at_ 0 '#' = false := by
      obtain ⟨c, next, rfl⟩ := List.exists_cons_of_ne_nil hne
      simpa [Source.at_, hrest] using (isWordChar_spec (hw.chars c List.mem_cons_self)).2.2.2
    rw [Source.atDocumentMark, marks_word hw hrest (.inl rfl), marks_word hw hrest (.inr rfl), hcomment]
    rfl
  have hskip : (src.skip w.length).rest = rest := by simp [Source.skip, hrest]
  have hword : readPlainWord true src.size [] src = _ := readPlainWord_word hends hw.chars hrest (by omega)
  rw [readPlain, readPlainFrom, hmarks, hword]
  simp only [Bool.false_eq_true, if_false, List.append_nil, List.isEmpty_reverse, List.isEmpty_eq_false_iff.2 hne, hskip]
  have htext : (w.reverse ++ Gap.none.text.reverse).reverse = w := by simp [Gap.none, Gap.text]
  obtain ⟨c, tail, rfl, hc⟩ := hends.cases
  rcases hc with ⟨hlayout, -⟩ | hmark
  · have hgap : (!(isBlank c || isBreak c)) = false := by
      rcases eq_of_isLayout hlayout with rfl | rfl <;> rfl
    obtain ⟨gap, after, hread, hafter, hsame⟩ : ∃ gap after,
        readGap (some indent) (src.skip w.length).size Gap.none (src.skip w.length) = some (gap, after) ∧
          after.rest = strip (src.skip w.length).rest ∧ after.size = (src.skip w.length).size :=
      readGap_layout Gap.none (hskip.symm ▸ hends) (hskip.symm ▸ Nat.le_trans (Nat.le_add_left _ _) hlength)
    obtain ⟨mark, behind, hstrip, hmark⟩ := hends
    rw [hskip, hstrip] at hafter
    have hpos : 0 < src.size := by omega
    refine ⟨⟨w, after, gap.broken⟩, ?_, rfl, hafter.trans hstrip.symm, hsame⟩
    simp only [hgap, hread, Bool.not_true, Bool.false_and, Bool.false_eq_true, if_false]
    rw [readPlainFrom_mark hafter hmark hpos (hsame ▸ hpos), htext]
  · obtain ⟨hlayout, hgap, -⟩ := isFlowMark_spec hmark
    refine ⟨⟨w, src.skip w.length, false⟩, ?_, rfl, hskip.trans (strip_cons hlayout tail).symm, rfl⟩
    simp only [hgap, Bool.not_false, if_true, htext]
    rfl

end

end ApiCatalog.Yaml.Scalar
