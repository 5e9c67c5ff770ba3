import ApiCatalog.Extract.Annotated
import ApiCatalog.Proofs.Regex.Words
/-!
# Signs of annotations

What the coarse signs of annotations are as texts (`hasIndicator_iff`), and that the rules of every language but one
start with one of them (`exists_indicator`).
-/

namespace ApiCatalog

/-- The expressions of a sequence, one behind the other. -/
def Regex.parts : Regex → List Regex
  | .seq first second => first :: second.parts
  | regex => [regex]

theorem Regex.reads_parts : ∀ {regex : Regex} {p q : Progress},
    (Pattern.sequence regex.parts).Reads p q ↔ regex.Reads p q
  | .seq first second, p, q => by
    rw [parts, Pattern.reads_sequence_cons]
    exact exists_congr fun m => and_congr_right fun _ => reads_parts
  | .empty, _, _ | .place _, _, _ | .oneOf _, _, _ | .run _, _, _ | .either _ _, _, _ | .star _, _, _
  | .group _ _, _, _ => Iff.rfl

theorem Regex.reads_of_parts_prefix {front regex : Regex} {p q : Progress} (hparts : front.parts <+: regex.parts)
    (h : regex.Reads p q) : ∃ m, front.Reads p m := by
  obtain ⟨more, hmore⟩ := hparts
  rw [← reads_parts, ← hmore, Pattern.reads_sequence_append] at h
  obtain ⟨m, hfront, -⟩ := h
  exact ⟨m, reads_parts.1 hfront⟩

namespace Annotated

open Pattern

def verbs : List String := ["get", "post", "put", "delete", "patch"]

theorem indicators_eq : indicators = [
    sequence [letter '@', word, letter '.', .group 1 (anyName verbs), letter '('],
    sequence (letter '@' :: .group 1 (anyName verbs) :: literal "mapping"),
    sequence (letter '@' :: (literal "request" ++ literal "mapping")),
    sequence [letter '@', .group 1 (anyName verbs), letter '('],
    sequence (letter '@' :: (literal "route" ++ [letter '('])),
    sequence (letter '@' :: (literal "path" ++ [letter '('])),
    sequence (letter '@' :: (literal "api" ++ [letter '.']))] := by decide +kernel

/-- What stands behind the at sign of a sign of annotations. -/
inductive Sign : List Char → Prop
  | verb {owner name : List Char} {verb : String} (rest : List Char) : owner ≠ [] →
    (∀ c ∈ owner, Text.isWordChar c = true) → verb ∈ verbs → spells verb.toList name = true →
      Sign (owner ++ '.' :: (name ++ '(' :: rest))
  | mapping {front name : List Char} {verb : String} (rest : List Char) : verb ∈ "request" :: verbs →
    spells verb.toList front = true → spells "mapping".toList name = true → Sign (front ++ (name ++ rest))
  | call {name : List Char} {verb : String} (rest : List Char) : verb ∈ "route" :: "path" :: verbs →
    spells verb.toList name = true → Sign (name ++ '(' :: rest)
  | api {name : List Char} (rest : List Char) : spells "api".toList name = true → Sign (name ++ '.' :: rest)

theorem exists_reads_named {p : Progress} {name : String} {mark : Char} (hmark : mark.isAlpha = false) :
    (∃ q, (sequence (letter '@' :: (literal name ++ [letter mark]))).Reads p q) ↔
      ∃ text rest, spells name.toList text = true ∧ p.cursor.rest = '@' :: (text ++ mark :: rest) := by
  constructor
  · rintro ⟨q, h⟩
    obtain ⟨_, rest, rfl, hrest, h⟩ := (reads_cons (takes_mark rfl)).1 h
    obtain ⟨text, rest, htext, rfl, h⟩ := (reads_append (takes_literal _)).1 h
    obtain ⟨_, rest, rfl, rfl, -⟩ := (reads_cons (takes_mark hmark)).1 h
    exact ⟨text, rest, htext, hrest⟩
  · rintro ⟨text, rest, htext, hrest⟩
    refine exists_reads_cons (takes_mark rfl) rfl hrest ?_
    refine exists_reads_append (takes_literal _) htext rfl ?_
    exact exists_reads_of_takes (takes_mark hmark) rfl rfl

theorem sign_of_reads {p q : Progress} {indicator : Regex} (hmem : indicator ∈ indicators) (h : indicator.Reads p q) :
    ∃ rest, p.cursor.rest = '@' :: rest ∧ Sign rest := by
  have hverbs : verbs ≠ [] := List.cons_ne_nil _ _
  rw [indicators_eq] at hmem
  simp only [List.mem_cons, List.not_mem_nil, or_false] at hmem
  rcases hmem with rfl | rfl | rfl | rfl | rfl | rfl | rfl
  · obtain ⟨_, rest, rfl, hrest, h⟩ := (reads_cons (takes_mark rfl)).1 h
    obtain ⟨owner, rest, ⟨hne, howner⟩, rfl, h⟩ := (reads_cons takes_word).1 h
    obtain ⟨_, rest, rfl, rfl, h⟩ := (reads_cons (takes_mark rfl)).1 h
    obtain ⟨name, rest, ⟨verb, hverb, hname⟩, rfl, h⟩ := (reads_noted_cons (takes_anyName hverbs)).1 h
    obtain ⟨_, rest, rfl, rfl, -⟩ := (reads_cons (takes_mark rfl)).1 h
    exact ⟨_, hrest, .verb rest hne howner hverb hname⟩
  · obtain ⟨_, rest, rfl, hrest, h⟩ := (reads_cons (takes_mark rfl)).1 h
    obtain ⟨front, rest, ⟨verb, hverb, hfront⟩, rfl, h⟩ := (reads_noted_cons (takes_anyName hverbs)).1 h
    obtain ⟨name, rest, hname, rfl, -⟩ := (takes_literal _ _ _).1 h
    exact ⟨_, hrest, .mapping rest (List.mem_cons_of_mem _ hverb) hfront hname⟩
  · obtain ⟨_, rest, rfl, hrest, h⟩ := (reads_cons (takes_mark rfl)).1 h
    obtain ⟨front, rest, hfront, rfl, h⟩ := (reads_append (takes_literal _)).1 h
    obtain ⟨name, rest, hname, rfl, -⟩ := (takes_literal _ _ _).1 h
    exact ⟨_, hrest, .mapping rest List.mem_cons_self hfront hname⟩
  · obtain ⟨_, rest, rfl, hrest, h⟩ := (reads_cons (takes_mark rfl)).1 h
    obtain ⟨name, rest, ⟨verb, hverb, hname⟩, rfl, h⟩ := (reads_noted_cons (takes_anyName hverbs)).1 h
    obtain ⟨_, rest, rfl, rfl, -⟩ := (reads_cons (takes_mark rfl)).1 h
    exact ⟨_, hrest, .call rest (List.mem_cons_of_mem _ (List.mem_cons_of_mem _ hverb)) hname⟩
  · obtain ⟨name, rest, hname, hrest⟩ := (exists_reads_named rfl).1 ⟨q, h⟩
    exact ⟨_, hrest, .call rest List.mem_cons_self hname⟩
  · obtain ⟨name, rest, hname, hrest⟩ := (exists_reads_named rfl).1 ⟨q, h⟩
    exact ⟨_, hrest, .call rest (List.mem_cons_of_mem _ List.mem_cons_self) hname⟩
  · obtain ⟨name, rest, hname, hrest⟩ := (exists_reads_named rfl).1 ⟨q, h⟩
    exact ⟨_, hrest, .api rest hname⟩

theorem exists_reads_of_sign {p : Progress} {rest : List Char} (hrest : p.cursor.rest = '@' :: rest) (h : Sign rest) :
    ∃ indicator ∈ indicators, ∃ q, indicator.Reads p q := by
  have hverbs : verbs ≠ [] := List.cons_ne_nil _ _
  rw [indicators_eq]
  cases h with
  | verb rest hne howner hverb hname =>
    refine ⟨_, List.mem_cons_self, exists_reads_cons (takes_mark rfl) rfl hrest ?_⟩
    refine exists_reads_cons takes_word ⟨hne, howner⟩ rfl ?_
    refine exists_reads_cons (takes_mark rfl) rfl rfl ?_
    refine exists_reads_noted_cons (takes_anyName hverbs) ⟨_, hverb, hname⟩ rfl ?_
    exact exists_reads_of_takes (takes_mark rfl) rfl rfl
  | mapping rest hverb hfront hname =>
    rcases List.mem_cons.1 hverb with rfl | hverb
    · refine ⟨sequence (letter '@' :: (literal "request" ++ literal "mapping")), by simp, ?_⟩
      refine exists_reads_cons (takes_mark rfl) rfl hrest ?_
      refine exists_reads_append (takes_literal _) hfront rfl ?_
      exact exists_reads_of_takes (takes_literal _) hname rfl
    · refine ⟨sequence (letter '@' :: .group 1 (anyName verbs) :: literal "mapping"), by simp, ?_⟩
      refine exists_reads_cons (takes_mark rfl) rfl hrest ?_
      refine exists_reads_noted_cons (takes_anyName hverbs) ⟨_, hverb, hfront⟩ rfl ?_
      exact exists_reads_of_takes (takes_literal _) hname rfl
  | call rest hverb hname =>
    rcases List.mem_cons.1 hverb with rfl | hverb
    · exact ⟨_, by simp, (exists_reads_named rfl).2 ⟨_, rest, hname, hrest⟩⟩
    rcases List.mem_cons.1 hverb with rfl | hverb
    · exact ⟨_, by simp, (exists_reads_named rfl).2 ⟨_, rest, hname, hrest⟩⟩
    · refine ⟨sequence [letter '@', .group 1 (anyName verbs), letter '('], by simp, ?_⟩
      refine exists_reads_cons (takes_mark rfl) rfl hrest ?_
      refine exists_reads_noted_cons (takes_anyName hverbs) ⟨_, hverb, hname⟩ rfl ?_
      exact exists_reads_of_takes (takes_mark rfl) rfl rfl
  | api rest hname => exact ⟨_, by simp, (exists_reads_named rfl).2 ⟨_, rest, hname, hrest⟩⟩

/-- **A text has a sign of annotations exactly if behind some at sign stands one of four forms.** -/
theorem hasIndicator_iff {content : List Char} : hasIndicator content = true ↔
    ∃ before rest, content = before ++ '@' :: rest ∧ Sign rest := by
  simp only [hasIndicator, List.any_eq_true, Regex.occursIn_iff]
  constructor
  · rintro ⟨indicator, hmem, before, here, rfl, q, hreads⟩
    obtain ⟨rest, rfl, hsign⟩ := sign_of_reads hmem hreads
    exact ⟨before, rest, rfl, hsign⟩
  · rintro ⟨before, rest, rfl, hsign⟩
    obtain ⟨indicator, hmem, hreads⟩ := exists_reads_of_sign (p := ⟨.behind before ('@' :: rest), []⟩) rfl hsign
    exact ⟨indicator, hmem, before, _, rfl, hreads⟩

/-- The rules of the other languages start with an indicator, each with one of its own. -/
theorem exists_indicator : ∀ language : Language, language ≠ .python → ∀ rule ∈ language.table,
    ∃ indicator ∈ indicators, indicator.parts <+: rule.regex.parts := by
  intro language hlanguage
  rw [indicators_eq]
  cases language with
  | python => exact absurd rfl hlanguage
  | java => decide +kernel
  | typeScript => decide +kernel

end Annotated

end ApiCatalog
