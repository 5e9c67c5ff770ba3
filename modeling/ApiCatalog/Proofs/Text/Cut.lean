import ApiCatalog.Text.Basic
import Mathlib.Data.List.DropRight
import Mathlib.Data.List.Infix
import Mathlib.Data.List.TakeWhile
/-!
# Cutting texts

A text can be cut in one way at the first character outside of a class (`cut_inj`), and a text without characters of a
class is not trimmed by it (`trimBy_eq_self`).  A text breaks at the first place where a mark stands and nowhere else
(`breakAt?_eq_some_iff`), or at the last one if it is read backwards (`breakAt?_of_last`), and is split at each
separator (`exists_split`).
-/

namespace ApiCatalog.Text

section
variable {α : Type} (P : α → Prop)

/-- **Two ways to cut a list behind elements of a class, at one that is outside of it, are the same.** -/
theorem cut_inj {x y : α} {s t : List α} (hx : ¬ P x) (hy : ¬ P y) : ∀ {a b : List α}, (∀ c ∈ a, P c) →
    (∀ c ∈ b, P c) → a ++ x :: s = b ++ y :: t → a = b ∧ x = y ∧ s = t
  | [], [], _, _, h => ⟨rfl, List.cons.inj h⟩
  | [], _ :: _, _, hb, h => absurd ((List.cons.inj h).1 ▸ hb _ List.mem_cons_self) hx
  | _ :: _, [], ha, _, h => absurd ((List.cons.inj h).1 ▸ ha _ List.mem_cons_self) hy
  | c :: a, d :: b, ha, hb, h => by
    obtain ⟨rfl, htail⟩ := List.cons.inj h
    rw [List.forall_mem_cons] at ha hb
    obtain ⟨rfl, hrest⟩ := cut_inj hx hy ha.2 hb.2 htail
    exact ⟨rfl, hrest⟩

/-- Elements of a class at the front of a list end at the latest where another stands. -/
theorem exists_append_of_cut {y : α} {s t : List α} (hy : ¬ P y) : ∀ {a b : List α}, (∀ c ∈ a, P c) →
    a ++ s = b ++ y :: t → ∃ more, b = a ++ more
  | [], b, _, _ => ⟨b, rfl⟩
  | _ :: _, [], ha, h => absurd ((List.cons.inj h).1 ▸ ha _ List.mem_cons_self) hy
  | c :: a, d :: b, ha, h => by
    obtain ⟨rfl, htail⟩ := List.cons.inj h
    obtain ⟨more, rfl⟩ := exists_append_of_cut hy (List.forall_mem_cons.1 ha).2 htail
    exact ⟨more, rfl⟩

/-- What ends a list ends each piece of it that stands at the end. -/
theorem exists_concat_of_eq {x : α} {s a b : List α} (hb : b ≠ []) (h : s ++ [x] = a ++ b) :
    ∃ front, b = front ++ [x] ∧ s = a ++ front := by
  rcases List.eq_nil_or_concat b with rfl | ⟨front, y, rfl⟩
  · exact absurd rfl hb
  · rw [List.concat_eq_append, ← List.append_assoc] at h
    obtain ⟨hfront, hlast⟩ := List.append_inj' h rfl
    rw [List.concat_eq_append, ← hlast]
    exact ⟨front, rfl, hfront⟩

end

/-- A list is cut behind the last place where a mark stands, or not at all. -/
theorem exists_last {α : Type} {mark : List α} (hmark : mark ≠ []) : ∀ text : List α,
    ∃ front back, text = front ++ back ∧ (front = [] ∨ mark <:+ front) ∧ ¬ mark <:+: back
  | [] => ⟨[], [], rfl, .inl rfl, fun h => hmark (List.infix_nil.1 h)⟩
  | c :: text => by
    obtain ⟨front, back, htext, hfront, hback⟩ := exists_last hmark text
    rcases hfront with rfl | hfront
    · obtain rfl : text = back := htext
      by_cases hhere : mark <+: c :: text
      · obtain ⟨rest, hrest⟩ := hhere
        obtain ⟨d, more, rfl⟩ := List.exists_cons_of_ne_nil hmark
        obtain ⟨-, rfl⟩ := List.cons.inj hrest
        refine ⟨_, rest, hrest.symm, .inr (List.suffix_refl _), fun h => ?_⟩
        exact hback (h.trans (List.suffix_append _ _).isInfix)
      · refine ⟨[], c :: text, rfl, .inl rfl, fun h => ?_⟩
        exact (List.infix_cons_iff.1 h).elim hhere hback
    · exact ⟨c :: front, back, by rw [htext, List.cons_append], .inr (hfront.trans (List.suffix_cons c front)), hback⟩

theorem occurs_iff {part : List Char} : ∀ {text : List Char}, occurs part text = true ↔ part <:+: text
  | [] => by rw [occurs, List.isEmpty_iff, List.infix_nil]
  | c :: text => by rw [occurs, Bool.or_eq_true, List.isPrefixOf_iff_prefix, occurs_iff, List.infix_cons_iff]

theorem occurs_append (before part after : List Char) : occurs part (before ++ (part ++ after)) = true :=
  occurs_iff.2 ⟨before, after, List.append_assoc _ _ _⟩

theorem stripStart?_append : ∀ start rest : List Char, stripStart? start (start ++ rest) = some rest
  | [], _ => rfl
  | s :: start, rest => by
    rw [List.cons_append, stripStart?, if_pos rfl]
    exact stripStart?_append start rest

theorem eq_append_of_stripStart? : ∀ {start text rest : List Char}, stripStart? start text = some rest →
    text = start ++ rest
  | [], _, _, h => Option.some.inj h
  | _ :: _, [], _, h => by cases h
  | s :: start, c :: text, rest, h => by
    rw [stripStart?] at h
    split at h
    · rename_i hs
      rw [hs, eq_append_of_stripStart? h, List.cons_append]
    · cases h

theorem stripStart?_eq_none {mark text : List Char} (h : ¬ mark <+: text) : stripStart? mark text = none := by
  refine Option.eq_none_iff_forall_ne_some.2 fun rest hrest => h ?_
  rw [eq_append_of_stripStart? hrest]
  exact List.prefix_append mark rest

theorem breakAtFrom?_of_first {mark rest : List Char} (hmark : mark ≠ []) : ∀ {text passed : List Char},
    ¬ mark <:+: text ++ mark.dropLast →
      breakAtFrom? mark passed (text ++ (mark ++ rest)) = some (passed.reverse ++ text, rest)
  | [], passed, _ => by
    obtain ⟨c, more, rfl⟩ := List.exists_cons_of_ne_nil hmark
    have hstrip := stripStart?_append (c :: more) rest
    rw [List.cons_append] at hstrip
    rw [List.nil_append, List.cons_append, breakAtFrom?, hstrip, List.append_nil]
  | c :: text, passed, h => by
    -- A mark that begins here ends before the one that is looked for does.
    have hnot : ¬ mark <+: c :: (text ++ (mark ++ rest)) := by
      intro hstart
      have hcut : c :: (text ++ mark.dropLast) <+: c :: (text ++ (mark ++ rest)) := by
        rw [List.cons_prefix_cons, List.prefix_append_right_inj]
        exact ⟨rfl, (List.dropLast_prefix mark).trans (List.prefix_append mark rest)⟩
      have hlength : mark.length ≤ (c :: (text ++ mark.dropLast)).length := by
        rw [List.length_cons, List.length_append, List.length_dropLast]
        omega
      exact h (List.prefix_of_prefix_length_le hstart hcut hlength).isInfix
    rw [List.cons_append, breakAtFrom?, stripStart?_eq_none hnot]
    dsimp only
    rw [breakAtFrom?_of_first hmark fun hwithin => h (List.infix_cons hwithin), List.reverse_cons, List.append_assoc,
      List.singleton_append]

/-- **A text breaks where a mark stands for the first time**, which is to say that no mark begins before it, not even
one that overlaps it. -/
theorem breakAt?_of_first {mark text : List Char} (hmark : mark ≠ []) (h : ¬ mark <:+: text ++ mark.dropLast)
    (rest : List Char) : breakAt? mark (text ++ (mark ++ rest)) = some (text, rest) :=
  breakAtFrom?_of_first hmark h

theorem eq_of_breakAtFrom? {mark rest : List Char} (hmark : mark ≠ []) : ∀ {text passed before : List Char},
    breakAtFrom? mark passed text = some (before, rest) →
      ∃ more, before = passed.reverse ++ more ∧ text = more ++ (mark ++ rest) ∧ ¬ mark <:+: more ++ mark.dropLast
  | [], passed, before, h => by
    rw [breakAtFrom?, if_neg (by simpa using hmark)] at h
    cases h
  | c :: text, passed, before, h => by
    rw [breakAtFrom?] at h
    split at h
    · rename_i hstrip
      cases h
      have htext : c :: text = mark ++ rest := eq_append_of_stripStart? hstrip
      have hnot : ¬ mark <:+: mark.dropLast := fun hwithin => by
        have hlength := hwithin.length_le
        have hpos := List.length_pos_iff.2 hmark
        rw [List.length_dropLast] at hlength
        omega
      exact ⟨[], (List.append_nil _).symm, htext, hnot⟩
    · rename_i hstrip
      obtain ⟨more, rfl, rfl, hmore⟩ := eq_of_breakAtFrom? hmark h
      refine ⟨c :: more, by simp, rfl, fun hwithin => ?_⟩
      rw [List.cons_append, List.infix_cons_iff] at hwithin
      rcases hwithin with hstart | hlater
      · -- A mark that begins here would have been stripped.
        have hcut : c :: (more ++ mark.dropLast) <+: c :: (more ++ (mark ++ rest)) := by
          rw [List.cons_prefix_cons, List.prefix_append_right_inj]
          exact ⟨rfl, (List.dropLast_prefix mark).trans (List.prefix_append mark rest)⟩
        obtain ⟨left, hleft⟩ := hstart.trans hcut
        rw [← hleft, stripStart?_append] at hstrip
        cases hstrip
      · exact hmore hlater

theorem breakAt?_eq_some_iff {mark text before rest : List Char} (hmark : mark ≠ []) :
    breakAt? mark text = some (before, rest) ↔
      text = before ++ (mark ++ rest) ∧ ¬ mark <:+: before ++ mark.dropLast := by
  constructor
  · intro h
    obtain ⟨more, rfl, htext, hmore⟩ := eq_of_breakAtFrom? hmark h
    exact ⟨htext, hmore⟩
  · rintro ⟨rfl, h⟩
    exact breakAt?_of_first hmark h rest

/-- **Read backwards, a text breaks where a mark stands for the last time.** -/
theorem breakAt?_of_last {mark text : List Char} (hmark : mark ≠ []) (h : ¬ mark <:+: mark.tail ++ text)
    (before : List Char) :
    breakAt? mark.reverse (before ++ (mark ++ text)).reverse = some (text.reverse, before.reverse) := by
  rw [List.reverse_append, List.reverse_append, List.append_assoc]
  refine breakAt?_of_first (by simpa using hmark) ?_ _
  rwa [List.dropLast_reverse, ← List.reverse_append, List.reverse_infix]

theorem breakAtFrom?_eq_none {mark : List Char} : ∀ {text passed : List Char}, ¬ mark <:+: text →
    breakAtFrom? mark passed text = none
  | [], passed, h => by
    rw [breakAtFrom?, if_neg]
    rintro hempty
    exact h (by rw [List.isEmpty_iff.1 hempty])
  | c :: text, passed, h => by
    rw [breakAtFrom?, stripStart?_eq_none fun hstart => h hstart.isInfix]
    exact breakAtFrom?_eq_none fun hwithin => h (List.infix_cons hwithin)

theorem breakAt?_eq_none {mark text : List Char} (h : ¬ mark <:+: text) : breakAt? mark text = none :=
  breakAtFrom?_eq_none h

theorem isSome_breakAtFrom? {mark : List Char} : ∀ {text passed : List Char}, mark <:+: text →
    (breakAtFrom? mark passed text).isSome = true
  | [], passed, h => by
    rw [breakAtFrom?, if_pos (List.isEmpty_iff.2 (List.infix_nil.1 h))]
    rfl
  | c :: text, passed, h => by
    rw [breakAtFrom?]
    split
    · rfl
    · rename_i hstrip
      refine isSome_breakAtFrom? ((List.infix_cons_iff.1 h).resolve_left ?_)
      rintro ⟨rest, hrest⟩
      rw [← hrest, stripStart?_append] at hstrip
      cases hstrip

theorem isSome_breakAt? {mark text : List Char} (h : mark <:+: text) : (breakAt? mark text).isSome = true :=
  isSome_breakAtFrom? h

/-- No mark stands before the place where a text breaks. -/
theorem isPrefix_of_breakAt? {mark text before rest other more : List Char} (hmark : mark ≠ [])
    (h : breakAt? mark text = some (before, rest)) (hother : text = other ++ (mark ++ more)) : before <+: other := by
  obtain ⟨htext, hfirst⟩ := (breakAt?_eq_some_iff hmark).1 h
  rw [htext] at hother
  rcases List.append_eq_append_iff.1 hother with ⟨between, hbetween, -⟩ | ⟨between, hbetween, hrest⟩
  · exact hbetween ▸ List.prefix_append before between
  · rcases List.eq_nil_or_concat between with rfl | ⟨front, c, hconcat⟩
    · rw [hbetween, List.append_nil]
    · -- The mark that begins before ends there, too, or in the next one.
      exfalso
      have hlength : mark.length ≤ (between ++ mark.dropLast).length := by
        have hpos := List.length_pos_iff.2 hmark
        rw [List.length_append, List.length_dropLast, hconcat, List.concat_eq_append, List.length_append,
          List.length_singleton]
        omega
      have hcut : between ++ mark.dropLast <+: mark ++ more := by
        rw [hrest, List.prefix_append_right_inj]
        exact (List.dropLast_prefix mark).trans (List.prefix_append mark rest)
      have hstart := List.prefix_of_prefix_length_le (List.prefix_append mark more) hcut hlength
      rw [hbetween, List.append_assoc] at hfirst
      exact hfirst (hstart.isInfix.trans (List.suffix_append other _).isInfix)

theorem splitFrom_append {sep : Char} {rest : List Char} {done : List (List Char)} : ∀ {text piece : List Char},
    sep ∉ text → splitFrom sep piece done (text ++ rest) = splitFrom sep (text.reverse ++ piece) done rest
  | [], _, _ => rfl
  | c :: text, piece, h => by
    rw [List.mem_cons, not_or] at h
    rw [List.cons_append, splitFrom, if_neg (Ne.symm h.1), splitFrom_append h.2, List.reverse_cons, List.append_assoc,
      List.singleton_append]

theorem exists_splitFrom (sep : Char) : ∀ (text piece : List Char) (done : List (List Char)),
    ∃ pieces, splitFrom sep piece done text = done.reverse ++ pieces
  | [], piece, done => ⟨[piece.reverse], List.reverse_cons⟩
  | c :: text, piece, done => by
    rw [splitFrom]
    split
    · obtain ⟨pieces, hpieces⟩ := exists_splitFrom sep text [] (piece.reverse :: done)
      exact ⟨piece.reverse :: pieces, by rw [hpieces, List.reverse_cons, List.append_assoc]; rfl⟩
    · exact exists_splitFrom sep text (c :: piece) done

/-- The first piece ends at the first separator, or with the text. -/
theorem exists_split {sep : Char} {first rest : List Char} (hfirst : sep ∉ first)
    (hrest : rest = [] ∨ ∃ more, rest = sep :: more) : ∃ pieces, split sep (first ++ rest) = first :: pieces := by
  rw [split, splitFrom_append hfirst, List.append_nil]
  rcases hrest with rfl | ⟨more, rfl⟩
  · exact ⟨[], by rw [splitFrom, List.reverse_reverse]; rfl⟩
  · obtain ⟨pieces, hpieces⟩ := exists_splitFrom sep more [] [first]
    exact ⟨pieces, by rw [splitFrom, if_pos rfl, List.reverse_reverse, hpieces]; rfl⟩

theorem dropWhile_eq_self {p : Char → Bool} : ∀ {text : List Char}, (∀ c ∈ text, p c = false) → text.dropWhile p = text
  | [], _ => rfl
  | c :: text, h => by rw [List.dropWhile_cons, h c List.mem_cons_self, if_neg Bool.false_ne_true]

theorem trimBy_eq_self {p : Char → Bool} {text : List Char} (h : ∀ c ∈ text, p c = false) : trimBy p text = text := by
  rw [trimBy, trimStartBy, dropWhile_eq_self h, trimEndBy,
    dropWhile_eq_self fun c hc => h c (List.mem_reverse.1 hc), List.reverse_reverse]

/-- Between two characters of a class a text without others of it is left. -/
theorem trimBy_between {p : Char → Bool} {x y : Char} {text : List Char} (hx : p x = true) (hy : p y = true)
    (h : ∀ c ∈ text, p c = false) : trimBy p (x :: (text ++ [y])) = text := by
  cases text with
  | nil => simp [trimBy, trimStartBy, trimEndBy, hx, hy]
  | cons c text =>
    have hreverse : ∀ d ∈ (c :: text).reverse, p d = false := fun d hd => h d (List.mem_reverse.1 hd)
    rw [trimBy, trimStartBy, List.dropWhile_cons_of_pos hx, List.cons_append,
      List.dropWhile_cons_of_neg (by simp [h c List.mem_cons_self]), ← List.cons_append, trimEndBy, List.reverse_append,
      List.reverse_singleton, List.singleton_append, List.dropWhile_cons_of_pos hy, dropWhile_eq_self hreverse,
      List.reverse_reverse]

theorem trimStart_append {blanks : List Char} (h : ∀ c ∈ blanks, isBlank c = true) (text : List Char) :
    trimStart (blanks ++ text) = trimStart text :=
  List.dropWhile_append_of_pos h

theorem exists_blanks (text : List Char) :
    ∃ blanks, (∀ c ∈ blanks, isBlank c = true) ∧ text = blanks ++ trimStart text :=
  ⟨text.takeWhile isBlank, fun _ => List.mem_takeWhile_imp, List.takeWhile_append_dropWhile.symm⟩

theorem trim_eq_nil_iff {text : List Char} : trim text = [] ↔ ∀ c ∈ text, isBlank c = true := by
  rw [trim, trimBy, trimEndBy, trimStartBy, List.reverse_eq_nil_iff, List.dropWhile_eq_nil_iff]
  simp only [List.mem_reverse]
  constructor
  · intro h c hc
    rw [← List.takeWhile_append_dropWhile (p := isBlank) (l := text)] at hc
    rcases List.mem_append.1 hc with hc | hc
    · exact List.mem_takeWhile_imp hc
    · exact h c hc
  · exact fun h c hc => h c ((List.dropWhile_suffix _).subset hc)

theorem trimEndBy_isPrefix (p : Char → Bool) (text : List Char) : trimEndBy p text <+: text := by
  have hsuffix := List.dropWhile_suffix (l := text.reverse) p
  rwa [← List.reverse_prefix, List.reverse_reverse] at hsuffix

/-- What is left of a text without blanks around it starts with no blank. -/
theorem exists_cons_of_trim {text : List Char} (h : trim text ≠ []) :
    ∃ c rest, trim text = c :: rest ∧ isBlank c = false := by
  obtain ⟨c, rest, hcons⟩ := List.exists_cons_of_ne_nil h
  obtain ⟨more, hmore⟩ : trim text <+: trimStart text := trimEndBy_isPrefix _ _
  have hhead := List.head?_dropWhile_not isBlank text
  have hstart : text.dropWhile isBlank = c :: (rest ++ more) := by
    rw [← List.cons_append, ← hcons, hmore]
    rfl
  rw [hstart] at hhead
  exact ⟨c, rest, hcons, by simpa using hhead⟩

/-- A text that starts with no blank loses blanks at its end only. -/
theorem trim_cons {c : Char} (hc : isBlank c = false) (text : List Char) :
    trim (c :: text) = trimEnd (c :: text) := by
  rw [trim, trimBy, trimStartBy, List.dropWhile_cons_of_neg (by simp [hc])]
  rfl

theorem exists_trimBy (p : Char → Bool) (text : List Char) : ∃ front back, text = front ++ trimBy p text ++ back ∧
    (∀ c ∈ front, p c = true) ∧ ∀ c ∈ back, p c = true := by
  refine ⟨text.takeWhile p, ((text.dropWhile p).reverse.takeWhile p).reverse, ?_, fun _ => List.mem_takeWhile_imp,
    fun c hc => List.mem_takeWhile_imp (List.mem_reverse.1 hc)⟩
  rw [trimBy, trimEndBy, trimStartBy, List.append_assoc, ← List.reverse_append, List.takeWhile_append_dropWhile,
    List.reverse_reverse, List.takeWhile_append_dropWhile]

/-- What surrounds a text is trimmed with it. -/
theorem trimBy_append {p : Char → Bool} {front back : List Char} (hfront : ∀ c ∈ front, p c = true)
    (hback : ∀ c ∈ back, p c = true) (text : List Char) : trimBy p (front ++ text ++ back) = trimBy p text := by
  have hdrop : back.reverse.dropWhile p = [] :=
    List.dropWhile_eq_nil_iff.2 fun c hc => hback c (List.mem_reverse.1 hc)
  rw [trimBy, trimBy, trimStartBy, trimStartBy, List.append_assoc, List.dropWhile_append_of_pos hfront,
    List.dropWhile_append]
  split
  · rename_i hnil
    rw [List.isEmpty_iff] at hnil
    rw [hnil, List.dropWhile_eq_nil_iff.2 hback]
  · rw [trimEndBy, trimEndBy, List.reverse_append,
      List.dropWhile_append_of_pos fun c hc => hback c (List.mem_reverse.1 hc)]

theorem trimBy_trimBy (p : Char → Bool) (text : List Char) : trimBy p (trimBy p text) = trimBy p text := by
  obtain ⟨front, back, htext, hfront, hback⟩ := exists_trimBy p text
  have htrim := trimBy_append hfront hback (trimBy p text)
  rw [← htext] at htrim
  exact htrim.symm

theorem trim_trim (text : List Char) : trim (trim text) = trim text := trimBy_trimBy isBlank text

theorem length_trimBy_le (p : Char → Bool) (text : List Char) : (trimBy p text).length ≤ text.length := by
  obtain ⟨front, back, htext, -, -⟩ := exists_trimBy p text
  have hlength := congrArg List.length htext
  rw [List.length_append, List.length_append] at hlength
  omega

/-- A text that trimming leaves as it is has nothing around it that would be trimmed with it. -/
theorem eq_nil_of_trimBy_eq_self {p : Char → Bool} {front text back : List Char} (hfront : ∀ c ∈ front, p c = true)
    (hback : ∀ c ∈ back, p c = true) (h : trimBy p (front ++ text ++ back) = front ++ text ++ back) :
    front = [] ∧ back = [] := by
  have hle := length_trimBy_le p text
  rw [← trimBy_append hfront hback text, h, List.length_append, List.length_append] at hle
  exact ⟨List.eq_nil_of_length_eq_zero (by omega), List.eq_nil_of_length_eq_zero (by omega)⟩

/-- **A text stays as it is exactly if neither its first nor its last character is of the class.** -/
theorem trimBy_eq_self_iff {p : Char → Bool} {text : List Char} : trimBy p text = text ↔
    (∀ c ∈ text.head?, p c = false) ∧ ∀ c ∈ text.getLast?, p c = false := by
  constructor
  · intro h
    have hnone : ∀ d ∈ ([] : List Char), p d = true := fun _ hd => by cases hd
    constructor
    · intro c hc
      rw [← Bool.not_eq_true]
      intro hp
      obtain ⟨rest, rfl⟩ : ∃ rest, text = [c] ++ rest ++ [] :=
        ⟨text.tail, by rw [List.append_nil]; exact (List.cons_head?_tail hc).symm⟩
      have hnil : [c] = [] ∧ [] = [] := eq_nil_of_trimBy_eq_self (List.forall_mem_singleton.2 hp) hnone h
      cases hnil.1
    · intro c hc
      rw [← Bool.not_eq_true]
      intro hp
      obtain ⟨rest, rfl⟩ := List.getLast?_eq_some_iff.1 hc
      have hnil : [] = [] ∧ [c] = [] := eq_nil_of_trimBy_eq_self hnone (List.forall_mem_singleton.2 hp) h
      cases hnil.2
  · rintro ⟨hhead, hlast⟩
    obtain ⟨front, back, htext, hfront, hback⟩ := exists_trimBy p text
    have hnil : front = [] := by
      cases front with
      | nil => rfl
      | cons c front =>
        have hc := hhead c (by rw [htext]; rfl)
        rw [hfront c List.mem_cons_self] at hc
        cases hc
    have hnil' : back = [] := by
      rcases List.eq_nil_or_concat back with rfl | ⟨rest, c, rfl⟩
      · rfl
      · rw [List.concat_eq_append] at htext hback
        have hc := hlast c (by rw [htext, ← List.append_assoc, List.getLast?_concat]; rfl)
        rw [hback c (by simp)] at hc
        cases hc
    rw [hnil, hnil', List.nil_append, List.append_nil] at htext
    exact htext.symm

end ApiCatalog.Text
