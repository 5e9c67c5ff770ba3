import ApiCatalog.Proofs.Text.Cut
import Mathlib.Algebra.Order.BigOperators.Group.List
import Mathlib.Algebra.Order.Ring.Nat
/-!
# Lines

A text that starts with no blank starts with its first line, which has no line feed (`exists_first_line`).  Pieces that
are written one after the other, each with a line feed behind it, are the lines of what was written if none of them has
a line feed, and it has more lines otherwise (`exists_inLines_iff`).
-/

namespace ApiCatalog.Text

theorem linesFrom_append {rest : List Char} {done : List (List Char)} : ∀ {text line : List Char}, '\n' ∉ text →
    linesFrom line done (text ++ rest) = linesFrom (text.reverse ++ line) done rest
  | [], _, _ => rfl
  | c :: text, line, h => by
    rw [List.mem_cons, not_or] at h
    rw [List.cons_append, linesFrom, linesFrom_append h.2, List.reverse_cons, List.append_assoc,
      List.singleton_append]
    exact fun hc => h.1 hc.symm

/-- A line feed closes the open line, but for a carriage return that it ends in. -/
theorem exists_linesFrom_feed (line : List Char) (done : List (List Char)) (text : List Char) :
    ∃ closed, (line = closed ∨ line = '\r' :: closed) ∧
      linesFrom line done ('\n' :: text) = linesFrom [] (closed.reverse :: done) text := by
  by_cases hreturn : ∃ closed, line = '\r' :: closed
  · obtain ⟨closed, rfl⟩ := hreturn
    exact ⟨closed, .inr rfl, rfl⟩
  · refine ⟨line, .inl rfl, ?_⟩
    rw [linesFrom]
    exact fun closed hclosed => hreturn ⟨closed, hclosed⟩

theorem exists_linesFrom : ∀ (text line : List Char) (done : List (List Char)),
    ∃ more, linesFrom line done text = done.reverse ++ more
  | [], line, done => by
    rw [linesFrom]
    split
    · exact ⟨[], (List.append_nil _).symm⟩
    · exact ⟨[line.reverse], List.reverse_cons⟩
  | c :: text, line, done => by
    by_cases hc : c = '\n'
    · subst hc
      obtain ⟨closed, -, hclosed⟩ := exists_linesFrom_feed line done text
      obtain ⟨more, hmore⟩ := exists_linesFrom text [] (closed.reverse :: done)
      exact ⟨_ :: more, by rw [hclosed, hmore, List.reverse_cons, List.append_assoc, List.singleton_append]⟩
    · rw [linesFrom]
      · exact exists_linesFrom text (c :: line) done
      · exact hc

/-- A line starts the same without the carriage return at its end, unless it starts with that. -/
theorem exists_closed {c : Char} (hc : c ≠ '\r') {run closed : List Char}
    (h : (c :: run).reverse = closed ∨ (c :: run).reverse = '\r' :: closed) :
    ∃ first, closed.reverse = c :: first ∧ c :: first <+: c :: run := by
  rcases h with h | h
  · exact ⟨run, by rw [← h, List.reverse_reverse], List.prefix_rfl⟩
  · rw [List.reverse_eq_iff, List.reverse_cons] at h
    rcases List.cons_eq_append_iff.1 h with ⟨-, hsingle⟩ | ⟨first, hfirst, rfl⟩
    · exact absurd (List.cons.inj hsingle).1.symm hc
    · exact ⟨first, hfirst, List.cons_prefix_cons.2 ⟨rfl, List.prefix_append _ _⟩⟩

/-- **A text that starts with no blank starts with its first line.** -/
theorem exists_first_line {c : Char} (hc : isBlank c = false) (text : List Char) :
    ∃ first more, lines (c :: text) = (c :: first) :: more ∧ c :: first <+: c :: text ∧ '\n' ∉ c :: first := by
  have hne : ∀ d, isBlank d = true → c ≠ d := fun d hd h => by rw [h, hd] at hc; cases hc
  have hrun : '\n' ∉ text.takeWhile (· ≠ '\n') := fun h => by simpa using List.mem_takeWhile_imp h
  have hbare : '\n' ∉ c :: text.takeWhile (· ≠ '\n') := List.not_mem_cons_of_ne_of_not_mem (hne '\n' rfl).symm hrun
  have hstart : c :: text.takeWhile (· ≠ '\n') <+: c :: text :=
    List.cons_prefix_cons.2 ⟨rfl, List.takeWhile_prefix _⟩
  have hlines : lines (c :: text) =
      linesFrom (c :: text.takeWhile (· ≠ '\n')).reverse [] (text.dropWhile (· ≠ '\n')) := by
    conv_lhs => rw [← List.takeWhile_append_dropWhile (p := (· ≠ '\n')) (l := text), ← List.cons_append]
    rw [lines, linesFrom_append hbare, List.append_nil]
  have hhead := List.head?_dropWhile_not (· ≠ '\n') text
  generalize text.dropWhile (· ≠ '\n') = rest at hlines hhead
  cases rest with
  | nil =>
    refine ⟨_, [], ?_, hstart, hbare⟩
    rw [hlines, linesFrom, if_neg (by simp), List.reverse_reverse]
    rfl
  | cons d rest =>
    obtain rfl : d = '\n' := by simpa using hhead
    obtain ⟨closed, hclosed, hall⟩ := exists_linesFrom_feed (c :: text.takeWhile (· ≠ '\n')).reverse [] rest
    obtain ⟨more, hmore⟩ := exists_linesFrom rest [] [closed.reverse]
    obtain ⟨first, hreverse, hwithin⟩ := exists_closed (hne '\r' rfl) hclosed
    refine ⟨first, more, ?_, hwithin.trans hstart, fun h => hbare (hwithin.subset h)⟩
    rw [hlines, hall, hmore, hreverse]
    rfl

/-! ## Pieces that are written as lines -/

/-- Pieces of text, each with a line feed behind it. -/
def ofLines (pieces : List (List Char)) : List Char := pieces.flatMap (· ++ ['\n'])

theorem ofLines_append (pieces more : List (List Char)) : ofLines (pieces ++ more) = ofLines pieces ++ ofLines more :=
  List.flatMap_append

/-- The lines of a text in which every line is closed. -/
structure InLines (text : List Char) (lines : List (List Char)) : Prop where
  text_eq : text = ofLines lines
  whole : ∀ line ∈ lines, '\n' ∉ line

theorem count_ofLines (pieces : List (List Char)) :
    (ofLines pieces).count '\n' = pieces.length + (pieces.map (List.count '\n')).sum := by
  induction pieces with
  | nil => rfl
  | cons piece pieces ih =>
    rw [ofLines, List.flatMap_cons, List.count_append, List.count_append, ← ofLines, ih, List.count_singleton_self,
      List.map_cons, List.sum_cons, List.length_cons]
    omega

theorem InLines.count_eq {text : List Char} {lines : List (List Char)} (h : InLines text lines) :
    text.count '\n' = lines.length := by
  have hwhole : (lines.map (List.count '\n')).sum = 0 :=
    List.sum_eq_zero_iff.2 (List.forall_mem_map.2 fun line hline => List.count_eq_zero.2 (h.whole line hline))
  rw [h.text_eq, count_ofLines, hwhole, Nat.add_zero]

theorem inLines_ofLines_iff {pieces : List (List Char)} :
    InLines (ofLines pieces) pieces ↔ ∀ piece ∈ pieces, '\n' ∉ piece :=
  ⟨InLines.whole, fun h => ⟨rfl, h⟩⟩

/-- **A text has as many lines as pieces were written if and only if no piece has a line feed.** -/
theorem exists_inLines_iff {pieces : List (List Char)} :
    (∃ lines, InLines (ofLines pieces) lines ∧ lines.length = pieces.length) ↔ ∀ piece ∈ pieces, '\n' ∉ piece := by
  constructor
  · rintro ⟨lines, hlines, hlength⟩
    have hcount := count_ofLines pieces
    rw [hlines.count_eq, hlength] at hcount
    have hnone := List.sum_eq_zero_iff.1 (Nat.left_eq_add.1 hcount)
    exact fun piece hpiece => List.count_eq_zero.1 (hnone _ (List.mem_map_of_mem hpiece))
  · exact fun h => ⟨pieces, inLines_ofLines_iff.2 h, rfl⟩

end ApiCatalog.Text
