import ApiCatalog.Json.Token
import ApiCatalog.Proofs.Decimal.FloatText
import Mathlib.Algebra.Group.Int.Defs
/-!
# Numbers in documents

A number text of the form that documents allow (`NumberText.Valid`) is read as one token whose parts are
those that were written (`foldl_feed_chars`), and the text of every number has that form (`chars_parts`,
`valid_parts`).  An integer that 64 bits hold is read as itself (`reread?_whole`).
-/

namespace ApiCatalog.Json

open Token

namespace NumberText

/-- The text with the digits of each part as a lexer holds them. -/
def held (t : NumberText) : NumberText :=
  ⟨t.negative, t.whole.reverse, t.fraction.reverse, t.exponent.map fun (negative, digits) => (negative, digits.reverse)⟩

theorem numberToken_held (t : NumberText) : numberToken t.held = .scalar (.number (Number.ofText? t)) := by
  obtain ⟨negative, whole, fraction, exponent⟩ := t
  cases exponent <;> simp [numberToken, held]

end NumberText

namespace Token

theorem isSpace_of_isDigit {c : Char} (hc : c.isDigit) : isSpace c = false := by
  simp only [isSpace, Bool.or_eq_false_iff, beq_eq_false_iff_ne]
  refine ⟨⟨⟨?_, ?_⟩, ?_⟩, ?_⟩ <;> rintro rfl <;> exact absurd hc (by decide)

theorem begin_digit (done : List Token) {c : Char} (hc : c.isDigit) (h0 : c ≠ '0') :
    Lexer.begin done c = ⟨done, .number .whole ⟨false, [c], [], none⟩⟩ := by
  unfold Lexer.begin
  split
  case h_12 => exact absurd rfl h0
  case h_13 => rw [isSpace_of_isDigit hc, if_neg Bool.false_ne_true, if_pos hc]
  all_goals exact absurd hc (by decide)

/-- Digits are added to the part of a number that takes them, `grow` being the number with that part. -/
theorem foldl_feed_digits {done : List Token} {part : NumberPart} (grow : List Char → NumberText)
    (hstep : ∀ held c, c.isDigit →
      Lexer.feed ⟨done, .number part (grow held)⟩ c = ⟨done, .number part (grow (c :: held))⟩) :
    ∀ digits held : List Char, (∀ c ∈ digits, c.isDigit) →
      digits.foldl Lexer.feed ⟨done, .number part (grow held)⟩ = ⟨done, .number part (grow (digits.reverse ++ held))⟩
  | [], _, _ => rfl
  | c :: digits, held, h => by
    rw [List.foldl_cons, hstep held c (h c List.mem_cons_self),
      foldl_feed_digits grow hstep digits (c :: held) (fun d hd => h d (List.mem_cons_of_mem _ hd)),
      List.reverse_cons, List.append_assoc]
    rfl

theorem foldl_feed_whole (done : List Token) (negative : Bool) (held digits : List Char)
    (h : ∀ c ∈ digits, c.isDigit) : digits.foldl Lexer.feed ⟨done, .number .whole ⟨negative, held, [], none⟩⟩ =
      ⟨done, .number .whole ⟨negative, digits.reverse ++ held, [], none⟩⟩ :=
  foldl_feed_digits (fun held => ⟨negative, held, [], none⟩)
    (fun _ _ hc => by simp [Lexer.feed, Lexer.inNumber, hc]) digits held h

theorem foldl_feed_fraction (done : List Token) (negative : Bool) (whole held digits : List Char)
    (h : ∀ c ∈ digits, c.isDigit) :
    digits.foldl Lexer.feed ⟨done, .number .fraction ⟨negative, whole, held, none⟩⟩ =
      ⟨done, .number .fraction ⟨negative, whole, digits.reverse ++ held, none⟩⟩ :=
  foldl_feed_digits (fun held => ⟨negative, whole, held, none⟩)
    (fun _ _ hc => by simp [Lexer.feed, Lexer.inNumber, hc]) digits held h

theorem foldl_feed_exponent (done : List Token) (negative : Bool) (whole fraction : List Char) (below : Bool)
    (held digits : List Char) (h : ∀ c ∈ digits, c.isDigit) :
    digits.foldl Lexer.feed ⟨done, .number .exponent ⟨negative, whole, fraction, some (below, held)⟩⟩ =
      ⟨done, .number .exponent ⟨negative, whole, fraction, some (below, digits.reverse ++ held)⟩⟩ :=
  foldl_feed_digits (fun held => ⟨negative, whole, fraction, some (below, held)⟩)
    (fun _ _ hc => by simp [Lexer.feed, Lexer.inNumber, hc]) digits held h

theorem foldl_feed_integer (done : List Token) {t : NumberText} (h : t.Valid) :
    ∃ part : NumberPart, (part = .zero ∨ part = .whole) ∧
      ((if t.negative then ['-'] else []) ++ t.whole).foldl Lexer.feed ⟨done, .between⟩ =
        ⟨done, .number part ⟨t.negative, t.whole.reverse, [], none⟩⟩ := by
  obtain ⟨negative, whole, fraction, exponent⟩ := t
  rcases h.whole with hz | ⟨c, digits, hw, hc, hc0, hd⟩
  · subst hz
    refine ⟨.zero, .inl rfl, ?_⟩
    cases negative <;> rfl
  · subst hw
    refine ⟨.whole, .inr rfl, ?_⟩
    have hfirst : ((if negative then ['-'] else []) ++ [c]).foldl Lexer.feed ⟨done, .between⟩ =
        ⟨done, .number .whole ⟨negative, [c], [], none⟩⟩ := by
      cases negative
      · exact begin_digit done hc hc0
      · simp [Lexer.feed, Lexer.begin, Lexer.inNumber, hc, hc0]
    rw [show c :: digits = [c] ++ digits from rfl, ← List.append_assoc, List.foldl_append, hfirst,
      foldl_feed_whole done negative [c] digits hd, List.reverse_append]
    rfl

theorem foldl_feed_mantissa (done : List Token) {t : NumberText} (h : t.Valid) :
    ∃ part : NumberPart, (part = .zero ∨ part = .whole ∨ part = .fraction) ∧
      ((if t.negative then ['-'] else []) ++ t.whole ++ (if t.fraction = [] then [] else '.' :: t.fraction)).foldl
          Lexer.feed ⟨done, .between⟩ =
        ⟨done, .number part ⟨t.negative, t.whole.reverse, t.fraction.reverse, none⟩⟩ := by
  obtain ⟨part, hpart, hint⟩ := foldl_feed_integer done h
  rw [List.foldl_append, hint]
  cases hf : t.fraction with
  | nil => exact ⟨part, hpart.imp_right .inl, rfl⟩
  | cons c digits =>
    refine ⟨.fraction, .inr (.inr rfl), ?_⟩
    have hd := h.fraction
    rw [hf] at hd
    have hc : c.isDigit = true := hd c List.mem_cons_self
    have hpoint : Lexer.feed ⟨done, .number part ⟨t.negative, t.whole.reverse, [], none⟩⟩ '.' =
        ⟨done, .number .point ⟨t.negative, t.whole.reverse, [], none⟩⟩ := by
      rcases hpart with rfl | rfl <;> rfl
    have hfirst : Lexer.feed ⟨done, .number .point ⟨t.negative, t.whole.reverse, [], none⟩⟩ c =
        ⟨done, .number .fraction ⟨t.negative, t.whole.reverse, [c], none⟩⟩ := by
      simp [Lexer.feed, Lexer.inNumber, hc]
    rw [if_neg (List.cons_ne_nil c digits), List.foldl_cons, hpoint, List.foldl_cons, hfirst,
      foldl_feed_fraction done t.negative t.whole.reverse [c] digits (fun d h => hd d (List.mem_cons_of_mem _ h)),
      List.reverse_cons]

/-- **A number text is read as one number with its parts**, which may end behind it. -/
theorem foldl_feed_chars (done : List Token) {t : NumberText} (h : t.Valid) :
    ∃ part : NumberPart, part.mayEnd = true ∧
      t.chars.foldl Lexer.feed ⟨done, .between⟩ = ⟨done, .number part t.held⟩ := by
  obtain ⟨part, hpart, hmantissa⟩ := foldl_feed_mantissa done h
  rw [NumberText.chars, List.foldl_append, hmantissa, NumberText.held]
  cases he : t.exponent with
  | none =>
    refine ⟨part, ?_, rfl⟩
    rcases hpart with rfl | rfl | rfl <;> rfl
  | some exponent =>
    obtain ⟨below, digits⟩ := exponent
    obtain ⟨hne, hd⟩ := h.exponent below digits he
    obtain ⟨c, digits, rfl⟩ := List.exists_cons_of_ne_nil hne
    have hc : c.isDigit = true := hd c List.mem_cons_self
    refine ⟨.exponent, rfl, ?_⟩
    have hmark : Lexer.feed ⟨done, .number part ⟨t.negative, t.whole.reverse, t.fraction.reverse, none⟩⟩ 'e' =
        ⟨done, .number .mark ⟨t.negative, t.whole.reverse, t.fraction.reverse, some (false, [])⟩⟩ := by
      rcases hpart with rfl | rfl | rfl <;> rfl
    have hsign : Lexer.feed ⟨done, .number .mark ⟨t.negative, t.whole.reverse, t.fraction.reverse, some (false, [])⟩⟩
          (if below then '-' else '+') =
        ⟨done, .number .markSign ⟨t.negative, t.whole.reverse, t.fraction.reverse, some (below, [])⟩⟩ := by
      cases below <;> rfl
    have hfirst : Lexer.feed
          ⟨done, .number .markSign ⟨t.negative, t.whole.reverse, t.fraction.reverse, some (below, [])⟩⟩ c =
        ⟨done, .number .exponent ⟨t.negative, t.whole.reverse, t.fraction.reverse, some (below, [c])⟩⟩ := by
      simp [Lexer.feed, Lexer.inNumber, hc]
    rw [Option.elim_some, List.foldl_cons, hmark, List.foldl_cons, hsign, List.foldl_cons, hfirst,
      foldl_feed_exponent done _ _ _ below [c] digits (fun d h => hd d (List.mem_cons_of_mem _ h))]
    simp

end Token

/-! ## The text of a number -/

namespace Number

def parts : Number → NumberText
  | .whole n => ⟨decide (n < 0), Text.ofNat n.natAbs, [], none⟩
  | .real x => Decimal.floatParts x

theorem chars_parts : ∀ n : Number, n.parts.chars = n.text
  | .whole (.ofNat n) => by simp [parts, NumberText.chars, text, wholeText]
  | .whole (.negSucc n) => by simp [parts, NumberText.chars, text, wholeText, Int.negSucc_lt_zero, Int.natAbs_negSucc]
  | .real x => Decimal.chars_floatParts x

theorem valid_parts : ∀ n : Number, n.parts.Valid
  | .whole n => by
    refine ⟨?_, fun c hc => absurd hc List.not_mem_nil, fun _ _ h => by cases h⟩
    by_cases h0 : n.natAbs = 0
    · exact .inl (by rw [parts, h0]; rfl)
    · obtain ⟨c, digits, hc⟩ := List.exists_cons_of_ne_nil (Text.ofNat_ne_nil n.natAbs)
      have hdigit : ∀ d ∈ c :: digits, d.isDigit := fun d hd => Text.isDigit_of_mem_ofNat (hc ▸ hd)
      have hhead := Text.head_ofNat h0
      rw [hc] at hhead
      exact .inr ⟨c, digits, hc, hdigit c List.mem_cons_self, fun he => hhead (by rw [he]; rfl),
        fun d hd => hdigit d (List.mem_cons_of_mem _ hd)⟩
  | .real x => Decimal.valid_floatParts x

/-! ## Integers -/

/-- Integers have 64 bits, with or without a sign. -/
def Fits : Number → Prop
  | .whole n => -(2 ^ 63) ≤ n ∧ n < 2 ^ 64
  | .real _ => True

theorem maxWhole_eq : maxWhole = 2 ^ 64 - 1 := rfl

theorem significandOf_of_le {digits : List Char} {n : Nat} (h : Text.value n digits ≤ maxWhole) :
    significandOf n 0 digits = (Text.value n digits, 0) := by
  induction digits generalizing n with
  | nil => rfl
  | cons c digits ih =>
    rw [Text.value_cons] at h
    have hc : n * 10 + digit c ≤ maxWhole := Nat.le_trans (Text.le_value _ _) h
    rw [significandOf, if_pos ⟨rfl, hc⟩]
    exact ih h

theorem significandOf_le (digits : List Char) {n : Nat} (dropped : Nat) (h : n ≤ maxWhole) :
    (significandOf n dropped digits).1 ≤ maxWhole := by
  induction digits generalizing n dropped with
  | nil => exact h
  | cons c digits ih =>
    rw [significandOf]
    split
    · rename_i hc; exact ih 0 hc.2
    · exact ih (dropped + 1) h

/-- The number that the text of a number is read as. -/
def reread? (n : Number) : Option Number := ofText? n.parts

/-- **An integer that 64 bits hold is read as itself.** -/
theorem reread?_whole {n : Int} (h : (Number.whole n).Fits) : (Number.whole n).reread? = some (.whole n) := by
  obtain ⟨hlow, hhigh⟩ := h
  have hsig : significandOf 0 0 (Text.ofNat n.natAbs) = (n.natAbs, 0) := by
    have hv := Text.value_ofNat n.natAbs
    rw [significandOf_of_le (by rw [hv, maxWhole_eq]; omega), hv]
  simp only [reread?, ofText?, parts, hsig, List.isEmpty_nil, Option.isNone_none, Bool.and_self, decide_true,
    if_true]
  by_cases hn : n < 0
  · have hpos : (0 < n.natAbs && n.natAbs ≤ Nat.pow 2 63) = true := by
      rw [Bool.and_eq_true, decide_eq_true_eq, decide_eq_true_eq, show Nat.pow 2 63 = 2 ^ 63 from rfl]
      omega
    rw [decide_eq_true hn, Bool.not_true, if_neg Bool.false_ne_true, if_pos hpos]
    congr 2
    omega
  · rw [decide_eq_false hn, Bool.not_false, if_pos rfl]
    congr 2
    omega

theorem fits_of_ofText? {t : NumberText} {n : Number} (h : ofText? t = some n) : n.Fits := by
  have hle := significandOf_le t.whole 0 (Nat.zero_le maxWhole)
  rw [maxWhole_eq] at hle
  simp only [ofText?] at h
  generalize significandOf 0 0 t.whole = s at h hle
  have hreal : ∀ {n : Number}, (realOf? t).map .real = some n → n.Fits := fun hn => by
    obtain ⟨x, -, rfl⟩ := Option.map_eq_some_iff.1 hn
    exact trivial
  split at h
  · split at h
    · cases h
      simp only [Fits]
      omega
    · split at h
      · rename_i hs
        rw [Bool.and_eq_true, decide_eq_true_eq, decide_eq_true_eq, show Nat.pow 2 63 = 2 ^ 63 from rfl] at hs
        cases h
        simp only [Fits]
        omega
      · exact hreal h
  · exact hreal h

end Number

end ApiCatalog.Json
