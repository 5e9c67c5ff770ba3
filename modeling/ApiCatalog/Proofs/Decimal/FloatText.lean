import ApiCatalog.Json.Number
import ApiCatalog.Proofs.Text.Digits
/-!
# The texts of numbers

The text of a float, taken apart into sign, digits before and behind the point, and exponent (`parts`), always
has digits on either side of a point, none too many in front and a sign in its exponent (`valid_parts`,
`chars_parts`).  It has no other characters in any style (`all_isMark_floatText`).
-/

namespace ApiCatalog

namespace Json.NumberText

/-- The text of a number in its parts; an exponent has a sign. -/
def chars (t : NumberText) : List Char :=
  (if t.negative then ['-'] else []) ++ t.whole ++ (if t.fraction = [] then [] else '.' :: t.fraction) ++
    t.exponent.elim [] fun (negative, digits) => 'e' :: (if negative then '-' else '+') :: digits

/-- The digits are those that documents allow. -/
structure Valid (t : NumberText) : Prop where
  whole : t.whole = ['0'] ∨ ∃ c digits, t.whole = c :: digits ∧ c.isDigit ∧ c ≠ '0' ∧ ∀ d ∈ digits, d.isDigit
  fraction : ∀ c ∈ t.fraction, c.isDigit
  exponent : ∀ negative digits, t.exponent = some (negative, digits) → digits ≠ [] ∧ ∀ c ∈ digits, c.isDigit

theorem Valid.exists_whole {t : NumberText} (h : t.Valid) :
    ∃ c digits, t.whole = c :: digits ∧ ∀ d ∈ c :: digits, d.isDigit = true := by
  rcases h.whole with hwhole | ⟨c, digits, hwhole, hc, -, hdigits⟩
  · exact ⟨'0', [], hwhole, List.forall_mem_singleton.2 rfl⟩
  · exact ⟨c, digits, hwhole, List.forall_mem_cons.2 ⟨hc, hdigits⟩⟩

end Json.NumberText

namespace Decimal

open Json (NumberText)

/-! ## Shortest decimals are positive -/

theorem Binary.not_holds_zero {b : Binary} (hb : b.significand ≠ 0) (exponent : Int) :
    b.holds ⟨0, exponent⟩ = false := by
  have hden : 0 < (scaled (4 * 0) (-b.exponent) exponent).2 :=
    Nat.mul_pos (Nat.pow_pos (by decide)) (Nat.pow_pos (by decide))
  have hnum : (scaled (4 * 0) (-b.exponent) exponent).1 = 0 := by simp [scaled]
  have hlow : 0 < 4 * b.significand - (if b.narrow then 1 else 2) := by split <;> omega
  have := Nat.mul_pos hlow hden
  simp only [holds, hnum]
  split <;> simp only [Bool.and_eq_false_iff, decide_eq_false_iff_not] <;> left <;> omega

theorem Binary.onGrid?_pos {b : Binary} (hb : b.significand ≠ 0) {exponent : Int} {d : Scaled}
    (h : b.onGrid? exponent = some d) : d.digits ≠ 0 := by
  simp only [onGrid?] at h
  generalize hden : (scaled b.significand b.exponent (-exponent)) = f at h
  have hlower : b.holds ⟨f.1 / f.2, exponent⟩ = true → f.1 / f.2 ≠ 0 := fun hh h0 => by
    rw [h0, not_holds_zero hb] at hh; cases hh
  split at h
  · cases h
  · rename_i hl _
    cases h; exact hlower hl
  · cases h; exact Nat.succ_ne_zero _
  · rename_i hl _
    obtain rfl := Option.some.inj h
    split
    · exact hlower hl
    · exact Nat.succ_ne_zero _

theorem Scaled.dropZeros_pos (fuel : Nat) {d : Scaled} (hd : d.digits ≠ 0) : (d.dropZeros fuel).digits ≠ 0 := by
  induction fuel generalizing d with
  | zero => exact hd
  | succ fuel ih =>
    unfold dropZeros
    split
    · exact ih (by dsimp only; omega)
    · exact hd

theorem Binary.shortest_pos {b : Binary} (hb : b.significand ≠ 0) : b.shortest.digits ≠ 0 := by
  unfold shortest
  apply Scaled.dropZeros_pos
  cases hf : (List.range 17).findSome? fun n => b.onGrid? (b.decimalLength - (n + 1 : Nat)) with
  | none => exact hb
  | some d =>
    obtain ⟨n, -, hn⟩ := List.exists_of_findSome?_eq_some hf
    exact onGrid?_pos hb hn

/-! ## Parts -/

def Scaled.parts (negative : Bool) (d : Scaled) : NumberText :=
  let digits := Text.ofNat d.digits
  let lead : Int := (digits.length : Int) + d.exponent - 1
  if -5 ≤ lead ∧ lead < 16 then
    if 0 ≤ d.exponent then ⟨negative, digits ++ List.replicate d.exponent.toNat '0', ['0'], none⟩
    else if 0 ≤ lead then ⟨negative, digits.take (lead.toNat + 1), digits.drop (lead.toNat + 1), none⟩
    else ⟨negative, ['0'], List.replicate (-lead - 1).toNat '0' ++ digits, none⟩
  else ⟨negative, digits.take 1, digits.drop 1, some (decide (lead < 0), Text.ofNat lead.natAbs)⟩

theorem Scaled.chars_parts (negative : Bool) (d : Scaled) :
    (d.parts negative).chars = (if negative then ['-'] else []) ++ d.text ⟨true⟩ := by
  have hne := Text.ofNat_ne_nil d.digits
  unfold parts text
  generalize Text.ofNat d.digits = digits at hne ⊢
  dsimp only
  generalize hlead : (digits.length : Int) + d.exponent - 1 = lead
  split
  · split
    · simp [NumberText.chars]
    · split
      · have : digits.drop (lead.toNat + 1) ≠ [] := by rw [Ne, List.drop_eq_nil_iff]; omega
        simp only [NumberText.chars, if_neg this, Option.elim_none, List.append_nil, List.append_assoc]
      · simp [NumberText.chars, hne]
  · have hsign : (if lead < 0 then '-' else '+') :: Text.ofNat lead.natAbs =
        (if lead < 0 then ['-'] else ['+']) ++ Text.ofNat lead.natAbs := by
      by_cases h : lead < 0 <;> simp [h]
    match digits, hne with
    | [c], _ => simp [NumberText.chars, hsign]
    | c :: c' :: more, _ => simp [NumberText.chars, hsign]

theorem Scaled.valid_parts (negative : Bool) {d : Scaled} (hd : d.digits ≠ 0) : (d.parts negative).Valid := by
  have hne := Text.ofNat_ne_nil d.digits
  have hhead := Text.head_ofNat hd
  have hdigit : ∀ c ∈ Text.ofNat d.digits, c.isDigit := fun c hc => Text.isDigit_of_mem_ofNat hc
  unfold parts
  generalize Text.ofNat d.digits = digits at hne hhead hdigit ⊢
  obtain ⟨c, more, rfl⟩ := List.exists_cons_of_ne_nil hne
  have hc0 : c ≠ '0' := fun h => hhead (by rw [h]; rfl)
  have hc : c.isDigit := hdigit c List.mem_cons_self
  have hmore : ∀ x ∈ more, x.isDigit := fun x hx => hdigit x (List.mem_cons_of_mem _ hx)
  have hzero : ∀ k, ∀ x ∈ List.replicate k '0', x.isDigit := fun k x hx => by
    rw [List.eq_of_mem_replicate hx]; rfl
  dsimp only
  split
  · split
    · refine ⟨.inr ⟨c, _, rfl, hc, hc0, fun x hx => ?_⟩, fun x hx => ?_, fun _ _ h => by cases h⟩
      · exact (List.mem_append.1 hx).elim (hmore x) (hzero _ x)
      · rw [List.mem_singleton.1 hx]; rfl
    · split
      · refine ⟨.inr ⟨c, _, List.take_succ_cons, hc, hc0, fun x hx => ?_⟩, fun x hx => ?_, fun _ _ h => by cases h⟩
        · exact hmore x (List.mem_of_mem_take hx)
        · exact hdigit x (List.mem_of_mem_drop hx)
      · refine ⟨.inl rfl, fun x hx => ?_, fun _ _ h => by cases h⟩
        exact (List.mem_append.1 hx).elim (hzero _ x) (hdigit x)
  · refine ⟨.inr ⟨c, [], rfl, hc, hc0, fun x hx => by cases hx⟩, hmore, fun _ _ h => ?_⟩
    obtain ⟨-, rfl⟩ := Prod.mk.inj (Option.some.inj h)
    exact ⟨Text.ofNat_ne_nil _, fun x hx => Text.isDigit_of_mem_ofNat hx⟩

def floatParts (x : Float) : NumberText :=
  let negative : Bool := x.toBits.toNat / Nat.pow 2 63 = 1
  let b := Binary.ofFloat x
  if b.significand = 0 then ⟨negative, ['0'], ['0'], none⟩ else b.shortest.parts negative

theorem chars_floatParts (x : Float) : (floatParts x).chars = floatText ⟨true⟩ x := by
  unfold floatParts floatText
  dsimp only
  split
  · simp [NumberText.chars]
  · simp [Scaled.chars_parts]

theorem valid_floatParts (x : Float) : (floatParts x).Valid := by
  unfold floatParts
  dsimp only
  split
  · exact ⟨.inl rfl, fun c hc => by rw [List.mem_singleton.1 hc]; rfl, fun _ _ h => by cases h⟩
  · rename_i h
    exact Scaled.valid_parts _ (Binary.shortest_pos h)

/-! ## Characters -/

def isMark (c : Char) : Bool := c.isDigit || ['+', '-', '.', 'e'].contains c

theorem isMark_of_isDigit {c : Char} (h : c.isDigit = true) : isMark c = true := by rw [isMark, h, Bool.true_or]

theorem all_isMark_chars {t : NumberText} (h : t.Valid) : ∀ c ∈ t.chars, isMark c = true := by
  have hdigits : ∀ {digits : List Char}, (∀ c ∈ digits, c.isDigit = true) → ∀ c ∈ digits, isMark c = true :=
    fun hall c hc => isMark_of_isDigit (hall c hc)
  rw [NumberText.chars, List.forall_mem_append, List.forall_mem_append, List.forall_mem_append]
  refine ⟨⟨⟨?_, ?_⟩, ?_⟩, ?_⟩
  · split <;> exact List.all_eq_true.1 rfl
  · obtain ⟨c, digits, hwhole, hall⟩ := h.exists_whole
    rw [hwhole]
    exact hdigits hall
  · split
    · exact List.all_eq_true.1 rfl
    · exact List.forall_mem_cons.2 ⟨rfl, hdigits h.fraction⟩
  · cases he : t.exponent with
    | none => exact List.all_eq_true.1 rfl
    | some exponent =>
      obtain ⟨below, digits⟩ := exponent
      refine List.forall_mem_cons.2 ⟨rfl, List.forall_mem_cons.2 ⟨?_, hdigits (h.exponent below digits he).2⟩⟩
      cases below <;> rfl

theorem Scaled.all_isMark_text (style : Style) (d : Scaled) : ∀ c ∈ d.text style, isMark c = true := by
  have hdigits : ∀ n, ∀ c ∈ Text.ofNat n, isMark c = true := fun n c hc =>
    isMark_of_isDigit (Text.isDigit_of_mem_ofNat hc)
  have hzeros : ∀ n, ∀ c ∈ List.replicate n '0', isMark c = true := fun n c hc => List.eq_of_mem_replicate hc ▸ rfl
  have hhead := hdigits d.digits
  unfold text
  generalize Text.ofNat d.digits = digits at *
  dsimp only
  split
  · split
    · rw [List.forall_mem_append, List.forall_mem_append]
      exact ⟨⟨hhead, hzeros _⟩, List.all_eq_true.1 rfl⟩
    · split
      · rw [List.forall_mem_append, List.forall_mem_cons]
        exact ⟨fun c hc => hhead c (List.mem_of_mem_take hc), rfl, fun c hc => hhead c (List.mem_of_mem_drop hc)⟩
      · rw [List.forall_mem_append, List.forall_mem_append]
        exact ⟨⟨List.all_eq_true.1 rfl, hzeros _⟩, hhead⟩
  · rw [List.append_assoc, List.forall_mem_append, List.cons_append, List.forall_mem_cons, List.forall_mem_append]
    refine ⟨?_, rfl, ?_, hdigits _⟩
    · split
      · exact hhead
      · rw [List.forall_mem_cons] at hhead ⊢
        exact ⟨hhead.1, List.forall_mem_cons.2 ⟨rfl, hhead.2⟩⟩
      · exact hhead
    · split
      · exact List.all_eq_true.1 rfl
      · split <;> exact List.all_eq_true.1 rfl

/-- A number is written with digits, signs, a point and the letter of an exponent. -/
theorem all_isMark_floatText (style : Style) (x : Float) : ∀ c ∈ floatText style x, isMark c = true := by
  unfold floatText
  dsimp only
  split
  · split <;> exact List.all_eq_true.1 rfl
  · rw [List.forall_mem_append]
    refine ⟨?_, Scaled.all_isMark_text style _⟩
    split <;> exact List.all_eq_true.1 rfl

end Decimal

end ApiCatalog
