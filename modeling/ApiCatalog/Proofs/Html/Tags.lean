import ApiCatalog.Proofs.Html.Escape
import ApiCatalog.Proofs.Text.Digits
/-!
# Tags that a text does not have

A text avoids given starts of tags if each of its tags differs from them within the text (`avoids`), so that none can
turn out to be there when something is put behind the text.  Escaped texts and numbers have no tags at all.
-/

namespace ApiCatalog.Html

/-- Whether two texts differ at some place that both have. -/
def clash : List Char → List Char → Bool
  | c :: a, d :: b => c != d || clash a b
  | _, _ => false

/-- Whether no tag in a text has one of the given starts. -/
def avoids (starts : List (List Char)) : List Char → Bool
  | [] => true
  | c :: text => (c != '<' || starts.all (clash · text)) && avoids starts text

theorem clash_append {a b : List Char} (more : List Char) : clash a b = true → clash a (b ++ more) = true := by
  fun_induction clash a b with
  | case1 c a d b ih =>
    intro h
    rw [List.cons_append, clash, Bool.or_eq_true]
    exact (Bool.or_eq_true _ _ ▸ h).imp_right ih
  | case2 => exact fun h => absurd h Bool.false_ne_true

theorem stripStart?_of_clash : ∀ {start text tag long : List Char}, clash start text = true → text <+: long →
    tag <+: long → Text.stripStart? start tag = none
  | [], _, _, _, h, _, _ => absurd h Bool.false_ne_true
  | _ :: _, [], _, _, h, _, _ => absurd h Bool.false_ne_true
  | _ :: _, _ :: _, [], _, _, _, _ => rfl
  | s :: start, c :: text, d :: tag, long, h, htext, htag => by
    obtain ⟨more, rfl⟩ := htext
    obtain ⟨rfl, htail⟩ := List.cons_prefix_cons.1 htag
    rw [clash, Bool.or_eq_true, bne_iff_ne] at h
    rw [Text.stripStart?]
    by_cases hs : s = d
    · rw [if_pos hs]
      exact stripStart?_of_clash (h.resolve_left (not_not.2 hs)) (List.prefix_append _ _) htail
    · rw [if_neg hs]

variable {starts : List (List Char)}

theorem avoids_append {a b : List Char} (ha : avoids starts a = true) (hb : avoids starts b = true) :
    avoids starts (a ++ b) = true := by
  induction a with
  | nil => exact hb
  | cons c a ih =>
    rw [avoids, Bool.and_eq_true] at ha
    rw [List.cons_append, avoids, Bool.and_eq_true]
    refine ⟨?_, ih ha.2⟩
    rw [Bool.or_eq_true, List.all_eq_true] at ha ⊢
    exact ha.1.imp_right fun h start hstart => clash_append b (h start hstart)

theorem avoids_mono {fewer : List (List Char)} (hfewer : fewer ⊆ starts) {text : List Char}
    (h : avoids starts text = true) : avoids fewer text = true := by
  induction text with
  | nil => rfl
  | cons c text ih =>
    rw [avoids, Bool.and_eq_true, Bool.or_eq_true, List.all_eq_true] at h
    rw [avoids, Bool.and_eq_true, Bool.or_eq_true, List.all_eq_true]
    exact ⟨h.1.imp_right fun hclash start hstart => hclash start (hfewer hstart), ih h.2⟩

theorem avoids_of_not_mem {text : List Char} (h : '<' ∉ text) : avoids starts text = true := by
  induction text with
  | nil => rfl
  | cons c text ih =>
    rw [List.mem_cons, not_or] at h
    rw [avoids, ih h.2, Bool.and_true, Bool.or_eq_true]
    exact .inl (bne_iff_ne.2 (Ne.symm h.1))

theorem avoids_ofList {chars : List Char} (h : avoids starts chars = true) :
    avoids starts (String.ofList chars).toList = true := by
  rwa [String.toList_ofList]

theorem avoids_escape (text : String) : avoids starts (escape text).toList = true :=
  avoids_of_not_mem fun h => absurd (isMark_of_mem_escape h) (by decide)

theorem avoids_toString (n : Nat) : avoids starts (toString n).toList = true := by
  have hdigits : (toString n).toList = Text.ofNat n := String.toList_ofList
  rw [hdigits]
  exact avoids_of_not_mem fun h => absurd (Text.isDigit_of_mem_ofNat h) (by decide)

/-- A part that is there or not, and has an escaped text in the middle. -/
theorem avoids_elim {before after : String} (hbefore : avoids starts before.toList = true)
    (hafter : avoids starts after.toList = true) (text : Option String) :
    avoids starts (text.elim "" fun text => before ++ escape text ++ after).toList = true := by
  cases text with
  | none => rfl
  | some text =>
    rw [Option.elim_some, String.toList_append, String.toList_append]
    exact avoids_append (avoids_append hbefore (avoids_escape text)) hafter

theorem avoids_join {texts : List String} (h : ∀ text ∈ texts, avoids starts text.toList = true) :
    avoids starts (String.join texts).toList = true := by
  induction texts with
  | nil => rfl
  | cons text texts ih =>
    rw [List.forall_mem_cons] at h
    rw [String.join_cons, String.toList_append]
    exact avoids_append h.1 (ih h.2)

/-- A text goes on to `rest` behind tags that have none of the given starts. -/
def Passes (starts : List (List Char)) (text rest : List Char) : Prop :=
  ∃ front, text = front ++ rest ∧ avoids starts front = true

theorem Passes.refl (text : List Char) : Passes starts text text := ⟨[], rfl, rfl⟩

theorem Passes.append {part text rest : List Char} (h : Passes starts text rest) (hpart : avoids starts part = true) :
    Passes starts (part ++ text) rest := by
  obtain ⟨front, rfl, hfront⟩ := h
  exact ⟨part ++ front, by rw [List.append_assoc], avoids_append hpart hfront⟩

end ApiCatalog.Html
