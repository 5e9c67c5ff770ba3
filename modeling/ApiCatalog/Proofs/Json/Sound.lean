import ApiCatalog.Proofs.Json.Reread
import Mathlib.Data.List.Nodup
/-!
# Values as they are read

In every value that is read from a text the keys of an object are distinct and integers have 64 bits (`sound_of_parse`).
All numbers come from number texts: no token, no document and no value has any other.
-/

namespace ApiCatalog.Json

/-- The keys of each object are distinct, and integers have 64 bits. -/
structure Value.Sound (v : Value) : Prop where
  keys : v.DistinctKeys
  fits : ∀ n ∈ v.numbers, n.Fits

namespace Value

theorem sound_number {n : Number} (h : n.Fits) : (Value.number n).Sound :=
  ⟨trivial, fun m hm => by rw [List.mem_singleton.1 hm]; exact h⟩

theorem sound_array {items : List Value} : (Value.array items).Sound ↔ ∀ v ∈ items, v.Sound := by
  induction items with
  | nil =>
    exact ⟨fun _ v hv => absurd hv List.not_mem_nil, fun _ => ⟨trivial, fun _ hn => absurd hn List.not_mem_nil⟩⟩
  | cons v vs ih =>
    rw [List.forall_mem_cons, ← ih]
    constructor
    · rintro ⟨⟨hv, hvs⟩, hfits⟩
      exact ⟨⟨hv, fun n hn => hfits n (List.mem_append_left _ hn)⟩, hvs, fun n hn =>
        hfits n (List.mem_append_right _ hn)⟩
    · rintro ⟨⟨hv, hvfits⟩, hvs, hvsfits⟩
      exact ⟨⟨hv, hvs⟩, fun n hn => (List.mem_append.1 hn).elim (hvfits n) (hvsfits n)⟩

theorem membersDistinct_iff : ∀ {members : Members}, MembersDistinct members ↔ ∀ m ∈ members, m.2.DistinctKeys
  | [] => by simp [MembersDistinct]
  | (key, v) :: members => by rw [MembersDistinct, List.forall_mem_cons, membersDistinct_iff]

theorem memberNumbers_eq : ∀ members : Members, memberNumbers members = members.flatMap fun m => m.2.numbers
  | [] => rfl
  | (key, v) :: members => by rw [memberNumbers, List.flatMap_cons, memberNumbers_eq]

theorem sound_object {members : Members} : (Value.object members).Sound ↔
    (members.map (·.1)).Nodup ∧ ∀ m ∈ members, m.2.Sound := by
  constructor
  · rintro ⟨⟨hkeys, hdistinct⟩, hfits⟩
    refine ⟨hkeys, fun m hm => ⟨membersDistinct_iff.1 hdistinct m hm, fun n hn => hfits n ?_⟩⟩
    rw [numbers, memberNumbers_eq]
    exact List.mem_flatMap.2 ⟨m, hm, hn⟩
  · rintro ⟨hkeys, hsound⟩
    refine ⟨⟨hkeys, membersDistinct_iff.2 fun m hm => (hsound m hm).keys⟩, fun n hn => ?_⟩
    rw [numbers, memberNumbers_eq] at hn
    obtain ⟨m, hm, hn⟩ := List.mem_flatMap.1 hn
    exact (hsound m hm).fits n hn

theorem sound_of_get? {members : Members} (h : (Value.object members).Sound) {key : String} {v : Value}
    (hv : members.get? key = some v) : v.Sound := by
  obtain ⟨m, hm, rfl⟩ := Option.map_eq_some_iff.1 hv
  exact (sound_object.1 h).2 m (List.mem_of_find?_eq_some hm)

end Value

namespace Members

theorem mem_put {members : Members} {key : String} {v : Value} {m : String × Value} (h : m ∈ members.put key v) :
    m.2 = v ∨ m ∈ members := by
  unfold put at h
  split at h
  · obtain ⟨old, hold, rfl⟩ := List.mem_map.1 h
    split
    · exact .inl rfl
    · exact .inr hold
  · exact (List.mem_append.1 h).symm.imp_left fun hm => by rw [List.mem_singleton.1 hm]

theorem key_of_mem_put {members : Members} {key : String} {v : Value} {m : String × Value}
    (h : m ∈ members.put key v) : m.1 = key ∨ m.1 ∈ members.map (·.1) := by
  unfold put at h
  split at h
  · obtain ⟨old, hold, rfl⟩ := List.mem_map.1 h
    refine .inr (List.mem_map.2 ⟨old, hold, ?_⟩)
    split <;> rfl
  · rcases List.mem_append.1 h with h | h
    · exact .inr (List.mem_map.2 ⟨m, h, rfl⟩)
    · exact .inl (by rw [List.mem_singleton.1 h])

theorem key_of_mem_foldl_put {m : String × Value} : ∀ {all : List (String × Value)} {done : Members},
    m ∈ all.foldl (fun all m => Members.put all m.1 m.2) done → m.1 ∈ done.map (·.1) ∨ m.1 ∈ all.map (·.1)
  | [], _, h => .inl (List.mem_map.2 ⟨m, h, rfl⟩)
  | (key, v) :: all, done, h => by
    rw [List.foldl_cons] at h
    rw [List.map_cons, List.mem_cons]
    rcases key_of_mem_foldl_put h with h | h
    · obtain ⟨old, hold, hkey⟩ := List.mem_map.1 h
      rw [← hkey]
      exact (key_of_mem_put hold).elim (.inr ∘ .inl) .inl
    · exact .inr (.inr h)

theorem key_of_mem_ofList {all : List (String × Value)} {m : String × Value} (h : m ∈ ofList all) :
    m.1 ∈ all.map (·.1) :=
  (key_of_mem_foldl_put h).resolve_left List.not_mem_nil

theorem nodup_put {members : Members} (h : (members.map (·.1)).Nodup) (key : String) (v : Value) :
    ((members.put key v).map (·.1)).Nodup := by
  unfold put
  split
  · rw [List.map_map]
    refine (congrArg List.Nodup (List.map_congr_left fun m _ => ?_)).mpr h
    simp only [Function.comp_apply]
    split <;> rfl
  · rename_i hnew
    rw [List.map_append, List.nodup_append]
    refine ⟨h, List.nodup_singleton _, ?_⟩
    rintro first hfirst other hother rfl
    obtain ⟨m, hm, hkey⟩ := List.mem_map.1 hfirst
    refine hnew (List.any_eq_true.2 ⟨m, hm, ?_⟩)
    rw [beq_iff_eq, hkey]
    exact List.mem_singleton.1 hother

theorem get?_put (members : Members) (key key' : String) (v : Value) :
    (members.put key v).get? key' = if key = key' then some v else members.get? key' := by
  unfold put get?
  split
  · rename_i hold
    have hkeys : ((·.1 == key') ∘ fun m : String × Value => if m.1 == key then (m.1, v) else m) = (·.1 == key') := by
      funext m
      dsimp only [Function.comp]
      split <;> rfl
    rw [List.find?_map, hkeys, Option.map_map]
    cases hfound : members.find? (·.1 == key') with
    | none =>
      obtain ⟨m, hm, hkey⟩ := List.any_eq_true.1 hold
      have hother : key ≠ key' := fun he => List.find?_eq_none.1 hfound m hm (he ▸ hkey)
      rw [if_neg hother]
      rfl
    | some m =>
      have hm : m.1 = key' := eq_of_beq (List.find?_some hfound :)
      by_cases hkey : key = key'
      · simp [hm, hkey]
      · simp [hm, hkey, Ne.symm hkey]
  · rename_i hnew
    rw [List.find?_append]
    by_cases hkey : key = key'
    · have hnone : members.find? (·.1 == key') = none := List.find?_eq_none.2 fun m hm he =>
        hnew (List.any_eq_true.2 ⟨m, hm, hkey ▸ he⟩)
      simp [hnone, hkey]
    · simp [hkey]

theorem get?_foldl_put {key : String} {v : Value} : ∀ {all : List (String × Value)} {done : Members},
    (key, v) ∈ all ∨ done.get? key = some v → (∀ m ∈ all, m.1 = key → m.2 = v) →
    (all.foldl (fun all m => Members.put all m.1 m.2) done).get? key = some v
  | [], _, h, _ => h.resolve_left List.not_mem_nil
  | m :: all, done, h, honly => by
    rw [List.forall_mem_cons] at honly
    rw [List.foldl_cons]
    refine get?_foldl_put ?_ honly.2
    rw [get?_put]
    by_cases hkey : m.1 = key
    · rw [if_pos hkey, honly.1 hkey]
      exact .inr rfl
    · rw [if_neg hkey]
      rcases h with h | h
      · exact .inl ((List.mem_cons.1 h).resolve_left fun he => hkey (he ▸ rfl))
      · exact .inr h

/-- A key has the value that it was read with, if it was read with no other. -/
theorem get?_ofList {key : String} {v : Value} {all : List (String × Value)} (h : (key, v) ∈ all)
    (honly : ∀ m ∈ all, m.1 = key → m.2 = v) : (ofList all).get? key = some v :=
  get?_foldl_put (.inl h) honly

theorem sound_foldl_put : ∀ {all : List (String × Value)} {done : Members}, (Value.object done).Sound →
    (∀ m ∈ all, m.2.Sound) → (Value.object (all.foldl (fun all m => Members.put all m.1 m.2) done)).Sound
  | [], _, hdone, _ => hdone
  | (key, v) :: all, done, hdone, hall => by
    rw [List.forall_mem_cons] at hall
    rw [Value.sound_object] at hdone
    have hput : (Value.object (put done key v)).Sound := by
      refine Value.sound_object.2 ⟨nodup_put hdone.1 key v, fun m hm => ?_⟩
      rcases mem_put hm with hv | hm
      · rw [hv]
        exact hall.1
      · exact hdone.2 m hm
    rw [List.foldl_cons]
    exact sound_foldl_put hput hall.2

theorem sound_nil : (Value.object []).Sound := Value.sound_object.2 ⟨List.nodup_nil, fun _ hm => by cases hm⟩

/-- **Members of sound values, as they are read, make a sound object.** -/
theorem sound_ofList {all : List (String × Value)} (h : ∀ m ∈ all, m.2.Sound) : (Value.object (ofList all)).Sound :=
  sound_foldl_put sound_nil h

end Members

/-! ## Tokens -/

/-- An integer in a token has 64 bits. -/
def Token.Fits : Token → Prop
  | .scalar (.number (some n)) => n.Fits
  | _ => True

namespace Token

theorem fits_number {n : Option Number} (h : ∀ m, n = some m → m.Fits) : (Token.scalar (.number n)).Fits := by
  cases n with
  | none => trivial
  | some n => exact h n rfl

theorem fits_numberToken (text : NumberText) : (numberToken text).Fits :=
  fits_number fun _ hn => Number.fits_of_ofText? hn

/-- All tokens of a lexer fit, and the one that it is at. -/
structure Lexer.Fits (lexer : Lexer) : Prop where
  done : ∀ token ∈ lexer.done, token.Fits
  word : ∀ rest value, lexer.mode = .word rest value → (Token.scalar value).Fits

namespace Lexer

variable {done : List Token}

theorem fits_emit (hdone : ∀ token ∈ done, token.Fits) {token : Token} (h : token.Fits) : (emit done token).Fits where
  done := List.forall_mem_cons.2 ⟨h, hdone⟩
  word _ _ he := by cases he

theorem fits_halt (hdone : ∀ token ∈ done, token.Fits) {token : Token} (h : token.Fits) : (halt done token).Fits where
  done := List.forall_mem_cons.2 ⟨h, hdone⟩
  word _ _ he := by cases he

theorem fits_begin (hdone : ∀ token ∈ done, token.Fits) (c : Char) : (begin done c).Fits := by
  unfold begin
  split
  case h_8 | h_9 | h_10 => exact ⟨hdone, fun _ _ he => by cases he; trivial⟩
  case h_13 =>
    split
    · exact ⟨hdone, fun _ _ he => by cases he⟩
    · split
      · exact ⟨hdone, fun _ _ he => by cases he⟩
      · exact fits_halt hdone trivial
  all_goals first | exact fits_emit hdone trivial | exact ⟨hdone, fun _ _ he => by cases he⟩

theorem fits_inNumber (hdone : ∀ token ∈ done, token.Fits) (part : NumberPart) (text : NumberText) (c : Char) :
    (inNumber done part text c).Fits := by
  have honward : ∀ part text, Lexer.Fits ⟨done, .number part text⟩ := fun _ _ => ⟨hdone, fun _ _ he => by cases he⟩
  have hbad : (halt done (.broken (.number false))).Fits := fits_halt hdone trivial
  have hclose : (begin (numberToken text :: done) c).Fits :=
    fits_begin (List.forall_mem_cons.2 ⟨fits_numberToken text, hdone⟩) c
  unfold inNumber
  cases part <;> dsimp only <;> repeat' split
  all_goals first | exact honward _ _ | exact hbad | exact hclose

theorem fits_feed {lexer : Lexer} (h : lexer.Fits) (c : Char) : (lexer.feed c).Fits := by
  obtain ⟨done, mode⟩ := lexer
  have hdone : ∀ token ∈ done, token.Fits := h.done
  have honward : ∀ mode, (∀ rest value, mode ≠ .word rest value) → Lexer.Fits ⟨done, mode⟩ := fun mode hmode =>
    ⟨hdone, fun rest value he => absurd he (hmode rest value)⟩
  cases mode with
  | halted => exact h
  | between => exact fits_begin hdone c
  | word rest value =>
    have hvalue := h.word rest value rfl
    cases rest with
    | nil => exact fits_begin (List.forall_mem_cons.2 ⟨hvalue, hdone⟩) c
    | cons next rest =>
      unfold feed
      dsimp only
      repeat' split
      · exact fits_halt hdone trivial
      · exact fits_emit hdone hvalue
      · exact ⟨hdone, fun _ _ he => by cases he; exact hvalue⟩
  | number part text => exact fits_inNumber hdone part text c
  | string s | escape s | hex s bytes value =>
    unfold feed
    dsimp only
    repeat' split
    all_goals first
      | exact fits_emit hdone trivial
      | exact fits_halt hdone trivial
      | exact honward _ fun _ _ he => by cases he

end Lexer

/-- **Every token of a text fits.** -/
theorem fits_of_mem_tokens {text : List Char} {token : Token} (h : token ∈ tokens text) : token.Fits := by
  have hfold : ∀ (text : List Char) (lexer : Lexer), lexer.Fits → (text.foldl Lexer.feed lexer).Fits := by
    intro text
    induction text with
    | nil => exact fun _ h => h
    | cons c text ih => exact fun lexer h => ih _ (Lexer.fits_feed h c)
  have hlexer := hfold text ⟨[], .between⟩ ⟨fun _ ht => absurd ht List.not_mem_nil, fun _ _ he => by cases he⟩
  have hbroken : ∀ {b : Broken}, token ∈ Token.broken b :: (text.foldl Lexer.feed ⟨[], .between⟩).done → token.Fits :=
    fun hmem => List.forall_mem_cons.2 ⟨trivial, hlexer.done⟩ token hmem
  rw [tokens, Lexer.finish, List.mem_reverse] at h
  split at h
  case h_4 =>
    split at h
    · exact List.forall_mem_cons.2 ⟨fits_numberToken _, hlexer.done⟩ token h
    · exact hbroken h
  all_goals first | exact hlexer.done token h | exact hbroken h

end Token

/-! ## Documents -/

namespace Doc

mutual

/-- All integers in a document have 64 bits. -/
def Fits : Doc → Prop
  | .scalar s => (Token.scalar s).Fits
  | .array items _ => ItemsFit items
  | .object members _ => MembersFit members

def ItemsFit : List Doc → Prop
  | [] => True
  | doc :: docs => Fits doc ∧ ItemsFit docs

def MembersFit : List (Key × Doc) → Prop
  | [] => True
  | (_, doc) :: members => Fits doc ∧ MembersFit members

end

theorem itemsFit_iff : ∀ {docs : List Doc}, ItemsFit docs ↔ ∀ doc ∈ docs, doc.Fits
  | [] => by simp [ItemsFit]
  | doc :: docs => by rw [ItemsFit, List.forall_mem_cons, itemsFit_iff]

theorem membersFit_iff : ∀ {members : List (Key × Doc)}, MembersFit members ↔ ∀ m ∈ members, m.2.Fits
  | [] => by simp [MembersFit]
  | (key, doc) :: members => by rw [MembersFit, List.forall_mem_cons, membersFit_iff]

theorem fits_array {items : List Doc} (cut : Option Cut) (h : ∀ doc ∈ items, doc.Fits) :
    (Doc.array items.reverse cut).Fits :=
  itemsFit_iff.2 fun doc hdoc => h doc (List.mem_reverse.1 hdoc)

theorem fits_object {members : List (Key × Doc)} (cut : Option Cut) (h : ∀ m ∈ members, m.2.Fits) :
    (Doc.object members.reverse cut).Fits :=
  membersFit_iff.2 fun m hm => h m (List.mem_reverse.1 hm)

/-- All that an open container holds fits. -/
def Frame.Fits : Frame → Prop
  | .array items => ∀ doc ∈ items, doc.Fits
  | .object members _ => ∀ m ∈ members, m.2.Fits

/-- All that a step leads to fits. -/
def Step.Fits : Step → Prop
  | .more builder => ∀ frame ∈ builder.stack, frame.Fits
  | .complete root => root.Fits
  | .cut stack _ _ => ∀ frame ∈ stack, frame.Fits

theorem Frame.fits_cut {frame : Frame} (h : frame.Fits) (comma : Bool) (fault : Fault) :
    (frame.cut comma fault).Fits := by
  cases frame with
  | array items => exact fits_array _ h
  | object members key => exact fits_object _ h

theorem Frame.fits_around {frame : Frame} (h : frame.Fits) {inner : Doc} (hinner : inner.Fits) (fault : Fault) :
    (frame.around inner fault).Fits := by
  cases frame with
  | array items => exact fits_array _ (List.forall_mem_cons.2 ⟨hinner, h⟩)
  | object members key =>
    cases key with
    | some key => exact fits_object _ (List.forall_mem_cons.2 ⟨hinner, h⟩)
    | none => exact fits_object _ h

namespace Builder

theorem fits_put {doc : Doc} (hdoc : doc.Fits) : ∀ {stack : List Frame}, (∀ frame ∈ stack, frame.Fits) →
    (put stack doc).Fits
  | [], _ => hdoc
  | .array items :: stack, h => by
    rw [List.forall_mem_cons] at h
    exact List.forall_mem_cons.2 ⟨List.forall_mem_cons.2 ⟨hdoc, h.1⟩, h.2⟩
  | .object members (some key) :: stack, h => by
    rw [List.forall_mem_cons] at h
    exact List.forall_mem_cons.2 ⟨List.forall_mem_cons.2 ⟨hdoc, h.1⟩, h.2⟩
  | .object members none :: stack, h => h

variable {stack : List Frame}

theorem fits_close (h : ∀ frame ∈ stack, frame.Fits) (token : Token) : (close stack token).Fits := by
  unfold close
  split
  · rw [List.forall_mem_cons] at h
    exact fits_put (fits_array none h.1) h.2
  · rw [List.forall_mem_cons] at h
    exact fits_put (fits_object none h.1) h.2
  · exact h

theorem fits_value (h : ∀ frame ∈ stack, frame.Fits) (comma : Bool) {token : Token} (htoken : token.Fits) :
    (value stack comma token).Fits := by
  unfold value
  split
  · rename_i s
    exact fits_put (show (Doc.scalar s).Fits from htoken) h
  · exact List.forall_mem_cons.2 ⟨fun _ hdoc => absurd hdoc List.not_mem_nil, h⟩
  · exact List.forall_mem_cons.2 ⟨fun _ hm => absurd hm List.not_mem_nil, h⟩
  · exact h
  · exact h

theorem fits_key (h : ∀ frame ∈ stack, frame.Fits) (comma : Bool) (token : Token) : (key stack comma token).Fits := by
  unfold key
  split
  · rw [List.forall_mem_cons] at h
    exact List.forall_mem_cons.2 h
  · exact h
  · exact h

theorem fits_feed {builder : Builder} (h : ∀ frame ∈ builder.stack, frame.Fits) {token : Token}
    (htoken : token.Fits) : (builder.feed token).Fits := by
  obtain ⟨stack, expect⟩ := builder
  unfold feed
  cases expect <;> dsimp only <;> repeat' split
  all_goals first
    | exact fits_value h _ htoken
    | exact fits_close h _
    | exact fits_key h _ _
    | exact h

theorem fits_cutAll (h : ∀ frame ∈ stack, frame.Fits) (comma : Bool) (fault : Fault) {root : Doc}
    (hroot : cutAll stack comma fault = .ok root) : root.Fits := by
  have haround : ∀ (stack : List Frame) (inner : Doc), (∀ frame ∈ stack, frame.Fits) → inner.Fits →
      (stack.foldl (fun inner frame => frame.around inner fault) inner).Fits := by
    intro stack
    induction stack with
    | nil => exact fun _ _ hinner => hinner
    | cons frame stack ih =>
      intro inner h hinner
      rw [List.forall_mem_cons] at h
      exact ih _ h.2 (Frame.fits_around h.1 hinner fault)
  cases stack with
  | nil => cases hroot
  | cons frame stack =>
    cases hroot
    rw [List.forall_mem_cons] at h
    exact haround stack _ h.2 (Frame.fits_cut h.1 comma fault)

theorem fits_finish {builder : Builder} (h : ∀ frame ∈ builder.stack, frame.Fits) : builder.finish.Fits := by
  unfold finish
  split
  · rename_i hstack
    rw [hstack] at h
    exact h
  · exact h
  · exact h

theorem fits_run : ∀ {tokens : List Token} {builder : Builder}, (∀ token ∈ tokens, token.Fits) →
    (∀ frame ∈ builder.stack, frame.Fits) → ∀ {root : Doc}, (builder.run tokens).root = .ok root → root.Fits
  | [], builder, _, h, root, hroot => by
    have hfinish := fits_finish h
    rw [run] at hroot
    split at hroot
    · rename_i hcut
      rw [hcut] at hfinish
      exact fits_cutAll hfinish _ _ hroot
    · rename_i complete hcomplete
      rw [hcomplete] at hfinish
      cases hroot
      exact hfinish
    · cases hroot
  | token :: tokens, builder, htokens, h, root, hroot => by
    rw [List.forall_mem_cons] at htokens
    have hfeed := fits_feed h htokens.1
    rw [run] at hroot
    split at hroot
    · rename_i next hnext
      rw [hnext] at hfeed
      exact fits_run htokens.2 hfeed hroot
    · rename_i complete hcomplete
      rw [hcomplete] at hfeed
      cases hroot
      exact hfeed
    · rename_i hcut
      rw [hcut] at hfeed
      exact fits_cutAll hfeed _ _ hroot

end Builder

/-- **All integers in the document of a text have 64 bits.** -/
theorem fits_ofText {text : List Char} {root : Doc} (h : (ofText text).root = .ok root) : root.Fits :=
  Builder.fits_run (fun _ => Token.fits_of_mem_tokens) (fun _ hframe => absurd hframe List.not_mem_nil) h

end Doc

/-! ## Values -/

namespace Reader

mutual

theorem sound_of_value (depth : Nat) : ∀ {doc : Doc} {v : Value}, doc.Fits → value depth doc = .ok v → v.Sound
  | .scalar .null, _, _, h | .scalar (.bool _), _, _, h | .scalar (.string (some _)), _, _, h => by
    cases h
    exact ⟨trivial, fun _ hn => absurd hn List.not_mem_nil⟩
  | .scalar (.number (some n)), _, hfits, h => by
    cases h
    exact Value.sound_number hfits
  | .scalar (.number none), _, _, h | .scalar (.string none), _, _, h => by cases h
  | .array docs cut, v, hfits, h => by
    cases depth with
    | zero => cases h
    | succ depth =>
      obtain ⟨all, hall, h⟩ := bind_eq_ok h
      obtain ⟨-, -, h⟩ := bind_eq_ok h
      cases h
      exact Value.sound_array.2 (sound_of_values depth hfits (fun _ hv => absurd hv List.not_mem_nil) hall)
  | .object members cut, v, hfits, h => by
    cases depth with
    | zero => cases h
    | succ depth =>
      obtain ⟨all, hall, h⟩ := bind_eq_ok h
      obtain ⟨-, -, h⟩ := bind_eq_ok h
      cases h
      exact Members.sound_ofList (sound_of_membersOf depth hfits (fun _ hm => absurd hm List.not_mem_nil) hall)

theorem sound_of_values (depth : Nat) : ∀ {docs : List Doc} {done all : List Value}, Doc.ItemsFit docs →
    (∀ v ∈ done, v.Sound) → values depth done docs = .ok all → ∀ v ∈ all, v.Sound
  | [], done, _, _, hdone, h => by
    cases h
    exact fun v hv => hdone v (List.mem_reverse.1 hv)
  | doc :: docs, done, all, hfits, hdone, h => by
    rw [values] at h
    split at h
    · rename_i v hv
      exact sound_of_values depth hfits.2 (List.forall_mem_cons.2 ⟨sound_of_value depth hfits.1 hv, hdone⟩) h
    · cases h

theorem sound_of_membersOf (depth : Nat) : ∀ {members : List (Key × Doc)} {done all : List (String × Value)},
    Doc.MembersFit members → (∀ m ∈ done, m.2.Sound) → membersOf depth done members = .ok all → ∀ m ∈ all, m.2.Sound
  | [], done, _, _, hdone, h => by
    cases h
    exact fun m hm => hdone m (List.mem_reverse.1 hm)
  | (none, doc) :: members, _, _, _, _, h => by cases h
  | (some key, doc) :: members, done, all, hfits, hdone, h => by
    rw [membersOf] at h
    split at h
    · rename_i v hv
      exact sound_of_membersOf depth hfits.2 (List.forall_mem_cons.2 ⟨sound_of_value depth hfits.1 hv, hdone⟩) h
    · cases h

end

end Reader

/-- **Every value that is read from a text is sound.** -/
theorem sound_of_parse {text : List Char} {v : Value} (h : parse text = .ok v) : v.Sound := by
  rw [parse, Reader.run] at h
  split at h
  · cases h
  · rename_i doc trailing hdoc
    obtain ⟨a, ha, h⟩ := bind_eq_ok h
    have hroot : (Doc.ofText text).root = .ok doc := by rw [hdoc]
    cases trailing <;> cases h
    exact Reader.sound_of_value _ (Doc.fits_ofText hroot) ha

/-! ## Keys -/

theorem Doc.key_of_mem_writtenMembers : ∀ {members : Members} {m : Key × Doc}, m ∈ writtenMembers members →
    ∃ key ∈ members.map (·.1), m.1 = some key
  | (key, v) :: members, m, h => by
    rw [List.map_cons]
    rcases List.mem_cons.1 h with rfl | h
    · exact ⟨key, List.mem_cons_self, rfl⟩
    · obtain ⟨other, hother, hm⟩ := Doc.key_of_mem_writtenMembers h
      exact ⟨other, List.mem_cons_of_mem _ hother, hm⟩

theorem Reader.key_of_membersOf (depth : Nat) : ∀ {members : List (Key × Doc)} {done all : List (String × Value)},
    membersOf depth done members = .ok all → ∀ m ∈ all, m ∈ done ∨ some m.1 ∈ members.map (·.1)
  | [], _, _, h, m, hm => by
    cases h
    exact .inl (List.mem_reverse.1 hm)
  | (none, _) :: _, _, _, h, _, _ => by cases h
  | (some key, doc) :: members, done, all, h, m, hm => by
    rw [membersOf] at h
    rw [List.map_cons, List.mem_cons]
    split at h
    · rcases Reader.key_of_membersOf depth h m hm with hm | hm
      · rcases List.mem_cons.1 hm with rfl | hm
        · exact .inr (.inl rfl)
        · exact .inl hm
      · exact .inr (.inr hm)
    · cases h

/-- **The text of an object, if it can be read, is read as an object with no other keys.** -/
theorem object_of_parse_pretty {members : Members} {v : Value}
    (h : parse (Value.object members).pretty.toList = .ok v) :
    ∃ again : Members, v = .object again ∧ ∀ m ∈ again, m.1 ∈ members.map (·.1) := by
  rw [parse, Reader.run, Doc.ofText_pretty] at h
  obtain ⟨w, hvalue, h⟩ := bind_eq_ok h
  cases h
  obtain ⟨all, hall, hvalue⟩ := bind_eq_ok hvalue
  cases hvalue
  refine ⟨_, rfl, fun m hm => ?_⟩
  obtain ⟨read, hread, hkey⟩ := List.mem_map.1 (Members.key_of_mem_ofList hm)
  rcases Reader.key_of_membersOf _ hall read hread with hnone | hread
  · cases hnone
  · obtain ⟨written, hwritten, hread⟩ := List.mem_map.1 hread
    obtain ⟨key, hmem, hwritten⟩ := Doc.key_of_mem_writtenMembers hwritten
    rw [hwritten] at hread
    cases hread
    rwa [← hkey]

end ApiCatalog.Json
