import ApiCatalog.Proofs.Json.Printed
import ApiCatalog.Proofs.Yaml.Scalar
import ApiCatalog.Yaml.Token
/-!
# JSON texts as YAML tokens

If a YAML lexer gets through the text of a JSON object, it reads the tokens of a mapping in flow style, whatever the
strings in it hold (`tokens?_pretty`).
-/

namespace ApiCatalog.Yaml

open Json (quoted)
open Scalar (IsWord Ends isFlowMark isLayout strip)

/-! ## Nodes in flow style -/

/-- A key in a flow mapping, and whether it is marked as one, which is not done if it is too long. -/
structure FlowKey where
  text : List Char
  marked : Bool

def FlowKey.tokens (key : FlowKey) : List Token :=
  if key.marked then [.key, .scalar key.text false, .value] else [.scalar key.text false, .value]

/-- Nodes as they are in JSON texts: collections have brackets, and no node has properties. -/
inductive Flow where
  | scalar (text : List Char) (plain : Bool)
  | sequence (items : List Flow)
  | mapping (members : List (FlowKey × Flow))

namespace Flow

mutual

def tokens : Flow → List Token
  | .scalar text plain => [.scalar text plain]
  | .sequence [] => [.flowSequenceStart, .flowSequenceEnd]
  | .sequence (v :: vs) => .flowSequenceStart :: (tokens v ++ itemTokens vs ++ [.flowSequenceEnd])
  | .mapping [] => [.flowMappingStart, .flowMappingEnd]
  | .mapping ((key, v) :: members) =>
    .flowMappingStart :: (key.tokens ++ tokens v ++ memberTokens members ++ [.flowMappingEnd])

def itemTokens : List Flow → List Token
  | [] => []
  | v :: vs => .flowEntry :: (tokens v ++ itemTokens vs)

def memberTokens : List (FlowKey × Flow) → List Token
  | [] => []
  | (key, v) :: members => .flowEntry :: (key.tokens ++ tokens v ++ memberTokens members)

end

end Flow

/-! ## Lexers in flow collections -/

namespace Lexer

/-- The lexer gets through the text and ends with these tokens. -/
def Runs (all : List Token) (lx : Lexer) : Prop := ∃ fuel, run? fuel lx = some all

/-- A lexer that has read some tokens and is in as many flow collections as the depth says, with no block collection
around them, so that none of the keys that may have started is required. -/
structure Inside (depth : Nat) (done : List Token) (lx : Lexer) : Prop where
  count : lx.count = done.length
  done : lx.done = done
  indent : lx.indent = -1
  indents : lx.indents = []
  flow : lx.flow = depth
  optional : ∀ key, some key ∈ lx.keys → key.required = false
  size : lx.src.rest.length ≤ lx.src.size

section
variable {depth : Nat} {done : List Token} {lx : Lexer} {c : Char} {tail : List Char}

theorem Inside.flow_ne (h : Inside (depth + 1) done lx) : lx.flow ≠ 0 := by
  rw [h.flow]
  exact Nat.succ_ne_zero depth

/-! ### The next token -/

/-- The characters that tokens of JSON texts start with are no layout. -/
def isStart (c : Char) : Bool := !(isBlank c || isBreak c || c == '#' || c == '\uFEFF')

theorem isStart_spec (h : isStart c = true) :
    isBlank c = false ∧ isBreak c = false ∧ isLayout c = false ∧ c ≠ '#' ∧ c ≠ '\uFEFF' := by
  simp only [isStart, Bool.not_eq_true', Bool.or_eq_false_iff, beq_eq_false_iff_ne] at h
  obtain ⟨⟨⟨hblank, hbreak⟩, hcomment⟩, hmark⟩ := h
  refine ⟨hblank, hbreak, ?_, hcomment, hmark⟩
  simp only [isBlank, isBreak, Bool.or_eq_false_iff] at hblank hbreak
  rw [isLayout, hblank.1, hbreak.1.1.1.1]
  rfl

/-- The text starts with a token or is at its end. -/
def Starts (text : List Char) : Prop := ∀ c ∈ text.head?, isStart c = true

theorem starts_cons (h : isStart c = true) (tail : List Char) : Starts (c :: tail) := fun d hd => by
  cases hd
  exact h

theorem dropWhile_line {p : Char → Bool} (hspace : p ' ' = true) (hline : p '\n' = false)
    (hp : ∀ c, isStart c = true → p c = false) : ∀ {text : List Char}, Starts (strip text) →
    text.dropWhile p = strip text ∨
      ∃ more, text.dropWhile p = '\n' :: more ∧ strip more = strip text ∧ more.length < text.length
  | [], _ => .inl rfl
  | d :: text, hstarts => by
    cases hd : isLayout d with
    | false =>
      rw [Scalar.strip_cons hd] at hstarts ⊢
      exact .inl (List.dropWhile_cons_of_neg (by rw [hp d (hstarts d rfl)]; exact Bool.false_ne_true))
    | true =>
      rw [Scalar.strip_layout hd] at hstarts ⊢
      rcases Scalar.eq_of_isLayout hd with rfl | rfl
      · rw [List.dropWhile_cons_of_pos hspace]
        refine (dropWhile_line hspace hline hp hstarts).imp_right fun ⟨more, hdrop, hmore, hlt⟩ => ?_
        exact ⟨more, hdrop, hmore, Nat.lt_succ_of_lt hlt⟩
      · exact .inr ⟨text, List.dropWhile_cons_of_neg (by rw [hline]; exact Bool.false_ne_true), rfl,
          Nat.lt_succ_self _⟩

theorem rest_skipWhile (src : Source) (p : Char → Bool) : (src.skipWhile p).rest = src.rest.dropWhile p := calc
  src.rest.drop (src.rest.takeWhile p).length
  _ = (src.rest.takeWhile p ++ src.rest.dropWhile p).drop (src.rest.takeWhile p).length := by
    rw [List.takeWhile_append_dropWhile]
  _ = src.rest.dropWhile p := List.drop_left

theorem skipOrderMark_of_starts {src : Source} (hstarts : Starts (strip src.rest)) : src.skipOrderMark = src := by
  have hnone : src.at_ 0 '\uFEFF' = false := by
    cases hrest : src.rest with
    | nil => simp [Source.at_, hrest]
    | cons d more =>
      rw [hrest] at hstarts
      cases hd : isLayout d with
      | true => simpa [Source.at_, hrest] using Scalar.ne_of_class hd (by decide)
      | false =>
        rw [Scalar.strip_cons hd] at hstarts
        simpa [Source.at_, hrest] using (isStart_spec (hstarts d rfl)).2.2.2.2
  rw [Source.skipOrderMark, hnone, Bool.and_false]
  rfl

theorem skipComment_of_ne {src : Source} (h : src.rest.head? ≠ some '#') : src.skipComment = src := by
  rw [Source.skipComment, Source.at_, ← List.head?_eq_getElem?, beq_eq_false_iff_ne.2 h]
  rfl

/-- Layout is passed over to what stands behind it; besides the place, a key may be allowed where none was. -/
theorem toNext_layout : ∀ {fuel : Nat} {lx : Lexer}, Starts (strip lx.src.rest) → lx.src.rest.length < fuel →
    ∃ src keyAllowed, toNext fuel lx = { lx with src, keyAllowed } ∧ src.rest = strip lx.src.rest ∧
      src.size = lx.src.size ∧ (lx.keyAllowed = true → keyAllowed = true)
  | fuel + 1, lx, hstarts, hfuel => by
    rw [toNext, skipOrderMark_of_starts hstarts]
    set p : Char → Bool := fun c => c == ' ' || ((lx.flow ≠ 0 || !lx.keyAllowed) && c == '\t') with hp
    have hpass : ∀ c, isStart c = true → p c = false := fun c hc => by
      obtain ⟨hblank, -⟩ := isStart_spec hc
      rw [isBlank, Bool.or_eq_false_iff] at hblank
      simp [hp, hblank]
    have hrest := rest_skipWhile lx.src p
    rcases dropWhile_line rfl (by simp [hp]) hpass hstarts with hdrop | ⟨more, hdrop, hmore, hlt⟩
    · rw [hdrop] at hrest
      have hcomment : (lx.src.skipWhile p).skipComment = lx.src.skipWhile p := skipComment_of_ne fun hhead => by
        rw [hrest] at hhead
        exact (isStart_spec (hstarts _ hhead)).2.2.2.1 rfl
      refine ⟨lx.src.skipWhile p, lx.keyAllowed, ?_, hrest, rfl, id⟩
      rw [hcomment]
      split
      · rfl
      · rename_i c tail hc
        rw [hrest] at hc
        rw [(isStart_spec (hstarts c (by rw [hc]; rfl))).2.1]
        rfl
    · rw [hdrop] at hrest
      have hline : isBreak '\n' = true := rfl
      have hcomment : (lx.src.skipWhile p).skipComment = lx.src.skipWhile p := skipComment_of_ne (by rw [hrest]; simp)
      have hskip := Scalar.rest_skipBreak hrest hline (by decide)
      let line : Lexer := { lx with src := (lx.src.skipWhile p).skipBreak, keyAllowed := lx.keyAllowed || lx.flow = 0 }
      have hstrip : strip line.src.rest = strip lx.src.rest := (congrArg strip hskip).trans hmore
      have hfuel : line.src.rest.length < fuel :=
        hskip.symm ▸ Nat.lt_of_lt_of_le hlt (Nat.le_of_lt_succ hfuel)
      obtain ⟨src, keyAllowed, hnext, hsrc, hsize, hallowed⟩ := toNext_layout (hstrip ▸ hstarts) hfuel
      rw [hstrip] at hsrc
      refine ⟨src, keyAllowed, ?_, hsrc, hsize.trans (Scalar.size_skipBreak _), fun h => hallowed (by simp [line, h])⟩
      rw [hcomment, hrest]
      exact hnext

theorem mapM_eq_some_map {α β : Type} {f : α → Option β} {g : α → β} :
    ∀ {l : List α}, (∀ x ∈ l, f x = some (g x)) → l.mapM f = some (l.map g)
  | [], _ => rfl
  | x :: l, h => by
    rw [List.mapM_cons, h x List.mem_cons_self, mapM_eq_some_map fun y hy => h y (List.mem_cons_of_mem _ hy)]
    rfl

theorem Inside.dropStale (h : Inside depth done lx) :
    ∃ keys, lx.dropStale? = some { lx with keys } ∧ Inside depth done { lx with keys } ∧
      (keys.head? = lx.keys.head? ∨ keys.head? = some none) := by
  refine ⟨lx.keys.map fun key => key.filter fun key => !lx.isStale key, ?_, ?_, ?_⟩
  · rw [dropStale?, mapM_eq_some_map (g := fun key => key.filter fun key => !lx.isStale key) fun key hkey => ?_]
    · rfl
    · cases key with
      | none => rfl
      | some key => cases hstale : lx.isStale key <;> simp [Option.filter, hstale, h.optional key hkey]
  · refine { h with optional := fun key hkey => ?_ }
    obtain ⟨saved, hsaved, hkey⟩ := List.mem_map.1 hkey
    obtain ⟨rfl, -⟩ := Option.filter_eq_some_iff.1 hkey
    exact h.optional key hsaved
  · rw [List.head?_map]
    rcases lx.keys.head? with _ | _ | key
    · exact .inl rfl
    · exact .inl rfl
    · cases hstale : lx.isStale key <;> simp [Option.filter, hstale]

theorem Inside.unroll (h : Inside depth done lx) (column : Int) : lx.unroll column = lx := by
  rw [Lexer.unroll, h.indents]
  split <;> rfl

/-- **A lexer that gets through goes on to the next token**, or to the end; the key that may have started last may have
been dropped. -/
theorem Inside.next {all : List Token} (h : Inside depth done lx) (hruns : lx.Runs all)
    (hstarts : Starts (strip lx.src.rest)) :
    ∃ before, Inside depth done before ∧ before.src.rest = strip lx.src.rest ∧
      (lx.keyAllowed = true → before.keyAllowed = true) ∧
      (before.keys.head? = lx.keys.head? ∨ before.keys.head? = some none) ∧
      (before.src.rest = [] → before.finish? = some all) ∧
      ∀ c tail, before.src.rest = c :: tail → ∃ after, before.token? c = some after ∧ after.Runs all := by
  obtain ⟨fuel, hrun⟩ := hruns
  cases fuel with
  | zero => cases hrun
  | succ fuel =>
    obtain ⟨src, keyAllowed, hnext, hrest, hsize, hallowed⟩ := toNext_layout hstarts (Nat.lt_succ_of_le h.size)
    have hinside : Inside depth done { lx with src, keyAllowed } :=
      { h with size := by rw [hrest, hsize]; exact Nat.le_trans (Scalar.length_strip_le _) h.size }
    rw [run?, hnext] at hrun
    obtain ⟨keys, hdrop, hinside, hhead⟩ := hinside.dropStale
    obtain ⟨dropped, hdropped, hrun⟩ := Option.bind_eq_some_iff.1 hrun
    rw [hdrop] at hdropped
    cases hdropped
    dsimp only at hrun
    rw [hinside.unroll] at hrun
    refine ⟨_, hinside, hrest, hallowed, hhead, fun hend => ?_, fun c tail hcons => ?_⟩
    · dsimp only at hrun hend
      rwa [hend] at hrun
    · dsimp only at hrun hcons
      rw [hcons] at hrun
      obtain ⟨after, htoken, hrun⟩ := Option.bind_eq_some_iff.1 hrun
      exact ⟨after, htoken, fuel, hrun⟩

theorem Inside.read (h : Inside depth done lx) {src : Source} (hsize : src.rest.length ≤ src.size) (keyAllowed : Bool)
    (token : Token) : Inside depth (token :: done) (lx.read keyAllowed token src) where
  count := congrArg (· + 1) h.count
  done := congrArg (token :: ·) h.done
  indent := h.indent
  indents := h.indents
  flow := h.flow
  optional := h.optional
  size := hsize

theorem Inside.dropKey (h : Inside depth done lx) :
    ∃ keys, lx.dropKey? = some { lx with keys } ∧ Inside depth done { lx with keys } := by
  cases hkeys : lx.keys with
  | nil =>
    have hdrop : lx.dropKey? = some lx := by rw [dropKey?, hkeys]
    exact ⟨lx.keys, hdrop, h⟩
  | cons key keys =>
    have hoptional : key.any (·.required) = false := by
      cases key with
      | none => rfl
      | some key => exact h.optional key (hkeys ▸ List.mem_cons_self)
    refine ⟨none :: keys, by simp [dropKey?, hkeys, hoptional], { h with optional := fun key hkey => ?_ }⟩
    rcases List.mem_cons.1 hkey with hnone | hkey
    · cases hnone
    · exact h.optional key (hkeys ▸ List.mem_cons_of_mem _ hkey)

theorem Inside.saveKey (h : Inside depth done lx) :
    ∃ keys, lx.saveKey? = some { lx with keys } ∧ Inside depth done { lx with keys } ∧
      (lx.keyAllowed = true → ∃ key, keys.head? = some (some key) ∧ key.token = done.length) := by
  by_cases hallowed : lx.keyAllowed = true
  · obtain ⟨keys, hdrop, hinside⟩ := h.dropKey
    have hsave : (!lx.keyAllowed) = false := by rw [hallowed]; rfl
    refine ⟨_, by rw [saveKey?, hsave, hdrop]; rfl, ?_, fun _ => ⟨_, rfl, h.count⟩⟩
    refine { hinside with optional := fun key hkey => ?_ }
    rcases List.mem_cons.1 hkey with hkey | hkey
    · cases hkey
      have hcolumn : (lx.indent = (lx.src.column : Int)) = False := by
        rw [h.indent, eq_iff_iff, iff_false]
        omega
      simp [hcolumn]
    · exact hinside.optional key (List.mem_of_mem_drop hkey)
  · have hnone : (!lx.keyAllowed) = true := by rw [Bool.eq_false_iff.2 hallowed]; rfl
    exact ⟨lx.keys, by rw [saveKey?, hnone]; rfl, h, fun hfresh => absurd hfresh hallowed⟩

/-! ### The tokens of JSON texts -/

theorem rest_skip_one {src : Source} (hrest : src.rest = c :: tail) : (src.skip 1).rest = tail := by
  simp [Source.skip, hrest]

section
variable {after : Lexer}

theorem Inside.readMark (h : Inside depth done lx) (hrest : lx.src.rest = c :: tail) (keyAllowed : Bool) (token : Token) :
    Inside depth (token :: done) (lx.read keyAllowed token (lx.src.skip 1)) := by
  refine h.read ?_ keyAllowed token
  have hsize := h.size
  rw [hrest, List.length_cons] at hsize
  rw [rest_skip_one hrest]
  exact Nat.le_of_succ_le hsize

theorem Inside.opened {token : Token} (h : Inside depth done lx) (hrest : lx.src.rest = c :: tail)
    (hc : c = '[' ∧ token = .flowSequenceStart ∨ c = '\x7b' ∧ token = .flowMappingStart)
    (htoken : lx.token? c = some after) :
    Inside (depth + 1) (token :: done) after ∧ after.keyAllowed = true ∧ after.src.rest = tail := by
  obtain ⟨keys, hsave, hinside, -⟩ := h.saveKey
  have hopened : Inside (depth + 1) done { lx with flow := lx.flow + 1, keys := none :: keys } :=
    { hinside with
      flow := congrArg (· + 1) h.flow
      optional := fun key hkey => by
        rcases List.mem_cons.1 hkey with hnone | hkey
        · cases hnone
        · exact hinside.optional key hkey }
  have hafter : { lx with flow := lx.flow + 1, keys := none :: keys }.read true token (lx.src.skip 1) = after := by
    rcases hc with ⟨rfl, rfl⟩ | ⟨rfl, rfl⟩ <;> simpa [token?, Scalar.marks_of_ne hrest, hsave] using htoken
  rw [← hafter]
  exact ⟨hopened.readMark hrest true _, rfl, rest_skip_one hrest⟩

theorem Inside.closed {token : Token} (h : Inside (depth + 1) done lx) (hrest : lx.src.rest = c :: tail)
    (hc : c = ']' ∧ token = .flowSequenceEnd ∨ c = '\x7d' ∧ token = .flowMappingEnd)
    (htoken : lx.token? c = some after) : Inside depth (token :: done) after ∧ after.src.rest = tail := by
  obtain ⟨keys, hdrop, hinside⟩ := h.dropKey
  have hclosed : Inside depth done { lx with flow := lx.flow - 1, keys := keys.drop 1 } :=
    { hinside with
      flow := by rw [h.flow]; rfl
      optional := fun key hkey => hinside.optional key (List.mem_of_mem_drop hkey) }
  have hafter : { lx with flow := lx.flow - 1, keys := keys.drop 1 }.read false token (lx.src.skip 1) = after := by
    rcases hc with ⟨rfl, rfl⟩ | ⟨rfl, rfl⟩ <;>
      simpa [token?, Scalar.marks_of_ne hrest, hdrop, h.flow_ne] using htoken
  rw [← hafter]
  exact ⟨hclosed.readMark hrest false _, rest_skip_one hrest⟩

theorem Inside.comma (h : Inside depth done lx) (hrest : lx.src.rest = ',' :: tail) (htoken : lx.token? ',' = some after) :
    Inside depth (.flowEntry :: done) after ∧ after.keyAllowed = true ∧ after.src.rest = tail := by
  obtain ⟨keys, hdrop, hinside⟩ := h.dropKey
  have hafter : { lx with keys }.read true .flowEntry (lx.src.skip 1) = after := by
    simpa [token?, Scalar.marks_of_ne hrest, hdrop] using htoken
  rw [← hafter]
  exact ⟨hinside.readMark hrest true _, rfl, rest_skip_one hrest⟩

/-- The colon behind a key marks the key, if that is still known to be one. -/
theorem Inside.colon {token : Token} (h : Inside (depth + 1) (token :: done) lx) (hrest : lx.src.rest = ':' :: tail)
    (hkeys : (∃ key, lx.keys.head? = some (some key) ∧ key.token = done.length) ∨ lx.keys.head? = some none)
    (htoken : lx.token? ':' = some after) :
    (Inside (depth + 1) (.value :: token :: .key :: done) after ∨ Inside (depth + 1) (.value :: token :: done) after) ∧
      after.src.rest = tail := by
  have hvalue : lx.value? = some after := by
    simpa [token?, Scalar.marks_of_ne hrest, h.flow_ne] using htoken
  rw [value?] at hvalue
  rcases hkeys with ⟨key, hhead, hnumber⟩ | hhead
  · obtain ⟨keys, hkeys⟩ := List.head?_eq_some_iff.1 hhead
    have hinsert : (lx.insert key.token .key).roll key.column (some key.token) .blockMappingStart =
        { lx with done := token :: .key :: done, count := done.length + 2 } := by
      rw [insert, h.count, h.done, hnumber, List.length_cons, Nat.add_sub_cancel_left]
      exact if_pos (.inl h.flow_ne)
    have hmarked : Inside (depth + 1) (token :: .key :: done)
        { lx with done := token :: .key :: done, count := done.length + 2, keys := none :: keys } :=
      { h with
        count := rfl
        done := rfl
        optional := fun key hkey => by
          rcases List.mem_cons.1 hkey with hnone | hkey
          · cases hnone
          · exact h.optional key (hkeys ▸ List.mem_cons_of_mem _ hkey) }
    simp only [hkeys, hinsert] at hvalue
    cases hvalue
    exact ⟨.inl (hmarked.readMark hrest false _), rest_skip_one hrest⟩
  · obtain ⟨keys, hkeys⟩ := List.head?_eq_some_iff.1 hhead
    simp only [hkeys, h.flow_ne, ne_eq, not_false_eq_true, if_true] at hvalue
    cases hvalue
    exact ⟨.inr (h.readMark hrest false _), rest_skip_one hrest⟩

theorem Inside.string {s : String} (h : Inside depth done lx) (hrest : lx.src.rest = quoted s ++ tail)
    (htoken : lx.token? '"' = some after) :
    ∃ text, Inside depth (.scalar text false :: done) after ∧ after.src.rest = tail ∧
      ((∀ c ∈ s.toList, isNameChar c = true) → text = s.toList) ∧
      (lx.keyAllowed = true → ∃ key, after.keys.head? = some (some key) ∧ key.token = done.length) := by
  obtain ⟨keys, hsave, hinside, hkey⟩ := h.saveKey
  have hquote : lx.src.rest = '"' :: (s.toList.flatMap Json.escapeChar ++ ['"'] ++ tail) := hrest
  have hbind : (Scalar.readQuoted false lx.src).bind (fun read =>
      some ({ lx with keys }.read false (.scalar read.1 false) read.2)) = some after := by
    simpa [token?, Scalar.marks_of_ne hquote, hsave] using htoken
  obtain ⟨⟨text, src⟩, hread, hafter⟩ := Option.bind_eq_some_iff.1 hbind
  cases hafter
  obtain ⟨htail, hsize⟩ := Scalar.rest_readQuoted hrest hread
  refine ⟨text, hinside.read ?_ _ _, htail, fun hs => Scalar.readQuoted_simple hs hrest h.size hread, hkey⟩
  have hlength := h.size
  rw [hrest, List.length_append] at hlength
  rw [htail, hsize]
  exact Nat.le_trans (Nat.le_add_left _ _) hlength

theorem Inside.word {w : List Char} (h : Inside (depth + 1) done lx) (hw : IsWord w) (hends : Ends tail)
    (hrest : lx.src.rest = w ++ tail) (hc : w.head? = some c) (htoken : lx.token? c = some after) :
    Inside (depth + 1) (.scalar w true :: done) after ∧ after.src.rest = strip tail := by
  obtain ⟨keys, hsave, hinside, -⟩ := h.saveKey
  obtain ⟨plain, hread, htext, hnext, hsize⟩ := Scalar.readPlain_word hw hends hrest h.size (lx.indent + 1)
  have hafter : { lx with keys }.read plain.broken (.scalar plain.text true) plain.next = after := by
    rcases hw.head with ⟨d, next, rfl, hd⟩ | ⟨d, next, rfl, hd⟩ <;> cases hc
    · have hne : ∀ other : Char, other.isAlphanum = false → c ≠ other := fun _ => Scalar.ne_of_class hd
      simpa (disch := decide) [token?, startsPlain, isBlank, isBreak, Scalar.marks_word hw hrest, hsave, h.flow_ne,
        hread, hne] using htoken
    · have hnext : lx.src.peek 1 = some d := by simp [Source.peek, hrest]
      obtain ⟨hgap, -⟩ := Scalar.isWordChar_spec (c := d) (by simp [Scalar.isWordChar, hd])
      rw [Bool.or_eq_false_iff] at hgap
      simpa [token?, startsPlain, Scalar.marks_word hw hrest, hsave, h.flow_ne, hread, hnext, isSpacing, hgap] using htoken
  rw [← hafter, htext]
  refine ⟨hinside.read ?_ _ _, hnext⟩
  have hlength := h.size
  rw [hrest, List.length_append] at hlength
  rw [hnext, hsize]
  exact Nat.le_trans (Scalar.length_strip_le tail) (Nat.le_trans (Nat.le_add_left _ _) hlength)

end

/-! ### Places that are passed -/

/-- The lexing that ends with all the tokens passes a place behind those that are done, and what comes next is told up to
layout.  At a fresh place a key may start. -/
def Passes (all : List Token) (fresh : Bool) (depth : Nat) (done : List Token) (rest : List Char) : Prop :=
  ∃ lx : Lexer, lx.Runs all ∧ Inside depth done lx ∧ (fresh = true → lx.keyAllowed = true) ∧
    strip lx.src.rest = strip rest

section
variable {all : List Token} {fresh : Bool} {rest : List Char} {token : Token}

theorem Passes.of_strip (h : Passes all fresh depth done rest) {rest' : List Char} (hstrip : strip rest = strip rest') :
    Passes all fresh depth done rest' := by
  obtain ⟨lx, hruns, hinside, hfresh, hrest⟩ := h
  exact ⟨lx, hruns, hinside, hfresh, hrest.trans hstrip⟩

theorem isLayout_lineStart {level : Nat} (h : c ∈ Json.Value.lineStart level) : isLayout c = true := by
  rcases List.mem_cons.1 h with rfl | h
  · rfl
  · rw [List.eq_of_mem_replicate h]
    rfl

theorem Passes.layout (level : Nat) (h : Passes all fresh depth done (Json.Value.lineStart level ++ rest)) :
    Passes all fresh depth done rest :=
  h.of_strip (Scalar.strip_append (fun _ => isLayout_lineStart) rest)

theorem Passes.space (h : Passes all fresh depth done (' ' :: rest)) : Passes all fresh depth done rest :=
  h.of_strip (Scalar.strip_layout rfl rest)

theorem Passes.next (h : Passes all fresh depth done (c :: rest)) (hstart : isStart c = true) :
    ∃ before after, Inside depth done before ∧ before.src.rest = c :: rest ∧
      (fresh = true → before.keyAllowed = true) ∧ before.token? c = some after ∧ after.Runs all := by
  obtain ⟨lx, hruns, hinside, hfresh, hrest⟩ := h
  rw [Scalar.strip_cons (isStart_spec hstart).2.2.1] at hrest
  obtain ⟨before, hbefore, hsame, hallowed, -, -, hnext⟩ := hinside.next hruns (hrest ▸ starts_cons hstart rest)
  rw [hrest] at hsame
  obtain ⟨after, htoken, hruns⟩ := hnext c rest hsame
  exact ⟨before, after, hbefore, hsame, fun h => hallowed (hfresh h), htoken, hruns⟩

theorem Passes.opened (h : Passes all fresh depth done (c :: rest))
    (hc : c = '[' ∧ token = .flowSequenceStart ∨ c = '\x7b' ∧ token = .flowMappingStart) :
    Passes all true (depth + 1) (token :: done) rest := by
  obtain ⟨before, after, hbefore, hrest, -, htoken, hruns⟩ := h.next (by rcases hc with ⟨rfl, -⟩ | ⟨rfl, -⟩ <;> rfl)
  obtain ⟨hafter, hallowed, htail⟩ := hbefore.opened hrest hc htoken
  exact ⟨after, hruns, hafter, fun _ => hallowed, congrArg strip htail⟩

theorem Passes.closed (h : Passes all fresh (depth + 1) done (c :: rest))
    (hc : c = ']' ∧ token = .flowSequenceEnd ∨ c = '\x7d' ∧ token = .flowMappingEnd) :
    Passes all false depth (token :: done) rest := by
  obtain ⟨before, after, hbefore, hrest, -, htoken, hruns⟩ := h.next (by rcases hc with ⟨rfl, -⟩ | ⟨rfl, -⟩ <;> rfl)
  obtain ⟨hafter, htail⟩ := hbefore.closed hrest hc htoken
  exact ⟨after, hruns, hafter, fun h => (by cases h), congrArg strip htail⟩

theorem Passes.comma (h : Passes all fresh depth done (',' :: rest)) :
    Passes all true depth (.flowEntry :: done) rest := by
  obtain ⟨before, after, hbefore, hrest, -, htoken, hruns⟩ := h.next rfl
  obtain ⟨hafter, hallowed, htail⟩ := hbefore.comma hrest htoken
  exact ⟨after, hruns, hafter, fun _ => hallowed, congrArg strip htail⟩

theorem Passes.string {s : String} (h : Passes all fresh depth done (quoted s ++ rest)) :
    ∃ text, Passes all false depth (.scalar text false :: done) rest := by
  have hquote : Passes all fresh depth done ('"' :: (s.toList.flatMap Json.escapeChar ++ ['"'] ++ rest)) := h
  obtain ⟨before, after, hbefore, hrest, -, htoken, hruns⟩ := hquote.next rfl
  obtain ⟨text, hafter, htail, -, -⟩ := hbefore.string hrest htoken
  exact ⟨text, after, hruns, hafter, fun h => (by cases h), congrArg strip htail⟩

theorem Passes.word {w : List Char} (hw : IsWord w) (hends : Ends rest)
    (h : Passes all fresh (depth + 1) done (w ++ rest)) :
    Passes all false (depth + 1) (.scalar w true :: done) rest := by
  obtain ⟨c, next, rfl⟩ := List.exists_cons_of_ne_nil hw.ne_nil
  have hc := hw.chars c List.mem_cons_self
  have hstart : isStart c = true := by
    obtain ⟨hgap, -, -, hcomment⟩ := Scalar.isWordChar_spec hc
    simp [isStart, hgap, hcomment, Scalar.ne_of_class hc (show Scalar.isWordChar '\uFEFF' = false by decide)]
  obtain ⟨before, after, hbefore, hrest, -, htoken, hruns⟩ := h.next hstart
  obtain ⟨hafter, htail⟩ := hbefore.word hw hends hrest rfl htoken
  refine ⟨after, hruns, hafter, fun h => (by cases h), ?_⟩
  obtain ⟨mark, tail, hstrip, hmark⟩ := hends
  rw [htail, hstrip, Scalar.strip_cons (Scalar.isFlowMark_spec hmark).1]

/-- A key with its colon. -/
theorem Passes.key {key : String} (h : Passes all true (depth + 1) done (quoted key ++ ':' :: rest)) :
    ∃ k : FlowKey, Passes all false (depth + 1) (k.tokens.reverse ++ done) rest ∧
      ((∀ c ∈ key.toList, isNameChar c = true) → k.text = key.toList) := by
  have hquote : Passes all true (depth + 1) done
    ('"' :: (key.toList.flatMap Json.escapeChar ++ ['"'] ++ ':' :: rest)) := h
  obtain ⟨before, after, hbefore, hrest, hfresh, htoken, hruns⟩ := hquote.next rfl
  obtain ⟨text, hafter, htail, htext, hkey⟩ := hbefore.string hrest htoken
  have hcolon : strip after.src.rest = ':' :: rest := by rw [htail]; rfl
  -- The colon comes in a round of its own, before which the key is given up if it was too long.
  obtain ⟨colon, hbefore, hrest, -, hhead, -, hnext⟩ := hafter.next hruns (hcolon ▸ starts_cons rfl rest)
  rw [hcolon] at hrest
  obtain ⟨behind, htoken, hruns⟩ := hnext ':' rest hrest
  obtain ⟨saved, hsaved, hnumber⟩ := hkey (hfresh rfl)
  have hkeys := hhead.imp_left fun hhead => (⟨saved, hhead.trans hsaved, hnumber⟩ :
    ∃ key, colon.keys.head? = some (some key) ∧ key.token = done.length)
  obtain ⟨hmarked | hplain, htail⟩ := hbefore.colon hrest hkeys htoken
  · exact ⟨⟨text, true⟩, ⟨behind, hruns, hmarked, fun h => (by cases h), congrArg strip htail⟩, htext⟩
  · exact ⟨⟨text, false⟩, ⟨behind, hruns, hplain, fun h => (by cases h), congrArg strip htail⟩, htext⟩

theorem Passes.finished (h : Passes all fresh depth done []) : all = done.reverse ++ [.streamEnd] := by
  obtain ⟨lx, hruns, hinside, -, hrest⟩ := h
  have hend : strip lx.src.rest = [] := hrest
  obtain ⟨before, hbefore, hsame, -, -, hfinish, -⟩ := hinside.next hruns (by rw [hend]; exact fun _ h => by cases h)
  have hfinish := hfinish (hsame.trans hend)
  obtain ⟨keys, hdrop, -⟩ := hbefore.dropKey
  rw [finish?, hbefore.unroll, hdrop] at hfinish
  cases hfinish
  simp [emit, hbefore.done]

/-! ## Values -/

theorem ends_closing {level : Nat} (hc : isFlowMark c = true) (tail : List Char) :
    Ends (Json.Value.lineStart level ++ c :: tail) := by
  obtain ⟨mark, behind, hstrip, hmark⟩ := Scalar.ends_cons hc tail
  exact ⟨mark, behind, (Scalar.strip_append (fun _ => isLayout_lineStart) _).trans hstrip, hmark⟩

theorem ends_itemChars (level : Nat) (vs : List Json.Value) (h : Ends rest) :
    Ends (Json.Value.itemChars level vs ++ rest) := by
  cases vs with
  | nil => exact h
  | cons v vs => exact Scalar.ends_cons rfl _

theorem ends_memberChars (level : Nat) (members : List (String × Json.Value)) (h : Ends rest) :
    Ends (Json.Value.memberChars level members ++ rest) := by
  cases members with
  | nil => exact h
  | cons m members => exact Scalar.ends_cons rfl _

/-- The keys are read from those that are written; plain ones are read as themselves. -/
def ReadKeys (written : List (String × Json.Value)) (members : List (FlowKey × Flow)) : Prop :=
  ∀ m ∈ members, ∃ w ∈ written, (∀ c ∈ w.1.toList, isNameChar c = true) → m.1.text = w.1.toList

theorem ReadKeys.cons {written : List (String × Json.Value)} {members : List (FlowKey × Flow)}
    (h : ReadKeys written members) {key : String} {k : FlowKey} {v : Json.Value} {node : Flow}
    (hk : (∀ c ∈ key.toList, isNameChar c = true) → k.text = key.toList) :
    ReadKeys ((key, v) :: written) ((k, node) :: members) := fun m hm => by
  rcases List.mem_cons.1 hm with rfl | hm
  · exact ⟨(key, v), List.mem_cons_self, hk⟩
  · obtain ⟨w, hw, hm⟩ := h m hm
    exact ⟨w, List.mem_cons_of_mem _ hw, hm⟩

end

end

section
variable {all : List Token}

mutual

-- By induction on the value, along its text.  A word is known to end only by the mark behind it, so that each part is
-- read in front of a text that goes on with one.

/-- **The text of a value is read as a node.** -/
theorem passes_chars (level : Nat) : ∀ (v : Json.Value) {fresh : Bool} {depth : Nat} {done : List Token}
    {rest : List Char}, Ends rest → Passes all fresh (depth + 1) done (v.chars level ++ rest) →
    ∃ node : Flow, Passes all false (depth + 1) (node.tokens.reverse ++ done) rest
  | .null, _, _, _, _, hends, h => ⟨.scalar _ true, h.word ⟨List.all_eq_true.1 rfl, .inl ⟨_, _, rfl, rfl⟩⟩ hends⟩
  | .bool true, _, _, _, _, hends, h => ⟨.scalar _ true, h.word ⟨List.all_eq_true.1 rfl, .inl ⟨_, _, rfl, rfl⟩⟩ hends⟩
  | .bool false, _, _, _, _, hends, h => ⟨.scalar _ true, h.word ⟨List.all_eq_true.1 rfl, .inl ⟨_, _, rfl, rfl⟩⟩ hends⟩
  | .number n, _, _, _, _, hends, h => ⟨.scalar n.text true, h.word (Scalar.isWord_text n) hends⟩
  | .string s, _, _, _, _, _, h => by
    obtain ⟨text, h⟩ := h.string
    exact ⟨.scalar text false, h⟩
  | .array [], _, _, _, _, _, h => ⟨.sequence [], (h.opened (.inl ⟨rfl, rfl⟩)).closed (.inl ⟨rfl, rfl⟩)⟩
  | .array (v :: vs), _, depth, done, rest, _, h => by
    simp only [Json.Value.chars, List.cons_append, List.append_assoc, List.nil_append] at h
    have hends : Ends (Json.Value.lineStart level ++ ']' :: rest) := ends_closing rfl rest
    have h := (h.opened (.inl ⟨rfl, rfl⟩)).layout (level + 1)
    obtain ⟨node, h⟩ := passes_chars (level + 1) v (ends_itemChars (level + 1) vs hends) h
    obtain ⟨nodes, h⟩ := passes_itemChars (level + 1) vs hends h
    have h := (h.layout level).closed (.inl ⟨rfl, rfl⟩)
    exact ⟨.sequence (node :: nodes), by simpa [Flow.tokens] using h⟩
  | .object members, _, _, _, _, _, h => by
    obtain ⟨nodes, h, -⟩ := passes_object level members h
    exact ⟨.mapping nodes, h⟩

theorem passes_object (level : Nat) : ∀ (written : List (String × Json.Value)) {fresh : Bool} {depth : Nat}
    {done : List Token} {rest : List Char}, Passes all fresh depth done ((Json.Value.object written).chars level ++ rest) →
    ∃ members : List (FlowKey × Flow), Passes all false depth ((Flow.mapping members).tokens.reverse ++ done) rest ∧
      ReadKeys written members
  | [], _, _, _, _, h => ⟨[], (h.opened (.inr ⟨rfl, rfl⟩)).closed (.inr ⟨rfl, rfl⟩), fun _ hm => by cases hm⟩
  | (key, v) :: written, _, depth, done, rest, h => by
    simp only [Json.Value.chars, List.cons_append, List.append_assoc, List.nil_append] at h
    have hends : Ends (Json.Value.lineStart level ++ '\x7d' :: rest) := ends_closing rfl rest
    obtain ⟨k, h, hk⟩ := ((h.opened (.inr ⟨rfl, rfl⟩)).layout (level + 1)).key
    obtain ⟨node, h⟩ := passes_chars (level + 1) v (ends_memberChars (level + 1) written hends) h.space
    obtain ⟨members, h, hread⟩ := passes_memberChars (level + 1) written hends h
    have h := (h.layout level).closed (.inr ⟨rfl, rfl⟩)
    exact ⟨(k, node) :: members, by simpa [Flow.tokens] using h, hread.cons hk⟩

theorem passes_itemChars (level : Nat) : ∀ (vs : List Json.Value) {depth : Nat} {done : List Token}
    {rest : List Char}, Ends rest → Passes all false (depth + 1) done (Json.Value.itemChars level vs ++ rest) →
    ∃ nodes : List Flow, Passes all false (depth + 1) ((Flow.itemTokens nodes).reverse ++ done) rest
  | [], _, _, _, _, h => ⟨[], h⟩
  | v :: vs, depth, done, rest, hends, h => by
    simp only [Json.Value.itemChars, List.cons_append, List.append_assoc] at h
    obtain ⟨node, h⟩ := passes_chars level v (ends_itemChars level vs hends) (h.comma.layout level)
    obtain ⟨nodes, h⟩ := passes_itemChars level vs hends h
    exact ⟨node :: nodes, by simpa [Flow.itemTokens] using h⟩

theorem passes_memberChars (level : Nat) : ∀ (written : List (String × Json.Value)) {depth : Nat} {done : List Token}
    {rest : List Char}, Ends rest → Passes all false (depth + 1) done (Json.Value.memberChars level written ++ rest) →
    ∃ members : List (FlowKey × Flow), Passes all false (depth + 1) ((Flow.memberTokens members).reverse ++ done) rest ∧
      ReadKeys written members
  | [], _, _, _, _, h => ⟨[], h, fun _ hm => by cases hm⟩
  | (key, v) :: written, depth, done, rest, hends, h => by
    simp only [Json.Value.memberChars, List.cons_append, List.append_assoc, List.nil_append] at h
    obtain ⟨k, h, hk⟩ := (h.comma.layout level).key
    obtain ⟨node, h⟩ := passes_chars level v (ends_memberChars level written hends) h.space
    obtain ⟨members, h, hread⟩ := passes_memberChars level written hends h
    exact ⟨(k, node) :: members, by simpa [Flow.memberTokens] using h, hread.cons hk⟩

end

end

end Lexer

/-- **If the text of an object is cut into tokens, they are those of a mapping in flow style.** -/
theorem tokens?_pretty {written : List (String × Json.Value)} {all : List Token}
    (h : tokens? (Json.Value.object written).pretty.toList = some all) :
    ∃ members, all = (Flow.mapping members).tokens ++ [.streamEnd] ∧ Lexer.ReadKeys written members := by
  rw [tokens?, Json.Value.toList_pretty] at h
  split at h
  · -- Outside of all collections the first token can only start the mapping, and the last one ends it.
    have hstart : Lexer.Passes all true 0 [] ((Json.Value.object written).chars 0 ++ []) := by
      rw [List.append_nil]
      exact ⟨_, ⟨_, h⟩, ⟨rfl, rfl, rfl, rfl, rfl, fun key hkey => by simp [Lexer.start] at hkey, Nat.le_refl _⟩,
        fun _ => rfl, rfl⟩
    obtain ⟨members, hend, hread⟩ := Lexer.passes_object 0 written hstart
    refine ⟨members, ?_, hread⟩
    rw [hend.finished, List.append_nil, List.reverse_reverse]
  · cases h

end ApiCatalog.Yaml
