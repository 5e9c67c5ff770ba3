import ApiCatalog.Proofs.Extract.Blocks
/-!
# The block that ends a text

A block is looked for backwards from where it ends.  Whatever marks there are in a text, it is found exactly if the text
ends in one, and then it is the one that begins at the last mark that can open it (`blockBefore?_ending`).
-/

namespace ApiCatalog.Docs

/-- The text ends in a block between two marks. -/
def EndsIn (opening closing text block : List Char) : Prop := ∃ front, text = front ++ opening ++ block ++ closing

/-- The block begins at the last opening mark before the closing one. -/
structure EndsLast (opening closing text block : List Char) : Prop where
  ends : EndsIn opening closing text block
  last : ∀ other, EndsIn opening closing text other → block <:+ other

section
variable {opening closing text block other : List Char}

theorem EndsIn.isSuffix (h : EndsIn opening closing text block) : closing <:+ text := by
  obtain ⟨front, rfl⟩ := h
  exact List.suffix_append _ _

/-- Behind the closing mark a mark that opens can be anywhere. -/
theorem EndsIn.inner (h : EndsIn opening closing text block) (hmark : opening <:+: block) :
    ∃ inner, EndsIn opening closing text inner ∧ inner.length + opening.length ≤ block.length := by
  obtain ⟨front, rfl⟩ := h
  obtain ⟨before, inner, rfl⟩ := hmark
  exact ⟨inner, ⟨front ++ opening ++ before, by simp⟩, by simp only [List.length_append]; omega⟩

theorem EndsLast.unique (h : EndsLast opening closing text block) (h' : EndsLast opening closing text other) :
    block = other :=
  (h.last other h'.ends).eq_of_length_le (h'.last block h.ends).length_le

/-- No opening mark stands in a block that begins at the last one. -/
theorem EndsLast.not_infix (h : EndsLast opening closing text block) (hne : opening ≠ []) : ¬ opening <:+: block :=
  fun hmark => by
    obtain ⟨inner, hinner, hlength⟩ := h.ends.inner hmark
    have hle := (h.last inner hinner).length_le
    have hpos := List.length_pos_iff.2 hne
    omega

/-- **Read backwards from the closing mark, a text breaks where the block begins that it ends in.** -/
theorem breakAt?_eq_some_iff_endsLast (hne : opening ≠ []) (head closing : List Char) :
    (Text.breakAt? opening.reverse head.reverse).map (·.1.reverse) = some block ↔
      EndsLast opening closing (head ++ closing) block := by
  have hne' : opening.reverse ≠ [] := by simpa using hne
  have hends : ∀ other, EndsIn opening closing (head ++ closing) other ↔
      ∃ more, head.reverse = other.reverse ++ (opening.reverse ++ more) := fun other => by
    constructor
    · rintro ⟨front, hfront⟩
      exact ⟨front.reverse, by rw [List.append_cancel_right hfront]; simp⟩
    · rintro ⟨more, hmore⟩
      refine ⟨more.reverse, ?_⟩
      rw [← List.reverse_reverse head, hmore]
      simp
  constructor
  · intro h
    obtain ⟨⟨before, rest⟩, hbreak, rfl⟩ := Option.map_eq_some_iff.1 h
    have htext := ((Text.breakAt?_eq_some_iff hne').1 hbreak).1
    refine ⟨(hends _).2 ⟨rest, by rw [List.reverse_reverse, htext]⟩, fun other hother => ?_⟩
    obtain ⟨more, hmore⟩ := (hends other).1 hother
    rw [← List.reverse_prefix, List.reverse_reverse]
    exact Text.isPrefix_of_breakAt? hne' hbreak hmore
  · rintro ⟨hblock, hlast⟩
    obtain ⟨more, hmore⟩ := (hends block).1 hblock
    have hmark : opening.reverse <:+: head.reverse := hmore ▸ ⟨block.reverse, more, by simp⟩
    obtain ⟨⟨before, rest⟩, hbreak⟩ := Option.isSome_iff_exists.1 (Text.isSome_breakAt? hmark)
    have htext := ((Text.breakAt?_eq_some_iff hne').1 hbreak).1
    have hbefore := hlast before.reverse ((hends _).2 ⟨rest, by rw [List.reverse_reverse, htext]⟩)
    have hprefix := Text.isPrefix_of_breakAt? hne' hbreak hmore
    rw [hbreak, Option.map_some, Option.some.injEq]
    refine (hbefore.eq_of_length_le ?_).symm
    simpa using hprefix.length_le

/-- A text that ends in a block ends in one that begins at the last opening mark. -/
theorem EndsIn.exists_last (hne : opening ≠ []) (h : EndsIn opening closing text block) :
    ∃ last, EndsLast opening closing text last := by
  obtain ⟨front, rfl⟩ := h
  have hmark : opening.reverse <:+: (front ++ opening ++ block).reverse :=
    List.reverse_infix.2 ((List.suffix_append front opening).isInfix.trans (List.prefix_append _ block).isInfix)
  obtain ⟨⟨before, rest⟩, hbreak⟩ := Option.isSome_iff_exists.1 (Text.isSome_breakAt? hmark)
  exact ⟨before.reverse, (breakAt?_eq_some_iff_endsLast hne _ _).1 (by rw [hbreak]; rfl)⟩

end

/-! ## Which block is found -/

theorem blockBefore?_trimEnd (text : List Char) :
    blockBefore? text.reverse = blockBefore? (Text.trimEnd text).reverse := by
  rw [blockBefore?, blockBefore?, Text.trimEnd, Text.trimEndBy, List.reverse_reverse, Text.trimStart, Text.trimStartBy,
    Text.trimStartBy, List.dropWhile_idempotent]

/-- What ends with neither a quote nor a closing mark ends in no block. -/
theorem blockBefore?_eq_none {text : List Char} (hquotes : ∀ quote ∈ quotes, ¬ quote <:+ Text.trimEnd text)
    (hclose : ¬ commentClose <:+ Text.trimEnd text) : blockBefore? text.reverse = .none := by
  have hstart : Text.trimStart text.reverse = (Text.trimEnd text).reverse := by
    rw [Text.trimEnd, Text.trimEndBy, List.reverse_reverse]
    rfl
  have hnone : quotes.findSome? (fun quote =>
      (Text.stripStart? quote.reverse (Text.trimEnd text).reverse).map (quote, ·)) = .none := by
    refine List.findSome?_eq_none_iff.2 fun quote hquote => ?_
    rw [Text.stripStart?_eq_none (mt List.reverse_prefix.1 (hquotes quote hquote))]
    rfl
  rw [blockBefore?, hstart, hnone]
  dsimp only
  rw [commentBefore?, Text.stripStart?_eq_none (mt List.reverse_prefix.1 hclose)]
  rfl

theorem quote_ne_nil {quote : List Char} (hquote : quote ∈ quotes) : quote ≠ [] := by
  obtain ⟨mark, rfl⟩ := exists_mark hquote
  exact List.cons_ne_nil _ _

theorem closing_unique {text : List Char} : ∀ closing ∈ commentClose :: quotes, ∀ closing' ∈ commentClose :: quotes,
    closing <:+ text → closing' <:+ text → closing = closing' := by
  have hlast : ∀ closing ∈ commentClose :: quotes, ∀ closing' ∈ commentClose :: quotes,
      closing.getLast? = closing'.getLast? → closing = closing' := by decide
  have hne : ∀ closing ∈ commentClose :: quotes, closing ≠ [] := by decide
  rintro closing hclosing closing' hclosing' ⟨front, rfl⟩ ⟨front', hfront⟩
  refine hlast closing hclosing closing' hclosing' ?_
  have := congrArg List.getLast? hfront
  rw [List.getLast?_append_of_ne_nil _ (hne _ hclosing), List.getLast?_append_of_ne_nil _ (hne _ hclosing')] at this
  exact this.symm

theorem blockBefore?_eq_some_iff_endsLast {text block : List Char} : blockBefore? text.reverse = some block ↔
    (∃ quote ∈ quotes, EndsLast quote quote (Text.trimEnd text) block) ∨
      ∃ body, block = unstar body ∧ ¬ commentClose <:+: body ∧
        EndsLast commentOpen commentClose (Text.trimEnd text) body := by
  have hne : ∀ quote ∈ quotes, commentClose ≠ quote := by decide
  have hmem : ∀ quote ∈ quotes, quote ∈ commentClose :: quotes := fun _ => List.mem_cons_of_mem _
  by_cases hquote : ∃ quote ∈ quotes, quote <:+ Text.trimEnd text
  · obtain ⟨quote, hquote, head, hhead⟩ := hquote
    have hend : quote <:+ Text.trimEnd text := ⟨head, hhead⟩
    rw [blockBefore?_trimEnd, ← hhead, blockBefore?_quote hquote,
      breakAt?_eq_some_iff_endsLast (quote_ne_nil hquote) head quote, hhead]
    constructor
    · exact fun h => .inl ⟨quote, hquote, h⟩
    · rintro (⟨other, hother, h⟩ | ⟨body, -, -, h⟩)
      · rwa [closing_unique quote (hmem _ hquote) other (hmem _ hother) hend h.ends.isSuffix]
      · exact absurd (closing_unique _ List.mem_cons_self quote (hmem _ hquote) h.ends.isSuffix hend) (hne _ hquote)
  · have hquotes : ∀ quote ∈ quotes, ¬ quote <:+ Text.trimEnd text := fun quote hmem hend => hquote ⟨quote, hmem, hend⟩
    by_cases hclose : commentClose <:+ Text.trimEnd text
    · obtain ⟨head, hhead⟩ := hclose
      have hbody : blockBefore? text.reverse =
          ((Text.breakAt? commentOpen.reverse head.reverse).map (·.1.reverse)).bind fun body =>
            if Text.occurs commentClose body then .none else some (unstar body) := by
        rw [blockBefore?_trimEnd, ← hhead, blockBefore?_comment, Option.bind_map]
        rfl
      rw [hbody, Option.bind_eq_some_iff]
      constructor
      · rintro ⟨body, hbreak, h⟩
        rw [breakAt?_eq_some_iff_endsLast commentOpen_ne_nil head commentClose, hhead] at hbreak
        split at h
        · cases h
        · rename_i hoccurs
          exact .inr ⟨body, (Option.some.inj h).symm, mt Text.occurs_iff.2 hoccurs, hbreak⟩
      · rintro (⟨quote, hquote, h⟩ | ⟨body, rfl, hclosed, h⟩)
        · exact absurd h.ends.isSuffix (hquotes quote hquote)
        · refine ⟨body, ?_, if_neg (mt Text.occurs_iff.1 hclosed)⟩
          rwa [breakAt?_eq_some_iff_endsLast commentOpen_ne_nil head commentClose, hhead]
    · rw [blockBefore?_eq_none hquotes hclose]
      constructor
      · intro h
        cases h
      · rintro (⟨quote, hquote, h⟩ | ⟨body, -, -, h⟩)
        · exact absurd h.ends.isSuffix (hquotes quote hquote)
        · exact absurd h.ends.isSuffix hclose

theorem isSome_blockBefore?_iff {text : List Char} : (blockBefore? text.reverse).isSome = true ↔
    (∃ quote ∈ quotes, ∃ block, EndsIn quote quote (Text.trimEnd text) block) ∨
      ∃ body, ¬ commentClose <:+: body ∧ EndsIn commentOpen commentClose (Text.trimEnd text) body := by
  rw [Option.isSome_iff_exists]
  simp only [blockBefore?_eq_some_iff_endsLast]
  constructor
  · rintro ⟨block, ⟨quote, hquote, h⟩ | ⟨body, -, hclosed, h⟩⟩
    · exact .inl ⟨quote, hquote, block, h.ends⟩
    · exact .inr ⟨body, hclosed, h.ends⟩
  · rintro (⟨quote, hquote, block, h⟩ | ⟨body, hclosed, h⟩)
    · obtain ⟨last, hlast⟩ := h.exists_last (quote_ne_nil hquote)
      exact ⟨last, .inl ⟨quote, hquote, hlast⟩⟩
    · -- The body behind the last opening mark is the end of this one.
      obtain ⟨last, hlast⟩ := h.exists_last commentOpen_ne_nil
      exact ⟨unstar last, .inr ⟨last, rfl, fun hwithin => hclosed (hwithin.trans (hlast.last body h).isInfix), hlast⟩⟩

/-- **Which block is found at the end of a text**, blanks behind it not counted.  There is one exactly if the text ends
in a block between quotes or in a comment without a closing mark in it.  Between quotes it is the shortest one, which
has no quote in it, and of a comment it is what stands behind the last opening mark.  No text ends in blocks of two
kinds.  A declaration behind it, with nothing but blanks between, is told what the block tells, whatever follows. -/
theorem blockBefore?_ending (text : List Char) :
    let ending := Text.trimEnd text
    ((blockBefore? text.reverse).isSome = true ↔
      (∃ quote ∈ quotes, ∃ block, EndsIn quote quote ending block) ∨
        ∃ body, ¬ commentClose <:+: body ∧ EndsIn commentOpen commentClose ending body) ∧
    (∀ block, blockBefore? text.reverse = some block ↔
      (∃ quote ∈ quotes, EndsLast quote quote ending block) ∨
        ∃ body, block = unstar body ∧ ¬ commentClose <:+: body ∧ EndsLast commentOpen commentClose ending body) ∧
    (∀ quote ∈ quotes, ∀ block, EndsLast quote quote ending block → ¬ quote <:+: block) ∧
    (∀ quote ∈ quotes, ∀ block, EndsIn quote quote ending block →
      (∀ quote' ∈ quotes, ∀ block', EndsIn quote' quote' ending block' → quote' = quote) ∧
        ∀ body, ¬ EndsIn commentOpen commentClose ending body) ∧
    ∀ blanks rest : List Char, (∀ c ∈ blanks, Text.isBlank c = true) →
      at_ (text ++ blanks ++ rest) (Text.byteLength (text ++ blanks)) =
        (blockBefore? text.reverse).elim none ofBlock := by
  intro ending
  have hmem : ∀ quote ∈ quotes, quote ∈ commentClose :: quotes := fun _ => List.mem_cons_of_mem _
  refine ⟨isSome_blockBefore?_iff, fun block => blockBefore?_eq_some_iff_endsLast, fun quote hquote block h =>
    h.not_infix (quote_ne_nil hquote),
    fun quote hquote block h => ⟨fun quote' hquote' block' h' => ?_, fun body h' => ?_⟩,
    fun blanks rest hblanks => ?_⟩
  · exact closing_unique quote' (hmem _ hquote') quote (hmem _ hquote) h'.isSuffix h.isSuffix
  · have hne : ∀ quote ∈ quotes, commentClose ≠ quote := by decide
    exact hne quote hquote (closing_unique _ List.mem_cons_self quote (hmem _ hquote) h'.isSuffix h.isSuffix)
  · rw [at_append, before, blockBefore?_blanks hblanks]

/-- Of seven quotation marks the last six are a block; two stars are not enough for a comment, and three are. -/
example : blockBefore? "\"\"\"\"\"\"\"".toList.reverse = some [] ∧ blockBefore? "/**/".toList.reverse = .none ∧
    blockBefore? "/***/".toList.reverse = some [] := by decide

end ApiCatalog.Docs
