import ApiCatalog.Proofs.Extract.Blocks
import ApiCatalog.Proofs.Extract.Tags
import ApiCatalog.Proofs.Text.Lines
/-!
# The shape of documentation

What a block tells are three things that are read off its text one by one: the first line, the beginning and the words
behind the at signs.  They fit together (`Shape`), whatever the text is, and what is told of a declaration has this
shape or is nothing (`at_shape`).
-/

namespace ApiCatalog.Docs

/-! ## Tags and their places -/

/-- A tag stands behind the at sign behind the front of a text: a word that goes on as far as it can. -/
def TagAt (text front tag : List Char) : Prop :=
  ∃ back, text = front ++ '@' :: (tag ++ back) ∧ tag ≠ [] ∧ (∀ c ∈ tag, Text.isWordChar c = true) ∧
    ∀ c ∈ back.head?, Text.isWordChar c = false

theorem tagAt_iff {text front tag : List Char} : TagAt text front tag ↔
    ∃ rest, text = front ++ '@' :: rest ∧ rest.takeWhile Text.isWordChar = tag ∧ tag ≠ [] := by
  constructor
  · rintro ⟨back, htext, hne, htag, hback⟩
    refine ⟨tag ++ back, htext, ?_, hne⟩
    rw [List.takeWhile_append_of_pos htag]
    cases back with
    | nil => rw [List.takeWhile_nil, List.append_nil]
    | cons c back => rw [List.takeWhile_cons_of_neg (by simp [hback c rfl]), List.append_nil]
  · rintro ⟨rest, htext, rfl, hne⟩
    refine ⟨rest.dropWhile Text.isWordChar, by rw [List.takeWhile_append_dropWhile, htext], hne,
      fun c => List.mem_takeWhile_imp, fun c hc => ?_⟩
    have hhead := List.head?_dropWhile_not Text.isWordChar rest
    rw [Option.mem_def.1 hc] at hhead
    simpa using hhead

theorem takeWhile_append_at (front rest : List Char) :
    (front ++ '@' :: rest).takeWhile Text.isWordChar = front.takeWhile Text.isWordChar := by
  rw [List.takeWhile_append, List.takeWhile_cons_of_neg (by simp [isWordChar_at]), List.append_nil]
  split
  · rename_i hall
    exact ((List.takeWhile_prefix _).eq_of_length hall).symm
  · rfl

theorem atWords_append_at (rest : List Char) : ∀ front : List Char,
    atWords (front ++ '@' :: rest) = atWords front ++ atWords ('@' :: rest)
  | [] => rfl
  | c :: front => by
    rw [List.cons_append, atWords, takeWhile_append_at, atWords_append_at rest front, ← List.append_assoc]
    rfl

theorem TagAt.append_at {text front tag : List Char} (h : TagAt text front tag) (rest : List Char) :
    TagAt (text ++ '@' :: rest) front tag := by
  obtain ⟨back, rfl, hne, htag, hback⟩ := h
  refine ⟨back ++ '@' :: rest, by simp, hne, htag, fun c hc => ?_⟩
  cases back with
  | nil => exact Option.some.inj hc ▸ isWordChar_at
  | cons d back => exact hback c hc

theorem mem_nonempty {tag word : List Char} : tag ∈ nonempty word ↔ word = tag ∧ tag ≠ [] := by
  unfold nonempty
  split
  · rename_i hnil
    simp [hnil, eq_comm]
  · rename_i hne
    rw [List.mem_singleton]
    exact ⟨fun h => ⟨h.symm, h ▸ hne⟩, fun h => h.1.symm⟩

theorem TagAt.exists_atWords {text front tag : List Char} (h : TagAt text front tag) :
    ∃ more, atWords text = atWords front ++ tag :: more := by
  obtain ⟨rest, rfl, rfl, hne⟩ := tagAt_iff.1 h
  refine ⟨atWords rest, ?_⟩
  rw [atWords_append_at, atWords, if_pos rfl, nonempty, if_neg hne, List.singleton_append]

theorem mem_atWords_iff {tag : List Char} : ∀ {text : List Char}, tag ∈ atWords text ↔ ∃ front, TagAt text front tag
  | [] => by simp [atWords, TagAt]
  | c :: text => by
    rw [atWords, List.mem_append, mem_atWords_iff]
    simp only [tagAt_iff]
    constructor
    · rintro (h | ⟨front, rest, rfl, h⟩)
      · split at h
        · rename_i hc
          exact ⟨[], text, by rw [hc]; rfl, mem_nonempty.1 h⟩
        · cases h
      · exact ⟨c :: front, rest, rfl, h⟩
    · rintro ⟨front, rest, htext, h⟩
      cases front with
      | nil =>
        obtain ⟨rfl, rfl⟩ := List.cons.inj htext
        exact .inl (by rw [if_pos rfl]; exact mem_nonempty.2 h)
      | cons d front =>
        obtain ⟨-, rfl⟩ := List.cons.inj htext
        exact .inr ⟨front, rest, rfl, h⟩

/-- **The tags of a block come in the order in which they stand first**: each tag stands before every place at which
one of those behind it stands. -/
theorem pairwise_tagsOf (text : List Char) : (tagsOf text).Pairwise fun tag later =>
    ∀ front, TagAt text front later → ∃ earlier, TagAt text earlier tag ∧ earlier.length < front.length := by
  rw [tagsOf_eq]
  refine (pairwise_eraseDups _).imp fun {tag later} hfirst front hlater => ?_
  obtain ⟨more, hmore⟩ := hlater.exists_atWords
  obtain ⟨earlier, htag⟩ := mem_atWords_iff.1 (hfirst _ _ hmore)
  obtain ⟨rest, hrest, -⟩ := tagAt_iff.1 hlater
  refine ⟨earlier, hrest ▸ htag.append_at rest, ?_⟩
  obtain ⟨back, rfl, -⟩ := htag
  simp

/-! ## The shape of what a block tells -/

/-- Summary, description and tags fit together and to the text of their block. -/
structure Shape (text summary description : List Char) (tags : List (List Char)) : Prop where
  summary_visible : ∃ c ∈ summary, Text.isBlank c = false
  summary_single : '\n' ∉ summary
  summary_trimmed : Text.trim summary = summary
  description_short : description.length ≤ 200
  description_visible : ∃ c rest, description = c :: rest ∧ Text.isBlank c = false
  summary_or_description : summary <+: description ∨ description <+: summary
  tags_nodup : tags.Nodup
  mem_tags_iff : ∀ tag, tag ∈ tags ↔ ∃ front, TagAt text front tag
  tags_ordered : tags.Pairwise fun tag later =>
    ∀ front, TagAt text front later → ∃ earlier, TagAt text earlier tag ∧ earlier.length < front.length

theorem shape_ofBlock {block : List Char} (h : Text.trim block ≠ []) : ∃ summary description tags,
    ofBlock block = ⟨some summary, some description, tags⟩ ∧ Shape (Text.trim block) summary description tags := by
  obtain ⟨c, rest, htext, hc⟩ := Text.exists_cons_of_trim h
  obtain ⟨first, more, hlines, hfirst, hbare⟩ := Text.exists_first_line hc rest
  -- The first line is not blank, so it is the one that is told.
  have hstart : Text.trim (c :: first) <+: c :: first := by
    rw [Text.trim_cons hc]
    exact Text.trimEndBy_isPrefix _ _
  have hne : Text.trim (c :: first) ≠ [] := fun hnil => by
    rw [Text.trim_eq_nil_iff.1 hnil c List.mem_cons_self] at hc
    cases hc
  have hsummary : ((Text.lines (c :: rest)).map Text.trim).find? (!·.isEmpty) = some (Text.trim (c :: first)) := by
    rw [hlines, List.map_cons, List.find?_cons_of_pos (by simpa using hne)]
  have hdescription : descriptionOf? block = some (Text.truncate descriptionLimit (c :: rest)) := by
    rw [descriptionOf?, htext]
    rfl
  refine ⟨Text.trim (c :: first), Text.truncate descriptionLimit (c :: rest), tagsOf (c :: rest), ?_, ?_⟩
  · rw [ofBlock, htext, hsummary, hdescription]
  · rw [htext]
    exact {
      summary_visible := by
        obtain ⟨d, left, hcons, hd⟩ := Text.exists_cons_of_trim hne
        exact ⟨d, hcons ▸ List.mem_cons_self, hd⟩
      summary_single := fun hmem => hbare (hstart.subset hmem)
      summary_trimmed := Text.trim_trim _
      description_short := List.length_take_le _ _
      description_visible := ⟨c, _, rfl, hc⟩
      summary_or_description := List.prefix_or_prefix_of_prefix (hstart.trans hfirst) (List.take_prefix _ _)
      tags_nodup := by
        rw [tagsOf_eq]
        exact nodup_eraseDups _
      mem_tags_iff := fun tag => by rw [tagsOf_eq, List.mem_eraseDups, mem_atWords_iff]
      tags_ordered := pairwise_tagsOf _ }

/-- **What is told of a declaration, if anything, has a summary and a description, and they and the tags have the shape
that the block before it gives them**, whatever the text is and wherever the declaration stands in it. -/
theorem at_shape {content : List Char} {offset : Nat} (h : (at_ content offset).isEmpty = false) :
    ∃ front rest block summary description tags, content = front ++ rest ∧ Text.byteLength front = offset ∧
      blockBefore? front.reverse = some block ∧ at_ content offset = ⟨some summary, some description, tags⟩ ∧
        Shape (Text.trim block) summary description tags := by
  cases hreversed : reversedUpTo? [] offset content with
  | none =>
    rw [at_, hreversed] at h
    cases h
  | some reversed =>
    obtain ⟨front, rest, rfl, hlength, rfl⟩ := eq_of_reversedUpTo? hreversed
    rw [List.append_nil] at hreversed
    have hat : at_ (front ++ rest) offset = before front.reverse := by rw [at_, hreversed, Option.elim_some]
    cases hblock : blockBefore? front.reverse with
    | none =>
      rw [hat, before, hblock] at h
      cases h
    | some block =>
      have hbefore : before front.reverse = ofBlock block := by rw [before, hblock, Option.elim_some]
      have hne : Text.trim block ≠ [] := fun hnil => by
        rw [hat, hbefore, (isEmpty_ofBlock_iff block).2 (Text.trim_eq_nil_iff.1 hnil)] at h
        cases h
      obtain ⟨summary, description, tags, hdocs, hshape⟩ := shape_ofBlock hne
      exact ⟨front, rest, block, summary, description, tags, rfl, hlength, hblock, hat.trans (hbefore.trans hdocs),
        hshape⟩

/-- A comment with carriage returns, an address and two at signs in a row. -/
theorem at_shape_of_address :
    let comment := "/**\r\n * Orders of a shop.\r\n * By: desk@shop.test, @@orders, @shop\r\n */\r\n".toList
    let text := "Orders of a shop.\nBy: desk@shop.test, @@orders, @shop".toList
    at_ (comment ++ "@Get('/orders')".toList) (Text.byteLength comment) =
        ⟨some "Orders of a shop.".toList, some text, ["shop".toList, "orders".toList]⟩ ∧
      Shape text "Orders of a shop.".toList text ["shop".toList, "orders".toList] := by
  intro comment text
  have hat : at_ (comment ++ "@Get('/orders')".toList) (Text.byteLength comment) =
      ⟨some "Orders of a shop.".toList, some text, ["shop".toList, "orders".toList]⟩ := rfl
  have hblock : blockBefore? comment.reverse = some ('\n' :: text ++ ['\n']) := rfl
  obtain ⟨front, rest, block, summary, description, tags, hcontent, hlength, hbefore, hdocs, hshape⟩ :=
    at_shape (by rw [hat]; rfl)
  have hfront := reversedUpTo?_append front [] rest
  rw [hlength, ← hcontent, reversedUpTo?_append, List.append_nil, List.append_nil, Option.some.injEq,
    List.reverse_inj] at hfront
  obtain rfl : _ = block := Option.some.inj (hblock.symm.trans (hfront ▸ hbefore))
  cases hat.symm.trans hdocs
  exact ⟨hat, hshape⟩

end ApiCatalog.Docs
