import ApiCatalog.Extract.Docs
import ApiCatalog.Proofs.Regex.Leftmost
import ApiCatalog.Proofs.Text.Cut
/-!
# Blocks of documentation

A declaration is documented by what stands between the mark that ends the text before it and the last mark before that
one: what is lost of a block are the quotation marks that it begins with, or all up to the last opening mark in a
comment (`at_block`), and where a quote opens a block, the code in front of it is taken for one (`at_opening`).  A file
is described by the block that it opens with and by nothing behind it, but for one comment that shares a star between
its marks (`ofFile?_leading`).
-/

namespace ApiCatalog.Docs

/-! ## The text before a declaration -/

theorem reversedUpTo?_append : ∀ text passed rest : List Char,
    reversedUpTo? passed (Text.byteLength text) (text ++ rest) = some (text.reverse ++ passed)
  | [], passed, rest => by
    rw [show Text.byteLength [] = 0 from rfl, reversedUpTo?]
    rfl
  | c :: text, passed, rest => by
    have hsize := Char.utf8Size_pos c
    have hlength : Text.byteLength (c :: text) = c.utf8Size + Text.byteLength text := by
      rw [Text.byteLength, List.foldl_cons, Text.foldl_utf8Size, Nat.zero_add]
    obtain ⟨n, hn⟩ := Nat.exists_eq_succ_of_ne_zero (n := Text.byteLength (c :: text)) (by omega)
    rw [hn, List.cons_append, reversedUpTo?, if_neg (by omega), ← Nat.succ_eq_add_one, ← hn, hlength,
      Nat.add_sub_cancel_left, reversedUpTo?_append text, List.reverse_cons, List.append_assoc, List.singleton_append]

theorem eq_of_reversedUpTo? : ∀ {text passed reversed : List Char} {offset : Nat},
    reversedUpTo? passed offset text = some reversed →
      ∃ front rest, text = front ++ rest ∧ Text.byteLength front = offset ∧ reversed = front.reverse ++ passed
  | text, passed, reversed, 0, h => ⟨[], text, rfl, rfl, by rw [reversedUpTo?] at h; exact (Option.some.inj h).symm⟩
  | [], _, _, _ + 1, h => by cases h
  | c :: text, passed, reversed, offset + 1, h => by
    rw [reversedUpTo?] at h
    split at h
    · cases h
    · obtain ⟨front, rest, rfl, hlength, rfl⟩ := eq_of_reversedUpTo? h
      refine ⟨c :: front, rest, rfl, ?_, by simp⟩
      rw [Text.byteLength, List.foldl_cons, Text.foldl_utf8Size, hlength]
      omega

theorem at_append (text rest : List Char) : at_ (text ++ rest) (Text.byteLength text) = before text.reverse := by
  rw [at_, reversedUpTo?_append, Option.elim_some, List.append_nil]

theorem blockBefore?_blanks {blanks : List Char} (h : ∀ c ∈ blanks, Text.isBlank c = true) (text : List Char) :
    blockBefore? (text ++ blanks).reverse = blockBefore? text.reverse := by
  rw [blockBefore?, blockBefore?, List.reverse_append, Text.trimStart_append fun c hc => h c (List.mem_reverse.1 hc)]

theorem blockBefore?_quote {quote : List Char} (hquote : quote ∈ quotes) (text : List Char) :
    blockBefore? (text ++ quote).reverse = (Text.breakAt? quote.reverse text.reverse).map (·.1.reverse) := by
  rw [List.reverse_append]
  rcases List.mem_pair.1 hquote with rfl | rfl <;> rfl

theorem blockBefore?_comment (text : List Char) :
    blockBefore? (text ++ commentClose).reverse = (Text.breakAt? commentOpen.reverse text.reverse).bind fun found =>
      if Text.occurs commentClose found.1.reverse then .none else some (unstar found.1.reverse) := by
  rw [List.reverse_append]
  rfl

theorem exists_mark {quote : List Char} (hquote : quote ∈ quotes) : ∃ mark, quote = [mark, mark, mark] := by
  rcases List.mem_pair.1 hquote with rfl | rfl
  · exact ⟨'"', rfl⟩
  · exact ⟨'\'', rfl⟩

/-! ## Blocks between quotes -/

/-- No quote begins in the last two marks of one, unless a mark follows. -/
theorem not_infix_quote {quote block : List Char} (hquote : quote ∈ quotes) (hblock : ¬ quote <:+: block)
    (hhead : ∀ c ∈ block.head?, c ∉ quote) : ¬ quote <:+: quote.tail ++ block := by
  obtain ⟨mark, rfl⟩ := exists_mark hquote
  have hstart : ∀ text : List Char, ¬ mark :: text <+: block := by
    rintro text ⟨rest, rfl⟩
    exact hhead mark rfl List.mem_cons_self
  rw [List.tail_cons, List.cons_append, List.cons_append, List.nil_append, List.infix_cons_iff, List.infix_cons_iff]
  simp only [List.cons_prefix_cons, true_and]
  rintro (h | h | h)
  · exact hstart _ h
  · exact hstart _ h
  · exact hblock h

theorem blockBefore?_closed {quote block blanks : List Char} (hquote : quote ∈ quotes) (hblock : ¬ quote <:+: block)
    (hhead : ∀ c ∈ block.head?, c ∉ quote) (hblanks : ∀ c ∈ blanks, Text.isBlank c = true) (front : List Char) :
    blockBefore? (front ++ quote ++ block ++ quote ++ blanks).reverse = some block := by
  have hne : quote ≠ [] := by
    obtain ⟨mark, rfl⟩ := exists_mark hquote
    exact List.cons_ne_nil _ _
  rw [blockBefore?_blanks hblanks, blockBefore?_quote hquote, List.append_assoc,
    Text.breakAt?_of_last hne (not_infix_quote hquote hblock hhead), Option.map_some, List.reverse_reverse]

/-- Quotation marks behind a quote may as well stand in front of it. -/
theorem quote_append_comm {quote opening : List Char} (hquote : quote ∈ quotes) (h : ∀ c ∈ opening, c ∈ quote) :
    quote ++ opening = opening ++ quote := by
  obtain ⟨mark, rfl⟩ := exists_mark hquote
  have hopening : opening = List.replicate opening.length mark :=
    List.eq_replicate_iff.2 ⟨rfl, fun c hc => by simpa using h c hc⟩
  have hquote : [mark, mark, mark] = List.replicate 3 mark := rfl
  rw [hopening, hquote, List.replicate_append_replicate, List.replicate_append_replicate, Nat.add_comm]

/-- **The block that ends in a quote is found but for the quotation marks that it begins with.** -/
theorem blockBefore?_quoted {quote block blanks : List Char} (hquote : quote ∈ quotes) (hblock : ¬ quote <:+: block)
    (hblanks : ∀ c ∈ blanks, Text.isBlank c = true) (front : List Char) :
    blockBefore? (front ++ quote ++ block ++ quote ++ blanks).reverse = some (block.dropWhile quote.contains) := by
  have hopening : ∀ c ∈ block.takeWhile quote.contains, c ∈ quote := fun c hc => by
    simpa using List.mem_takeWhile_imp hc
  have hrest : ¬ quote <:+: block.dropWhile quote.contains := fun h =>
    hblock (h.trans (List.dropWhile_suffix _).isInfix)
  have hhead : ∀ c ∈ (block.dropWhile quote.contains).head?, c ∉ quote := fun c hc => by
    have hnot := List.head?_dropWhile_not quote.contains block
    rw [Option.mem_def.1 hc] at hnot
    simpa using hnot
  have hmoved : front ++ quote ++ block =
      front ++ block.takeWhile quote.contains ++ quote ++ block.dropWhile quote.contains := by
    rw [List.append_assoc front, List.append_assoc front, ← quote_append_comm hquote hopening, List.append_assoc front,
      List.append_assoc quote, List.takeWhile_append_dropWhile]
  rw [hmoved]
  exact blockBefore?_closed hquote hrest hhead hblanks _

/-! ## Comments -/

theorem commentOpen_ne_nil : commentOpen ≠ [] := by decide

theorem commentClose_ne_nil : commentClose ≠ [] := by decide

/-- No opening mark begins in the stars of one. -/
theorem not_infix_commentOpen {text : List Char} (h : ¬ commentOpen <:+: text) :
    ¬ commentOpen <:+: commentOpen.tail ++ text := by
  have hopen : commentOpen = ['/', '*', '*'] := rfl
  rw [hopen] at h ⊢
  rw [List.tail_cons, List.cons_append, List.cons_append, List.nil_append, List.infix_cons_iff, List.infix_cons_iff]
  simp only [List.cons_prefix_cons, Char.reduceEq, false_and, false_or]
  exact h

theorem blockBefore?_commented {text blanks : List Char} (hopen : ¬ commentOpen <:+: text)
    (hclose : ¬ commentClose <:+: text) (hblanks : ∀ c ∈ blanks, Text.isBlank c = true) (front : List Char) :
    blockBefore? (front ++ commentOpen ++ text ++ commentClose ++ blanks).reverse = some (unstar text) := by
  have hclosed : Text.occurs commentClose text = false := Bool.eq_false_iff.2 (mt Text.occurs_iff.1 hclose)
  rw [blockBefore?_blanks hblanks, blockBefore?_comment, List.append_assoc,
    Text.breakAt?_of_last commentOpen_ne_nil (not_infix_commentOpen hopen), Option.bind_some, List.reverse_reverse,
    hclosed]
  rfl

/-- **What a declaration is told of by the block right before it**, whatever stands before the block and behind the
declaration.  A block between quotes tells what it would without the quotation marks that it begins with, so all of it
unless it begins with one.  A comment tells what stands behind the last opening mark in it, so all of it unless it has
another one. -/
theorem at_block (front block blanks rest : List Char) (hblanks : ∀ c ∈ blanks, Text.isBlank c = true) :
    (∀ quote ∈ quotes, ¬ quote <:+: block →
      let content := front ++ quote ++ block ++ quote ++ blanks
      let docs := at_ (content ++ rest) (Text.byteLength content)
      docs = ofBlock (block.dropWhile quote.contains) ∧ ((∀ c ∈ block.head?, c ∉ quote) → docs = ofBlock block)) ∧
    (¬ commentClose <:+: block →
      let content := front ++ commentOpen ++ block ++ commentClose ++ blanks
      let docs := at_ (content ++ rest) (Text.byteLength content)
      (∃ lost kept, block = lost ++ kept ∧ (lost = [] ∨ commentOpen <:+ lost) ∧ ¬ commentOpen <:+: kept ∧
        docs = ofBlock (unstar kept)) ∧
      (¬ commentOpen <:+: block → docs = ofBlock (unstar block))) := by
  refine ⟨fun quote hquote hblock => ?_, fun hclose => ?_⟩
  · intro content docs
    have hdocs : docs = before content.reverse := at_append content rest
    refine ⟨?_, fun hhead => ?_⟩
    · rw [hdocs, before, blockBefore?_quoted hquote hblock hblanks, Option.elim_some]
    · rw [hdocs, before, blockBefore?_closed hquote hblock hhead hblanks, Option.elim_some]
  · intro content docs
    have hdocs : docs = before content.reverse := at_append content rest
    refine ⟨?_, fun hopen => ?_⟩
    · obtain ⟨lost, kept, hcut, hlost, hopen⟩ := Text.exists_last commentOpen_ne_nil block
      have hkept : ¬ commentClose <:+: kept := fun h =>
        hclose (h.trans (hcut ▸ List.suffix_append lost kept).isInfix)
      refine ⟨lost, kept, hcut, hlost, hopen, ?_⟩
      -- The comment is read from the opening mark that ends what is lost, if there is one.
      obtain ⟨front', hfront⟩ : ∃ front', front ++ commentOpen ++ lost = front' ++ commentOpen := by
        rcases hlost with rfl | ⟨more, rfl⟩
        · exact ⟨front, List.append_nil _⟩
        · exact ⟨front ++ commentOpen ++ more, (List.append_assoc _ _ _).symm⟩
      have hcontent : content = front' ++ commentOpen ++ kept ++ commentClose ++ blanks := by
        rw [← hfront, List.append_assoc (front ++ commentOpen), ← hcut]
      rw [hdocs, hcontent, before, blockBefore?_commented hopen hkept hblanks, Option.elim_some]
    · rw [hdocs, before, blockBefore?_commented hopen hclose hblanks, Option.elim_some]

/-- Blocks of prose are told whole, also behind another block. -/
theorem at_block_of_prose :
    let others := "\"\"\"Orders.\"\"\"\nlimit = 10\n".toList
    let quoted := "\nList \"open\" orders.\n@orders\n".toList
    let docstring := others ++ "\"\"\"".toList ++ quoted ++ "\"\"\"".toList ++ ['\n']
    let starred := "\n * Fetch a user.\n * @users\n ".toList
    let comment := [] ++ commentOpen ++ starred ++ commentClose ++ ['\n']
    at_ (docstring ++ "@api.get('/orders')".toList) (Text.byteLength docstring) =
      ⟨some "List \"open\" orders.".toList, some "List \"open\" orders.\n@orders".toList, ["orders".toList]⟩ ∧
    at_ (comment ++ "@Get('/users')".toList) (Text.byteLength comment) =
      ⟨some "Fetch a user.".toList, some "Fetch a user.\n@users".toList, ["users".toList]⟩ := by
  intro others quoted docstring starred comment
  have hblanks : ∀ c ∈ ['\n'], Text.isBlank c = true := List.forall_mem_singleton.2 rfl
  refine ⟨?_, ?_⟩
  · obtain ⟨hquoted, -⟩ := at_block others quoted ['\n'] "@api.get('/orders')".toList hblanks
    have hhead : ∀ c ∈ quoted.head?, c ∉ "\"\"\"".toList := by
      rintro _ ⟨⟩
      decide
    refine ((hquoted "\"\"\"".toList (by decide) (by decide)).2 hhead).trans ?_
    rfl
  · obtain ⟨-, hcommented⟩ := at_block [] starred ['\n'] "@Get('/users')".toList hblanks
    refine ((hcommented (by decide)).2 (by decide)).trans ?_
    rfl

/-- A block between quotes loses a quotation mark that it begins with, and a comment all up to a glob in it. -/
theorem not_at_block :
    let quoted := "\"Open\" orders.".toList
    let docstring := "\"\"\"".toList ++ quoted ++ "\"\"\"".toList ++ ['\n']
    let globbed := " Serves /api/** to @users. ".toList
    let comment := commentOpen ++ globbed ++ commentClose ++ ['\n']
    (¬ "\"\"\"".toList <:+: quoted ∧ quoted.getLast? ≠ some '"' ∧
      at_ (docstring ++ "@api.get('/orders')".toList) (Text.byteLength docstring) ≠ ofBlock quoted) ∧
    ¬ commentClose <:+: globbed ∧ globbed.head? ≠ some '/' ∧
      at_ (comment ++ "@Get('/users')".toList) (Text.byteLength comment) ≠ ofBlock (unstar globbed) :=
  ⟨⟨by decide, by decide, by decide⟩, by decide, by decide, by decide⟩

/-! ## Quotes that open -/

/-- A block between quotes and the code behind it, neither with a quotation mark of the quote. -/
structure Section (quote : List Char) where
  block : List Char
  code : List Char
  block_bare : ∀ c ∈ block, c ∉ quote
  code_bare : ∀ c ∈ code, c ∉ quote

def Section.text {quote : List Char} (s : Section quote) : List Char := quote ++ s.block ++ quote ++ s.code

theorem not_infix_of_bare {quote text : List Char} (hquote : quote ∈ quotes) (h : ∀ c ∈ text, c ∉ quote) :
    ¬ quote <:+: text := by
  obtain ⟨mark, rfl⟩ := exists_mark hquote
  exact fun hwithin => h mark (hwithin.subset List.mem_cons_self) List.mem_cons_self

theorem bare_of_all {quote text : List Char} (h : (text.all fun c => !quote.contains c) = true) :
    ∀ c ∈ text, c ∉ quote := by
  simpa using h

theorem isEmpty_ofBlock_iff (block : List Char) :
    (ofBlock block).isEmpty = true ↔ ∀ c ∈ block, Text.isBlank c = true := by
  rw [← Text.trim_eq_nil_iff]
  constructor
  · intro h
    rw [isEmpty, Bool.and_eq_true, Bool.and_eq_true, Option.isNone_iff_eq_none, Option.isNone_iff_eq_none] at h
    by_contra hne
    have hdescription : (ofBlock block).description = some (Text.truncate descriptionLimit (Text.trim block)) := by
      rw [ofBlock, descriptionOf?]
      exact if_neg (by simpa using hne)
    rw [hdescription] at h
    cases h.1.2
  · intro h
    rw [ofBlock, descriptionOf?, h]
    rfl

/-- **A quote that opens a block, right before a declaration, is taken for one that closes a block**, whatever number
of blocks stand before it: the declaration gets told what the code behind the last of them says, and is told nothing
only if that code is blank, or if there is no block. -/
theorem at_opening {quote : List Char} (hquote : quote ∈ quotes) {code blanks : List Char}
    (hcode : ∀ c ∈ code, c ∉ quote) (sections : List (Section quote)) (hblanks : ∀ c ∈ blanks, Text.isBlank c = true)
    (rest : List Char) :
    let content := code ++ sections.flatMap Section.text ++ quote ++ blanks
    let docs := at_ (content ++ rest) (Text.byteLength content)
    docs = sections.getLast?.elim none (ofBlock ·.code) ∧
      (docs.isEmpty = true ↔ ∀ last ∈ sections.getLast?, ∀ c ∈ last.code, Text.isBlank c = true) := by
  intro content docs
  have hdocs : docs = sections.getLast?.elim none (ofBlock ·.code) := by
    have hbefore : docs = before content.reverse := at_append content rest
    rw [hbefore, before]
    rcases List.eq_nil_or_concat sections with hnil | ⟨earlier, last, hlast⟩
    · have hcontent : content = code ++ quote ++ blanks := by simp [content, hnil]
      have hnone : ¬ quote.reverse <:+: code.reverse := mt List.reverse_infix.1 (not_infix_of_bare hquote hcode)
      rw [hcontent, blockBefore?_blanks hblanks, blockBefore?_quote hquote, Text.breakAt?_eq_none hnone, hnil]
      rfl
    · have hcontent : content =
          code ++ earlier.flatMap Section.text ++ quote ++ last.block ++ quote ++ last.code ++ quote ++ blanks := by
        simp [content, hlast, Section.text]
      have hhead : ∀ c ∈ last.code.head?, c ∉ quote := fun c hc => last.code_bare c (List.mem_of_mem_head? hc)
      rw [hcontent, blockBefore?_closed hquote (not_infix_of_bare hquote last.code_bare) hhead hblanks, hlast,
        List.concat_eq_append, List.getLast?_concat]
      rfl
  refine ⟨hdocs, ?_⟩
  rw [hdocs]
  cases sections.getLast? with
  | none => simp [none, isEmpty]
  | some last =>
    rw [Option.elim_some, isEmpty_ofBlock_iff]
    simp

def limited : Section "\"\"\"".toList :=
  ⟨"List orders.".toList, "\nlimit = 10\n".toList, bare_of_all (by decide), bare_of_all (by decide)⟩

/-- Behind a block with no code behind it, a quote tells nothing, whatever stands before the block. -/
theorem at_opening_of_blank :
    let last : Section "\"\"\"".toList :=
      ⟨"Then one.".toList, "\n\n".toList, bare_of_all (by decide), bare_of_all (by decide)⟩
    let content := "import api\n".toList ++ [limited, last].flatMap Section.text ++ "\"\"\"".toList ++ ['\n']
    (at_ (content ++ "@api.get('/orders')".toList) (Text.byteLength content)).isEmpty = true := by
  intro last content
  have hquote : "\"\"\"".toList ∈ quotes := List.mem_cons_self
  have hcode : ∀ c ∈ "import api\n".toList, c ∉ "\"\"\"".toList := bare_of_all (by decide)
  have hblanks : ∀ c ∈ ['\n'], Text.isBlank c = true := List.forall_mem_singleton.2 rfl
  obtain ⟨-, hempty⟩ := at_opening hquote hcode [limited, last] hblanks "@api.get('/orders')".toList
  refine hempty.2 fun s hs => ?_
  obtain rfl : last = s := by simpa using hs
  exact List.all_eq_true.1 (by decide)

/-- The code between a block and the quote behind it is told of the declaration. -/
theorem not_isEmpty_at_opening :
    let content := limited.text ++ "\"\"\"".toList ++ ['\n']
    at_ (content ++ "@api.get('/orders')".toList) (Text.byteLength content) =
      ⟨some "limit = 10".toList, some "limit = 10".toList, []⟩ := by
  rfl

/-! ## The block that opens a file -/

theorem blockAfter?_blanks {blanks : List Char} (h : ∀ c ∈ blanks, Text.isBlank c = true) (text : List Char) :
    blockAfter? (blanks ++ text) = blockAfter? text := by
  rw [blockAfter?, blockAfter?, Text.trimStart_append h]

theorem blockAfter?_quote {quote : List Char} (hquote : quote ∈ quotes) (text : List Char) :
    blockAfter? (quote ++ text) = (Text.breakAt? quote text).map (·.1) := by
  rcases List.mem_pair.1 hquote with rfl | rfl <;> rfl

theorem blockAfter?_comment (text : List Char) :
    blockAfter? (commentOpen ++ text) = (Text.breakAt? commentClose text).map fun found => unstar found.1 := by
  have hbind : blockAfter? (commentOpen ++ text) =
      (Text.breakAt? commentClose text).bind fun found => some (unstar found.1) := rfl
  rw [hbind, Option.map_eq_bind]
  rfl

/-- A complete block and the text in it: between quotes, up to where a quote stands for the first time, or in a comment,
up to the first closing mark behind the slash and star that open comments of any kind. -/
inductive Block : (block text : List Char) → Prop
  | quoted {quote text : List Char} : quote ∈ quotes → ¬ quote <:+: text → (∀ c ∈ text.getLast?, c ∉ quote) →
      Block (quote ++ text ++ quote) text
  | comment {body : List Char} : commentOpen <+: "/*".toList ++ body ++ commentClose → ¬ commentClose <:+: body →
      Block ("/*".toList ++ body ++ commentClose) (unstar body.tail)

/-- No quote ends in the first two marks of one, unless a mark stands before it. -/
theorem not_infix_quote_dropLast {quote text : List Char} (hquote : quote ∈ quotes) (htext : ¬ quote <:+: text)
    (hlast : ∀ c ∈ text.getLast?, c ∉ quote) : ¬ quote <:+: text ++ quote.dropLast := by
  have hreverse : quote.reverse = quote := by
    obtain ⟨mark, rfl⟩ := exists_mark hquote
    rfl
  have hmirror : ¬ quote <:+: text.reverse := fun h => htext (by rwa [← List.reverse_infix, hreverse])
  have hhead : ∀ c ∈ text.reverse.head?, c ∉ quote := by rwa [List.head?_reverse]
  rw [← List.reverse_infix, List.reverse_append, ← List.tail_reverse, hreverse]
  exact not_infix_quote hquote hmirror hhead

/-- No closing mark ends in the star of one. -/
theorem not_infix_commentClose {text : List Char} (h : ¬ commentClose <:+: text) :
    ¬ commentClose <:+: text ++ commentClose.dropLast := by
  have hclose : commentClose = ['*'] ++ ['/'] := rfl
  have hstar : commentClose.dropLast = ['*'] := rfl
  rw [hstar, List.infix_concat_iff]
  rintro (⟨front, hsuffix⟩ | hwithin)
  · rw [hclose, ← List.append_assoc] at hsuffix
    exact absurd (List.append_inj' hsuffix rfl).2 (by decide)
  · exact h hwithin

/-- **The description of a file is that of the block it opens with, and of nothing behind it**, but for the comment
whose two marks share a star, which is read on to the next closing mark. -/
theorem ofFile?_leading {blanks block text : List Char} (hblanks : ∀ c ∈ blanks, Text.isBlank c = true)
    (h : Block block text) :
    (block ≠ "/**/".toList → ∀ rest, ofFile? (blanks ++ block ++ rest) = descriptionOf? text) ∧
      ((∀ rest rest', ofFile? (blanks ++ block ++ rest) = ofFile? (blanks ++ block ++ rest')) ↔
        block ≠ "/**/".toList) := by
  have hread : block ≠ "/**/".toList → ∀ rest, ofFile? (blanks ++ block ++ rest) = descriptionOf? text := by
    intro hne rest
    rw [ofFile?, List.append_assoc, blockAfter?_blanks hblanks]
    cases h with
    | @quoted quote _ hquote htext hlast =>
      have hquote_ne : quote ≠ [] := by
        obtain ⟨mark, rfl⟩ := exists_mark hquote
        exact List.cons_ne_nil _ _
      rw [List.append_assoc, List.append_assoc, blockAfter?_quote hquote,
        Text.breakAt?_of_first hquote_ne (not_infix_quote_dropLast hquote htext hlast)]
      rfl
    | @comment body hopen hclose =>
      cases body with
      | nil => exact absurd rfl hne
      | cons c body =>
        obtain rfl : '*' = c := by
          have hstart : ['/', '*', '*'] <+: '/' :: '*' :: c :: (body ++ commentClose) := hopen
          simpa [List.cons_prefix_cons] using hstart
        have hbody : ¬ commentClose <:+: body := fun hwithin => hclose (List.infix_cons hwithin)
        have hcontent : "/*".toList ++ '*' :: body ++ commentClose ++ rest =
            commentOpen ++ (body ++ (commentClose ++ rest)) := by
          rw [List.append_assoc, List.append_assoc]
          rfl
        rw [hcontent, blockAfter?_comment, Text.breakAt?_of_first commentClose_ne_nil (not_infix_commentClose hbody)]
        rfl
  refine ⟨hread, fun hsame hempty => ?_, fun hne rest rest' => by rw [hread hne, hread hne]⟩
  have hthis := hsame [] commentClose
  rw [hempty, ofFile?, ofFile?, List.append_assoc, List.append_assoc, blockAfter?_blanks hblanks,
    blockAfter?_blanks hblanks] at hthis
  exact absurd hthis (by decide)

/-- A comment in stars ends at its own closing mark. -/
theorem ofFile?_leading_of_stars :
    let comment := "/*** Orders **/".toList
    Block comment (unstar "* Orders *".toList) ∧ comment ≠ "/**/".toList ∧
      (∀ rest, ofFile? (['\n'] ++ comment ++ rest) = some "Orders *".toList) ∧
      ∀ rest rest', ofFile? (['\n'] ++ comment ++ rest) = ofFile? (['\n'] ++ comment ++ rest') := by
  intro comment
  have hblanks : ∀ c ∈ ['\n'], Text.isBlank c = true := List.forall_mem_singleton.2 rfl
  have hblock : Block comment (unstar "* Orders *".toList) :=
    @Block.comment "** Orders *".toList (by decide) (by decide)
  have hne : comment ≠ "/**/".toList := by decide
  obtain ⟨hread, hsame⟩ := ofFile?_leading hblanks hblock
  refine ⟨hblock, hne, fun rest => (hread hne rest).trans ?_, hsame.2 hne⟩
  rfl

/-- The comment whose marks share a star is read on into the code behind it. -/
theorem not_ofFile?_leading : Block "/**/".toList (unstar []) ∧
    ofFile? ("/**/".toList ++ " const limit = 10; /* orders */".toList) = some "/ const limit = 10; /* orders".toList ∧
    ofFile? "/**/".toList = .none :=
  ⟨@Block.comment [] (by decide) (by decide), rfl, rfl⟩

end ApiCatalog.Docs
