import ApiCatalog.Proofs.Extract.Blocks
import ApiCatalog.Proofs.List.First
import ApiCatalog.Proofs.Regex.Words
/-!
# Descriptions of classes

In a source without triple quotes the only blocks are comments.  The description of its class is that of the comment
behind the first header with a colon that has one, and only if there is none, that of the comment in front of the first
declaration that has one (`ofClass?_of_comments`).
-/

namespace ApiCatalog.Docs

open Pattern

/-! ## Blocks in texts without quotes -/

theorem unquoted_of_within {text content : List Char} (hcontent : ∀ quote ∈ quotes, ¬ quote <:+: content)
    (h : text <:+: content) : ∀ quote ∈ quotes, ¬ quote <:+: text :=
  fun quote hquote hwithin => hcontent quote hquote (hwithin.trans h)

theorem unquoted_of_all {content : List Char} (h : (quotes.all fun quote => !Text.occurs quote content) = true) :
    ∀ quote ∈ quotes, ¬ quote <:+: content := fun quote hquote hwithin => by
  have hthis := List.all_eq_true.1 h quote hquote
  rw [Text.occurs_iff.2 hwithin] at hthis
  cases hthis

theorem findSome?_quotes_eq_none (mirror : List Char → List Char) {text : List Char}
    (h : ∀ quote ∈ quotes, ¬ mirror quote <:+: text) :
    quotes.findSome? (fun quote => (Text.stripStart? (mirror quote) (Text.trimStart text)).map (quote, ·)) = .none := by
  rw [List.findSome?_eq_none_iff]
  intro quote hquote
  rw [Option.map_eq_none_iff]
  refine Text.stripStart?_eq_none fun hstart => h quote hquote ?_
  exact hstart.isInfix.trans (List.dropWhile_suffix _).isInfix

theorem blockAfter?_unquoted {text : List Char} (h : ∀ quote ∈ quotes, ¬ quote <:+: text) :
    blockAfter? text = (Text.stripStart? commentOpen (Text.trimStart text)).bind fun rest =>
      (Text.breakAt? commentClose rest).bind fun found => some (unstar found.1) := by
  rw [blockAfter?]
  dsimp only
  rw [findSome?_quotes_eq_none (fun quote => quote) h]
  rfl

theorem blockBefore?_unquoted {text : List Char} (h : ∀ quote ∈ quotes, ¬ quote <:+: text) :
    blockBefore? text.reverse = commentBefore? (Text.trimStart text.reverse) := by
  rw [blockBefore?, findSome?_quotes_eq_none List.reverse fun quote hquote =>
    mt List.reverse_infix.1 (h quote hquote)]

/-- **The block that a text without quotes opens with is a comment**, up to its first closing mark. -/
theorem blockAfter?_eq_some_iff {text block : List Char} (h : ∀ quote ∈ quotes, ¬ quote <:+: text) :
    blockAfter? text = some block ↔ ∃ blanks body rest, (∀ c ∈ blanks, Text.isBlank c = true) ∧
      text = blanks ++ commentOpen ++ body ++ commentClose ++ rest ∧ ¬ commentClose <:+: body ∧
        block = unstar body := by
  constructor
  · intro hblock
    rw [blockAfter?_unquoted h] at hblock
    obtain ⟨left, hopen, hleft⟩ := Option.bind_eq_some_iff.1 hblock
    obtain ⟨⟨body, rest⟩, hclose, hsome⟩ := Option.bind_eq_some_iff.1 hleft
    obtain ⟨rfl, hbody⟩ := (Text.breakAt?_eq_some_iff commentClose_ne_nil).1 hclose
    obtain ⟨blanks, hblanks, htext⟩ := Text.exists_blanks text
    rw [Text.eq_append_of_stripStart? hopen] at htext
    refine ⟨blanks, body, rest, hblanks, by simp [htext], fun hwithin => hbody ?_, (Option.some.inj hsome).symm⟩
    exact hwithin.trans (List.prefix_append _ _).isInfix
  · rintro ⟨blanks, body, rest, hblanks, rfl, hbody, rfl⟩
    rw [List.append_assoc, List.append_assoc, List.append_assoc, blockAfter?_blanks hblanks, blockAfter?_comment,
      Text.breakAt?_of_first commentClose_ne_nil (not_infix_commentClose hbody)]
    rfl

/-- **The block that a text without quotes ends in is a comment**, from its last opening mark on. -/
theorem blockBefore?_eq_some_iff {text block : List Char} (h : ∀ quote ∈ quotes, ¬ quote <:+: text) :
    blockBefore? text.reverse = some block ↔ ∃ front body blanks, (∀ c ∈ blanks, Text.isBlank c = true) ∧
      text = front ++ commentOpen ++ body ++ commentClose ++ blanks ∧ ¬ commentOpen <:+: body ∧
        ¬ commentClose <:+: body ∧ block = unstar body := by
  constructor
  · intro hblock
    rw [blockBefore?_unquoted h] at hblock
    obtain ⟨head, hclose, hhead⟩ := Option.bind_eq_some_iff.1 hblock
    obtain ⟨⟨body, front⟩, hopen, hsome⟩ := Option.bind_eq_some_iff.1 hhead
    obtain ⟨rfl, hbody⟩ := (Text.breakAt?_eq_some_iff (by decide)).1 hopen
    dsimp only at hsome
    split at hsome
    · cases hsome
    · rename_i hcloses
      obtain ⟨blanks, hblanks, htext⟩ := Text.exists_blanks text.reverse
      rw [Text.eq_append_of_stripStart? hclose] at htext
      refine ⟨front.reverse, body.reverse, blanks.reverse, fun c hc => hblanks c (List.mem_reverse.1 hc), ?_,
        fun hwithin => hbody ?_, mt Text.occurs_iff.2 hcloses, (Option.some.inj hsome).symm⟩
      · rw [← List.reverse_reverse text, htext]
        simp
      · rw [← List.reverse_infix] at hwithin
        exact (List.reverse_reverse body ▸ hwithin).trans (List.prefix_append _ _).isInfix
  · rintro ⟨front, body, blanks, hblanks, rfl, hopen, hclose, rfl⟩
    exact blockBefore?_commented hopen hclose hblanks front

/-! ## Descriptions that comments give -/

/-- The body of a comment gives a description: what it begins with, without the stars in front of its lines and the
blanks around it, if that is not all. -/
def Gives (body description : List Char) : Prop :=
  Text.trim (unstar body) ≠ [] ∧ description = Text.truncate descriptionLimit (Text.trim (unstar body))

def Leads (text description : List Char) : Prop :=
  ∃ blanks body rest, (∀ c ∈ blanks, Text.isBlank c = true) ∧
    text = blanks ++ commentOpen ++ body ++ commentClose ++ rest ∧ ¬ commentClose <:+: body ∧ Gives body description

def Trails (text description : List Char) : Prop :=
  ∃ front body blanks, (∀ c ∈ blanks, Text.isBlank c = true) ∧
    text = front ++ commentOpen ++ body ++ commentClose ++ blanks ∧ ¬ commentOpen <:+: body ∧
      ¬ commentClose <:+: body ∧ Gives body description

theorem descriptionOf?_eq_some_iff {block description : List Char} : descriptionOf? block = some description ↔
    Text.trim block ≠ [] ∧ description = Text.truncate descriptionLimit (Text.trim block) := by
  rw [descriptionOf?]
  split
  · rename_i hempty
    simp [List.isEmpty_iff.1 hempty]
  · rename_i hempty
    have hne : Text.trim block ≠ [] := fun h => hempty (by rw [h]; rfl)
    simp only [Option.some.injEq, hne, ne_eq, not_false_eq_true, true_and, eq_comm]

theorem blockAfter?_bind_eq_some_iff {text description : List Char} (h : ∀ quote ∈ quotes, ¬ quote <:+: text) :
    (blockAfter? text).bind descriptionOf? = some description ↔ Leads text description := by
  rw [Option.bind_eq_some_iff]
  constructor
  · rintro ⟨block, hblock, hdescription⟩
    obtain ⟨blanks, body, rest, hblanks, htext, hbody, rfl⟩ := (blockAfter?_eq_some_iff h).1 hblock
    exact ⟨blanks, body, rest, hblanks, htext, hbody, descriptionOf?_eq_some_iff.1 hdescription⟩
  · rintro ⟨blanks, body, rest, hblanks, htext, hbody, hgives⟩
    have hblock := (blockAfter?_eq_some_iff h).2 ⟨blanks, body, rest, hblanks, htext, hbody, rfl⟩
    exact ⟨unstar body, hblock, descriptionOf?_eq_some_iff.2 hgives⟩

theorem blockBefore?_bind_eq_some_iff {text description : List Char} (h : ∀ quote ∈ quotes, ¬ quote <:+: text) :
    (blockBefore? text.reverse).bind descriptionOf? = some description ↔ Trails text description := by
  rw [Option.bind_eq_some_iff]
  constructor
  · rintro ⟨block, hblock, hdescription⟩
    obtain ⟨front, body, blanks, hblanks, htext, hopen, hclose, rfl⟩ := (blockBefore?_eq_some_iff h).1 hblock
    exact ⟨front, body, blanks, hblanks, htext, hopen, hclose, descriptionOf?_eq_some_iff.1 hdescription⟩
  · rintro ⟨front, body, blanks, hblanks, htext, hopen, hclose, hgives⟩
    have hblock := (blockBefore?_eq_some_iff h).2 ⟨front, body, blanks, hblanks, htext, hopen, hclose, rfl⟩
    exact ⟨unstar body, hblock, descriptionOf?_eq_some_iff.2 hgives⟩

/-! ## Headers and declarations -/

def exactly (c : Char) : Regex := .oneOf ⟨false, [.range c c]⟩

def spelled (name : String) : List Regex := name.toList.map exactly

def gap : Regex := .atLeastOne (.oneOf ⟨false, [.blank]⟩)

def indented : List Regex := [.place .lineStart, .run ⟨false, [.range ' ' ' ', .range '\t' '\t']⟩]

def headerFront : List Regex :=
  indented ++ spelled "class" ++ [gap, word, .run ⟨true, [.range ':' ':', .range '\n' '\n']⟩]

def headerRegex : Regex := sequence (headerFront ++ [exactly ':'])

def annotation : Regex :=
  sequence [exactly '@', word, .optional (sequence [exactly '(', .run ⟨true, [.range ')' ')']⟩, exactly ')']), gap]

def modifiers : List String := ["public", "abstract", "final", "open", "data", "default"]

def declarationRegex : Regex :=
  sequence (indented ++ [.star annotation, .optional (sequence (spelled "export" ++ [gap])),
    .star (sequence [choice (modifiers.map fun name => sequence (spelled name)), gap])] ++
    spelled "class" ++ [gap, word])

theorem colonClass_eq : colonClass = some headerRegex := by decide +kernel

theorem bracedClass_eq : bracedClass = some declarationRegex := by decide +kernel

theorem colon_of_header {content : List Char} {header : Found} (h : header ∈ headerRegex.findAll content) :
    ∃ front, content = front ++ ':' :: header.behind := by
  obtain ⟨front, rest, q, hcontent, hreads, rfl⟩ := Regex.matchIn_of_mem_findAll h
  obtain ⟨m, hm, hcolon⟩ := reads_sequence_append.1 hreads
  obtain ⟨_, behind, ⟨c, hc, rfl⟩, hrest, rfl⟩ := (takes_oneOf _ _ _).1 hcolon
  obtain ⟨item, hitem, hhas⟩ := has_items.1 hc
  obtain rfl := List.mem_singleton.1 hitem
  obtain rfl := has_single.1 hhas
  obtain ⟨text, left, htext, hcursor⟩ := hm.onward
  rw [Cursor.rest_behind] at htext
  rw [hcursor, Cursor.rest_past] at hrest
  exact ⟨front ++ text, by rw [hcontent, htext, hrest, List.append_assoc]; rfl⟩

def toldBehind? (found : Found) : Option (List Char) := (blockAfter? found.behind).bind descriptionOf?

def toldBefore? (found : Found) : Option (List Char) := (blockBefore? found.before.reverse).bind descriptionOf?

theorem ofClass?_eq (content : List Char) : ofClass? content =
    ((headerRegex.findAll content).findSome? toldBehind?).or
      ((declarationRegex.findAll content).findSome? toldBefore?) := by
  have hbefore : toldBefore? = fun found => (blockBefore? found.whole.start.passed).bind descriptionOf? := by
    funext found
    rw [toldBefore?, Found.before, List.reverse_reverse]
  rw [ofClass?, colonClass_eq, bracedClass_eq, hbefore]
  rfl

section
variable {content : List Char} (hcontent : ∀ quote ∈ quotes, ¬ quote <:+: content)
include hcontent

theorem toldBehind?_eq_some_iff : ∀ header ∈ headerRegex.findAll content, ∀ description,
    toldBehind? header = some description ↔ Leads header.behind description := fun _ hheader _ =>
  blockAfter?_bind_eq_some_iff (unquoted_of_within hcontent (Regex.behind_of_mem_findAll hheader).isInfix)

theorem toldBefore?_eq_some_iff : ∀ declaration ∈ declarationRegex.findAll content, ∀ description,
    toldBefore? declaration = some description ↔ Trails declaration.before description := fun found hfound _ => by
  obtain ⟨rest, hplace, -⟩ := Regex.place_of_mem_findAll hfound
  have hwithin : found.before <:+: content := hplace ▸ (List.prefix_append _ _).isInfix
  exact blockBefore?_bind_eq_some_iff (unquoted_of_within hcontent hwithin)

end

/-- **Where the description of a class comes from, in a source whose blocks are comments.**  If no header with a colon
has a comment behind it that gives a description, a description is that of a comment right in front of a declaration,
and if there are such comments, that of the first.  Otherwise it is that of the comment behind the first header that
has one, whatever stands in front of the declarations.  No header has one if no colon has one. -/
theorem ofClass?_of_comments {content : List Char} (hcontent : ∀ quote ∈ quotes, ¬ quote <:+: content) :
    let headers := headerRegex.findAll content
    let declarations := declarationRegex.findAll content
    ((∀ header ∈ headers, ∀ description, ¬ Leads header.behind description) → ∀ description,
      (ofClass? content = some description → ∃ front rest, content = front ++ rest ∧
        (declarationRegex.matchAt? (.behind front rest)).isSome = true ∧ Trails front description) ∧
      (IsFirst declarations (fun declaration => Trails declaration.before) description →
        ofClass? content = some description)) ∧
    (∀ description, IsFirst headers (fun header => Leads header.behind) description →
      ofClass? content = some description) ∧
    ((∀ front rest, content = front ++ ':' :: rest → ∀ description, ¬ Leads rest description) →
      ∀ header ∈ headers, ∀ description, ¬ Leads header.behind description) := by
  intro headers declarations
  have hclass : ofClass? content = (headers.findSome? toldBehind?).or (declarations.findSome? toldBefore?) :=
    ofClass?_eq content
  refine ⟨fun hnone description => ?_, fun description hfirst => ?_, fun hnone header hheader => ?_⟩
  · have hheaders : headers.findSome? toldBehind? = .none := by
      refine List.findSome?_eq_none_iff.2 fun header hheader => Option.eq_none_iff_forall_ne_some.2 fun told htold => ?_
      exact hnone header hheader told ((toldBehind?_eq_some_iff hcontent header hheader told).1 htold)
    have hfirst : ofClass? content = some description ↔
        IsFirst declarations (fun declaration => Trails declaration.before) description := by
      rw [hclass, hheaders, Option.none_or]
      exact findSome?_eq_some_iff_isFirst (toldBefore?_eq_some_iff hcontent)
    refine ⟨fun h => ?_, hfirst.2⟩
    obtain ⟨earlier, found, later, hall, htrails, -⟩ := hfirst.1 h
    have hfound : found ∈ declarations := hall ▸ List.mem_append_right _ List.mem_cons_self
    obtain ⟨rest, hplace, hmatch⟩ := Regex.place_of_mem_findAll hfound
    exact ⟨found.before, rest, hplace, by rw [hmatch]; rfl, htrails⟩
  · rw [hclass, (findSome?_eq_some_iff_isFirst (toldBehind?_eq_some_iff hcontent)).2 hfirst, Option.some_or]
  · obtain ⟨front, hfront⟩ := colon_of_header hheader
    exact hnone front _ hfront

/-- The comment in front of an annotated class describes it, whatever comments stand in the class. -/
theorem ofClass?_of_comments_annotated :
    let content :=
      "/** Users of a shop. */\n@Path(\"/users\")\npublic class Users : Base() \x7b\n  /** Lists users. */".toList
    ofClass? content = some "Users of a shop.".toList ∧ ∃ front rest, content = front ++ rest ∧
      (declarationRegex.matchAt? (.behind front rest)).isSome = true ∧ Trails front "Users of a shop.".toList := by
  intro content
  have hcontent : ∀ quote ∈ quotes, ¬ quote <:+: content := unquoted_of_all rfl
  have hfirst : IsFirst (declarationRegex.findAll content) (fun declaration => Trails declaration.before)
      "Users of a shop.".toList :=
    (findSome?_eq_some_iff_isFirst (toldBefore?_eq_some_iff hcontent)).1 rfl
  have htold : ((headerRegex.findAll content).all fun header => (toldBehind? header).isNone) = true := rfl
  have hnone : ∀ header ∈ headerRegex.findAll content, ∀ description, ¬ Leads header.behind description :=
    fun header hheader description hleads => by
      have hsome := (toldBehind?_eq_some_iff hcontent header hheader description).2 hleads
      have hthis := List.all_eq_true.1 htold header hheader
      rw [hsome] at hthis
      cases hthis
  obtain ⟨hlaw, -, -⟩ := ofClass?_of_comments hcontent
  have hclass := (hlaw hnone _).2 hfirst
  exact ⟨hclass, (hlaw hnone _).1 hclass⟩

/-- **A comment behind a colon in the line of a class is taken for the description of the class**, which has a comment
in front of it: the description is that of no comment in front of a declaration. -/
theorem not_ofClass?_of_comments :
    let content := "/** User controller. */\nclass UserController \x7b // Endpoints:\n  /** Lists users. */".toList
    (∀ quote ∈ quotes, ¬ quote <:+: content) ∧
      IsFirst (declarationRegex.findAll content) (fun declaration => Trails declaration.before)
        "User controller.".toList ∧
      ofClass? content = some "Lists users.".toList ∧
      ∀ declaration ∈ declarationRegex.findAll content, ¬ Trails declaration.before "Lists users.".toList := by
  intro content
  have hcontent : ∀ quote ∈ quotes, ¬ quote <:+: content := unquoted_of_all rfl
  have htold : ((declarationRegex.findAll content).all fun declaration =>
      toldBefore? declaration ≠ some "Lists users.".toList) = true := rfl
  refine ⟨hcontent, (findSome?_eq_some_iff_isFirst (toldBefore?_eq_some_iff hcontent)).1 rfl, rfl, ?_⟩
  intro declaration hdeclaration htrails
  have hsome := (toldBefore?_eq_some_iff hcontent declaration hdeclaration _).2 htrails
  have hthis := List.all_eq_true.1 htold declaration hdeclaration
  rw [hsome] at hthis
  cases hthis

end ApiCatalog.Docs
