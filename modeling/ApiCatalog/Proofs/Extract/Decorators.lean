import ApiCatalog.Proofs.Extract.Indicators
import ApiCatalog.Proofs.Files.Put
import ApiCatalog.Proofs.Routes.Table
import ApiCatalog.Proofs.Text.Cut
/-!
# Decorators

What the rule for decorators reads (`exists_decorator_of_reads`), and which decorators are signs of annotations: a file
with endpoints has a sign, with one exception, since a decorator with the verb `route` is a sign only through its owner
(`hasIndicator_of_endpoints`).
-/

namespace ApiCatalog.Annotated

open Pattern

/-- The quotation marks or, negated, all other characters. -/
def quotes (negated : Bool) : CharSet := ⟨negated, [.range '\'' '\'', .range '"' '"']⟩

/-- A rule for decorators: what reads the owner, the names of the verbs, and the numbers of the groups for verb and
path. -/
def decoratorWith (owner : Regex) (names : List String) (verb path : Nat) : Regex :=
  sequence [letter '@', owner, letter '.', .group verb (anyName names), letter '(', .run ⟨false, [.blank]⟩,
    .oneOf (quotes false), .group path (.atLeastOne (.oneOf (quotes true))), .oneOf (quotes false)]

/-- The rule for decorators of any object, with its owner as a group. -/
def decoratorRegex : Regex :=
  sequence [letter '@', .group 1 word, letter '.', .group 2 (anyName ("route" :: verbs)), letter '(',
    .run ⟨false, [.blank]⟩, .oneOf (quotes false), .group 3 (.atLeastOne (.oneOf (quotes true))), .oneOf (quotes false)]

def decoratorRule : RouteRule := ⟨decoratorRegex, ["py"], .ownerVerbPath⟩

theorem python_table : Language.python.table = [⟨decoratorRegex, ["py"], .ownerVerbPath⟩] := by
  have hregex : Regex.ofPattern? RouteRow.options
      "@(\\w+)\\.(route|get|post|put|delete|patch)\\(\\s*['\"]([^'\"]+)['\"]" = some decoratorRegex := by
    decide +kernel
  rw [Language.table, Language.rows, RouteTable.ofRows, Language.pythonRows]
  simp [RouteRow.rule?, hregex, Language.pythonFiles]

/-- The parts of a decorator that declares a route. -/
structure Decorator where
  owner : List Char
  verb : List Char
  blanks : List Char
  opening : Char
  path : List Char
  closing : Char

namespace Decorator

def text (d : Decorator) : List Char :=
  '@' :: (d.owner ++ '.' :: (d.verb ++ '(' :: (d.blanks ++ d.opening :: (d.path ++ [d.closing]))))

/-- The parts are what the rule for decorators asks for. -/
structure Proper (d : Decorator) : Prop where
  owner_ne_nil : d.owner ≠ []
  owner : ∀ c ∈ d.owner, Text.isWordChar c = true
  verb : ∃ name ∈ "route" :: verbs, spells name.toList d.verb = true
  blanks : ∀ c ∈ d.blanks, Text.isBlank c = true
  opening : Verb.isQuote d.opening = true
  path_ne_nil : d.path ≠ []
  path : ∀ c ∈ d.path, Verb.isQuote c = false
  closing : Verb.isQuote d.closing = true

def isProper (d : Decorator) : Bool :=
  !d.owner.isEmpty && d.owner.all Text.isWordChar && ("route" :: verbs).any (fun name => spells name.toList d.verb)
    && d.blanks.all Text.isBlank && Verb.isQuote d.opening && !d.path.isEmpty && d.path.all (!Verb.isQuote ·)
    && Verb.isQuote d.closing

theorem Proper.of_isProper {d : Decorator} (h : d.isProper = true) : d.Proper := by
  simp only [isProper, Bool.and_eq_true, Bool.not_eq_true', List.isEmpty_eq_false_iff, List.all_eq_true,
    List.any_eq_true] at h
  obtain ⟨⟨⟨⟨⟨⟨⟨howner_ne, howner⟩, hverb⟩, hblanks⟩, hopening⟩, hpath_ne⟩, hpath⟩, hclosing⟩ := h
  exact ⟨howner_ne, howner, hverb, hblanks, hopening, hpath_ne, hpath, hclosing⟩

/-- A decorator as it is usually written: the verb in small letters and the path between two quotes of a kind. -/
def written (owner : List Char) (verb : String) (quote : Char) (path : List Char) : Decorator :=
  ⟨owner, verb.toList, [], quote, path, quote⟩

end Decorator

theorem has_quotes (negated : Bool) (c : Char) : (quotes negated).has c = (Verb.isQuote c != negated) := by
  have hsingle : ∀ d : Char, (CharItem.range d d).has c = (c == d) := fun d => by
    rw [Bool.eq_iff_iff, has_single, beq_iff_eq]
  simp only [quotes, CharSet.has, List.any_cons, List.any_nil, hsingle, Bool.or_false, Verb.isQuote]

theorem takes_quote : (Regex.oneOf (quotes false)).Takes fun text => ∃ c, Verb.isQuote c = true ∧ text = [c] := by
  simpa [has_quotes] using takes_oneOf (quotes false)

theorem takes_path : (Regex.atLeastOne (.oneOf (quotes true))).Takes
    fun text => text ≠ [] ∧ ∀ c ∈ text, Verb.isQuote c = false := by
  simpa [has_quotes] using takes_atLeastOne (quotes true)

theorem takes_blanks : (Regex.run ⟨false, [.blank]⟩).Takes fun text => ∀ c ∈ text, Text.isBlank c = true := by
  simpa [CharSet.has, CharItem.has] using takes_run ⟨false, [.blank]⟩

/-- An owner is a word. -/
def IsOwner (text : List Char) : Prop := text ≠ [] ∧ ∀ c ∈ text, Text.isWordChar c = true

theorem isOwner_app : IsOwner "app".toList := ⟨by decide, List.all_eq_true.1 (by decide)⟩

theorem spells_verb : ∀ verb ∈ "route" :: verbs, spells verb.toList verb.toList = true := by decide

theorem Decorator.proper_written {owner path : List Char} {verb : String} {quote : Char} (howner : IsOwner owner)
    (hverb : verb ∈ "route" :: verbs) (hquote : Verb.isQuote quote = true) (hne : path ≠ [])
    (hpath : ∀ c ∈ path, Verb.isQuote c = false) : (written owner verb quote path).Proper :=
  ⟨howner.1, howner.2, ⟨verb, hverb, spells_verb verb hverb⟩, fun _ h => absurd h List.not_mem_nil, hquote, hne, hpath,
    hquote⟩

section
variable {owner : Regex} {names : List String} {verb path : Nat} {start : Cursor}

/-- **What a rule for decorators reads is a decorator, with verb and path as its groups.** -/
theorem exists_decorator_of_reads (howner : owner.Covers IsOwner) (hne : names ≠ [])
    (hnames : ∀ name ∈ names, name ∈ "route" :: verbs) {q : Progress}
    (h : (decoratorWith owner names verb path).Reads ⟨start, []⟩ q) :
    ∃ d : Decorator, d.Proper ∧ (∃ name ∈ names, spells name.toList d.verb = true) ∧ ∃ rest,
      start.rest = d.text ++ rest ∧ q.cursor = start.past d.text rest ∧
        ∃ more, q.texts = (path, d.path) :: (verb, d.verb) :: more := by
  obtain ⟨_, rest, rfl, hrest, h⟩ := (reads_cons (takes_mark rfl)).1 h
  obtain ⟨owner, rest, m, ⟨howner_ne, howner⟩, rfl, hcursor, hcall⟩ := reads_covered_cons howner h
  obtain ⟨_, rest, rfl, hdot, hcall⟩ := (reads_cons (takes_mark rfl)).1 hcall
  rw [hcursor, Cursor.rest_past] at hdot
  subst hdot
  obtain ⟨written, rest, ⟨name, hname, hspells⟩, rfl, h⟩ := (reads_noted_cons (takes_anyName hne)).1 hcall
  obtain ⟨_, rest, rfl, rfl, h⟩ := (reads_cons (takes_mark rfl)).1 h
  obtain ⟨blanks, rest, hblanks, rfl, h⟩ := (reads_cons takes_blanks).1 h
  obtain ⟨_, rest, ⟨opening, hopening, rfl⟩, rfl, h⟩ := (reads_cons takes_quote).1 h
  obtain ⟨found, rest, ⟨hfound_ne, hfound⟩, rfl, h⟩ := (reads_noted_cons takes_path).1 h
  obtain ⟨_, rest, ⟨closing, hclosing, rfl⟩, rfl, h⟩ := (takes_quote _ _).1 h
  refine ⟨⟨owner, written, blanks, opening, found, closing⟩,
    ⟨howner_ne, howner, ⟨name, hnames name hname, hspells⟩, hblanks, hopening, hfound_ne, hfound, hclosing⟩,
    ⟨name, hname, hspells⟩, rest, ?_, ?_, m.texts, ?_⟩
  · rw [hrest]
    simp [Decorator.text]
  · subst h
    simp only [Progress.past, Progress.noted, hcursor, Cursor.past_past]
    simp [Decorator.text]
  · subst h
    rw [Progress.texts_past, Progress.texts_noted, Progress.texts_past, Progress.texts_past, Progress.texts_past,
      Progress.texts_noted, Progress.texts_past] <;> rfl

theorem exists_reads_decorator (howner : owner.Covers IsOwner) {d : Decorator} (hd : d.Proper) {name : String}
    (hname : name ∈ names) (hspells : spells name.toList d.verb = true) {rest : List Char}
    (hrest : start.rest = d.text ++ rest) : ∃ q, (decoratorWith owner names verb path).Reads ⟨start, []⟩ q := by
  rw [Decorator.text] at hrest
  simp only [List.append_assoc, List.cons_append] at hrest
  refine exists_reads_cons (takes_mark rfl) rfl hrest ?_
  refine exists_reads_covered_cons howner ⟨hd.owner_ne_nil, hd.owner⟩ rfl fun m hcursor => ?_
  have hdot : m.cursor.rest = ['.'] ++ (d.verb ++ '(' :: (d.blanks ++ d.opening :: (d.path ++ d.closing :: rest))) := by
    rw [hcursor]
    rfl
  refine exists_reads_cons (takes_mark rfl) rfl hdot ?_
  refine exists_reads_noted_cons (takes_anyName (List.ne_nil_of_mem hname)) ⟨name, hname, hspells⟩ rfl ?_
  refine exists_reads_cons (takes_mark rfl) rfl rfl ?_
  refine exists_reads_cons takes_blanks hd.blanks rfl ?_
  refine exists_reads_cons takes_quote ⟨_, hd.opening, rfl⟩ rfl ?_
  refine exists_reads_noted_cons takes_path ⟨hd.path_ne_nil, hd.path⟩ rfl ?_
  exact exists_reads_of_takes takes_quote ⟨_, hd.closing, rfl⟩ rfl

end

def names : List String := "route" :: "path" :: "request" :: "mapping" :: "api" :: verbs

theorem mem_alphabet : ∀ name ∈ names, ∀ c ∈ name.toList, c ∈ alphabet := by
  have hall : (names.all fun name => name.toList.all alphabet.contains) = true := by rfl
  simpa only [List.all_eq_true, List.contains_iff_mem] using hall

theorem isWordChar_of_spells (name : String) (hname : name ∈ names) {text : List Char}
    (h : spells name.toList text = true) : ∀ c ∈ text, Text.isWordChar c = true :=
  fun c hc => isWordChar_of_mem_spellings c ((mem_spellings_of_spells (mem_alphabet name hname) h).1 c hc)

theorem Decorator.Proper.isWordChar {d : Decorator} (hd : d.Proper) : ∀ c ∈ d.verb, Text.isWordChar c = true := by
  have hnames : ∀ verb ∈ "route" :: verbs, verb ∈ names := by decide
  obtain ⟨verb, hverb, h⟩ := hd.verb
  exact isWordChar_of_spells _ (hnames verb hverb) h

theorem not_isWordChar_mark :
    ¬ Text.isWordChar '@' = true ∧ ¬ Text.isWordChar '.' = true ∧ ¬ Text.isWordChar '(' = true := by decide

theorem isBlank_of_isQuote {c : Char} (h : Verb.isQuote c = true) : Text.isBlank c = false := by
  rw [Verb.isQuote, Bool.or_eq_true, beq_iff_eq, beq_iff_eq] at h
  rcases h with rfl | rfl <;> decide

theorem isQuote_of_isWordChar {c : Char} (h : Text.isWordChar c = true) : Verb.isQuote c = false := by
  refine Bool.eq_false_iff.2 fun hquote => ?_
  rw [Verb.isQuote, Bool.or_eq_true, beq_iff_eq, beq_iff_eq] at hquote
  rcases hquote with rfl | rfl <;> exact absurd h (by decide)

def Decorator.call (d : Decorator) : List Char := '@' :: (d.owner ++ '.' :: (d.verb ++ '(' :: d.blanks))

theorem Decorator.text_eq (d : Decorator) : d.text = d.call ++ d.opening :: (d.path ++ [d.closing]) := by
  simp [text, call]

theorem Decorator.Proper.isQuote_call {d : Decorator} (hd : d.Proper) : ∀ c ∈ d.call, Verb.isQuote c = false := by
  have hblank : ∀ c ∈ d.blanks, Verb.isQuote c = false := fun c hc =>
    Bool.eq_false_iff.2 fun hquote => absurd (hd.blanks c hc) (by simp [isBlank_of_isQuote hquote])
  simp only [call, List.forall_mem_cons, List.forall_mem_append]
  exact ⟨rfl, fun c hc => isQuote_of_isWordChar (hd.owner c hc), rfl,
    fun c hc => isQuote_of_isWordChar (hd.isWordChar c hc), rfl, hblank⟩

/-- Owner and verb end at a mark, the blanks at a quote and the path at the next one. -/
theorem Decorator.text_inj {d d' : Decorator} (hd : d.Proper) (hd' : d'.Proper) {rest rest' : List Char}
    (h : d.text ++ rest = d'.text ++ rest') : d = d' ∧ rest = rest' := by
  simp only [text, List.cons_append, List.append_assoc, List.nil_append] at h
  obtain ⟨howner, -, h⟩ := Text.cut_inj (Text.isWordChar · = true) not_isWordChar_mark.2.1 not_isWordChar_mark.2.1
    hd.owner hd'.owner (List.cons.inj h).2
  obtain ⟨hverb, -, h⟩ := Text.cut_inj (Text.isWordChar · = true) not_isWordChar_mark.2.2 not_isWordChar_mark.2.2
    hd.isWordChar hd'.isWordChar h
  obtain ⟨hblanks, hopening, h⟩ := Text.cut_inj (Text.isBlank · = true) (by simp [isBlank_of_isQuote hd.opening])
    (by simp [isBlank_of_isQuote hd'.opening]) hd.blanks hd'.blanks h
  obtain ⟨hpath, hclosing, hrest⟩ := Text.cut_inj (Verb.isQuote · = false) (by simp [hd.closing])
    (by simp [hd'.closing]) hd.path hd'.path h
  cases d
  cases d'
  dsimp only at howner hverb hblanks hopening hpath hclosing
  exact ⟨by rw [howner, hverb, hblanks, hopening, hpath, hclosing], hrest⟩

/-- Owners that are signs by themselves. -/
def Telling (owner : List Char) : Prop :=
  spells "api".toList owner = true ∨ ∃ verb ∈ "request" :: verbs, ∃ front name more,
    owner = front ++ (name ++ more) ∧ spells verb.toList front = true ∧ spells "mapping".toList name = true

/-- A decorator is a sign by its verb or by its owner. -/
theorem sign_decorator_iff {d : Decorator} (hd : d.Proper) (rest : List Char) :
    Sign (d.owner ++ '.' :: (d.verb ++ '(' :: rest)) ↔
      (∃ verb ∈ verbs, spells verb.toList d.verb = true) ∨ Telling d.owner := by
  obtain ⟨-, hdot, hopen⟩ := not_isWordChar_mark
  have hnames : (∀ verb ∈ verbs, verb ∈ names) ∧ (∀ verb ∈ "request" :: verbs, verb ∈ names) ∧
      ∀ verb ∈ "route" :: "path" :: verbs, verb ∈ names := by decide
  constructor
  · -- A sign is cut where its first word ends, which here is the owner.
    generalize htext : d.owner ++ '.' :: (d.verb ++ '(' :: rest) = text
    rintro (⟨rest', hne, howner, hverb, hname⟩ | ⟨rest', hverb, hfront, hname⟩ | ⟨rest', hverb, hname⟩ | ⟨rest', hname⟩)
    · obtain ⟨-, -, htext⟩ := Text.cut_inj (Text.isWordChar · = true) hdot hdot hd.owner howner htext
      obtain ⟨hd_verb, -⟩ := Text.cut_inj (Text.isWordChar · = true) hopen hopen hd.isWordChar
        (isWordChar_of_spells _ (hnames.1 _ hverb) hname) htext
      exact .inl ⟨_, hverb, hd_verb ▸ hname⟩
    · have hword := List.forall_mem_append.2 ⟨isWordChar_of_spells _ (hnames.2.1 _ hverb) hfront,
        isWordChar_of_spells "mapping" (by decide) hname⟩
      rw [← List.append_assoc] at htext
      obtain ⟨more, hmore⟩ := Text.exists_append_of_cut (Text.isWordChar · = true) hdot hword htext.symm
      exact .inr (.inr ⟨_, hverb, _, _, more, by rw [hmore, List.append_assoc], hfront, hname⟩)
    · obtain ⟨-, hmark, -⟩ := Text.cut_inj (Text.isWordChar · = true) hdot hopen hd.owner
        (isWordChar_of_spells _ (hnames.2.2 _ hverb) hname) htext
      exact absurd hmark (by decide)
    · obtain ⟨howner, -⟩ := Text.cut_inj (Text.isWordChar · = true) hdot hdot hd.owner
        (isWordChar_of_spells "api" (by decide) hname) htext
      exact .inr (.inl (howner ▸ hname))
  · rintro (⟨verb, hverb, hname⟩ | hapi | ⟨verb, hverb, front, name, more, howner, hfront, hname⟩)
    · exact .verb rest hd.owner_ne_nil hd.owner hverb hname
    · exact .api _ hapi
    · rw [howner, List.append_assoc, List.append_assoc]
      exact .mapping _ hverb hfront hname

theorem hasIndicator_of_decorator {d : Decorator} (hd : d.Proper) (before rest : List Char)
    (h : (∃ verb ∈ verbs, spells verb.toList d.verb = true) ∨ Telling d.owner) :
    hasIndicator (before ++ (d.text ++ rest)) = true := by
  refine hasIndicator_iff.2 ⟨before, _, rfl, ?_⟩
  simp only [List.append_assoc, List.cons_append, List.append_eq]
  exact (sign_decorator_iff hd _).2 h

/-- A decorator with the verb `route` and an owner that is no sign is not one, and without an at sign there is none. -/
theorem hasIndicator_decorator_eq_false {d : Decorator} (hd : d.Proper) (hroute : spells "route".toList d.verb = true)
    (howner : ¬ Telling d.owner) {rest : List Char} (hpath : '@' ∉ d.path) (hrest : '@' ∉ rest) :
    hasIndicator (d.text ++ rest) = false := by
  have htail : '@' ∉ d.owner ++ '.' :: (d.verb ++ '(' :: (d.blanks ++ d.opening :: (d.path ++ d.closing :: rest))) := by
    simp only [List.mem_append, List.mem_cons, not_or]
    have hword : ¬ Text.isWordChar '@' = true := not_isWordChar_mark.1
    have hquote : ∀ {c}, Verb.isQuote c = true → ¬ '@' = c := by
      rintro c hc rfl
      exact absurd hc (by decide)
    exact ⟨fun h => hword (hd.owner _ h), by decide, fun h => hword (hd.isWordChar _ h), by decide,
      fun h => absurd (hd.blanks _ h) (by decide), hquote hd.opening, hpath, hquote hd.closing, hrest⟩
  refine Bool.eq_false_iff.2 fun h => ?_
  obtain ⟨before, here, htext, hsign⟩ := hasIndicator_iff.1 h
  simp only [Decorator.text, List.cons_append, List.append_assoc, List.nil_append] at htext
  cases before with
  | cons c before =>
    obtain ⟨-, hhere⟩ := List.cons.inj htext
    exact htail (hhere ▸ List.mem_append_right _ List.mem_cons_self)
  | nil =>
    obtain ⟨-, rfl⟩ := List.cons.inj htext
    rcases (sign_decorator_iff hd _).1 hsign with ⟨verb, hverb, hspells⟩ | htelling
    · have hnames : ∀ verb ∈ verbs, verb ∈ names ∧ verb.toList ≠ "route".toList := by decide
      obtain ⟨hmem, hne⟩ := hnames verb hverb
      exact hne (spells_inj (mem_alphabet _ hmem) (mem_alphabet _ (by decide)) hspells hroute)
    · exact howner htelling

theorem normalize?_of_spells {name : String} {text : List Char} (hname : name ∈ "route" :: verbs)
    (h : spells name.toList text = true) : Verb.normalize? text =
      some (if Text.asciiLower text = "route".toList then "GET".toList else Text.asciiUpper text) := by
  have hnames : ∀ verb ∈ "route" :: verbs, verb ∈ names ∧ verb.toList ≠ [] := by decide
  have hbare : (spellings.all fun c => !Text.isBlank c && !Verb.isQuote c) = true := by rfl
  simp only [List.all_eq_true, Bool.and_eq_true, Bool.not_eq_true'] at hbare
  obtain ⟨hmem, hne⟩ := hnames name hname
  have hwritten := (mem_spellings_of_spells (mem_alphabet name hmem) h).1
  exact Verb.normalize?_bare (ne_nil_of_spells hne h) fun c hc => hbare c (hwritten c hc)

theorem Decorator.Proper.normalize?_verb {d : Decorator} (hd : d.Proper) : Verb.normalize? d.verb ≠ none := by
  obtain ⟨verb, hverb, hspells⟩ := hd.verb
  rw [normalize?_of_spells hverb hspells]
  exact Option.some_ne_none _

/-- Method and path of the route that a decorator declares. -/
def Decorator.route? (d : Decorator) : Option (List Char × List Char) :=
  if (Text.trim d.path).isEmpty then none else (Verb.normalize? d.verb).map (·, Text.trim d.path)

/-- **A rule for decorators matches a decorator whole, and takes its route from it.** -/
theorem matchAt?_decorator {owner : Regex} {names : List String} {verb path : Nat} {start : Cursor}
    (howner : owner.Covers IsOwner) (hnames : ∀ name ∈ names, name ∈ "route" :: verbs) (hverb : verb ≠ 0)
    (hpath : path ≠ 0) (hne : path ≠ verb) {d : Decorator} (hd : d.Proper) {name : String} (hname : name ∈ names)
    (hspells : spells name.toList d.verb = true) {rest : List Char} (hrest : start.rest = d.text ++ rest) :
    ∃ found, (decoratorWith owner names verb path).matchAt? start = some found ∧
      found.whole = ⟨start, start.past d.text rest⟩ ∧ Layout.resolve? ⟨.group verb, path⟩ found = d.route? := by
  have hreads : ∃ q, (decoratorWith owner names verb path).Reads ⟨start, []⟩ q :=
    exists_reads_decorator howner hd hname hspells hrest
  obtain ⟨found, hfound⟩ := Option.isSome_iff_exists.1 (Regex.isSome_matchAt?_iff.2 hreads)
  obtain ⟨q, hq, rfl⟩ := Regex.exists_of_matchAt? hfound
  obtain ⟨d', hd', -, rest', hrest', hstop, more, htexts⟩ :=
    exists_decorator_of_reads howner (List.ne_nil_of_mem hname) hnames hq
  obtain ⟨rfl, rfl⟩ := Decorator.text_inj hd hd' (hrest.symm.trans hrest')
  refine ⟨_, hfound, by rw [hstop], ?_⟩
  have hpath_group : Found.group? ⟨⟨start, q.cursor⟩, q.groups⟩ path = some d.path := by
    rw [Found.group?_of_texts hpath, htexts, List.find?_cons_of_pos (by simp)]
    rfl
  have hverb_group : Found.group? ⟨⟨start, q.cursor⟩, q.groups⟩ verb = some d.verb := by
    rw [Found.group?_of_texts hverb, htexts, List.find?_cons_of_neg (by simpa using hne),
      List.find?_cons_of_pos (by simp)]
    rfl
  rw [Layout.resolve?, Decorator.route?]
  simp only [hpath_group, hverb_group, bind, Option.bind_some, Option.map_eq_bind]
  rfl

theorem covers_owner : (Regex.group 1 word).Covers IsOwner := Regex.Covers.group takes_word.covers 1

theorem matchAt?_decoratorRegex {d : Decorator} (hd : d.Proper) {start : Cursor} {rest : List Char}
    (hrest : start.rest = d.text ++ rest) : ∃ found, decoratorRegex.matchAt? start = some found ∧
      found.whole = ⟨start, start.past d.text rest⟩ ∧ Layout.ownerVerbPath.resolve? found = d.route? := by
  obtain ⟨name, hname, hspells⟩ := hd.verb
  exact matchAt?_decorator covers_owner (fun _ h => h) (by decide) (by decide) (by decide) hd hname hspells hrest

theorem matchAt?_decoratorRegex_eq_none {start : Cursor}
    (h : ∀ d : Decorator, d.Proper → ∀ rest, start.rest ≠ d.text ++ rest) : decoratorRegex.matchAt? start = none := by
  refine Option.eq_none_iff_forall_ne_some.2 fun found hfound => ?_
  obtain ⟨q, hq, -⟩ := Regex.exists_of_matchAt? hfound
  obtain ⟨d, hd, -, rest, hrest, -⟩ :=
    exists_decorator_of_reads covers_owner (List.cons_ne_nil _ _) (fun _ h => h) hq
  exact h d hd rest hrest

theorem endpoints_decorator {d : Decorator} (hd : d.Proper) (hpath : Text.trim d.path ≠ []) (rest : List Char) :
    endpoints (d.text ++ rest) "py" .python ≠ [] := by
  obtain ⟨name, hname, hspells⟩ := hd.verb
  obtain ⟨found, hfound, -, hroute⟩ : ∃ found, decoratorRegex.matchAt? (.ofText (d.text ++ rest)) = some found ∧
      found.whole = ⟨_, (Cursor.ofText (d.text ++ rest)).past d.text rest⟩ ∧
        Layout.ownerVerbPath.resolve? found = d.route? :=
    matchAt?_decorator covers_owner (fun _ h => h) (by decide) (by decide) (by decide) hd hname hspells rfl
  have hresolve : Layout.ownerVerbPath.resolve? found ≠ none := by
    obtain ⟨method, hmethod⟩ := Option.ne_none_iff_exists'.1 hd.normalize?_verb
    rw [hroute, Decorator.route?, if_neg (by simpa using hpath), hmethod]
    exact Option.some_ne_none _
  rw [endpoints, python_table, Ne, List.map_eq_nil_iff]
  exact RouteTable.routes_ne_nil (List.mem_singleton.2 rfl) (by decide) (Regex.mem_findAll_of_matchAt? hfound) hresolve

/-- All routes are decorators with the verb `route`, of owners that are no signs. -/
def OnlyRoutes (content : List Char) (extension : String) : Prop :=
  ∀ route ∈ Language.python.table.routes content extension, ∃ d : Decorator, d.Proper ∧ route.text = d.text ∧
    spells "route".toList d.verb = true ∧ ¬ Telling d.owner

theorem hasIndicator_or_onlyRoutes {content : List Char} {extension : String} {language : Language}
    (h : endpoints content extension language ≠ []) :
    hasIndicator content = true ∨ language = .python ∧ OnlyRoutes content extension := by
  rw [endpoints, Ne, List.map_eq_nil_iff] at h
  by_cases hlanguage : language = .python
  · subst hlanguage
    by_cases hindicator : hasIndicator content = true
    · exact .inl hindicator
    refine .inr ⟨rfl, fun route hroute => ?_⟩
    obtain ⟨rule, hrule, -, found, ⟨before, here, q, rfl, hreads, rfl⟩, -, -, htext⟩ :=
      RouteTable.exists_of_mem_routes hroute
    rw [python_table, List.mem_singleton] at hrule
    subst hrule
    obtain ⟨d, hd, ⟨verb, hverb, hspells⟩, rest, rfl, hstop, -⟩ :=
      exists_decorator_of_reads covers_owner (List.cons_ne_nil _ _) (fun _ h => h) hreads
    have hnone := mt (hasIndicator_of_decorator hd before rest) hindicator
    refine ⟨d, hd, ?_, ?_, fun h => hnone (.inr h)⟩
    · rw [htext, Span.text, hstop, Cursor.upTo_past rfl]
    · rcases List.mem_cons.1 hverb with rfl | hverb
      · exact hspells
      · exact absurd (.inl ⟨verb, hverb, hspells⟩) hnone
  · obtain ⟨route, routes, hroutes⟩ := List.exists_cons_of_ne_nil h
    obtain ⟨rule, hrule, -, found, ⟨before, here, q, rfl, hreads, -⟩, -⟩ :=
      RouteTable.exists_of_mem_routes (hroutes ▸ List.mem_cons_self)
    obtain ⟨indicator, hindicator, hparts⟩ := exists_indicator language hlanguage rule hrule
    exact .inl (List.any_eq_true.2 ⟨indicator, hindicator, Regex.occursIn_iff.2
      ⟨before, here, rfl, Regex.reads_of_parts_prefix hparts hreads⟩⟩)

/-- **A source with endpoints has a sign of annotations and is looked into, unless all its routes are decorators with
the verb `route` whose owners are no signs.**  Such a decorator in front of a text is an endpoint, and without a sign if
no other at sign follows. -/
theorem hasIndicator_of_endpoints (content : List Char) (extension : String) (language : Language) :
    (endpoints content extension language ≠ [] →
      hasIndicator content = true ∨ language = .python ∧ OnlyRoutes content extension) ∧
    (∀ tree (path : Path), readSource tree path = .ok (String.ofList content) →
      Language.ofExtension? path.extension = some language → endpoints content path.extension language ≠ [] →
        claims tree path = true ∨ language = .python ∧ OnlyRoutes content path.extension) ∧
    ∀ (d : Decorator) rest, content = d.text ++ rest → d.Proper → spells "route".toList d.verb = true →
      ¬ Telling d.owner → '@' ∉ d.path → '@' ∉ rest → Text.trim d.path ≠ [] →
        endpoints content "py" .python ≠ [] ∧ hasIndicator content = false := by
  refine ⟨hasIndicator_or_onlyRoutes, ?_, ?_⟩
  · intro tree path hread hlanguage h
    have hclaims : claims tree path = hasIndicator content := by
      rw [claims, hlanguage, hread]
      dsimp only
      rw [String.toList_ofList]
      rfl
    rw [hclaims]
    exact hasIndicator_or_onlyRoutes h
  · rintro d rest rfl hd hroute howner hat hrest hpath
    exact ⟨endpoints_decorator hd hpath rest, hasIndicator_decorator_eq_false hd hroute howner hat hrest⟩

def blueprint : Decorator := ⟨"bp".toList, "route".toList, [], '"', "/orders".toList, '"'⟩

theorem proper_blueprint : blueprint.Proper := .of_isProper rfl

theorem not_telling_blueprint : ¬ Telling blueprint.owner := by
  rintro (h | ⟨verb, hverb, front, name, more, howner, hfront, hname⟩)
  · exact absurd h (by decide)
  · have hlength := congrArg List.length (mem_spellings_of_spells (mem_alphabet "mapping" (by decide)) hname).2
    have howner := congrArg List.length howner
    simp only [List.length_map, List.length_append] at hlength howner
    rw [show "mapping".toList.length = 7 from rfl] at hlength
    rw [show blueprint.owner.length = 2 from rfl] at howner
    omega

/-- A method of an application is a sign, a blueprint's route is none. -/
theorem hasIndicator_of_endpoints_of_samples :
    let app : Decorator := ⟨"app".toList, "get".toList, [], '"', "/orders".toList, '"'⟩
    let tree := Node.folder [(Name.ofText "orders.py", .file (String.ofList (app.text ++ [')'])).toUTF8 ⟨0, 0⟩)]
    endpoints (app.text ++ [')']) "py" .python ≠ [] ∧
    (hasIndicator (app.text ++ [')']) = true ∨ Language.python = .python ∧ OnlyRoutes (app.text ++ [')']) "py") ∧
    (claims tree (Path.ofText "orders.py") = true ∨ Language.python = .python ∧ OnlyRoutes (app.text ++ [')']) "py") ∧
    endpoints (blueprint.text ++ [')']) "py" .python ≠ [] ∧ hasIndicator (blueprint.text ++ [')']) = false := by
  intro app tree
  have happ : app.Proper := .of_isProper (by decide +kernel)
  have hfound : endpoints (app.text ++ [')']) "py" .python ≠ [] := endpoints_decorator happ (by decide +kernel) _
  have hread : readSource tree (Path.ofText "orders.py") = .ok (String.ofList (app.text ++ [')'])) := by
    have hsteps : (Path.ofText "orders.py").pieces.map Node.Step.ofPiece = [.into (Name.ofText "orders.py")] := by
      decide
    have hlocate : tree.locate (Path.ofText "orders.py") =
        .ok ([Name.ofText "orders.py"], .file (String.ofList (app.text ++ [')'])).toUTF8 ⟨0, 0⟩) := by
      refine Node.locate_eq_ok.2 ⟨by decide, by decide, ?_⟩
      rw [hsteps, Node.followAt_into (Node.at?_nil _) rfl fun _ he => by cases he]
      exact Node.followAt_nil rfl
    rw [readSource, Node.readText, hlocate]
    simp only [Node.fromUTF8?_toUTF8]
  have hextension : (Path.ofText "orders.py").extension = "py" := by decide +kernel
  obtain ⟨hcontent, hfile, -⟩ := hasIndicator_of_endpoints (app.text ++ [')']) "py" .python
  obtain ⟨-, -, halone⟩ := hasIndicator_of_endpoints (blueprint.text ++ [')']) "py" .python
  refine ⟨hfound, hcontent hfound, ?_, ?_⟩
  · have hclaims := hfile tree (Path.ofText "orders.py") hread
    rw [hextension] at hclaims
    exact hclaims rfl hfound
  · exact halone blueprint [')'] rfl proper_blueprint (by decide +kernel) not_telling_blueprint (by decide +kernel)
      (by decide) (by decide +kernel)

/-- The route of a blueprint, as it is usually written, is an endpoint without a sign. -/
theorem not_hasIndicator_blueprint : endpoints "@bp.route(\"/orders\")".toList "py" .python ≠ [] ∧
    hasIndicator "@bp.route(\"/orders\")".toList = false := by
  rw [show "@bp.route(\"/orders\")".toList = blueprint.text ++ [')'] by decide +kernel]
  exact ⟨endpoints_decorator proper_blueprint (by decide +kernel) _,
    hasIndicator_decorator_eq_false proper_blueprint (by decide +kernel) not_telling_blueprint
      (by decide +kernel) (by decide)⟩

end ApiCatalog.Annotated
