import ApiCatalog.Extract.Controller
import ApiCatalog.Proofs.Extract.Decorators
import ApiCatalog.Proofs.Routes.Passage
/-!
# Routing files of Flask

A routing file that is a list of decorators, each on its own line, comes back decorator by decorator: those with a list
of methods first, then those without one, then those for a single method (`endpoints_declarations`).
-/

namespace ApiCatalog.Flask

open Pattern
open Annotated (Decorator verbs quotes takes_quote takes_path takes_blanks IsOwner isOwner_app decoratorWith)

/-! ## Rules -/

/-- A rule for decorators with the verb `route`, and what it goes on with behind the path. -/
def routeWith (tail : List Regex) : Regex :=
  sequence (letter '@' :: word :: letter '.' :: (literal "route" ++ (letter '(' :: .run ⟨false, [.blank]⟩ ::
    .oneOf (quotes false) :: .group 1 (.atLeastOne (.oneOf (quotes true))) :: .oneOf (quotes false) :: tail)))

def lineRest : CharSet := ⟨true, [.range '\n' '\n']⟩

/-- The brackets around a list, or what is not a closing one. -/
def opening : CharSet := ⟨false, [.range '[' '[', .range '(' '(']⟩

def closing (negated : Bool) : CharSet := ⟨negated, [.range ']' ']', .range ')' ')']⟩

/-- The list of methods behind a path. -/
def listTail : List Regex :=
  .run lineRest :: (literal "methods" ++ [.run ⟨false, [.blank]⟩, letter '=', .run ⟨false, [.blank]⟩, .oneOf opening,
    .group 2 (.atLeastOne (.oneOf (closing true))), .oneOf (closing false)])

/-- The end of the call behind a path. -/
def plainTail : List Regex := [.run ⟨false, [.blank]⟩, letter ')']

def listRule : RouteRule := ⟨routeWith listTail, ["py"], .pathThenVerbList⟩

def plainRule : RouteRule := ⟨routeWith plainTail, ["py"], .pathOnly⟩

def verbRule : RouteRule := ⟨decoratorWith word verbs 1 2, ["py"], .verbThenPath⟩

theorem flask_table : Framework.flask.table = [listRule, plainRule, verbRule] := by
  have hlist : Regex.ofPattern? RouteRow.options
      "@\\w+\\.route\\(\\s*['\"]([^'\"]+)['\"].*methods\\s*=\\s*[\\[(]([^\\])]+)[\\])]" = some listRule.regex := by
    decide +kernel
  have hplain : Regex.ofPattern? RouteRow.options "@\\w+\\.route\\(\\s*['\"]([^'\"]+)['\"]\\s*\\)" =
      some plainRule.regex := by
    decide +kernel
  have hverb : Regex.ofPattern? RouteRow.options "@\\w+\\.(get|post|put|delete|patch)\\(\\s*['\"]([^'\"]+)['\"]" =
      some verbRule.regex := by
    decide +kernel
  rw [Framework.table, Framework.rows, RouteTable.ofRows, Framework.flaskRows]
  simp only [RouteRow.rule?, List.filterMap_cons, List.filterMap_nil, hlist, hplain, hverb, Option.map_some]
  rfl

section
variable {tail : List Regex} {start : Cursor}

/-- **What a rule for `route` reads is such a decorator and then the rest of the rule.** -/
theorem exists_decorator_of_routeWith {q : Progress} (h : (routeWith tail).Reads ⟨start, []⟩ q) :
    ∃ d : Decorator, d.Proper ∧ spells "route".toList d.verb = true ∧ ∃ rest m, start.rest = d.text ++ rest ∧
      m.cursor = start.past d.text rest ∧ m.texts = [(1, d.path)] ∧ (sequence tail).Reads m q := by
  obtain ⟨_, rest, rfl, hrest, h⟩ := (reads_cons (takes_mark rfl)).1 h
  obtain ⟨owner, rest, ⟨howner_ne, howner⟩, rfl, h⟩ := (reads_cons takes_word).1 h
  obtain ⟨_, rest, rfl, rfl, h⟩ := (reads_cons (takes_mark rfl)).1 h
  obtain ⟨written, rest, hspells, rfl, h⟩ := (reads_append (takes_literal _)).1 h
  obtain ⟨_, rest, rfl, rfl, h⟩ := (reads_cons (takes_mark rfl)).1 h
  obtain ⟨blanks, rest, hblanks, rfl, h⟩ := (reads_cons takes_blanks).1 h
  obtain ⟨_, rest, ⟨opening, hopening, rfl⟩, rfl, h⟩ := (reads_cons takes_quote).1 h
  obtain ⟨path, rest, ⟨hpath_ne, hpath⟩, rfl, h⟩ := (reads_noted_cons takes_path).1 h
  obtain ⟨_, rest, ⟨closing, hclosing, rfl⟩, rfl, h⟩ := (reads_cons takes_quote).1 h
  refine ⟨⟨owner, written, blanks, opening, path, closing⟩,
    ⟨howner_ne, howner, ⟨"route", List.mem_cons_self, hspells⟩, hblanks, hopening, hpath_ne, hpath, hclosing⟩,
    hspells, rest, _, ?_, ?_, ?_, h⟩
  · rw [hrest]
    simp [Decorator.text]
  · simp only [Progress.past, Progress.noted, Cursor.past_past]
    simp [Decorator.text]
  · rw [Progress.texts_past, Progress.texts_noted] <;> rfl

theorem exists_reads_routeWith {d : Decorator} (hd : d.Proper) (hspells : spells "route".toList d.verb = true)
    {rest : List Char} (hrest : start.rest = d.text ++ rest)
    (htail : ∀ m : Progress, m.cursor = start.past d.text rest → ∃ q, (sequence tail).Reads m q) :
    ∃ q, (routeWith tail).Reads ⟨start, []⟩ q := by
  rw [Decorator.text] at hrest
  simp only [List.append_assoc, List.cons_append, List.nil_append] at hrest
  refine exists_reads_cons (takes_mark rfl) rfl hrest ?_
  refine exists_reads_cons takes_word ⟨hd.owner_ne_nil, hd.owner⟩ rfl ?_
  refine exists_reads_cons (takes_mark rfl) rfl rfl ?_
  refine exists_reads_append (takes_literal _) hspells rfl ?_
  refine exists_reads_cons (takes_mark rfl) rfl rfl ?_
  refine exists_reads_cons takes_blanks hd.blanks rfl ?_
  refine exists_reads_cons takes_quote ⟨_, hd.opening, rfl⟩ rfl ?_
  refine exists_reads_noted_cons takes_path ⟨hd.path_ne_nil, hd.path⟩ rfl ?_
  refine exists_reads_cons takes_quote ⟨_, hd.closing, rfl⟩ rfl (htail _ ?_)
  simp only [Progress.past, Progress.noted, Cursor.past_past]
  simp [Decorator.text]

end

/-! ## Lists of methods -/

theorem has_lineRest (c : Char) : lineRest.has c = true ↔ c ≠ '\n' := by
  simp [lineRest, CharSet.has, has_range_self]

theorem has_opening (c : Char) : opening.has c = true ↔ c = '[' ∨ c = '(' := by
  simp [opening, CharSet.has, has_range_self]

theorem has_closing (c : Char) : (closing false).has c = true ↔ c = ']' ∨ c = ')' := by
  simp [closing, CharSet.has, has_range_self]

theorem has_listed (c : Char) : (closing true).has c = true ↔ c ≠ ']' ∧ c ≠ ')' := by
  simp [closing, CharSet.has, has_range_self]

/-- The parts of what stands between a path and the list of methods, and of the list. -/
structure MethodList where
  between : List Char
  name : List Char
  gap : List Char
  gap' : List Char
  opening : Char
  list : List Char
  closing : Char

namespace MethodList

def front (l : MethodList) : List Char := l.between ++ (l.name ++ l.gap)

def text (l : MethodList) : List Char := l.front ++ '=' :: (l.gap' ++ l.opening :: (l.list ++ [l.closing]))

structure Proper (l : MethodList) : Prop where
  between : '\n' ∉ l.between
  name : spells "methods".toList l.name = true
  gap : ∀ c ∈ l.gap, Text.isBlank c = true
  gap' : ∀ c ∈ l.gap', Text.isBlank c = true
  opening : l.opening = '[' ∨ l.opening = '('
  list_ne_nil : l.list ≠ []
  list : ∀ c ∈ l.list, c ≠ ']' ∧ c ≠ ')'
  closing : l.closing = ']' ∨ l.closing = ')'

end MethodList

theorem exists_methodList_of_reads {p q : Progress} (h : (sequence listTail).Reads p q) :
    ∃ l : MethodList, l.Proper ∧ ∃ rest, p.cursor.rest = l.text ++ rest ∧ q.cursor = p.cursor.past l.text rest ∧
      q.texts = (2, l.list) :: p.texts := by
  obtain ⟨between, rest, hbetween, hrest, h⟩ := (reads_cons (takes_run _)).1 h
  obtain ⟨name, rest, hname, rfl, h⟩ := (reads_append (takes_literal _)).1 h
  obtain ⟨gap, rest, hgap, rfl, h⟩ := (reads_cons takes_blanks).1 h
  obtain ⟨_, rest, rfl, rfl, h⟩ := (reads_cons (takes_mark rfl)).1 h
  obtain ⟨gap', rest, hgap', rfl, h⟩ := (reads_cons takes_blanks).1 h
  obtain ⟨_, rest, ⟨opening, hopening, rfl⟩, rfl, h⟩ := (reads_cons (takes_oneOf _)).1 h
  obtain ⟨list, rest, ⟨hlist_ne, hlist⟩, rfl, h⟩ := (reads_noted_cons (takes_atLeastOne _)).1 h
  obtain ⟨_, rest, ⟨closing, hclosing, rfl⟩, rfl, h⟩ := (takes_oneOf _ _ _).1 h
  refine ⟨⟨between, name, gap, gap', opening, list, closing⟩,
    ⟨fun hmem => (has_lineRest _).1 (hbetween _ hmem) rfl, hname, hgap, hgap', (has_opening _).1 hopening, hlist_ne,
      fun c hc => (has_listed c).1 (hlist c hc), (has_closing _).1 hclosing⟩, rest, ?_, ?_, ?_⟩
  · rw [hrest]
    simp [MethodList.text, MethodList.front]
  · subst h
    simp only [Progress.past, Progress.noted, Cursor.past_past]
    simp [MethodList.text, MethodList.front]
  · subst h
    rw [Progress.texts_past, Progress.texts_noted] <;> rfl

theorem exists_reads_methodList {l : MethodList} (hl : l.Proper) {p : Progress} {rest : List Char}
    (hrest : p.cursor.rest = l.text ++ rest) : ∃ q, (sequence listTail).Reads p q := by
  rw [MethodList.text, MethodList.front] at hrest
  simp only [List.append_assoc, List.cons_append, List.nil_append] at hrest
  have hbetween : ∀ c ∈ l.between, lineRest.has c = true := fun c hc =>
    (has_lineRest c).2 fun heq => hl.between (heq ▸ hc)
  refine exists_reads_cons (takes_run _) hbetween hrest ?_
  refine exists_reads_append (takes_literal _) hl.name rfl ?_
  refine exists_reads_cons takes_blanks hl.gap rfl ?_
  refine exists_reads_cons (takes_mark rfl) rfl rfl ?_
  refine exists_reads_cons takes_blanks hl.gap' rfl ?_
  refine exists_reads_cons (takes_oneOf _) ⟨_, (has_opening _).2 hl.opening, rfl⟩ rfl ?_
  refine exists_reads_noted_cons (takes_atLeastOne _)
    ⟨hl.list_ne_nil, fun c hc => (has_listed c).2 (hl.list c hc)⟩ rfl ?_
  exact exists_reads_of_takes (takes_oneOf _) ⟨_, (has_closing _).2 hl.closing, rfl⟩ rfl

namespace MethodList

theorem methods_mem_alphabet : ∀ c ∈ "methods".toList, c ∈ alphabet := by
  have hall : ("methods".toList.all alphabet.contains) = true := by rfl
  simpa only [List.all_eq_true, List.contains_iff_mem] using hall

theorem Proper.length_name {l : MethodList} (hl : l.Proper) : l.name.length = 7 := by
  have hplain := (mem_spellings_of_spells methods_mem_alphabet hl.name).2
  rw [← List.length_map plain, hplain]
  rfl

theorem Proper.isWordChar_name {l : MethodList} (hl : l.Proper) : ∀ c ∈ l.name, Text.isWordChar c = true := by
  have hspellings := (mem_spellings_of_spells methods_mem_alphabet hl.name).1
  exact fun c hc => isWordChar_of_mem_spellings c (hspellings c hc)

theorem Proper.not_mem_name {l : MethodList} (hl : l.Proper) {c : Char} (hc : Text.isWordChar c = false) : c ∉ l.name :=
  fun hmem => by simp [hl.isWordChar_name c hmem] at hc

theorem Proper.not_mem_gap {l : MethodList} (hl : l.Proper) {c : Char} (hc : Text.isBlank c = false) : c ∉ l.gap :=
  fun hmem => by simp [hl.gap c hmem] at hc

/-- A line without an equals sign that ends in a bracket has no list: the name would stand within the line, and the
blanks behind it would have to reach over the bracket. -/
theorem Proper.ne_line {l : MethodList} (hl : l.Proper) (line rest rest' : List Char)
    (hline : ∀ c ∈ line ++ [')'], c ≠ '=' ∧ c ≠ '\n') : line ++ ')' :: '\n' :: rest ≠ l.text ++ rest' := by
  intro h
  have hstart : ∀ c ∈ l.between ++ l.name, c ≠ '\n' := by
    rintro c hc rfl
    exact (List.mem_append.1 hc).elim hl.between (hl.not_mem_name (by decide))
  obtain ⟨more, hmore⟩ := Text.exists_append_of_cut (· ≠ '\n') (y := '\n') (by simp) hstart (b := line ++ [')'])
    (s := l.gap ++ '=' :: (l.gap' ++ l.opening :: (l.list ++ l.closing :: rest'))) (t := rest)
    (by simpa [text, front] using h.symm)
  have hline_eq : (l.between ++ l.name) ++ ((more ++ ['\n']) ++ rest) =
      (l.between ++ l.name) ++ (l.gap ++ '=' :: (l.gap' ++ l.opening :: (l.list ++ l.closing :: rest'))) := by
    rw [List.append_assoc more, ← List.append_assoc, ← hmore]
    simpa [text, front] using h
  have hleft := List.append_cancel_left hline_eq
  have hfree : ∀ c ∈ more ++ ['\n'], c ≠ '=' := by
    refine List.forall_mem_append.2 ⟨fun c hc => (hline c ?_).1, by simp⟩
    exact hmore ▸ List.mem_append_right _ hc
  obtain ⟨_, hgap⟩ := Text.exists_append_of_cut (· ≠ '=') (by simp) hfree hleft
  have hne : l.name ++ more ≠ [] := fun hnil => by
    have hlength := congrArg List.length hnil
    rw [List.length_append, hl.length_name, List.length_nil] at hlength
    omega
  obtain ⟨front, hlast, -⟩ := Text.exists_concat_of_eq hne
    (show line ++ [')'] = l.between ++ (l.name ++ more) by rw [hmore, List.append_assoc])
  have hbracket : ')' ∈ l.name ++ more := by simp [hlast]
  rcases List.mem_append.1 hbracket with hmem | hmem
  · exact hl.not_mem_name (by decide) hmem
  · exact hl.not_mem_gap (c := ')') (by decide) (by simp [hgap, hmem])

/-- The one equals sign of a line that ends in a bracket is the one in front of the list. -/
theorem Proper.not_mem_front {l : MethodList} (hl : l.Proper) (line : List Char) {front rest rest' : List Char}
    (hfront : '=' ∉ front) (hline : ∀ c ∈ line ++ [')'], c ≠ '=' ∧ c ≠ '\n')
    (h : front ++ '=' :: (line ++ ')' :: '\n' :: rest) = l.text ++ rest') : '=' ∉ l.front := by
  simp only [MethodList.front, List.mem_append, not_or]
  refine ⟨fun hmem => ?_, hl.not_mem_name (by decide), hl.not_mem_gap (by decide)⟩
  obtain ⟨before, between, hbetween, hbefore⟩ := List.eq_append_cons_of_mem hmem
  have hl' : ({ l with between } : MethodList).Proper :=
    { hl with between := fun hc => hl.between (hbetween ▸ List.mem_append_right _ (List.mem_cons_of_mem _ hc)) }
  simp only [text, MethodList.front, hbetween, List.append_assoc, List.cons_append] at h
  obtain ⟨-, -, h⟩ := Text.cut_inj (· ≠ '=') (by simp) (by simp) (fun c hc heq => hfront (heq ▸ hc))
    (fun c hc heq => hbefore (heq ▸ hc)) h
  exact hl'.ne_line line rest rest' hline (by simpa [text, MethodList.front] using h)

/-- The list in a line that has only one list is read as it is. -/
theorem Proper.eq_of_text {l : MethodList} (hl : l.Proper) {front list rest rest' : List Char} (hfront : '=' ∉ front)
    (hlist : ∀ c ∈ list, c ≠ ']' ∧ c ≠ ')' ∧ c ≠ '=' ∧ c ≠ '\n')
    (h : front ++ '=' :: '[' :: (list ++ ']' :: ')' :: '\n' :: rest) = l.text ++ rest') :
    l.text = front ++ '=' :: '[' :: (list ++ [']']) ∧ l.list = list := by
  have hequals : '=' ∉ l.front := by
    refine hl.not_mem_front ('[' :: (list ++ [']'])) hfront ?_ (by simpa using h)
    simp only [List.cons_append, List.append_assoc, List.nil_append, List.forall_mem_cons, List.forall_mem_append]
    exact ⟨by decide, fun c hc => (hlist c hc).2.2, by decide, by decide, List.forall_mem_nil _⟩
  simp only [text, List.append_assoc, List.cons_append, List.nil_append] at h
  have hne : ∀ {text : List Char}, '=' ∉ text → ∀ c ∈ text, c ≠ '=' := fun h c hc heq => h (heq ▸ hc)
  obtain ⟨hfront_eq, -, h⟩ := Text.cut_inj (· ≠ '=') (by simp) (by simp) (hne hfront) (hne hequals) h
  have hopening : Text.isBlank l.opening = false := by rcases hl.opening with h | h <;> rw [h] <;> decide
  have hgap : ∀ c ∈ ([] : List Char), Text.isBlank c = true := fun _ hc => absurd hc List.not_mem_nil
  obtain ⟨hgap', hopen, h⟩ := Text.cut_inj (a := []) (Text.isBlank · = true) (by decide) (by simp [hopening]) hgap
    hl.gap' h
  have hclosing : ¬ (l.closing ≠ ']' ∧ l.closing ≠ ')') := fun hne => hl.closing.elim hne.1 hne.2
  obtain ⟨hlist_eq, hclose, -⟩ := Text.cut_inj (fun c => c ≠ ']' ∧ c ≠ ')') (by simp) hclosing
    (fun c hc => ⟨(hlist c hc).1, (hlist c hc).2.1⟩) hl.list h
  refine ⟨?_, hlist_eq.symm⟩
  rw [text, ← hfront_eq, ← hgap', ← hopen, ← hlist_eq, ← hclose]
  rfl

end MethodList

/-! ## Declarations -/

structure Letters where
  text : List Char
  ne_nil : text ≠ []
  isAlpha : ∀ c ∈ text, c.isAlpha = true

/-- The ways in which a decorator declares a route: with a list of methods, with the verb `route` alone, or with the
verb of a single method. -/
inductive Form where
  | listed (first : Letters) (others : List Letters)
  | plain
  | verb (name : String) (mem : name ∈ verbs)

namespace Form

def verbText : Form → String
  | .verb name _ => name
  | _ => "route"

def quoted (word : Letters) : List Char := '\'' :: (word.text ++ ['\''])

def listText (first : Letters) (others : List Letters) : List Char :=
  quoted first ++ others.flatMap fun word => ", ".toList ++ quoted word

def arguments : Form → List Char
  | .listed first others => ", methods=[".toList ++ (listText first others ++ "]".toList)
  | _ => []

def method : Form → List Char
  | .listed first _ =>
    if Text.asciiLower first.text = "route".toList then "GET".toList else Text.asciiUpper first.text
  | .plain => "GET".toList
  | .verb name _ => Text.asciiUpper name.toList

def isListed : Form → Bool
  | .listed _ _ => true
  | _ => false

def isPlain : Form → Bool
  | .plain => true
  | _ => false

def isVerb : Form → Bool
  | .verb _ _ => true
  | _ => false

def methodList (first : Letters) (others : List Letters) : MethodList :=
  ⟨", ".toList, "methods".toList, [], [], '[', listText first others, ']'⟩

/-- How far the rule for the form reads behind the path, and what it leaves of the line. -/
def read : Form → List Char
  | .plain => ")".toList
  | form => form.arguments

def left : Form → List Char
  | .plain => "\n".toList
  | _ => ")\n".toList

theorem forall_mem_listText {P : Char → Prop} (hletter : ∀ c : Char, c.isAlpha = true → P c) (hquote : P '\'')
    (hcomma : P ',') (hspace : P ' ') {first : Letters} {others : List Letters} :
    ∀ c ∈ listText first others, P c := by
  have hquoted : ∀ word : Letters, ∀ c ∈ quoted word, P c := fun word => by
    rw [quoted, List.forall_mem_cons, List.forall_mem_append, List.forall_mem_singleton]
    exact ⟨hquote, fun c hc => hletter c (word.isAlpha c hc), hquote⟩
  refine List.forall_mem_append.2 ⟨hquoted first, fun c hc => ?_⟩
  obtain ⟨word, -, hc⟩ := List.mem_flatMap.1 hc
  have hitem : ∀ c ∈ ", ".toList ++ quoted word, P c :=
    List.forall_mem_cons.2 ⟨hcomma, List.forall_mem_cons.2 ⟨hspace, hquoted word⟩⟩
  exact hitem c hc

theorem proper_methodList (first : Letters) (others : List Letters) : (methodList first others).Proper where
  between := (by decide : '\n' ∉ ", ".toList)
  name := (by decide : spells "methods".toList "methods".toList = true)
  gap _ h := absurd h List.not_mem_nil
  gap' _ h := absurd h List.not_mem_nil
  opening := .inl rfl
  list_ne_nil := List.cons_ne_nil _ _
  list := forall_mem_listText (P := fun c => c ≠ ']' ∧ c ≠ ')') (fun c hc => by constructor <;> rintro rfl <;> cases hc)
    (by decide) (by decide) (by decide)
  closing := .inl rfl

theorem bare_of_isAlpha {c : Char} (h : c.isAlpha = true) : Text.isBlank c = false ∧ Verb.isQuote c = false := by
  refine ⟨?_, Annotated.isQuote_of_isWordChar (by simp [Text.isWordChar, Char.isAlphanum, h])⟩
  have hupper : c.isUpper = true → 65 ≤ c.toNat ∧ c.toNat ≤ 90 := fun h => by
    have hcode : 'A'.val ≤ c.val ∧ c.val ≤ 'Z'.val := of_decide_eq_true h
    exact hcode.imp UInt32.le_iff_toNat_le.1 UInt32.le_iff_toNat_le.1
  have hlower : c.isLower = true → 97 ≤ c.toNat ∧ c.toNat ≤ 122 := fun h => by
    have hcode : (decide ('a'.val ≤ c.val) && decide (c.val ≤ 'z'.val)) = true := h
    rw [Bool.and_eq_true, decide_eq_true_iff, decide_eq_true_iff] at hcode
    exact hcode.imp UInt32.le_iff_toNat_le.1 UInt32.le_iff_toNat_le.1
  have hcase : c.isUpper = true ∨ c.isLower = true := (Bool.or_eq_true _ _).mp h
  have hcode := hcase.imp hupper hlower
  simp only [Text.isBlank, Bool.or_eq_false_iff, Bool.and_eq_false_iff, decide_eq_false_iff_not, beq_eq_false_iff_ne]
  omega

theorem normalize?_letters (word : Letters) : Verb.normalize? word.text =
    some (if Text.asciiLower word.text = "route".toList then "GET".toList else Text.asciiUpper word.text) :=
  Verb.normalize?_bare word.ne_nil fun c hc => bare_of_isAlpha (word.isAlpha c hc)

theorem firstListed?_listText (first : Letters) (others : List Letters) :
    Verb.firstListed? (listText first others) = some first.text := by
  have hbare : ∀ c ∈ first.text, Text.isBlank c = false ∧ Verb.isQuote c = false := fun c hc =>
    bare_of_isAlpha (first.isAlpha c hc)
  have hcomma : ',' ∉ quoted first := by
    rw [quoted, List.mem_cons, List.mem_append, List.mem_singleton]
    rintro (h | h | h)
    · cases h
    · exact absurd (first.isAlpha _ h) (by decide)
    · cases h
  have hrest : (others.flatMap fun word => ", ".toList ++ quoted word) = [] ∨
      ∃ more, (others.flatMap fun word => ", ".toList ++ quoted word) = ',' :: more := by
    cases others with
    | nil => exact .inl rfl
    | cons word others => exact .inr ⟨_, rfl⟩
  obtain ⟨pieces, hpieces⟩ := Text.exists_split hcomma hrest
  have hquoted : ∀ c ∈ quoted first, Text.isBlank c = false := by
    rw [quoted, List.forall_mem_cons, List.forall_mem_append, List.forall_mem_singleton]
    exact ⟨rfl, fun c hc => (hbare c hc).1, rfl⟩
  have htrim : Text.trim (Text.trimBy Verb.isQuote (Text.trim (quoted first))) = first.text := by
    rw [Text.trim, Text.trimBy_eq_self hquoted, quoted,
      Text.trimBy_between rfl rfl fun c hc => (hbare c hc).2, Text.trimBy_eq_self fun c hc => (hbare c hc).1]
  rw [Verb.firstListed?, listText, hpieces, List.map_cons, htrim, List.find?_cons_of_pos]
  simpa using first.ne_nil

theorem verbText_mem (form : Form) : form.verbText ∈ "route" :: verbs := by
  cases form with
  | verb name mem => exact List.mem_cons_of_mem _ mem
  | _ => exact List.mem_cons_self

theorem verbText_eq_route (form : Form) (h : form.isVerb = false) : form.verbText = "route" := by
  cases form with
  | verb name mem => cases h
  | _ => rfl

theorem read_append_left (form : Form) : form.read ++ form.left = form.arguments ++ ")\n".toList := by
  cases form <;> rfl

end Form

structure Declaration where
  owner : List Char
  path : List Char
  form : Form
  isOwner : IsOwner owner
  path_ne_nil : path ≠ []
  path_bare : ∀ c ∈ path, Verb.isQuote c = false ∧ Text.isBlank c = false ∧ c ≠ '@'

namespace Declaration

def line (d : Declaration) : List Char :=
  '@' :: (d.owner ++ '.' :: (d.form.verbText.toList ++ "('".toList ++ d.path ++ "'".toList ++ d.form.arguments
    ++ ")\n".toList))

def decorator (d : Declaration) : Decorator := .written d.owner d.form.verbText '\'' d.path

/-- The endpoint of the declaration, which is deprecated if the declaration, as far as it is read, mentions it. -/
def endpoint (d : Declaration) : Endpoint :=
  { Endpoint.plain (String.ofList d.form.method) (String.ofList d.path) with
    status := if Text.occurs "deprecated".toList (Text.lowercase (d.decorator.text ++ d.form.read)) then .deprecated
      else .active }

def passage (d : Declaration) : Passage where
  front := []
  text := d.decorator.text ++ d.form.read
  back := d.form.left
  method := d.form.method
  path := d.path
  text_ne_nil := List.cons_ne_nil _ _

theorem line_eq (d : Declaration) : d.line = d.decorator.text ++ (d.form.arguments ++ ")\n".toList) := by
  simp [line, decorator, Decorator.written, Decorator.text]

theorem whole_passage (d : Declaration) : d.passage.whole = d.line := by
  rw [Passage.whole, passage, line_eq, ← Form.read_append_left]
  simp

theorem file_passage (declarations : List Declaration) : file passage declarations = declarations.flatMap line :=
  List.flatMap_congr fun d _ => d.whole_passage

theorem verb_decorator (d : Declaration) : d.decorator.verb = d.form.verbText.toList := rfl

theorem proper_decorator (d : Declaration) : d.decorator.Proper :=
  Decorator.proper_written d.isOwner d.form.verbText_mem rfl d.path_ne_nil fun c hc => (d.path_bare c hc).1

/-- At a declaration the rule for `route` reads its decorator and goes on behind it. -/
theorem tail_of_routeWith (d : Declaration) {tail : List Regex} {start : Cursor} {rest : List Char} {q : Progress}
    (hstart : start.rest = d.decorator.text ++ rest) (h : (routeWith tail).Reads ⟨start, []⟩ q) :
    d.form.isVerb = false ∧ ∃ m, m.cursor = start.past d.decorator.text rest ∧ m.texts = [(1, d.path)] ∧
      (sequence tail).Reads m q := by
  obtain ⟨d', hd', hspells, rest', m, hrest, hcursor, htexts, hm⟩ := exists_decorator_of_routeWith h
  obtain ⟨rfl, rfl⟩ := Decorator.text_inj d.proper_decorator hd' (hstart.symm.trans hrest)
  refine ⟨?_, m, hcursor, htexts, hm⟩
  have hverbs : ∀ verb ∈ verbs, spells "route".toList verb.toList = false := by decide
  rw [verb_decorator] at hspells
  cases hform : d.form with
  | verb name mem =>
    rw [hform, Form.verbText, hverbs name mem] at hspells
    cases hspells
  | _ => rfl

/-- The rule for a single method reads no decorator with the verb `route`. -/
theorem isVerb_of_verbRule (d : Declaration) {start : Cursor} {rest : List Char} {q : Progress}
    (hstart : start.rest = d.decorator.text ++ rest) (h : verbRule.regex.Reads ⟨start, []⟩ q) :
    d.form.isVerb = true := by
  obtain ⟨d', hd', ⟨name, hname, hspells⟩, rest', hrest, -⟩ := Annotated.exists_decorator_of_reads takes_word.covers
    (List.cons_ne_nil _ _) (fun verb hverb => List.mem_cons_of_mem _ hverb) h
  obtain ⟨rfl, -⟩ := Decorator.text_inj d.proper_decorator hd' (hstart.symm.trans hrest)
  have hverbs : ∀ verb ∈ verbs, spells verb.toList "route".toList = false := by decide
  by_contra hother
  rw [verb_decorator, d.form.verbText_eq_route (Bool.eq_false_iff.2 hother), hverbs name hname] at hspells
  cases hspells

theorem not_mem_at (d : Declaration) : ∃ rest, d.line = '@' :: rest ∧ '@' ∉ rest := by
  have howner : '@' ∉ d.owner := fun h => absurd (d.isOwner.2 _ h) (by decide)
  have hverb : '@' ∉ d.form.verbText.toList := by
    have hverbs : ∀ verb ∈ "route" :: verbs, '@' ∉ verb.toList := by decide
    exact hverbs _ d.form.verbText_mem
  have hpath : '@' ∉ d.path := fun h => (d.path_bare _ h).2.2 rfl
  have harguments : '@' ∉ d.form.arguments := by
    cases d.form with
    | listed first others =>
      have hlist : '@' ∉ Form.listText first others := fun h =>
        Form.forall_mem_listText (P := (· ≠ '@')) (by rintro c hc rfl; cases hc) (by decide) (by decide) (by decide)
          _ h rfl
      intro h
      rcases List.mem_append.1 h with h | h
      · exact absurd h (by decide)
      · exact (List.mem_append.1 h).elim hlist fun h => absurd h (by decide)
    | _ => exact List.not_mem_nil
  refine ⟨_, rfl, ?_⟩
  simp only [List.mem_append, List.mem_cons, not_or]
  exact ⟨howner, by decide, ⟨⟨⟨⟨hverb, by decide⟩, hpath⟩, by decide⟩, harguments⟩, by decide⟩

/-- A rule that begins with the at sign and does not match the decorator finds nothing in the line. -/
theorem idle_line (d : Declaration) {items : List Regex} {rest : List Char}
    (h : ∀ start : Cursor, start.rest = d.decorator.text ++ (d.form.arguments ++ (")\n".toList ++ rest)) →
      ∀ q, ¬ (sequence (letter '@' :: items)).Reads ⟨start, []⟩ q) :
    (sequence (letter '@' :: items)).Idle d.passage.whole rest := by
  rw [whole_passage]
  obtain ⟨tail, hline, htail⟩ := d.not_mem_at
  have hhead : (sequence (letter '@' :: items)).Idle ['@'] (tail ++ rest) := by
    intro passed left hpassed hne start hstart
    refine Regex.matchAt?_eq_none fun q hq => h start ?_ q hq
    obtain ⟨rfl, rfl⟩ := (List.singleton_eq_append_iff.1 hpassed).resolve_right fun hcase => hne hcase.2
    rw [hstart, List.singleton_append, ← List.cons_append, ← hline, line_eq]
    simp
  rw [hline, ← List.singleton_append]
  exact hhead.append (Regex.idle_of_mark rfl htail rest)


/-! ## Rules and forms -/

/-- A rule for decorators that begins with the at sign recovers the forms that are its own. -/
theorem recovers_of_reads {rule : RouteRule} {items : List Regex} {mine : Form → Bool}
    (hregex : rule.regex = sequence (letter '@' :: items))
    (htext : ∀ d : Declaration, mine d.form = true → ∀ (start : Cursor) rest,
      start.rest = d.decorator.text ++ (d.form.read ++ (d.form.left ++ rest)) → ∃ found,
        rule.regex.matchAt? start = some found ∧
        found.whole = ⟨start, start.past (d.decorator.text ++ d.form.read) (d.form.left ++ rest)⟩ ∧
          rule.layout.resolve? found = some (d.form.method, d.path))
    (hother : ∀ d : Declaration, mine d.form = false → ∀ (start : Cursor) rest,
      start.rest = d.decorator.text ++ (d.form.arguments ++ (")\n".toList ++ rest)) →
        ∀ q, ¬ rule.regex.Reads ⟨start, []⟩ q) :
    rule.Recovers passage fun d => mine d.form where
  text d more hmine start hstart := htext d hmine start _ (hstart.trans (List.append_assoc _ _ _))
  front d more _ := Regex.idle_nil _ _
  back d more _ := by
    have hat : '@' ∉ d.form.left := by cases d.form <;> exact of_decide_eq_true rfl
    rw [hregex]
    exact Regex.idle_of_mark rfl hat _
  other d more hmine := by
    rw [hregex]
    exact d.idle_line fun start hstart => hregex ▸ hother d hmine start _ hstart
  atEnd start h := by
    rw [hregex]
    exact Regex.matchAt?_mark_eq_none rfl fun rest hrest => by rw [h] at hrest; cases hrest

/-- A rule for `route` matches a declaration as its rest does what follows the decorator. -/
theorem matchAt?_routeWith (d : Declaration) (hroute : d.form.isVerb = false) (noted : List (Nat × List Char))
    {tail : List Regex} {start : Cursor} {read rest : List Char}
    (hstart : start.rest = d.decorator.text ++ (read ++ rest))
    (hreads : ∀ m : Progress, m.cursor.rest = read ++ rest → ∃ q, (sequence tail).Reads m q)
    (htail : ∀ m q : Progress, m.cursor.rest = read ++ rest → (sequence tail).Reads m q →
      q.cursor = m.cursor.past read rest ∧ q.texts = noted ++ m.texts) :
    ∃ found, (routeWith tail).matchAt? start = some found ∧
      found.whole = ⟨start, start.past (d.decorator.text ++ read) rest⟩ ∧
        ∀ number ≠ 0, found.group? number =
          ((noted ++ [(1, d.path)] : List (Nat × List Char)).find? (·.1 == number)).map (·.2) := by
  have hspells : spells "route".toList d.decorator.verb = true := by
    rw [verb_decorator, d.form.verbText_eq_route hroute]
    decide
  have hbehind : ∀ m : Progress, m.cursor = start.past d.decorator.text (read ++ rest) →
      m.cursor.rest = read ++ rest := fun m hm => by rw [hm, Cursor.rest_past]
  refine Regex.exists_matchAt? _ _ _
    (exists_reads_routeWith d.proper_decorator hspells hstart fun m hm => hreads m (hbehind m hm)) fun q hq => ?_
  obtain ⟨-, m, hm, hpath, hq⟩ := d.tail_of_routeWith hstart hq
  obtain ⟨hstop, htexts⟩ := htail m q (hbehind m hm) hq
  exact ⟨by rw [hstop, hm, Cursor.past_past], by rw [htexts, hpath]⟩

theorem trim_path (d : Declaration) : Text.trim d.path = d.path :=
  Text.trimBy_eq_self fun c hc => (d.path_bare c hc).2.1

/-! ### With a list of methods -/

/-- The rest of the rule reads the list of a declaration as it is. -/
theorem eq_of_reads_listTail {first : Letters} {others : List Letters} {rest : List Char} {p q : Progress}
    (hp : p.cursor.rest = (Form.methodList first others).text ++ (")\n".toList ++ rest))
    (h : (sequence listTail).Reads p q) :
    q.cursor = p.cursor.past (Form.methodList first others).text (")\n".toList ++ rest) ∧
      q.texts = [(2, Form.listText first others)] ++ p.texts := by
  obtain ⟨l, hl, rest', hrest, hstop, htexts⟩ := exists_methodList_of_reads h
  have hfree : ∀ c ∈ Form.listText first others, c ≠ ']' ∧ c ≠ ')' ∧ c ≠ '=' ∧ c ≠ '\n' :=
    Form.forall_mem_listText (P := fun c => c ≠ ']' ∧ c ≠ ')' ∧ c ≠ '=' ∧ c ≠ '\n')
      (fun c hc => by refine ⟨?_, ?_, ?_, ?_⟩ <;> rintro rfl <;> cases hc) (by decide) (by decide) (by decide)
  rw [hp] at hrest
  have hline : ", methods".toList ++ '=' :: '[' :: (Form.listText first others ++ ']' :: ')' :: '\n' :: rest) =
      l.text ++ rest' := by
    simpa [MethodList.text, MethodList.front, Form.methodList] using hrest
  obtain ⟨htext, hlist⟩ := hl.eq_of_text (by decide) hfree hline
  have hsame : l.text = (Form.methodList first others).text := htext
  rw [hsame] at hrest hstop
  rw [hstop, htexts, hlist, List.append_cancel_left hrest]
  exact ⟨rfl, rfl⟩

theorem not_reads_listTail {rest : List Char} {p q : Progress} (hp : p.cursor.rest = ")\n".toList ++ rest) :
    ¬ (sequence listTail).Reads p q := by
  intro h
  obtain ⟨l, hl, rest', hrest, -⟩ := exists_methodList_of_reads h
  exact hl.ne_line [] rest rest' (by simp) (hp.symm.trans hrest)

theorem recovers_listRule : listRule.Recovers passage (·.form.isListed) := by
  refine recovers_of_reads rfl (fun d hmine start rest hstart => ?_) fun d hmine start rest hstart q hq => ?_
  · obtain ⟨first, others, hform⟩ : ∃ first others, d.form = .listed first others := by
      cases hform : d.form with
      | listed first others => exact ⟨first, others, rfl⟩
      | _ => rw [hform] at hmine; cases hmine
    have hread : d.form.read = (Form.methodList first others).text := by rw [hform]; rfl
    have hleft : d.form.left = ")\n".toList := by rw [hform]; rfl
    rw [hread, hleft] at hstart
    obtain ⟨found, hfound, hwhole, hgroup⟩ := d.matchAt?_routeWith (by rw [hform]; rfl)
      [(2, Form.listText first others)] hstart
      (fun m hm => exists_reads_methodList (Form.proper_methodList first others) hm)
      fun m q hm hq => eq_of_reads_listTail hm hq
    refine ⟨found, hfound, by rw [hwhole, hread, hleft], ?_⟩
    have hpath : found.group? 1 = some d.path := hgroup 1 (by decide)
    have hlist : found.group? 2 = some (Form.listText first others) := hgroup 2 (by decide)
    have hmethod : Verb.normalize? first.text = some d.form.method := by
      rw [Form.normalize?_letters, hform]
      rfl
    simp [Layout.resolve?, listRule, Layout.pathThenVerbList, hpath, hlist, Form.firstListed?_listText, hmethod,
      d.trim_path, d.path_ne_nil]
  · obtain ⟨hroute, m, hm, -, hq⟩ := d.tail_of_routeWith hstart hq
    cases hform : d.form with
    | listed first others => rw [hform] at hmine; cases hmine
    | verb name mem => rw [hform] at hroute; cases hroute
    | plain => exact not_reads_listTail (by rw [hm, hform]; rfl) hq

/-! ### With the path alone -/

theorem takes_plainTail : (sequence plainTail).Takes fun text =>
    ∃ blanks, (∀ c ∈ blanks, Text.isBlank c = true) ∧ text = blanks ++ [')'] := by
  intro p q
  rw [plainTail, reads_cons takes_blanks]
  constructor
  · rintro ⟨blanks, rest, hblanks, hrest, h⟩
    obtain ⟨_, rest', rfl, hrest', rfl⟩ := (takes_mark rfl _ _).1 h
    obtain rfl : rest = [')'] ++ rest' := hrest'
    exact ⟨_, rest', ⟨blanks, hblanks, rfl⟩, by rw [hrest, List.append_assoc], Progress.past_past _ _ _ _ _⟩
  · rintro ⟨_, rest, ⟨blanks, hblanks, rfl⟩, hrest, rfl⟩
    rw [List.append_assoc] at hrest
    exact ⟨blanks, _, hblanks, hrest, (takes_mark rfl _ _).2 ⟨_, rest, rfl, rfl, (Progress.past_past _ _ _ _ _).symm⟩⟩

/-- Behind a path that no blank follows the rule goes on only with the bracket. -/
theorem eq_of_reads_plainTail {c : Char} {rest : List Char} {p q : Progress} (hc : Text.isBlank c = false)
    (hp : p.cursor.rest = c :: rest) (h : (sequence plainTail).Reads p q) : c = ')' ∧ q = p.past [c] rest := by
  obtain ⟨_, rest', ⟨blanks, hblanks, rfl⟩, hrest, rfl⟩ := (takes_plainTail p q).1 h
  rw [hp, List.append_assoc] at hrest
  obtain ⟨rfl, rfl, rfl⟩ := Text.cut_inj (a := []) (Text.isBlank · = true) (by simp [hc]) (by decide)
    (List.forall_mem_nil _) hblanks hrest
  exact ⟨rfl, rfl⟩

theorem recovers_plainRule : plainRule.Recovers passage (·.form.isPlain) := by
  refine recovers_of_reads rfl (fun d hmine start rest hstart => ?_) fun d hmine start rest hstart q hq => ?_
  · have hform : d.form = .plain := by
      cases hform : d.form with
      | plain => rfl
      | _ => rw [hform] at hmine; cases hmine
    have hread : d.form.read = [')'] := by rw [hform]; rfl
    rw [hread] at hstart
    obtain ⟨found, hfound, hwhole, hgroup⟩ := d.matchAt?_routeWith (by rw [hform]; rfl) [] hstart
      (fun m hm => exists_reads_of_takes takes_plainTail ⟨[], List.forall_mem_nil _, rfl⟩ hm) fun m q hm hq => by
        obtain ⟨-, rfl⟩ := eq_of_reads_plainTail (by decide) hm hq
        exact ⟨rfl, rfl⟩
    refine ⟨found, hfound, by rw [hwhole, hread], ?_⟩
    have hpath : found.group? 1 = some d.path := hgroup 1 (by decide)
    simp [Layout.resolve?, plainRule, Layout.pathOnly, hpath, hform, Form.method, d.trim_path, d.path_ne_nil]
  · obtain ⟨hroute, m, hm, -, hq⟩ := d.tail_of_routeWith hstart hq
    cases hform : d.form with
    | plain => rw [hform] at hmine; cases hmine
    | verb name mem => rw [hform] at hroute; cases hroute
    | listed first others =>
      have hbehind : m.cursor.rest = ',' :: (" methods=[".toList ++ (Form.listText first others ++ "]".toList)
          ++ (")\n".toList ++ rest)) := by rw [hm, hform]; rfl
      exact absurd (eq_of_reads_plainTail (by decide) hbehind hq).1 (by decide)

/-! ### With a single method -/

theorem recovers_verbRule : verbRule.Recovers passage (·.form.isVerb) := by
  refine recovers_of_reads rfl (fun d hmine start rest hstart => ?_) fun d hmine start rest hstart q hq => ?_
  · obtain ⟨name, mem, hform⟩ : ∃ name mem, d.form = .verb name mem := by
      cases hform : d.form with
      | verb name mem => exact ⟨name, mem, rfl⟩
      | _ => rw [hform] at hmine; cases hmine
    have hread : d.form.read = [] := by rw [hform]; rfl
    rw [hread, List.nil_append] at hstart
    have hverbs : ∀ verb ∈ verbs, spells verb.toList verb.toList = true ∧
        Verb.normalize? verb.toList = some (Text.asciiUpper verb.toList) := by decide
    obtain ⟨found, hfound, hwhole, hresolve⟩ : ∃ found, verbRule.regex.matchAt? start = some found ∧
        found.whole = ⟨start, start.past d.decorator.text (d.form.left ++ rest)⟩ ∧
          verbRule.layout.resolve? found = d.decorator.route? :=
      Annotated.matchAt?_decorator takes_word.covers (fun verb hverb => List.mem_cons_of_mem _ hverb) (by decide)
        (by decide) (by decide) d.proper_decorator mem (by rw [verb_decorator, hform]; exact (hverbs name mem).1) hstart
    refine ⟨found, hfound, by rw [hwhole, hread, List.append_nil], ?_⟩
    have hroute : d.decorator.route? = some (d.form.method, d.path) := by
      have hpath : Text.trim d.decorator.path = d.path := d.trim_path
      rw [Decorator.route?, hpath, if_neg (by simpa using d.path_ne_nil), verb_decorator, hform, Form.verbText,
        (hverbs name mem).2]
      rfl
    rw [← hroute]
    exact hresolve
  · rw [d.isVerb_of_verbRule hstart hq] at hmine
    cases hmine

end Declaration

def rows : List (RouteRule × (Declaration → Bool)) :=
  [(listRule, (·.form.isListed)), (plainRule, (·.form.isPlain)), (verbRule, (·.form.isVerb))]

theorem recovers_rows : ∀ row ∈ rows, row.1.Recovers Declaration.passage row.2 := by
  simp only [rows, List.forall_mem_cons]
  exact ⟨Declaration.recovers_listRule, Declaration.recovers_plainRule, Declaration.recovers_verbRule,
    List.forall_mem_nil _⟩

theorem pairwise_rows : rows.Pairwise fun row other => ∀ d, row.2 d = true → other.2 d = false := by
  have hapart : ∀ form : Form, (form.isListed = true → form.isPlain = false) ∧
      (form.isListed = true → form.isVerb = false) ∧ (form.isPlain = true → form.isVerb = false) := by
    intro form
    cases form <;> simp [Form.isListed, Form.isPlain, Form.isVerb]
  simp only [rows, List.pairwise_cons, List.forall_mem_cons]
  exact ⟨⟨fun d => (hapart d.form).1, fun d => (hapart d.form).2.1, List.forall_mem_nil _⟩,
    ⟨fun d => (hapart d.form).2.2, List.forall_mem_nil _⟩, List.forall_mem_nil _, .nil⟩

theorem length_forms (declarations : List Declaration) :
    (declarations.filter (·.form.isListed) ++ declarations.filter (·.form.isPlain) ++
      declarations.filter (·.form.isVerb)).length = declarations.length := by
  induction declarations with
  | nil => rfl
  | cons d declarations ih =>
    have hone : (if d.form.isListed = true then 1 else 0) + (if d.form.isPlain = true then 1 else 0) +
        (if d.form.isVerb = true then 1 else 0) = 1 := by
      cases d.form <;> rfl
    simp only [List.length_append, ← List.countP_eq_length_filter, List.countP_cons, List.length_cons] at ih ⊢
    omega

/-- **A routing file that is a list of declarations comes back declaration by declaration**: first those with a list of
methods, then the other ones for `route`, then those for a single method, each kind in the order of the file. -/
theorem endpoints_declarations (declarations : List Declaration) :
    let text := declarations.flatMap Declaration.line
    Controller.endpoints text "py" .flask =
      (declarations.filter (·.form.isListed) ++ declarations.filter (·.form.isPlain) ++
        declarations.filter (·.form.isVerb)).map Declaration.endpoint ∧
    (Controller.endpoints text "py" .flask).length = declarations.length := by
  intro text
  have hroutes := map_routes_file recovers_rows "py" (by decide) pairwise_rows declarations Controller.endpointOf
    Declaration.endpoint fun place _ => by
      rw [Controller.endpointOf, Declaration.endpoint, Place.route, Passage.route, Declaration.passage]
      split <;> rfl
  have hendpoints : Controller.endpoints text "py" .flask =
      (declarations.filter (·.form.isListed) ++ declarations.filter (·.form.isPlain) ++
        declarations.filter (·.form.isVerb)).map Declaration.endpoint := by
    have htext : text = file Declaration.passage declarations := (Declaration.file_passage declarations).symm
    rw [Controller.endpoints, flask_table, htext]
    simpa [rows] using hroutes
  exact ⟨hendpoints, by rw [hendpoints, List.length_map, length_forms]⟩

/-- The three forms, the list of methods last, with a method in mixed case. -/
theorem endpoints_declarations_of_forms : ∃ declarations : List Declaration,
    declarations.flatMap Declaration.line =
      "@app.delete('/users/<id>')\n@app.route('/')\n@app.route('/users', methods=['Post', 'GET'])\n".toList ∧
    (Controller.endpoints (declarations.flatMap Declaration.line) "py" .flask).map
        (fun endpoint => (endpoint.method, endpoint.path)) =
      [("POST", "/users"), ("GET", "/"), ("DELETE", "/users/<id>")] := by
  let deletion : Declaration := ⟨"app".toList, "/users/<id>".toList, .verb "delete" (by decide), isOwner_app,
    by decide, List.forall_iff_forall_mem.1 (by decide)⟩
  let index : Declaration := ⟨"app".toList, "/".toList, .plain, isOwner_app, by decide,
    List.forall_iff_forall_mem.1 (by decide)⟩
  let creation : Declaration := ⟨"app".toList, "/users".toList,
    .listed ⟨"Post".toList, by decide, List.all_eq_true.1 (by decide)⟩
      [⟨"GET".toList, by decide, List.all_eq_true.1 (by decide)⟩],
    isOwner_app, by decide, List.forall_iff_forall_mem.1 (by decide)⟩
  obtain ⟨hendpoints, -⟩ := endpoints_declarations [deletion, index, creation]
  refine ⟨[deletion, index, creation], by decide, ?_⟩
  rw [hendpoints]
  decide

end ApiCatalog.Flask
