import ApiCatalog.Extract.Controller
import ApiCatalog.Proofs.Extract.Decorators
import ApiCatalog.Proofs.Routes.Passage
/-!
# Routing files of Express

A routing file that is a list of registrations, each on its own line, comes back registration by registration: those on
a router first, then those on an app, whatever their paths look like (`endpoints_registrations`).
-/

namespace ApiCatalog.Express

open Pattern
open Annotated (verbs takes_blanks not_isWordChar_mark)

/-! ## Rules -/

def isMark (c : Char) : Bool := c == '\'' || c == '"' || c == '\x60'

/-- The marks or, negated, all other characters. -/
def marks (negated : Bool) : CharSet := ⟨negated, [.range '\'' '\'', .range '"' '"', .range '\x60' '\x60']⟩

/-- The rule for registrations on an object. -/
def rule (object : String) : RouteRule where
  regex := sequence (literal object ++ (letter '.' :: .group 1 (anyName verbs) :: letter '(' ::
    .run ⟨false, [.blank]⟩ :: .oneOf (marks false) :: .group 2 (.atLeastOne (.oneOf (marks true))) ::
    .oneOf (marks false) :: .run ⟨false, [.blank]⟩ :: [letter ',']))
  extensions := ["js", "ts"]
  layout := .verbThenPath

theorem express_table : Framework.express.table = [rule "router", rule "app"] := by
  have hrouter : Regex.ofPattern? RouteRow.options
      "router\\.(get|post|put|delete|patch)\\(\\s*['\"`]([^'\"`]+)['\"`]\\s*," = some (rule "router").regex := by
    decide +kernel
  have happ : Regex.ofPattern? RouteRow.options
      "app\\.(get|post|put|delete|patch)\\(\\s*['\"`]([^'\"`]+)['\"`]\\s*," = some (rule "app").regex := by
    decide +kernel
  rw [Framework.table, Framework.rows, RouteTable.ofRows, Framework.expressRows]
  simp only [RouteRow.rule?, List.filterMap_cons, List.filterMap_nil, hrouter, happ, Option.map_some]
  rfl

theorem has_marks (negated : Bool) (c : Char) : (marks negated).has c = (isMark c != negated) := by
  simp [marks, CharSet.has, has_range_self, isMark, Bool.or_assoc]

theorem takes_marks : (Regex.oneOf (marks false)).Takes fun text => ∃ c, isMark c = true ∧ text = [c] := by
  simpa [has_marks] using takes_oneOf (marks false)

theorem takes_path : (Regex.atLeastOne (.oneOf (marks true))).Takes
    fun text => text ≠ [] ∧ ∀ c ∈ text, isMark c = false := by
  simpa [has_marks] using takes_atLeastOne (marks true)

/-! ## Calls -/

def objects : List String := ["router", "app"]

/-- The parts of a call that registers a route, up to the comma behind the path. -/
structure Call where
  object : List Char
  verb : List Char
  blanks : List Char
  opening : Char
  path : List Char
  closing : Char
  gap : List Char

namespace Call

/-- What stands before the path and its marks. -/
def head (c : Call) : List Char := c.object ++ '.' :: (c.verb ++ '(' :: c.blanks)

def text (c : Call) : List Char := c.head ++ c.opening :: (c.path ++ c.closing :: (c.gap ++ [',']))

/-- The parts are what the rule for the object asks for. -/
structure Proper (object : String) (c : Call) : Prop where
  object : spells object.toList c.object = true
  verb : ∃ name ∈ verbs, spells name.toList c.verb = true
  blanks : ∀ d ∈ c.blanks, Text.isBlank d = true
  opening : isMark c.opening = true
  path_ne_nil : c.path ≠ []
  path : ∀ d ∈ c.path, isMark d = false
  closing : isMark c.closing = true
  gap : ∀ d ∈ c.gap, Text.isBlank d = true

end Call

section
variable {object : String} {start : Cursor}

/-- **What the rule for an object reads is a call on it.** -/
theorem exists_call_of_reads {q : Progress} (h : (rule object).regex.Reads ⟨start, []⟩ q) : ∃ c : Call,
    c.Proper object ∧ ∃ rest, start.rest = c.text ++ rest ∧ q.cursor = start.past c.text rest ∧
      q.texts = [(2, c.path), (1, c.verb)] := by
  obtain ⟨written, rest, hobject, hrest, h⟩ := (reads_append (takes_literal _)).1 h
  obtain ⟨_, rest, rfl, rfl, h⟩ := (reads_cons (takes_mark rfl)).1 h
  obtain ⟨verb, rest, hverb, rfl, h⟩ := (reads_noted_cons (takes_anyName (List.cons_ne_nil _ _))).1 h
  obtain ⟨_, rest, rfl, rfl, h⟩ := (reads_cons (takes_mark rfl)).1 h
  obtain ⟨blanks, rest, hblanks, rfl, h⟩ := (reads_cons takes_blanks).1 h
  obtain ⟨_, rest, ⟨opening, hopening, rfl⟩, rfl, h⟩ := (reads_cons takes_marks).1 h
  obtain ⟨path, rest, ⟨hpath_ne, hpath⟩, rfl, h⟩ := (reads_noted_cons takes_path).1 h
  obtain ⟨_, rest, ⟨closing, hclosing, rfl⟩, rfl, h⟩ := (reads_cons takes_marks).1 h
  obtain ⟨gap, rest, hgap, rfl, h⟩ := (reads_cons takes_blanks).1 h
  obtain ⟨_, rest, rfl, rfl, h⟩ := (takes_mark rfl _ _).1 h
  refine ⟨⟨written, verb, blanks, opening, path, closing, gap⟩,
    ⟨hobject, hverb, hblanks, hopening, hpath_ne, hpath, hclosing, hgap⟩, rest, ?_, ?_, ?_⟩
  · rw [hrest]
    simp [Call.text, Call.head]
  · subst h
    simp only [Progress.past, Progress.noted, Cursor.past_past]
    simp [Call.text, Call.head]
  · subst h
    simp only [Progress.texts_past]
    rw [Progress.texts_noted rfl]
    simp only [Progress.texts_past]
    rw [Progress.texts_noted rfl]
    rfl

theorem exists_reads_call {c : Call} (hc : c.Proper object) {rest : List Char} (hrest : start.rest = c.text ++ rest) :
    ∃ q, (rule object).regex.Reads ⟨start, []⟩ q := by
  rw [Call.text, Call.head] at hrest
  simp only [List.append_assoc, List.cons_append, List.nil_append] at hrest
  refine exists_reads_append (takes_literal _) hc.object hrest ?_
  refine exists_reads_cons (takes_mark rfl) rfl rfl ?_
  refine exists_reads_noted_cons (takes_anyName (List.cons_ne_nil _ _)) hc.verb rfl ?_
  refine exists_reads_cons (takes_mark rfl) rfl rfl ?_
  refine exists_reads_cons takes_blanks hc.blanks rfl ?_
  refine exists_reads_cons takes_marks ⟨_, hc.opening, rfl⟩ rfl ?_
  refine exists_reads_noted_cons takes_path ⟨hc.path_ne_nil, hc.path⟩ rfl ?_
  refine exists_reads_cons takes_marks ⟨_, hc.closing, rfl⟩ rfl ?_
  refine exists_reads_cons takes_blanks hc.gap rfl ?_
  exact exists_reads_of_takes (takes_mark rfl) rfl rfl

end

/-! A call is cut where its words end, at its marks and at the comma. -/

theorem object_mem_names : ∀ object ∈ objects, ∀ c ∈ object.toList, c ∈ alphabet := by
  have hall : (objects.all fun object => object.toList.all alphabet.contains) = true := by rfl
  simpa only [List.all_eq_true, List.contains_iff_mem] using hall

theorem isMark_of_isWordChar {c : Char} (h : Text.isWordChar c = true) : isMark c = false := by
  refine Bool.eq_false_iff.2 fun hmark => ?_
  simp only [isMark, Bool.or_eq_true, beq_iff_eq] at hmark
  rcases hmark with (rfl | rfl) | rfl <;> exact absurd h (by decide)

theorem isBlank_of_isMark {c : Char} (h : isMark c = true) : Text.isBlank c = false := by
  simp only [isMark, Bool.or_eq_true, beq_iff_eq] at h
  rcases h with (rfl | rfl) | rfl <;> decide

namespace Call

variable {object : String} {c : Call}

theorem Proper.isWordChar (hobject : object ∈ objects) (hc : c.Proper object) :
    (∀ d ∈ c.object, Text.isWordChar d = true) ∧ ∀ d ∈ c.verb, Text.isWordChar d = true := by
  have hnames : ∀ verb ∈ verbs, verb ∈ Annotated.names := by decide
  obtain ⟨verb, hverb, hspells⟩ := hc.verb
  exact ⟨fun d hd => isWordChar_of_mem_spellings d
    ((mem_spellings_of_spells (object_mem_names object hobject) hc.object).1 d hd),
    Annotated.isWordChar_of_spells verb (hnames verb hverb) hspells⟩

theorem Proper.isMark_head (hobject : object ∈ objects) (hc : c.Proper object) : ∀ d ∈ c.head, isMark d = false := by
  obtain ⟨hword, hword'⟩ := hc.isWordChar hobject
  have hblank : ∀ d ∈ c.blanks, isMark d = false := fun d hd =>
    Bool.eq_false_iff.2 fun hmark => absurd (hc.blanks d hd) (by simp [isBlank_of_isMark hmark])
  simp only [head, List.forall_mem_append, List.forall_mem_cons]
  exact ⟨fun d hd => isMark_of_isWordChar (hword d hd), rfl, fun d hd => isMark_of_isWordChar (hword' d hd), rfl,
    hblank⟩

theorem Proper.cut (hobject : object ∈ objects) (hc : c.Proper object) {front rest rest' : List Char} {mark : Char}
    (hmark : isMark mark = true) (hfront : ∀ d ∈ front, isMark d = false)
    (h : front ++ mark :: rest = c.text ++ rest') :
    front = c.head ∧ mark = c.opening ∧ rest = c.path ++ c.closing :: (c.gap ++ ',' :: rest') := by
  rw [text, List.append_assoc, List.cons_append, List.append_assoc, List.cons_append, List.append_assoc,
    List.singleton_append] at h
  exact Text.cut_inj (isMark · = false) (by simp [hmark]) (by simp [hc.opening]) hfront (hc.isMark_head hobject) h

theorem text_inj {object' : String} {c' : Call} (hobject : object ∈ objects) (hobject' : object' ∈ objects)
    (hc : c.Proper object) (hc' : c'.Proper object') {rest rest' : List Char} (h : c.text ++ rest = c'.text ++ rest') :
    c = c' ∧ rest = rest' := by
  obtain ⟨-, hdot, hopen⟩ := not_isWordChar_mark
  have htext : c.text ++ rest = c.head ++ c.opening :: (c.path ++ c.closing :: (c.gap ++ ',' :: rest)) := by
    simp [text]
  obtain ⟨hhead, hopening, hpath⟩ := hc'.cut hobject' hc.opening (hc.isMark_head hobject) (htext ▸ h)
  obtain ⟨hpath, hclosing, hgap⟩ := Text.cut_inj (isMark · = false) (by simp [hc.closing]) (by simp [hc'.closing])
    hc.path hc'.path hpath
  obtain ⟨hgap, -, hrest⟩ := Text.cut_inj (Text.isBlank · = true) (by decide) (by decide) hc.gap hc'.gap hgap
  obtain ⟨hwritten, -, hcall⟩ := Text.cut_inj (Text.isWordChar · = true) hdot hdot (hc.isWordChar hobject).1
    (hc'.isWordChar hobject').1 hhead
  obtain ⟨hverb, -, hblanks⟩ := Text.cut_inj (Text.isWordChar · = true) hopen hopen (hc.isWordChar hobject).2
    (hc'.isWordChar hobject').2 hcall
  cases c
  cases c'
  dsimp only at hwritten hverb hblanks hopening hpath hclosing hgap
  exact ⟨by rw [hwritten, hverb, hblanks, hopening, hpath, hclosing, hgap], hrest⟩

end Call

/-! ## Registrations -/

structure Registration where
  object : String
  verb : String
  path : List Char
  object_mem : object ∈ objects
  verb_mem : verb ∈ verbs
  path_slash : ∃ more, path = '/' :: more
  path_bare : ∀ c ∈ path, isMark c = false ∧ Text.isBlank c = false

namespace Registration

/-- What stands before the path in the line of the registration. -/
def head (r : Registration) : List Char := r.object.toList ++ '.' :: (r.verb.toList ++ "(".toList)

def line (r : Registration) : List Char := r.head ++ "'".toList ++ r.path ++ "', handler);\n".toList

def call (r : Registration) : Call := ⟨r.object.toList, r.verb.toList, [], '\'', r.path, '\'', []⟩

/-- The endpoint of the registration, which is deprecated if the registration, as far as it is read, mentions it. -/
def endpoint (r : Registration) : Endpoint :=
  { Endpoint.plain (String.ofList (Text.asciiUpper r.verb.toList)) (String.ofList r.path) with
    status := if Text.occurs "deprecated".toList (Text.lowercase r.call.text) then .deprecated else .active }

def passage (r : Registration) : Passage where
  front := []
  text := r.call.text
  back := " handler);\n".toList
  method := Text.asciiUpper r.verb.toList
  path := r.path
  text_ne_nil := by simp [Call.text, Call.head]

theorem whole_passage (r : Registration) : r.passage.whole = r.line := by
  simp [Passage.whole, passage, line, head, call, Call.text, Call.head]

theorem file_passage (registrations : List Registration) : file passage registrations = registrations.flatMap line :=
  List.flatMap_congr fun r _ => r.whole_passage

theorem proper_call (r : Registration) : r.call.Proper r.object where
  object := (by decide : ∀ object ∈ objects, spells object.toList object.toList = true) _ r.object_mem
  verb := ⟨r.verb, r.verb_mem, Annotated.spells_verb _ (List.mem_cons_of_mem _ r.verb_mem)⟩
  blanks := List.forall_mem_nil _
  opening := rfl
  path_ne_nil := by
    obtain ⟨more, hpath⟩ := r.path_slash
    rw [call, hpath]
    exact List.cons_ne_nil _ _
  path c hc := (r.path_bare c hc).1
  closing := rfl
  gap := List.forall_mem_nil _

theorem isMark_head (r : Registration) : ∀ c ∈ r.head, isMark c = false :=
  r.proper_call.isMark_head r.object_mem

theorem matchAt?_call (r : Registration) {start : Cursor} {rest : List Char}
    (hstart : start.rest = r.call.text ++ rest) : ∃ found, (rule r.object).regex.matchAt? start = some found ∧
      found.whole = ⟨start, start.past r.call.text rest⟩ ∧
        Layout.resolve? .verbThenPath found = some (Text.asciiUpper r.verb.toList, r.path) := by
  obtain ⟨found, hfound, hwhole, hgroup⟩ := Regex.exists_matchAt? r.call.text rest
      [(2, r.path), (1, r.verb.toList)] (exists_reads_call r.proper_call hstart) fun q hq => by
    obtain ⟨c, hc, rest', hrest, hstop, htexts⟩ := exists_call_of_reads hq
    obtain ⟨rfl, rfl⟩ := Call.text_inj r.object_mem r.object_mem r.proper_call hc (hstart.symm.trans hrest)
    exact ⟨hstop, htexts⟩
  refine ⟨found, hfound, hwhole, ?_⟩
  have hverb : found.group? 1 = some r.verb.toList := hgroup 1 (by decide)
  have hpath : found.group? 2 = some r.path := hgroup 2 (by decide)
  have hverbs : ∀ verb ∈ verbs, Verb.normalize? verb.toList = some (Text.asciiUpper verb.toList) := by decide
  have htrim : Text.trim r.path = r.path := Text.trimBy_eq_self fun c hc => (r.path_bare c hc).2
  have hne : r.path ≠ [] := r.proper_call.path_ne_nil
  simp [Layout.resolve?, Layout.verbThenPath, hverb, hpath, htrim, hne, hverbs _ r.verb_mem]

/-! ### What the rules pass over -/

section
variable {object : String} (hobject : object ∈ objects)
include hobject

/-- An object stands on one line. -/
theorem idle_end (text : List Char) (hdot : '.' ∉ text) (hend : '\n' ∉ text) (rest : List Char) :
    (rule object).regex.Idle (text ++ ['\n']) rest := by
  intro passed left h hne start hstart
  refine Regex.matchAt?_eq_none fun q hq => ?_
  obtain ⟨c, hc, rest', hrest, -⟩ := exists_call_of_reads hq
  obtain ⟨front, rfl, rfl⟩ := Text.exists_concat_of_eq hne h
  have hfront : ∀ d ∈ front, d ≠ '.' ∧ d ≠ '\n' := fun d hd =>
    ⟨fun heq => hdot (heq ▸ List.mem_append_right _ hd), fun heq => hend (heq ▸ List.mem_append_right _ hd)⟩
  have hword : ∀ d ∈ c.object, d ≠ '.' ∧ d ≠ '\n' := fun d hd => by
    have hd := (hc.isWordChar hobject).1 d hd
    constructor <;> rintro rfl <;> exact absurd hd (by decide)
  rw [hstart, Call.text, Call.head] at hrest
  simp only [List.append_assoc, List.cons_append, List.nil_append] at hrest
  obtain ⟨-, hmark, -⟩ := Text.cut_inj (fun d => d ≠ '.' ∧ d ≠ '\n') (by simp) (by simp) hfront hword hrest
  exact absurd hmark (by decide)

/-- From within a path the next mark is the one behind it, and the one after that is in front of the next path: a slash
follows, and no comma. -/
theorem idle_path (r : Registration) (more : List Registration) :
    (rule object).regex.Idle (r.path ++ ['\'']) (", handler);\n".toList ++ file passage more) := by
  intro passed left h hne start hstart
  refine Regex.matchAt?_eq_none fun q hq => ?_
  obtain ⟨c, hc, rest', hrest, -⟩ := exists_call_of_reads hq
  obtain ⟨front, rfl, hpath⟩ := Text.exists_concat_of_eq hne h
  have hfront : ∀ d ∈ front, isMark d = false := fun d hd =>
    (r.path_bare d (hpath ▸ List.mem_append_right _ hd)).1
  rw [hstart, List.append_assoc, List.singleton_append] at hrest
  obtain ⟨-, -, hnext⟩ := hc.cut hobject rfl hfront hrest
  have hhandler : ∀ d ∈ ", handler);\n".toList, isMark d = false := by
    have hall : (", handler);\n".toList.all (!isMark ·)) = true := by decide
    simpa using hall
  cases more with
  | nil =>
    have hclosing : c.closing ∈ ", handler);\n".toList := by
      rw [file, List.flatMap_nil, List.append_nil] at hnext
      simp [hnext]
    exact absurd hc.closing (by simp [hhandler _ hclosing])
  | cons r' more =>
    obtain ⟨path, hslash⟩ := r'.path_slash
    have hwhole : ", handler);\n".toList ++ file passage (r' :: more) = (", handler);\n".toList ++ r'.head) ++
        '\'' :: '/' :: (path ++ ("', handler);\n".toList ++ file passage more)) := by
      rw [file, List.flatMap_cons, r'.whole_passage, line, hslash]
      simp [file]
    rw [hwhole] at hnext
    obtain ⟨-, -, hgap⟩ := Text.cut_inj (isMark · = false) (by decide) (by simp [hc.closing])
      (List.forall_mem_append.2 ⟨hhandler, r'.isMark_head⟩) hc.path hnext
    obtain ⟨-, hcomma, -⟩ := Text.cut_inj (a := []) (Text.isBlank · = true) (by decide) (by decide)
      (List.forall_mem_nil _) hc.gap hgap
    exact absurd hcomma (by decide)

/-- The rule for an object finds nothing in front of the path of a registration on another one. -/
theorem idle_head (r : Registration) (hne : r.object ≠ object) (rest : List Char) :
    (rule object).regex.Idle (r.head ++ ['\'']) rest := by
  intro passed left h hleft start hstart
  refine Regex.matchAt?_eq_none fun q hq => ?_
  obtain ⟨c, hc, rest', hrest, -⟩ := exists_call_of_reads hq
  obtain ⟨front, rfl, hhead⟩ := Text.exists_concat_of_eq hleft h
  have hfront : ∀ d ∈ front, isMark d = false := fun d hd => r.isMark_head d (hhead ▸ List.mem_append_right _ hd)
  rw [hstart, List.append_assoc, List.singleton_append] at hrest
  obtain ⟨rfl, -, -⟩ := hc.cut hobject rfl hfront hrest
  -- There is only one dot before the path, so that the object would be the end of the other one.
  have hdots : ∀ object ∈ objects, '.' ∉ object.toList := by decide
  have hverbs : ∀ verb ∈ verbs, '.' ∉ verb.toList ++ "(".toList := by decide
  rw [head, Call.head, ← List.append_assoc] at hhead
  obtain ⟨hsuffix, -, -⟩ := (List.append_cons_inj_of_notMem (hdots _ r.object_mem) (hverbs _ r.verb_mem)).1 hhead
  have hplain : ∀ object ∈ objects, object.toList.map plain = object.toList := by decide
  have hends : ∀ object ∈ objects, ∀ object' ∈ objects, object'.toList <:+ object.toList → object = object' := by
    decide
  have hwritten := (mem_spellings_of_spells (object_mem_names object hobject) hc.object).2
  refine hne (hends _ r.object_mem _ hobject ⟨passed.map plain, ?_⟩)
  rw [← hplain _ r.object_mem, hsuffix, List.map_append, hwritten]

end

theorem recovers_rule {object : String} (hobject : object ∈ objects) :
    (rule object).Recovers passage fun r => r.object == object where
  text r more hmine start hstart := by
    obtain rfl := beq_iff_eq.1 hmine
    exact r.matchAt?_call hstart
  front r more _ := Regex.idle_nil _ _
  back r more _ := idle_end hobject " handler);".toList (by decide) (by decide) _
  other r more hmine := by
    have hwhole : r.passage.whole = r.head ++ ['\''] ++ (r.path ++ ['\''] ++ (", handler);".toList ++ ['\n'])) := by
      rw [whole_passage, line]
      simp
    rw [hwhole]
    have hend := idle_end hobject ", handler);".toList (by decide) (by decide) (file passage more)
    have hpath := (idle_path hobject r more).append hend
    exact (idle_head hobject r (beq_eq_false_iff_ne.1 hmine) _).append hpath
  atEnd start h := by
    refine Regex.matchAt?_eq_none fun q hq => ?_
    obtain ⟨c, -, rest, hrest, -⟩ := exists_call_of_reads hq
    rw [h] at hrest
    simp [Call.text, Call.head] at hrest

end Registration

def rows : List (RouteRule × (Registration → Bool)) := objects.map fun object => (rule object, (·.object == object))

theorem recovers_rows : ∀ row ∈ rows, row.1.Recovers Registration.passage row.2 :=
  List.forall_mem_map.2 fun _ hobject => Registration.recovers_rule hobject

theorem pairwise_rows : rows.Pairwise fun row other => ∀ r, row.2 r = true → other.2 r = false := by
  have hobjects : objects.Pairwise (· ≠ ·) := by decide
  refine List.pairwise_map.2 (hobjects.imp fun {object other} hne r hr => beq_eq_false_iff_ne.2 fun heq => ?_)
  exact hne ((beq_iff_eq.1 hr).symm.trans heq)

theorem length_objects (registrations : List Registration) :
    (registrations.filter (·.object == "router") ++ registrations.filter (·.object == "app")).length =
      registrations.length := by
  induction registrations with
  | nil => rfl
  | cons r registrations ih =>
    have hone : ∀ object ∈ objects, (if (object == "router") = true then 1 else 0) +
        (if (object == "app") = true then 1 else 0) = 1 := by decide
    have hone := hone r.object r.object_mem
    simp only [List.length_append, ← List.countP_eq_length_filter, List.countP_cons, List.length_cons] at ih ⊢
    omega

/-- **A routing file that is a list of registrations comes back registration by registration**: first those on a
router, then those on an app, each kind in the order of the file, whatever else stands in their paths. -/
theorem endpoints_registrations (registrations : List Registration) :
    let text := registrations.flatMap Registration.line
    Controller.endpoints text "js" .express =
      (registrations.filter (·.object == "router") ++ registrations.filter (·.object == "app")).map
        Registration.endpoint ∧
    (Controller.endpoints text "js" .express).length = registrations.length := by
  intro text
  have hroutes := map_routes_file recovers_rows "js" (by decide) pairwise_rows registrations Controller.endpointOf
    Registration.endpoint fun place _ => by
      rw [Controller.endpointOf, Registration.endpoint, Place.route, Passage.route, Registration.passage]
      split <;> rfl
  have hendpoints : Controller.endpoints text "js" .express =
      (registrations.filter (·.object == "router") ++ registrations.filter (·.object == "app")).map
        Registration.endpoint := by
    have htext : text = file Registration.passage registrations := (Registration.file_passage registrations).symm
    rw [Controller.endpoints, express_table, htext]
    simpa [rows, objects] using hroutes
  exact ⟨hendpoints, by rw [hendpoints, List.length_map, length_objects]⟩

/-- The path of the first registration looks like a call on the other object. -/
theorem endpoints_registrations_of_pair : ∃ registrations : List Registration,
    registrations.flatMap Registration.line =
      "app.get('/users', handler);\nrouter.put('/app.get(', handler);\n".toList ∧
    (Controller.endpoints (registrations.flatMap Registration.line) "js" .express).map
        (fun endpoint => (endpoint.method, endpoint.path)) = [("PUT", "/app.get("), ("GET", "/users")] := by
  let reading : Registration := ⟨"app", "get", "/users".toList, by decide, by decide, ⟨_, rfl⟩,
    List.forall_iff_forall_mem.1 (by decide)⟩
  let update : Registration := ⟨"router", "put", "/app.get(".toList, by decide, by decide, ⟨_, rfl⟩,
    List.forall_iff_forall_mem.1 (by decide)⟩
  obtain ⟨hendpoints, -⟩ := endpoints_registrations [reading, update]
  refine ⟨[reading, update], by decide, ?_⟩
  rw [hendpoints]
  decide

end ApiCatalog.Express
