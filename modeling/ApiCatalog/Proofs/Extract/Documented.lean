import ApiCatalog.Proofs.Extract.Blocks
import ApiCatalog.Proofs.Extract.Decorators
import ApiCatalog.Proofs.Routes.Passage
/-!
# Documented functions

A source that is a list of decorated functions, each with a block of documentation before it or none, comes back
function by function, each with what its own block tells and nothing else (`endpoints_documented`).
-/

namespace ApiCatalog

namespace Docs

/-- A block without quotation marks is what stands between the quotes. -/
theorem blockBefore?_bare {block : List Char} (h : '"' ∉ block) (before : List Char) :
    blockBefore? ((before ++ ("\"\"\"".toList ++ (block ++ "\"\"\"\n".toList))).reverse) = some block := by
  have hquote : "\"\"\"".toList ∈ quotes := List.mem_cons_self
  have hmarks : ∀ c ∈ "\"\"\"".toList, c = '"' := fun c hc => List.eq_of_mem_replicate (n := 3) hc
  have hblock : ¬ "\"\"\"".toList <:+: block := fun hwithin => h (hwithin.subset List.mem_cons_self)
  have hhead : ∀ c ∈ block.head?, c ∉ "\"\"\"".toList := fun c hc hmem =>
    h (hmarks c hmem ▸ List.mem_of_mem_head? hc)
  have hblanks : ∀ c ∈ "\n".toList, Text.isBlank c = true := List.forall_mem_singleton.2 rfl
  have hcontent : before ++ ("\"\"\"".toList ++ (block ++ "\"\"\"\n".toList)) =
      before ++ "\"\"\"".toList ++ block ++ "\"\"\"".toList ++ "\n".toList := by simp
  rw [hcontent]
  exact blockBefore?_closed hquote hblock hhead hblanks before

/-- What tells of a declaration ends right before it, and a line of code is no block. -/
theorem blockBefore?_code (before : List Char) :
    blockBefore? ((before ++ ")\ndef f(): ...\n".toList).reverse) = .none := by
  rw [List.reverse_append]
  rfl

end Docs

namespace Annotated

open Pattern

/-- A decorated function, with the block of documentation in front of it if there is one. -/
structure Documented where
  block : Option (List Char)
  owner : List Char
  verb : String
  path : List Char
  block_bare : ∀ text ∈ block, ∀ c ∈ text, Verb.isQuote c = false
  isOwner : IsOwner owner
  verb_mem : verb ∈ "route" :: verbs
  path_ne_nil : path ≠ []
  path_bare : ∀ c ∈ path, Verb.isQuote c = false ∧ Text.isBlank c = false

namespace Documented

def blockLines (item : Documented) : List Char :=
  item.block.elim [] fun text => "\"\"\"".toList ++ (text ++ "\"\"\"\n".toList)

/-- The lines of the function: its block, its decorator and its header. -/
def lines (item : Documented) : List Char :=
  item.blockLines ++ ('@' :: (item.owner ++ '.' :: (item.verb.toList ++ "(\"".toList ++ item.path ++ "\")\n".toList)))
    ++ "def f(): ...\n".toList

def method (item : Documented) : List Char :=
  if item.verb = "route" then "GET".toList else Text.asciiUpper item.verb.toList

/-- What the block of the function tells, and nothing if it has none. -/
def docs (item : Documented) : Docs := item.block.elim .none Docs.ofBlock

def endpoint (item : Documented) : Endpoint :=
  { Endpoint.plain (String.ofList item.method) (String.ofList item.path) with
    summary := item.docs.summary.map String.ofList
    description := item.docs.description.map String.ofList
    tags := item.docs.tags.map String.ofList }

def decorator (item : Documented) : Decorator := .written item.owner item.verb '"' item.path

theorem proper_decorator (item : Documented) : item.decorator.Proper :=
  Decorator.proper_written item.isOwner item.verb_mem rfl item.path_ne_nil fun c hc => (item.path_bare c hc).1

theorem route?_decorator (item : Documented) : item.decorator.route? = some (item.method, item.path) := by
  have hverbs : ∀ verb ∈ "route" :: verbs, Verb.normalize? verb.toList =
      some (if verb = "route" then "GET".toList else Text.asciiUpper verb.toList) := by decide
  have htrim : Text.trim item.path = item.path := Text.trimBy_eq_self fun c hc => (item.path_bare c hc).2
  rw [Decorator.route?, decorator, Decorator.written]
  dsimp only
  rw [htrim, if_neg (by simpa using item.path_ne_nil), hverbs _ item.verb_mem]
  rfl

def passage (item : Documented) : Passage where
  front := item.blockLines
  text := item.decorator.text
  back := ")\ndef f(): ...\n".toList
  method := item.method
  path := item.path
  text_ne_nil := List.cons_ne_nil _ _

theorem file_passage (items : List Documented) : file passage items = items.flatMap lines := by
  refine List.flatMap_congr fun item _ => ?_
  simp [Passage.whole, passage, lines, decorator, Decorator.written, Decorator.text]

theorem matchAt?_quotes {start : Cursor} {code rest : List Char} {quote quote' : Char}
    (hcode : ∀ c ∈ code, Verb.isQuote c = false) (hquote : Verb.isQuote quote = true)
    (hquote' : Verb.isQuote quote' = true) (hstart : start.rest = code ++ quote :: quote' :: rest) :
    decoratorRegex.matchAt? start = none := by
  refine matchAt?_decoratorRegex_eq_none fun d hd rest' hrest => ?_
  rw [hstart, d.text_eq, List.append_assoc] at hrest
  obtain ⟨-, -, hpath⟩ := Text.cut_inj (Verb.isQuote · = false) (by simp [hquote]) (by simp [hd.opening]) hcode
    hd.isQuote_call hrest
  obtain ⟨c, path, hcons⟩ := List.exists_cons_of_ne_nil hd.path_ne_nil
  simp only [hcons, List.cons_append] at hpath
  have hbare := hd.path c (hcons ▸ List.mem_cons_self)
  rw [← (List.cons.inj hpath).1, hquote'] at hbare
  cases hbare

theorem idle_blockLines (item : Documented) (rest : List Char) : decoratorRegex.Idle item.blockLines rest := by
  rw [blockLines]
  cases hblock : item.block with
  | none => exact Regex.idle_nil _ _
  | some block =>
    have hbare : ∀ c ∈ block, Verb.isQuote c = false := item.block_bare block hblock
    have hopen : '@' ∉ "\"\"\"".toList := by decide
    have hclose : '@' ∉ "\"\"\"\n".toList := by decide
    refine (Regex.idle_of_mark rfl hopen _).append (Regex.Idle.append ?_ (Regex.idle_of_mark rfl hclose _))
    rintro passed left rfl - start hstart
    exact matchAt?_quotes (fun c hc => hbare c (List.mem_append_right _ hc)) rfl rfl hstart

theorem recovers : decoratorRule.Recovers passage fun _ => true where
  text item more _ start hstart := by
    have hmatch := matchAt?_decoratorRegex item.proper_decorator hstart
    rw [item.route?_decorator] at hmatch
    exact hmatch
  front item more _ := item.idle_blockLines _
  back _ more _ := by
    have hat : '@' ∉ ")\ndef f(): ...\n".toList := by decide
    exact Regex.idle_of_mark rfl hat _
  other item more h := absurd h Bool.noConfusion
  atEnd start h := Regex.matchAt?_mark_eq_none rfl fun rest hrest => by rw [h] at hrest; cases hrest

theorem before_place {items : List Documented} {place : Place Documented} (h : place ∈ places passage [] items) :
    Docs.before place.before.reverse = place.item.docs := by
  obtain ⟨earlier, later, -, hbefore⟩ := exists_of_mem_places h
  rw [hbefore, List.nil_append]
  show Docs.before (file passage earlier ++ place.item.blockLines).reverse = _
  rw [Docs.before, blockLines, docs]
  cases hblock : place.item.block with
  | some block =>
    have hquote : '"' ∉ block := fun hmem => absurd (place.item.block_bare block hblock _ hmem) (by decide)
    rw [Option.elim_some, Option.elim_some, Docs.blockBefore?_bare hquote, Option.elim_some]
  | none =>
    rw [Option.elim_none, Option.elim_none, List.append_nil]
    -- What stands before the decorator is nothing, or the function before it.
    rcases List.eq_nil_or_concat earlier with rfl | ⟨front, last, rfl⟩
    · rfl
    · have hlast : file passage (front ++ [last]) =
          file passage front ++ last.passage.front ++ last.passage.text ++ ")\ndef f(): ...\n".toList := by
        simp [file, Passage.whole, passage]
      rw [List.concat_eq_append, hlast, Docs.blockBefore?_code]
      rfl

theorem bare_block {text : List Char} (h : (text.all fun c => !Verb.isQuote c) = true) :
    ∀ block ∈ some text, ∀ c ∈ block, Verb.isQuote c = false := by
  rintro block ⟨⟩ c hc
  simpa using List.all_eq_true.1 h c hc

end Documented

/-- **Each decorated function comes back with what its own block tells and nothing else**, in the order in which they
stand in the source. -/
theorem endpoints_documented (items : List Documented) :
    endpoints (items.flatMap Documented.lines) "py" .python = items.map Documented.endpoint := by
  have hrows : ∀ row ∈ [(decoratorRule, fun _ : Documented => true)], row.1.Recovers Documented.passage row.2 :=
    List.forall_mem_singleton.2 Documented.recovers
  have hroutes := map_routes_file hrows "py" (by decide) (List.pairwise_singleton _ _) items endpointOf
    Documented.endpoint fun place hplace => by
      rw [endpointOf, Place.route, Passage.route, Cursor.passed_behind, Documented.before_place hplace]
      rfl
  rw [endpoints, python_table, ← Documented.file_passage]
  simpa [decoratorRule] using hroutes

/-- A function without a block between two with one, whose block has what looks like a decorator. -/
theorem endpoints_documented_of_three : ∃ items : List Documented,
    items.flatMap Documented.lines =
      ("\"\"\"List users.\"\"\"\n@app.get(\"/users\")\ndef f(): ...\n" ++ "@app.route(\"/\")\ndef f(): ...\n" ++
        "\"\"\"Like @app.get(x).\n\n@Admin\"\"\"\n@app.post(\"/users\")\ndef f(): ...\n").toList ∧
    (endpoints (items.flatMap Documented.lines) "py" .python).map
        (fun endpoint => (endpoint.method, endpoint.path, endpoint.summary, endpoint.tags)) =
      [("GET", "/users", some "List users.", []), ("GET", "/", none, []),
        ("POST", "/users", some "Like @app.get(x).", ["app", "Admin"])] := by
  let reading : Documented := ⟨some "List users.".toList, "app".toList, "get", "/users".toList,
    Documented.bare_block (by decide), isOwner_app, by decide, by decide, List.forall_iff_forall_mem.1 (by decide)⟩
  let index : Documented := ⟨none, "app".toList, "route", "/".toList, fun _ he => (by cases he), isOwner_app,
    by decide, by decide, List.forall_iff_forall_mem.1 (by decide)⟩
  let creation : Documented := ⟨some "Like @app.get(x).\n\n@Admin".toList, "app".toList, "post", "/users".toList,
    Documented.bare_block (by decide), isOwner_app, by decide, by decide, List.forall_iff_forall_mem.1 (by decide)⟩
  refine ⟨[reading, index, creation], by decide +kernel, ?_⟩
  rw [endpoints_documented]
  decide +kernel

end Annotated

end ApiCatalog
