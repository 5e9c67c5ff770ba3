import ApiCatalog.Extract.Controller
import ApiCatalog.Proofs.Extract.Decorators
/-!
# Conventions that overlap

Routing files and annotated sources are read by tables of their own.  Where the rows that only one of two tables has do
not occur, both find the same routes (`endpoints_agree`).
-/

namespace ApiCatalog

open Pattern Annotated

/-! ## Rows that do not occur -/

namespace RouteTable

theorem routes_congr {table table' : RouteTable} {content : List Char} {extension : String}
    (h : table.candidates content extension = table'.candidates content extension) :
    table.routes content extension = table'.routes content extension := by
  rw [routes, routes, h]

theorem candidates_ofRows_append (rows more : List RouteRow) (content : List Char) (extension : String) :
    (ofRows (rows ++ more)).candidates content extension =
      (ofRows rows).candidates content extension ++ (ofRows more).candidates content extension := by
  rw [ofRows, List.filterMap_append, candidates_append]
  rfl

theorem candidates_ofRows_eq_nil {rows : List RouteRow} {content : List Char} {extension : String}
    (h : ∀ row ∈ rows, ∀ rule ∈ row.rule?, rule.regex.occursIn content = false) :
    (ofRows rows).candidates content extension = [] := by
  refine candidates_eq_nil fun rule hrule => ?_
  obtain ⟨row, hrow, hrule⟩ := List.mem_filterMap.1 hrule
  exact h row hrow rule hrule

end RouteTable

/-! ## Decorators -/

/-- The front of the rules for decorators with the verb `route`. -/
def routeCall : Regex := sequence (letter '@' :: word :: letter '.' :: (literal "route" ++ [letter '(']))

theorem routeCall_of_flask : ∀ row ∈ Framework.flaskRows.take 2, ∀ rule ∈ row.rule?,
    routeCall.parts <+: rule.regex.parts := by decide +kernel

theorem flask_verbs : RouteTable.ofRows (Framework.flaskRows.drop 2) =
    [⟨decoratorWith word verbs 1 2, ["py"], .verbThenPath⟩] := by
  have hregex : Regex.ofPattern? RouteRow.options
      "@\\w+\\.(get|post|put|delete|patch)\\(\\s*['\"]([^'\"]+)['\"]" = some (decoratorWith word verbs 1 2) := by
    decide +kernel
  simp [RouteTable.ofRows, Framework.flaskRows, RouteRow.rule?, hregex, Framework.python]

theorem occurs_route {written : List Char} (h : spells "route".toList written = true) (before after : List Char) :
    Text.occurs ".route(".toList (Text.asciiLower (before ++ '.' :: (written ++ '(' :: after))) = true := by
  have hwritten : Text.asciiLower written = "route".toList :=
    asciiLower_of_spells (mem_alphabet "route" (by decide)) (by decide) (by decide) h
  have hlower : Text.asciiLower (before ++ '.' :: (written ++ '(' :: after)) =
      Text.asciiLower before ++ (".route(".toList ++ Text.asciiLower after) := by
    simp only [Text.asciiLower, List.map_append, List.map_cons] at hwritten ⊢
    rw [hwritten]
    rfl
  rw [hlower]
  exact Text.occurs_append _ _ _

theorem occursIn_eq_false_of_routeCall {content : List Char}
    (h : Text.occurs ".route(".toList (Text.asciiLower content) = false) {regex : Regex}
    (hparts : routeCall.parts <+: regex.parts) : regex.occursIn content = false := by
  refine Bool.eq_false_iff.2 fun hoccurs => ?_
  obtain ⟨before, rest, rfl, q, hreads⟩ := Regex.occursIn_iff.1 hoccurs
  obtain ⟨m, hfront⟩ := Regex.reads_of_parts_prefix hparts hreads
  obtain ⟨_, here, rfl, hrest, hfront⟩ := (reads_cons (takes_mark rfl)).1 hfront
  obtain ⟨owner, here, -, rfl, hfront⟩ := (reads_cons takes_word).1 hfront
  obtain ⟨_, here, rfl, rfl, hfront⟩ := (reads_cons (takes_mark rfl)).1 hfront
  obtain ⟨written, here, hwritten, rfl, hfront⟩ := (reads_append (takes_literal _)).1 hfront
  obtain ⟨_, here, rfl, rfl, -⟩ := (reads_cons (takes_mark rfl)).1 hfront
  have hcall := occurs_route hwritten (before ++ '@' :: owner) here
  rw [Cursor.rest_behind] at hrest
  rw [hrest] at h
  simp only [List.append_assoc, List.cons_append, List.nil_append] at h hcall
  rw [h] at hcall
  cases hcall

/-- **Without a call of `route`, the rule for decorators with a verb and the one for decorators of any object match
alike and take the same route from a match.** -/
theorem matchAt?_decorators {content : List Char}
    (h : Text.occurs ".route(".toList (Text.asciiLower content) = false) {place : Cursor} (hplace : place.In content) :
    ((decoratorWith word verbs 1 2).matchAt? place).map
        (fun found => (found.whole, Layout.verbThenPath.resolve? found)) =
      (decoratorRegex.matchAt? place).map fun found => (found.whole, Layout.ownerVerbPath.resolve? found) := by
  have hverbs : ∀ verb ∈ verbs, verb ∈ "route" :: verbs := fun verb hverb => List.mem_cons_of_mem _ hverb
  by_cases hdecorator : ∃ d : Decorator, d.Proper ∧ (∃ verb ∈ verbs, spells verb.toList d.verb = true) ∧
      ∃ rest, place.rest = d.text ++ rest
  · obtain ⟨d, hd, ⟨verb, hverb, hspells⟩, rest, hrest⟩ := hdecorator
    obtain ⟨found, hfound, hwhole, hroute⟩ : ∃ found, (decoratorWith word verbs 1 2).matchAt? place = some found ∧
        found.whole = ⟨place, place.past d.text rest⟩ ∧ Layout.verbThenPath.resolve? found = d.route? :=
      matchAt?_decorator takes_word.covers hverbs (by decide) (by decide) (by decide) hd hverb hspells hrest
    obtain ⟨found', hfound', hwhole', hroute'⟩ : ∃ found, decoratorRegex.matchAt? place = some found ∧
        found.whole = ⟨place, place.past d.text rest⟩ ∧ Layout.ownerVerbPath.resolve? found = d.route? :=
      matchAt?_decorator covers_owner (fun _ h => h) (by decide) (by decide) (by decide) hd (hverbs verb hverb) hspells
        hrest
    rw [hfound, hfound', Option.map_some, Option.map_some, hwhole, hwhole', hroute, hroute']
  · have hverb : (decoratorWith word verbs 1 2).matchAt? place = none := by
      refine Option.eq_none_iff_forall_ne_some.2 fun found hfound => hdecorator ?_
      obtain ⟨q, hq, -⟩ := Regex.exists_of_matchAt? hfound
      obtain ⟨d, hd, hname, rest, hrest, -⟩ :=
        exists_decorator_of_reads takes_word.covers (List.cons_ne_nil _ _) hverbs hq
      exact ⟨d, hd, hname, rest, hrest⟩
    have hany : decoratorRegex.matchAt? place = none := by
      refine Option.eq_none_iff_forall_ne_some.2 fun found hfound => hdecorator ?_
      obtain ⟨q, hq, -⟩ := Regex.exists_of_matchAt? hfound
      obtain ⟨d, hd, ⟨name, hname, hspells⟩, rest, hrest, -⟩ :=
        exists_decorator_of_reads covers_owner (List.cons_ne_nil _ _) (fun _ h => h) hq
      rcases List.mem_cons.1 hname with rfl | hname
      · -- The verb `route` would be a call of it.
        obtain ⟨before, here, rfl, rfl⟩ := hplace
        obtain rfl : here = d.text ++ rest := hrest
        have hcall := occurs_route hspells (before ++ '@' :: d.owner)
          (d.blanks ++ d.opening :: (d.path ++ d.closing :: rest))
        simp only [Decorator.text, List.append_assoc, List.cons_append, List.nil_append] at h hcall
        rw [h] at hcall
        cases hcall
      · exact ⟨d, hd, ⟨name, hname, hspells⟩, rest, hrest⟩
    rw [hverb, hany]
    rfl

theorem routes_flask {content : List Char} (h : Text.occurs ".route(".toList (Text.asciiLower content) = false)
    (extension : String) : Framework.flask.table.routes content extension =
      Language.python.table.routes content extension := by
  refine RouteTable.routes_congr ?_
  have hsilent : ∀ row ∈ Framework.flaskRows.take 2, ∀ rule ∈ row.rule?, rule.regex.occursIn content = false :=
    fun row hrow rule hrule => occursIn_eq_false_of_routeCall h (routeCall_of_flask row hrow rule hrule)
  rw [Framework.table, Framework.rows, ← List.take_append_drop 2 Framework.flaskRows,
    RouteTable.candidates_ofRows_append, RouteTable.candidates_ofRows_eq_nil hsilent, flask_verbs, python_table,
    List.nil_append]
  exact RouteTable.candidates_congr rfl fun place hplace => matchAt?_decorators h hplace

/-! ## Mapping annotations -/

/-- The rows that only one of the two tables has, or that differ. -/
theorem routes_spring {content : List Char}
    (h : ∀ row ∈ Framework.springRows.drop 1 ++ Language.javaRows.drop 1, ∀ rule ∈ row.rule?,
      rule.regex.occursIn content = false) (extension : String) :
    Framework.spring.table.routes content extension = Language.java.table.routes content extension := by
  rw [List.forall_mem_append] at h
  have hshared : Framework.springRows.take 1 = Language.javaRows.take 1 := rfl
  refine RouteTable.routes_congr ?_
  rw [Framework.table, Framework.rows, ← List.take_append_drop 1 Framework.springRows, Language.table, Language.rows,
    ← List.take_append_drop 1 Language.javaRows, RouteTable.candidates_ofRows_append,
    RouteTable.candidates_ofRows_append, RouteTable.candidates_ofRows_eq_nil h.1,
    RouteTable.candidates_ofRows_eq_nil h.2, hshared]

/-! ## Extractors -/

def Endpoint.route (endpoint : Endpoint) : String × String := (endpoint.method, endpoint.path)

theorem Controller.map_route_endpoints (content : List Char) (extension : String) (framework : Framework) :
    (endpoints content extension framework).map Endpoint.route = (framework.table.routes content extension).map
      fun route => (String.ofList route.method, String.ofList route.path) := by
  rw [endpoints, List.map_map]
  refine List.map_congr_left fun route _ => ?_
  rw [Function.comp, endpointOf]
  split <;> rfl

theorem Annotated.map_route_endpoints (content : List Char) (extension : String) (language : Language) :
    (endpoints content extension language).map Endpoint.route = (language.table.routes content extension).map
      fun route => (String.ofList route.method, String.ofList route.path) := by
  rw [endpoints, List.map_map]
  rfl

/-- **Both extractors find the same routes where their conventions overlap**: in a text without a call of `route`, in
whatever letter case, what Flask and what Python declare, and in a text in which no row for request mappings or paths
occurs, what Spring and what Java declare. -/
theorem endpoints_agree (content : List Char) :
    (Text.occurs ".route(".toList (Text.asciiLower content) = false →
      (Controller.endpoints content "py" .flask).map Endpoint.route =
        (Annotated.endpoints content "py" .python).map Endpoint.route) ∧
    ((∀ row ∈ Framework.spring.rows ++ Language.java.rows,
        "@RequestMapping".toList <+: row.pattern.toList ∨ "@Path".toList <+: row.pattern.toList →
          ∀ rule ∈ row.rule?, rule.regex.occursIn content = false) →
      ∀ extension ∈ ["java", "kt"], (Controller.endpoints content extension .spring).map Endpoint.route =
        (Annotated.endpoints content extension .java).map Endpoint.route) := by
  refine ⟨fun h => ?_, fun h extension _ => ?_⟩
  · rw [Controller.map_route_endpoints, Annotated.map_route_endpoints, routes_flask h]
  · have hrows : Framework.springRows.drop 1 ++ Language.javaRows.drop 1 ⊆
        Framework.spring.rows ++ Language.java.rows :=
      ((List.drop_sublist 1 _).append (List.drop_sublist 1 _)).subset
    have hpatterns : ∀ row ∈ Framework.springRows.drop 1 ++ Language.javaRows.drop 1,
        "@RequestMapping".toList <+: row.pattern.toList ∨ "@Path".toList <+: row.pattern.toList := by
      decide +kernel
    rw [Controller.map_route_endpoints, Annotated.map_route_endpoints,
      routes_spring fun row hrow => h row (hrows hrow) (hpatterns row hrow)]

def overlapping : List Char := "@app.get('/a')@PutMapping('/b')".toList

theorem endpoints_agree_overlapping :
    (Controller.endpoints overlapping "py" .flask).map Endpoint.route =
      (Annotated.endpoints overlapping "py" .python).map Endpoint.route ∧
    Annotated.endpoints overlapping "py" .python ≠ [] ∧
    ∀ extension ∈ ["java", "kt"], (Controller.endpoints overlapping extension .spring).map Endpoint.route =
      (Annotated.endpoints overlapping extension .java).map Endpoint.route := by
  obtain ⟨hdecorators, hmappings⟩ := endpoints_agree overlapping
  have hproper : Decorator.Proper ⟨"app".toList, "get".toList, [], '\'', "/a".toList, '\''⟩ :=
    .of_isProper (by decide +kernel)
  exact ⟨hdecorators (by decide +kernel), endpoints_decorator hproper (by decide +kernel) ")@PutMapping('/b')".toList,
    hmappings (by decide +kernel)⟩

end ApiCatalog
