import ApiCatalog.Proofs.Extract.Appended
import ApiCatalog.Proofs.Extract.Express
import ApiCatalog.Proofs.Extract.Overlap
import ApiCatalog.Proofs.Regex.Groups
/-!
# Methods

The tables in which each verb is spelled out give their routes methods of HTTP, but for one: patterns that disregard
case take the long s for an s, and raising the letters of ASCII leaves it as it is, so that a `post` written with it
becomes a method of its own (`methods_of_endpoints`).
-/

namespace ApiCatalog

open Pattern Annotated

def httpMethods : List String := ["GET", "POST", "PUT", "DELETE", "PATCH"]

/-! ## Verbs -/

/-- All letters but the long s, and the sign of the unit kelvin, are raised to the capital of the letter that they
write. -/
theorem toUpper_of_mem_spellings : ∀ c ∈ spellings, plain c ≠ 'k' → c ≠ 'ſ' → c.toUpper = (plain c).toUpper := by
  have hall : (spellings.all fun c => plain c == 'k' || c == 'ſ' || c.toUpper == (plain c).toUpper) = true := by
    rfl
  intro c hc hk hlong
  simpa [hk, hlong] using List.all_eq_true.1 hall c hc

/-- A verb is spelled letter by letter, and but for the long s its letters are raised to their capitals. -/
theorem plain_of_spells {name : String} {text : List Char} (hname : name ∈ verbs)
    (h : spells name.toList text = true) :
    text.map plain = name.toList ∧ ∀ c ∈ text, c ≠ 'ſ' → c.toUpper = (plain c).toUpper := by
  have hnames : ∀ verb ∈ verbs, verb ∈ names ∧ 'k' ∉ verb.toList := by decide
  obtain ⟨hmem, hkelvin⟩ := hnames name hname
  obtain ⟨hwritten, hplain⟩ := mem_spellings_of_spells (mem_alphabet name hmem) h
  refine ⟨hplain, fun c hc => toUpper_of_mem_spellings c (hwritten c hc) ?_⟩
  intro hk
  have hletter : plain c ∈ name.toList := hplain ▸ List.mem_map_of_mem hc
  exact hkelvin (hk ▸ hletter)

/-- A verb that is written without the long s is raised to its capitals. -/
theorem asciiUpper_of_spells {name : String} {text : List Char} (hname : name ∈ verbs)
    (h : spells name.toList text = true) (hlong : 'ſ' ∉ text) : Text.asciiUpper text = Text.asciiUpper name.toList := by
  obtain ⟨hplain, hupper⟩ := plain_of_spells hname h
  rw [Text.asciiUpper, Text.asciiUpper, ← hplain, List.map_map]
  refine List.map_congr_left fun c hc => hupper c hc ?_
  rintro rfl
  exact hlong hc

/-- The one verb that can be written with the long s is `post`. -/
theorem asciiUpper_of_spells_long {name : String} {text : List Char} (hname : name ∈ verbs)
    (h : spells name.toList text = true) (hlong : 'ſ' ∈ text) : Text.asciiUpper text = "POſT".toList := by
  have hnames : ∀ verb ∈ verbs, 's' ∈ verb.toList → verb = "post" := by decide
  obtain ⟨hplain, hupper⟩ := plain_of_spells hname h
  have hs : plain 'ſ' ∈ name.toList := hplain ▸ List.mem_map_of_mem hlong
  obtain rfl : name = "post" := hnames name hname hs
  have hletters : text.map plain = ['p', 'o', 's', 't'] := hplain
  simp only [List.map_eq_cons_iff, List.map_eq_nil_iff] at hletters
  obtain ⟨p, _, rfl, hp, o, _, rfl, ho, s, _, rfl, -, t, _, rfl, ht, rfl⟩ := hletters
  -- Only the third letter can be the long s.
  have hne : ∀ {c d : Char}, plain c = d → d ≠ 's' → c ≠ 'ſ' := by
    rintro c d rfl hd rfl
    exact hd rfl
  have hp_ne : p ≠ 'ſ' := hne hp (by decide)
  have ho_ne : o ≠ 'ſ' := hne ho (by decide)
  have ht_ne : t ≠ 'ſ' := hne ht (by decide)
  obtain rfl : 'ſ' = s := by
    simpa [hp_ne.symm, ho_ne.symm, ht_ne.symm] using hlong
  simp only [List.forall_mem_cons, hp, ho, ht] at hupper
  obtain ⟨hp_upper, ho_upper, -, ht_upper, -⟩ := hupper
  simp only [Text.asciiUpper, List.map_cons, List.map_nil, hp_upper hp_ne, ho_upper ho_ne, ht_upper ht_ne]
  rfl

/-- **What a verb stands for is a method of HTTP exactly if it is written without the long s.** -/
theorem method_of_spells {name : String} {text method : List Char} (hname : name ∈ "route" :: verbs)
    (h : spells name.toList text = true) (hmethod : Verb.normalize? text = some method) :
    (String.ofList method ∈ httpMethods ↔ 'ſ' ∉ text) ∧
      (String.ofList method ∉ httpMethods → String.ofList method = "POſT") := by
  have hget : String.ofList "GET".toList ∈ httpMethods := by decide
  have hother : String.ofList "POſT".toList ∉ httpMethods := by decide
  have hverb : Text.asciiLower text ≠ "route".toList → name ∈ verbs := by
    refine fun hne => (List.mem_cons.1 hname).resolve_left ?_
    rintro rfl
    exact hne (asciiLower_of_spells (mem_alphabet "route" (by decide)) (by decide) (by decide) h)
  rw [normalize?_of_spells hname h, Option.some.injEq] at hmethod
  by_cases hlong : 'ſ' ∈ text
  · -- No letter of `route` can be written with the long s.
    have hroute : Text.asciiLower text ≠ "route".toList := by
      intro hlower
      have hmem : Char.toLower 'ſ' ∈ Text.asciiLower text := List.mem_map_of_mem hlong
      rw [hlower] at hmem
      exact absurd hmem (by decide)
    rw [← hmethod, if_neg hroute, asciiUpper_of_spells_long (hverb hroute) h hlong]
    exact ⟨iff_of_false hother fun hnot => hnot hlong, fun _ => rfl⟩
  · have hmem : String.ofList method ∈ httpMethods := by
      rw [← hmethod]
      split
      · exact hget
      · rename_i hroute
        have hmethods : ∀ verb ∈ verbs, String.ofList (Text.asciiUpper verb.toList) ∈ httpMethods := by decide
        rw [asciiUpper_of_spells (hverb hroute) h hlong]
        exact hmethods name (hverb hroute)
    exact ⟨iff_of_true hmem hlong, fun hnot => absurd hmem hnot⟩

/-! ## Rules -/

/-- The verb of a match as it is written, if the rule has a group for it. -/
def RouteRule.written? (rule : RouteRule) (found : Found) : Option (List Char) :=
  match rule.layout.verb with
  | .group number | .firstListed number => found.group? number
  | .implicit => none

/-- Whether the verbs of a rule are spelled out, if it has any. -/
def RouteRule.isNamed (rule : RouteRule) : Bool :=
  match rule.layout.verb with
  | .group number => number != 0 && rule.regex.numbered.all fun (n, body) =>
      n != number || body == anyName verbs || body == anyName ("route" :: verbs)
  | .firstListed _ => false
  | .implicit => true

theorem isNamed_tables :
    (∀ framework ∈ [Framework.express, .fastApi, .rails], ∀ rule ∈ framework.table, rule.isNamed = true) ∧
    ∀ language ∈ [Language.python, .typeScript], ∀ rule ∈ language.table, rule.isNamed = true := by
  have hexpress : ∀ rule ∈ Framework.express.table, rule.isNamed = true := by
    rw [Express.express_table, List.forall_mem_cons, List.forall_mem_singleton]
    exact ⟨rfl, rfl⟩
  have hpython : ∀ rule ∈ Language.python.table, rule.isNamed = true := by
    rw [python_table, List.forall_mem_singleton]
    rfl
  have hothers : (∀ framework ∈ [Framework.fastApi, .rails], ∀ rule ∈ framework.table, rule.isNamed = true) ∧
      ∀ rule ∈ Language.typeScript.table, rule.isNamed = true := by
    decide +kernel
  exact ⟨List.forall_mem_cons.2 ⟨hexpress, hothers.1⟩,
    List.forall_mem_cons.2 ⟨hpython, List.forall_mem_singleton.2 hothers.2⟩⟩

/-- The method of a match of a rule with its verbs spelled out. -/
theorem method_of_match {rule : RouteRule} (hnamed : rule.isNamed = true) {content : List Char} {found : Found}
    (hfound : rule.regex.MatchIn content found) {method path : List Char}
    (hresolve : rule.layout.resolve? found = some (method, path)) :
    (String.ofList method ∈ httpMethods ↔ ∀ verb ∈ rule.written? found, 'ſ' ∉ verb) ∧
      (String.ofList method ∉ httpMethods → String.ofList method = "POſT") ∧
      ∀ verb ∈ rule.written? found, verb <:+: found.whole.text := by
  obtain ⟨regex, extensions, ⟨verb, group⟩⟩ := rule
  cases verb with
  | firstListed number => cases hnamed
  | implicit =>
    obtain rfl := Layout.method_of_resolve?_implicit hresolve
    have hget : String.ofList "GET".toList ∈ httpMethods := by decide
    have hnone : RouteRule.written? ⟨regex, extensions, ⟨.implicit, group⟩⟩ found = none := rfl
    rw [hnone]
    exact ⟨iff_of_true hget (by simp), fun hnot => absurd hget hnot, by simp⟩
  | group number =>
    obtain ⟨verb, hverb, hmethod⟩ := Layout.exists_verb_of_resolve? hresolve
    have hwritten : RouteRule.written? ⟨regex, extensions, ⟨.group number, group⟩⟩ found = some verb := hverb
    simp only [RouteRule.isNamed, Bool.and_eq_true, bne_iff_ne, List.all_eq_true, Bool.or_eq_true, beq_iff_eq] at hnamed
    obtain ⟨hnumber, hbodies⟩ := hnamed
    have htakes : ∀ body, (number, body) ∈ regex.numbered → ∃ Q, body.Takes Q ∧
        ∀ text, Q text → ∃ name ∈ "route" :: verbs, spells name.toList text = true := by
      intro body hbody
      rcases hbodies _ hbody with (hne | rfl) | rfl
      · exact absurd rfl hne
      · exact ⟨_, takes_anyName (List.cons_ne_nil _ _), fun text ⟨name, hname, hspells⟩ =>
          ⟨name, List.mem_cons_of_mem _ hname, hspells⟩⟩
      · exact ⟨_, takes_anyName (List.cons_ne_nil _ _), fun _ h => h⟩
    obtain ⟨⟨name, hname, hspells⟩, hpiece⟩ := hfound.group?_of_takes hnumber htakes hverb
    obtain ⟨hiff, hlong⟩ := method_of_spells hname hspells hmethod
    rw [hwritten]
    simp only [Option.mem_some_iff, forall_eq']
    exact ⟨hiff, hlong, hpiece⟩

/-! ## Endpoints -/

/-- A match of the table declares the endpoint, whose method is one of HTTP exactly if the verb, where there is one, is
written without the long s, and is a `post` written with it otherwise. -/
def Endpoint.Declared (table : RouteTable) (content : List Char) (endpoint : Endpoint) : Prop :=
  ∃ rule ∈ table, ∃ found ∈ rule.regex.findAll content,
    rule.layout.resolve? found = some (endpoint.method.toList, endpoint.path.toList) ∧
    (endpoint.method ∈ httpMethods ↔ ∀ verb ∈ rule.written? found, 'ſ' ∉ verb) ∧
    (endpoint.method ∉ httpMethods → endpoint.method = "POſT")

section
variable {table : RouteTable} {content : List Char} {extension : String} {endpoints : List Endpoint}

theorem declared_of_mem_endpoints (hnamed : ∀ rule ∈ table, rule.isNamed = true)
    (hroutes : endpoints.map Endpoint.route = (table.routes content extension).map
      fun route => (String.ofList route.method, String.ofList route.path)) :
    ∀ endpoint ∈ endpoints, endpoint.Declared table content ∧ ('ſ' ∉ content → endpoint.method ∈ httpMethods) := by
  intro endpoint hendpoint
  have hmem : endpoint.route ∈ endpoints.map Endpoint.route := List.mem_map_of_mem hendpoint
  rw [hroutes] at hmem
  obtain ⟨route, hroute, heq⟩ := List.mem_map.1 hmem
  obtain ⟨hmethod, hpath⟩ := Prod.mk.inj heq
  have hcandidate := RouteTable.mem_candidates_of_mem_routes hroute
  obtain ⟨before, after, hcontent, -⟩ := RouteTable.slice_of_mem_candidates hcandidate
  obtain ⟨rule, hrule, -, found, hfound, hresolve, -, htext⟩ := RouteTable.mem_candidates.1 hcandidate
  obtain ⟨hiff, hlong, hpiece⟩ := method_of_match (hnamed rule hrule) (Regex.matchIn_of_mem_findAll hfound) hresolve
  rw [hmethod] at hiff hlong
  have hplain : 'ſ' ∉ content → endpoint.method ∈ httpMethods := by
    -- The verb is a piece of the declaration, and that one of the content.
    refine fun hnone => hiff.2 fun verb hverb hs => hnone ?_
    have hdeclaration : 'ſ' ∈ route.text := htext ▸ (hpiece verb hverb).subset hs
    rw [hcontent]
    exact List.mem_append_left _ (List.mem_append_right _ hdeclaration)
  refine ⟨⟨rule, hrule, found, hfound, ?_, hiff, hlong⟩, hplain⟩
  rw [hresolve, ← hmethod, ← hpath, String.toList_ofList, String.toList_ofList]

end

/-- **Where the verbs are spelled out, each endpoint has a method of HTTP, unless the verb of its declaration is written
with the long s**: then it is a `post`, and the method keeps the long s.  A text without that letter has none but
methods of HTTP. -/
theorem methods_of_endpoints (content : List Char) (extension : String) :
    (∀ framework ∈ [Framework.express, .fastApi, .rails],
      ∀ endpoint ∈ Controller.endpoints content extension framework,
        endpoint.Declared framework.table content ∧ ('ſ' ∉ content → endpoint.method ∈ httpMethods)) ∧
    ∀ language ∈ [Language.python, .typeScript], ∀ endpoint ∈ Annotated.endpoints content extension language,
      endpoint.Declared language.table content ∧ ('ſ' ∉ content → endpoint.method ∈ httpMethods) :=
  ⟨fun framework hframework => declared_of_mem_endpoints (isNamed_tables.1 framework hframework)
      (Controller.map_route_endpoints content extension framework),
    fun language hlanguage => declared_of_mem_endpoints (isNamed_tables.2 language hlanguage)
      (Annotated.map_route_endpoints content extension language)⟩

/-- A call and a decorator with their verbs in small letters have methods of HTTP. -/
theorem methods_of_endpoints_post :
    let call := "app.post('/orders', create);".toList
    let decorator := "@app.post('/orders')".toList
    (∃ endpoint ∈ Controller.endpoints call "js" .express,
      endpoint.Declared Framework.express.table call ∧ endpoint.method ∈ httpMethods) ∧
    ∃ endpoint ∈ Annotated.endpoints decorator "py" .python,
      endpoint.Declared Language.python.table decorator ∧ endpoint.method ∈ httpMethods := by
  have hcall : (Controller.endpoints "app.post('/orders', create);".toList "js" .express).map Endpoint.route =
      [("POST", "/orders")] := by
    rw [Controller.map_route_endpoints, Express.express_table, RouteTable.routes_eq]
    rfl
  have hdecorator : (Annotated.endpoints "@app.post('/orders')".toList "py" .python).map Endpoint.route =
      [("POST", "/orders")] := by
    rw [endpoints_python]
    rfl
  intro call decorator
  obtain ⟨endpoint, hendpoint, -⟩ := List.mem_map.1 (hcall ▸ List.mem_singleton_self ("POST", "/orders"))
  obtain ⟨endpoint', hendpoint', -⟩ := List.mem_map.1 (hdecorator ▸ List.mem_singleton_self ("POST", "/orders"))
  obtain ⟨hframework, -⟩ := methods_of_endpoints call "js"
  obtain ⟨-, hlanguage⟩ := methods_of_endpoints decorator "py"
  obtain ⟨hdeclared, hmethod⟩ := hframework .express (by decide) endpoint hendpoint
  obtain ⟨hdeclared', hmethod'⟩ := hlanguage .python (by decide) endpoint' hendpoint'
  exact ⟨⟨endpoint, hendpoint, hdeclared, hmethod (by decide)⟩,
    ⟨endpoint', hendpoint', hdeclared', hmethod' (by decide)⟩⟩

/-- A verb that is written with the long s has no method of HTTP. -/
theorem not_methods_of_endpoints : ∃ endpoint ∈ Annotated.endpoints "@app.poſt(\"/orders\")".toList "py" .python,
    endpoint.method ∉ httpMethods := by
  have hroutes : (Annotated.endpoints "@app.poſt(\"/orders\")".toList "py" .python).map Endpoint.route =
      [("POſT", "/orders")] := by
    rw [endpoints_python]
    rfl
  obtain ⟨endpoint, hendpoint, hroute⟩ := List.mem_map.1 (hroutes ▸ List.mem_singleton_self ("POſT", "/orders"))
  obtain ⟨hmethod, -⟩ := Prod.mk.inj hroute
  exact ⟨endpoint, hendpoint, by rw [hmethod]; decide⟩

end ApiCatalog
