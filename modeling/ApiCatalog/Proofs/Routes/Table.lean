import ApiCatalog.Proofs.List.First
import ApiCatalog.Proofs.Regex.Leftmost
import ApiCatalog.Proofs.Text.Cut
import ApiCatalog.Routes.Table
import Std.Data.HashSet.Lemmas
/-!
# What a table finds

Each route of a table is a match of one of its rules (`exists_of_mem_routes`), and a rule with a match that resolves
leaves no table empty (`routes_ne_nil`).  Of the matches that start at one place the first one counts (`routes_eq`).
-/

namespace ApiCatalog

theorem Verb.normalize?_bare {verb : List Char} (hne : verb ≠ [])
    (h : ∀ c ∈ verb, Text.isBlank c = false ∧ isQuote c = false) : normalize? verb =
      some (if Text.asciiLower verb = "route".toList then "GET".toList else Text.asciiUpper verb) := by
  have htrim : Text.trimBy isQuote (Text.trim verb) = verb := by
    rw [Text.trim, Text.trimBy_eq_self fun c hc => (h c hc).1, Text.trimBy_eq_self fun c hc => (h c hc).2]
  rw [normalize?, htrim, if_neg (by simpa using hne)]
  split <;> rfl

section
variable {found : Found} {group : Nat} {method path : List Char}

/-- The method of a match is what the verb in its group stands for. -/
theorem Layout.exists_verb_of_resolve? {verb : Nat}
    (h : Layout.resolve? ⟨.group verb, group⟩ found = some (method, path)) :
    ∃ text, found.group? verb = some text ∧ Verb.normalize? text = some method := by
  rw [resolve?] at h
  simp only [bind, Option.bind_eq_some_iff, pure] at h
  obtain ⟨_, -, h⟩ := h
  split at h
  · cases h
  · obtain ⟨text, htext, h⟩ := Option.bind_eq_some_iff.1 h
    obtain ⟨method', hmethod, h⟩ := Option.bind_eq_some_iff.1 h
    cases h
    exact ⟨text, htext, hmethod⟩

/-- Without a group for a verb, the method of a match is GET. -/
theorem Layout.method_of_resolve?_implicit (h : Layout.resolve? ⟨.implicit, group⟩ found = some (method, path)) :
    method = "GET".toList := by
  rw [resolve?] at h
  simp only [bind, Option.bind_eq_some_iff, pure] at h
  obtain ⟨_, -, h⟩ := h
  split at h
  · cases h
  · cases h
    rfl

end

def Route.sameStart (later earlier : Route) : Bool := later.start.offset == earlier.start.offset

namespace RouteTable

variable {table : RouteTable} {content : List Char} {extension : String}

/-! ## Candidates -/

theorem mem_candidates {route : Route} : route ∈ table.candidates content extension ↔
    ∃ rule ∈ table, rule.appliesTo extension = true ∧ ∃ found ∈ rule.regex.findAll content,
      rule.layout.resolve? found = some (route.method, route.path) ∧ route.start = found.whole.start ∧
        route.text = found.whole.text := by
  simp only [candidates, RouteRule.routes, List.mem_flatMap, List.mem_filter, List.mem_filterMap,
    Option.map_eq_some_iff, and_assoc]
  refine exists_congr fun rule => and_congr_right fun _ => and_congr_right fun _ => exists_congr fun found =>
    and_congr_right fun _ => ?_
  constructor
  · rintro ⟨⟨method, path⟩, hresolve, rfl⟩
    exact ⟨hresolve, rfl, rfl⟩
  · obtain ⟨method, path, start, text⟩ := route
    rintro ⟨hresolve, rfl, rfl⟩
    exact ⟨(method, path), hresolve, rfl⟩

/-- A candidate is read at a place of the content. -/
theorem slice_of_mem_candidates {route : Route} (h : route ∈ table.candidates content extension) :
    ∃ before after, content = before ++ route.text ++ after ∧
      route.start = .behind before (route.text ++ after) := by
  obtain ⟨rule, -, -, found, hfound, -, hstart, htext⟩ := mem_candidates.1 h
  obtain ⟨before, rest, q, rfl, hq, rfl⟩ := Regex.matchIn_of_mem_findAll hfound
  obtain ⟨text, after, hrest, hstop⟩ := hq.onward
  obtain rfl : rest = text ++ after := hrest
  have hread : route.text = text := by
    rw [htext, Span.text, hstop]
    exact Cursor.upTo_past rfl
  exact ⟨before, after, by rw [hread, List.append_assoc], by rw [hstart, hread]⟩

theorem in_of_mem_candidates {route : Route} (h : route ∈ table.candidates content extension) :
    route.start.In content := by
  obtain ⟨before, after, hcontent, hstart⟩ := slice_of_mem_candidates h
  exact ⟨before, route.text ++ after, by rw [hcontent, List.append_assoc], hstart⟩

theorem candidates_append (front back : RouteTable) (content : List Char) (extension : String) :
    RouteTable.candidates (front ++ back) content extension =
      front.candidates content extension ++ back.candidates content extension := by
  rw [candidates, List.filter_append, List.flatMap_append]
  rfl

theorem candidates_eq_nil (h : ∀ rule ∈ table, rule.regex.occursIn content = false) :
    table.candidates content extension = [] := by
  refine List.eq_nil_iff_forall_not_mem.2 fun route hroute => ?_
  obtain ⟨rule, hrule, -, found, hfound, -⟩ := mem_candidates.1 hroute
  rw [Regex.findAll_eq_nil (h rule hrule)] at hfound
  cases hfound

/-- Rules that match alike at each place of the content, and make the same of it, have the same candidates. -/
theorem candidates_congr {rule rule' : RouteRule} (hextensions : rule.extensions = rule'.extensions)
    (h : ∀ place : Cursor, place.In content →
      (rule.regex.matchAt? place).map (fun found => (found.whole, rule.layout.resolve? found)) =
        (rule'.regex.matchAt? place).map fun found => (found.whole, rule'.layout.resolve? found)) :
    RouteTable.candidates [rule] content extension = RouteTable.candidates [rule'] content extension := by
  have hroutes : ∀ rule : RouteRule, rule.routes content =
      ((rule.regex.findAll content).map fun found => (found.whole, rule.layout.resolve? found)).filterMap
        fun view => view.2.map fun resolved => ⟨resolved.1, resolved.2, view.1.start, view.1.text⟩ := by
    intro rule
    rw [RouteRule.routes, List.filterMap_map]
    rfl
  have happlies : rule.appliesTo extension = rule'.appliesTo extension := by
    rw [RouteRule.appliesTo, RouteRule.appliesTo, hextensions]
  rw [candidates, candidates, List.filter_singleton, List.filter_singleton, happlies]
  cases rule'.appliesTo extension with
  | false => rfl
  | true => rw [cond_true, cond_true, List.flatMap_singleton, List.flatMap_singleton, hroutes, hroutes,
      Regex.map_findAll_congr h]

/-! ## The first at each place -/

theorem firstPerStartFrom_eq : ∀ (routes done : List Route) (claimed : Std.HashSet Nat),
    firstPerStartFrom claimed done routes = done.reverse ++
      (routes.filter fun route => !claimed.contains route.start.index).eraseDupsBy
        fun later earlier => later.start.index == earlier.start.index
  | [], done, claimed => by rw [firstPerStartFrom, List.filter_nil, List.eraseDupsBy_nil, List.append_nil]
  | route :: routes, done, claimed => by
    rw [firstPerStartFrom]
    split
    · rename_i hclaimed
      rw [firstPerStartFrom_eq routes, List.filter_cons_of_neg (by simpa using hclaimed)]
    · rename_i hfree
      rw [firstPerStartFrom_eq routes, List.filter_cons_of_pos (by simpa using hfree), List.eraseDupsBy_cons,
        List.filter_filter, List.reverse_cons, List.append_assoc, List.singleton_append]
      congr 3
      -- What starts here is dropped at once or by the claim.
      refine List.filter_congr fun other _ => ?_
      rw [Std.HashSet.contains_insert, Bool.not_or, Bool.beq_comm]
      cases other.start.index == route.start.index <;> rfl

/-- **The routes are the candidates but for those that start where an earlier one does.** -/
theorem routes_eq (table : RouteTable) (content : List Char) (extension : String) :
    table.routes content extension = (table.candidates content extension).eraseDupsBy Route.sameStart := by
  have hall : (table.candidates content extension).filter
      (fun route => !(∅ : Std.HashSet Nat).contains route.start.index) = table.candidates content extension :=
    List.filter_eq_self.2 fun route _ => by simp
  rw [RouteTable.routes, firstPerStartFrom_eq, hall, List.reverse_nil, List.nil_append]
  refine eraseDupsBy_congr fun a ha b hb => ?_
  rw [Route.sameStart, Bool.eq_iff_iff, beq_iff_eq, beq_iff_eq]
  exact ((in_of_mem_candidates ha).offset_eq_iff (in_of_mem_candidates hb)).symm

theorem mem_candidates_of_mem_routes {route : Route} (h : route ∈ table.routes content extension) :
    route ∈ table.candidates content extension := by
  rw [routes_eq] at h
  exact (eraseDupsBy_sublist _ _).subset h

theorem exists_mem_routes {candidate : Route} (h : candidate ∈ table.candidates content extension) :
    ∃ route ∈ table.routes content extension, route.start.offset = candidate.start.offset := by
  rw [routes_eq]
  obtain ⟨route, hroute, hsame⟩ := exists_mem_eraseDupsBy Route.sameStart (fun _ => beq_self_eq_true _) h
  exact ⟨route, hroute, (beq_iff_eq.1 hsame).symm⟩

/-- **Each route is a match of a rule of the table**, with what the match resolves to. -/
theorem exists_of_mem_routes {route : Route} (h : route ∈ table.routes content extension) :
    ∃ rule ∈ table, rule.appliesTo extension = true ∧
      ∃ found, rule.regex.MatchIn content found ∧ rule.layout.resolve? found = some (route.method, route.path) ∧
        route.start = found.whole.start ∧ route.text = found.whole.text := by
  obtain ⟨rule, htable, happlies, found, hfound, hroute⟩ := mem_candidates.1 (mem_candidates_of_mem_routes h)
  exact ⟨rule, htable, happlies, found, Regex.matchIn_of_mem_findAll hfound, hroute⟩

/-- A match that resolves is a route, or stands where there is one. -/
theorem routes_ne_nil {rule : RouteRule} (hrule : rule ∈ table) (happlies : rule.appliesTo extension = true)
    {found : Found} (hfound : found ∈ rule.regex.findAll content) (hresolve : rule.layout.resolve? found ≠ none) :
    table.routes content extension ≠ [] := by
  obtain ⟨⟨method, path⟩, hsome⟩ := Option.ne_none_iff_exists'.1 hresolve
  have hmem : (⟨method, path, found.whole.start, found.whole.text⟩ : Route) ∈ table.candidates content extension :=
    mem_candidates.2 ⟨rule, hrule, happlies, found, hfound, hsome, rfl, rfl⟩
  obtain ⟨route, hroute, -⟩ := exists_mem_routes hmem
  exact List.ne_nil_of_mem hroute

/-- A table of one rule finds what the rule does, since no two matches of a rule start at one place. -/
theorem routes_singleton {rule : RouteRule} (happlies : rule.appliesTo extension = true) :
    RouteTable.routes [rule] content extension = rule.routes content := by
  have hcandidates : RouteTable.candidates [rule] content extension = rule.routes content := by
    rw [candidates, List.filter_singleton, happlies, cond_true, List.flatMap_singleton]
  rw [routes_eq, hcandidates]
  refine eraseDupsBy_of_pairwise _ (List.pairwise_filterMap.2 ?_)
  have hleftmost := rule.regex.leftmost_findAll content
  refine hleftmost.apart.imp_of_mem fun {a b} ha hb hab route hroute later hlater => ?_
  obtain ⟨resolved, -, rfl⟩ := Option.map_eq_some_iff.1 hroute
  obtain ⟨resolved', -, rfl⟩ := Option.map_eq_some_iff.1 hlater
  have hoffset := (hleftmost.matched a ha).1.offset_lt (hleftmost.matched b hb).1 hab.1
  exact beq_eq_false_iff_ne.2 (Nat.ne_of_gt hoffset)

/-! ## Rows that are added -/

/-- Rows that are added behind a table find nothing that comes before what it finds. -/
theorem routes_prefix_append (table more : RouteTable) (content : List Char) (extension : String) :
    table.routes content extension <+: RouteTable.routes (table ++ more) content extension := by
  rw [routes_eq, routes_eq, candidates_append]
  exact eraseDupsBy_prefix_append _ _ _

/-- A rule of which no match resolves has no say. -/
theorem routes_append_of_unresolved {front back : RouteTable} {rule : RouteRule}
    (h : ∀ found ∈ rule.regex.findAll content, rule.layout.resolve? found = none) :
    RouteTable.routes (front ++ rule :: back) content extension =
      RouteTable.routes (front ++ back) content extension := by
  have hrule : RouteTable.candidates [rule] content extension = [] := by
    refine List.eq_nil_iff_forall_not_mem.2 fun route hroute => ?_
    obtain ⟨other, hother, -, found, hfound, hresolve, -⟩ := mem_candidates.1 hroute
    cases List.mem_singleton.1 hother
    rw [h found hfound] at hresolve
    cases hresolve
  rw [routes_eq, routes_eq, candidates_append, candidates_append, ← List.singleton_append, candidates_append, hrule,
    List.nil_append]

/-- **What a table finds**: the leftmost matches of its rules for the extension, rule after rule, as far as they
resolve, and of those that start at one place only the first.  So no two routes start at one place, each place at which
a match resolves has its route, a rule of which no match resolves has no say, each route is a slice of the content, and
rows that are added behind the others change nothing of what was found before.  A table is any list of rules in the
expressions of `Regex`, which are those that the tables of the program are written in. -/
theorem routes_first_per_start (table : RouteTable) (content : List Char) (extension : String) :
    let matching := table.filter fun rule =>
      rule.extensions.any fun e => Text.asciiLower e.toList == Text.asciiLower extension.toList
    let candidates := matching.flatMap fun rule => (rule.regex.findAll content).filterMap fun found =>
      (rule.layout.resolve? found).map fun (method, path) =>
        (⟨method, path, found.whole.start, found.whole.text⟩ : Route)
    let routes := table.routes content extension
    (∀ (regex : Regex) all, regex.Leftmost content all ↔ all = regex.findAll content) ∧
    routes = candidates.eraseDupsBy (fun later earlier => later.start.offset == earlier.start.offset) ∧
    (routes.map (·.start.offset)).Nodup ∧
    (∀ candidate ∈ candidates, ∃ route ∈ routes, route.start.offset = candidate.start.offset) ∧
    (∀ (front : RouteTable) rule back, table = front ++ rule :: back →
      (∀ found ∈ rule.regex.findAll content, rule.layout.resolve? found = none) →
        routes = RouteTable.routes (front ++ back) content extension) ∧
    (∀ route ∈ routes, ∃ before after, content = before ++ route.text ++ after ∧
      route.start.offset = Text.byteLength before) ∧
    ∀ more, routes <+: RouteTable.routes (table ++ more) content extension := by
  intro matching candidates routes
  have hcandidates : candidates = table.candidates content extension := rfl
  have hroutes : routes = candidates.eraseDupsBy Route.sameStart := routes_eq table content extension
  refine ⟨fun regex all => ⟨fun h => h.unique (regex.leftmost_findAll content), ?_⟩, hroutes, ?_, ?_, ?_, ?_, ?_⟩
  · rintro rfl
    exact regex.leftmost_findAll content
  · rw [hroutes]
    refine List.pairwise_map.2 ((pairwise_eraseDupsBy _ _).imp fun hsame heq => ?_)
    rw [Route.sameStart, heq, beq_self_eq_true] at hsame
    cases hsame
  · exact fun candidate h => exists_mem_routes h
  · rintro front rule back rfl hunresolved
    exact routes_append_of_unresolved hunresolved
  · intro route hroute
    obtain ⟨before, after, hcontent, hstart⟩ := slice_of_mem_candidates (mem_candidates_of_mem_routes hroute)
    exact ⟨before, after, hcontent, by rw [hstart, Cursor.offset_behind]⟩
  · exact fun more => routes_prefix_append table more content extension

end RouteTable

end ApiCatalog
