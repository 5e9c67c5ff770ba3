import ApiCatalog.Proofs.Extract.Decorators
import ApiCatalog.Proofs.Routes.Passage
/-!
# Sources that grow

What is found in a source stays found, with all that is told of it, when text is added behind
(`endpoints_prefix_append`): a decorator that only the new text completes has no complete one behind it in the old text.
-/

namespace ApiCatalog.Annotated

open Pattern

/-! ## Incomplete decorators -/

theorem Decorator.Proper.countP_isQuote {d : Decorator} (hd : d.Proper) : d.text.countP Verb.isQuote = 2 := by
  have hnone : ∀ text : List Char, (∀ c ∈ text, Verb.isQuote c = false) → text.countP Verb.isQuote = 0 := fun text h =>
    List.countP_eq_zero.2 fun c hc => by simp [h c hc]
  rw [d.text_eq, List.countP_append, List.countP_cons_of_pos hd.opening, List.countP_append,
    List.countP_cons_of_pos hd.closing, hnone _ hd.isQuote_call, hnone _ hd.path, List.countP_nil]

/-- A decorator begins the text. -/
def Begins (text : List Char) : Prop := ∃ d : Decorator, d.Proper ∧ ∃ rest, text = d.text ++ rest

theorem matchAt?_eq_none_of_not_begins {start : Cursor} (h : ¬ Begins start.rest) :
    decoratorRegex.matchAt? start = none :=
  matchAt?_decoratorRegex_eq_none fun d hd rest hrest => h ⟨d, hd, rest, hrest⟩

/-- A text that only what follows completes to a decorator has at most one quote, so that there is no decorator within
it either. -/
theorem idle_of_incomplete {text more : List Char} (htext : ¬ Begins text) (h : Begins (text ++ more)) :
    decoratorRegex.Idle text [] := by
  obtain ⟨d, hd, rest, hrest⟩ := h
  obtain ⟨missing, hmissing, hd_text⟩ : ∃ missing, missing ≠ [] ∧ text ++ missing = d.text := by
    rcases List.append_eq_append_iff.1 hrest with ⟨missing, hd_text, -⟩ | ⟨left, hleft, -⟩
    · refine ⟨missing, ?_, hd_text.symm⟩
      rintro rfl
      exact htext ⟨d, hd, [], by simp [hd_text]⟩
    · exact absurd ⟨d, hd, left, hleft⟩ htext
  -- What is missing ends in the second quote.
  obtain ⟨front, rfl, -⟩ := Text.exists_concat_of_eq (x := d.closing) (s := d.call ++ d.opening :: d.path) hmissing
    (by rw [hd_text, d.text_eq]; simp)
  have hquotes := hd.countP_isQuote
  rw [← hd_text, List.countP_append, List.countP_append, List.countP_cons_of_pos hd.closing] at hquotes
  rintro passed left rfl - start hstart
  refine matchAt?_decoratorRegex_eq_none fun d' hd' rest' hrest' => ?_
  rw [hstart, List.append_nil] at hrest'
  rw [hrest', List.countP_append, List.countP_append, hd'.countP_isQuote] at hquotes
  omega

/-! ## Two searches side by side -/

def endpoint? (found : Found) : Option Endpoint := (decoratorRule.route? found).map endpointOf

theorem endpoints_python (content : List Char) :
    endpoints content "py" .python = (decoratorRegex.findAll content).filterMap endpoint? := by
  rw [endpoints, python_table, RouteTable.routes_singleton (by decide), RouteRule.routes, List.map_filterMap]
  rfl

/-- What a decorator tells depends on it and on what stands in front of it. -/
theorem exists_endpoint_of_decorator {d : Decorator} (hd : d.Proper) (before : List Char) :
    ∃ endpoint : Option Endpoint, ∀ rest, ∃ found,
      decoratorRegex.matchAt? (.behind before (d.text ++ rest)) = some found ∧
        found.whole.stop = .behind (before ++ d.text) rest ∧ endpoint? found = endpoint := by
  refine ⟨d.route?.map fun route => endpointOf ⟨route.1, route.2, .behind before [], d.text⟩, fun rest => ?_⟩
  obtain ⟨found, hfound, hwhole, hroute⟩ := matchAt?_decoratorRegex hd (Cursor.rest_behind before (d.text ++ rest))
  refine ⟨found, hfound, by rw [hwhole, Cursor.past_behind], ?_⟩
  have hresolve : decoratorRule.layout.resolve? found = d.route? := hroute
  rw [endpoint?, RouteRule.route?, hresolve, Option.map_map, hwhole]
  -- The documentation is taken from what the cursor has passed, which is `before` in either case.
  rfl

/-- **The search to the end of a text and a search in the text with more behind it** find the same up to some place. -/
theorem exists_search_append (more : List Char) : ∀ (n : Nat) (rest before : List Char), rest.length = n →
    ∃ all all' before' rest', decoratorRegex.Search before rest all (before ++ rest) [] ∧
      decoratorRegex.Search before (rest ++ more) all' before' rest' ∧
        all.filterMap endpoint? = all'.filterMap endpoint? := by
  intro n
  induction n using Nat.strongRecOn with
  | ind n ih =>
    intro rest before hn
    by_cases hcomplete : Begins rest
    · obtain ⟨d, hd, left, rfl⟩ := hcomplete
      have hne : d.text ≠ [] := List.cons_ne_nil _ _
      have hless : left.length < n := by
        have hlength := List.length_pos_iff.2 hne
        rw [List.length_append] at hn
        omega
      obtain ⟨all, all', before', rest', hsearch, hsearch', heq⟩ := ih _ hless left (before ++ d.text) rfl
      obtain ⟨endpoint, hendpoint⟩ := exists_endpoint_of_decorator hd before
      obtain ⟨found, hfound, hstop, hview⟩ := hendpoint left
      obtain ⟨found', hfound', hstop', hview'⟩ := hendpoint (left ++ more)
      have hread := Regex.Search.read hfound hstop hne hsearch
      have hread' := Regex.Search.read hfound' hstop' hne hsearch'
      rw [List.append_assoc] at hread
      rw [← List.append_assoc] at hread'
      refine ⟨found :: all, found' :: all', before', rest', hread, hread', ?_⟩
      rw [List.filterMap_cons, List.filterMap_cons, hview, hview', heq]
    by_cases hincomplete : Begins (rest ++ more)
    · -- The longer text goes on with a decorator, the shorter one has no more of them.
      have hidle := (idle_of_incomplete hcomplete hincomplete).search before
      rw [List.append_nil] at hidle
      exact ⟨[], [], before, rest ++ more, hidle, .stay _ _, rfl⟩
    cases rest with
    | nil =>
      refine ⟨[], [], before, more, ?_, .stay _ _, rfl⟩
      rw [List.append_nil]
      exact .stay _ _
    | cons c rest =>
      have hless : rest.length < n := hn ▸ Nat.lt_succ_self _
      obtain ⟨all, all', before', rest', hsearch, hsearch', heq⟩ := ih _ hless rest (before ++ [c]) rfl
      rw [List.append_assoc] at hsearch
      exact ⟨all, all', before', rest', .pass (matchAt?_eq_none_of_not_begins hcomplete) hsearch,
        .pass (matchAt?_eq_none_of_not_begins hincomplete) hsearch', heq⟩

/-- **Text that is added behind a source leaves the routes before it as they are**, with what their documentation
tells: what was found comes first, and no text, however it goes on, changes it. -/
theorem endpoints_prefix_append (a b : List Char) :
    endpoints a "py" .python <+: endpoints (a ++ b) "py" .python := by
  obtain ⟨all, all', before', rest', hsearch, hsearch', heq⟩ := exists_search_append b a.length a [] rfl
  rw [List.nil_append] at hsearch
  have hend : decoratorRegex.matchAt? (.behind a []) = none :=
    Regex.matchAt?_mark_eq_none rfl fun rest hrest => by cases hrest
  have hall := Regex.findAll_of_search hsearch hend
  rw [endpoints_python, endpoints_python, hall, heq]
  exact (Regex.prefix_findAll_of_search hsearch').filterMap endpoint?

end ApiCatalog.Annotated
