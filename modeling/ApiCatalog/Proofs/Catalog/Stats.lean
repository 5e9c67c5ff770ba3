import ApiCatalog.Catalog.Stats
import Mathlib.Algebra.BigOperators.Group.List.Basic
import Mathlib.Algebra.Ring.Nat
import Mathlib.Data.List.Flatten
import Mathlib.Data.List.Forall2
import Mathlib.Data.List.Perm.Basic
import Mathlib.Data.List.Sort
import Mathlib.Data.String.Basic
/-!
# What statistics count

A tally of texts lists those that were met in ascending order, each with how often it was met, and is determined by
this (`Counts.unique`).  The statistics of a catalog are the tallies of what its endpoints have for methods and states:
they count each endpoint once, add up entry by entry, and disregard all order (`stats_conserve`).
-/

namespace ApiCatalog

namespace Tally

def keys (tally : Tally) : List String := tally.map Prod.fst

/-- How often any text was met. -/
def total (tally : Tally) : Nat := (tally.map Prod.snd).sum

/-- The tally of texts that are counted one after the other. -/
def ofTexts (texts : List String) : Tally := texts.foldl (fun tally text => tally.count text) []

/-- The tally lists the texts, each once and in ascending order, with the number of times that it is among them. -/
structure Counts (tally : Tally) (texts : List String) : Prop where
  ascending : tally.keys.Pairwise (· < ·)
  mem_keys : ∀ text, text ∈ tally.keys ↔ text ∈ texts
  get_eq : ∀ text, tally.get text = texts.count text

/-- A tally is the sum of two others, text by text. -/
structure IsSum (sum a b : Tally) : Prop where
  mem_keys : ∀ text, text ∈ sum.keys ↔ text ∈ a.keys ∨ text ∈ b.keys
  get_eq : ∀ text, sum.get text = a.get text + b.get text

theorem keys_cons (text : String) (n : Nat) (tally : Tally) : keys ((text, n) :: tally) = text :: tally.keys := rfl

theorem get_cons (other : String) (n : Nat) (tally : Tally) (text : String) :
    get ((other, n) :: tally) text = if other = text then n else tally.get text := by
  rw [get, List.find?_cons]
  by_cases h : other = text
  · rw [if_pos h, beq_iff_eq.2 h]
    rfl
  · rw [if_neg h, beq_eq_false_iff_ne.2 h]
    rfl

theorem get_of_notMem {text : String} : ∀ {tally : Tally}, text ∉ tally.keys → tally.get text = 0
  | [], _ => rfl
  | (other, n) :: tally, h => by
    rw [keys_cons, List.mem_cons, not_or] at h
    rw [get_cons, if_neg (Ne.symm h.1), get_of_notMem h.2]

/-- What stands in a tally is what it has for the texts that were met. -/
theorem mem_iff {text : String} {n : Nat} : ∀ {tally : Tally}, tally.keys.Pairwise (· < ·) →
    ((text, n) ∈ tally ↔ text ∈ tally.keys ∧ n = tally.get text)
  | [], _ => by simp [keys]
  | (other, m) :: tally, h => by
    obtain ⟨hhead, htail⟩ := List.pairwise_cons.1 h
    rw [List.mem_cons, Prod.mk.injEq, mem_iff htail, keys_cons, List.mem_cons, get_cons]
    by_cases hother : other = text
    · subst hother
      have hnot : other ∉ keys tally := fun hmem => lt_irrefl other (hhead other hmem)
      simp [hnot]
    · simp [hother, Ne.symm hother]

/-! ## One more text -/

theorem mem_keys_count {text other : String} : ∀ {tally : Tally},
    other ∈ (tally.count text).keys ↔ other = text ∨ other ∈ tally.keys
  | [] => by simp [count, keys]
  | (head, n) :: tally => by
    rw [count]
    split
    · rw [keys_cons, List.mem_cons]
    · split
      · rename_i _ heq
        rw [keys_cons, keys_cons, List.mem_cons, heq, ← or_assoc, or_self]
      · rw [keys_cons, keys_cons, List.mem_cons, List.mem_cons, mem_keys_count, or_left_comm]

theorem ascending_count (text : String) : ∀ {tally : Tally}, tally.keys.Pairwise (· < ·) →
    (tally.count text).keys.Pairwise (· < ·)
  | [], _ => List.pairwise_singleton _ _
  | (head, n) :: tally, h => by
    obtain ⟨hhead, htail⟩ := List.pairwise_cons.1 h
    rw [count]
    split
    · rename_i hlt
      exact .cons (List.forall_mem_cons.2 ⟨hlt, fun other hother => hlt.trans (hhead other hother)⟩) h
    · rename_i hge
      split
      · exact h
      · rename_i hne
        have hgt : head < text := lt_of_le_of_ne (not_lt.1 hge) (Ne.symm hne)
        refine .cons (fun other hother => ?_) (ascending_count text htail)
        obtain rfl | hother := mem_keys_count.1 hother
        · exact hgt
        · exact hhead other hother

theorem get_count (text other : String) : ∀ {tally : Tally}, tally.keys.Pairwise (· < ·) →
    (tally.count text).get other = tally.get other + if text = other then 1 else 0
  | [], _ => by rw [count, get_cons]; simp [get]
  | (head, n) :: tally, h => by
    obtain ⟨hhead, htail⟩ := List.pairwise_cons.1 h
    rw [count]
    split
    · rename_i hlt
      rw [get_cons]
      split
      · -- The text comes before all those that were met, so that it is none of them.
        rename_i heq
        rw [get_of_notMem, Nat.zero_add]
        rw [← heq, keys_cons, List.mem_cons, not_or]
        exact ⟨hlt.ne, fun hmem => lt_asymm hlt (hhead text hmem)⟩
      · rfl
    · split
      · rename_i _ heq
        rw [get_cons, get_cons, heq]
        split <;> rfl
      · rename_i _ hne
        rw [get_cons, get_cons, get_count text other htail]
        split
        · rename_i heq
          rw [if_neg fun htext => hne (htext.trans heq.symm), Nat.add_zero]
        · rfl

theorem total_count (text : String) : ∀ tally : Tally, (tally.count text).total = tally.total + 1
  | [] => rfl
  | (head, n) :: tally => by
    have ih : ((count text tally).map Prod.snd).sum = (tally.map Prod.snd).sum + 1 := total_count text tally
    rw [count, total, total]
    split
    · simp only [List.map_cons, List.sum_cons]
      omega
    · split
      · simp only [List.map_cons, List.sum_cons]
        omega
      · simp only [List.map_cons, List.sum_cons, ih]
        omega

/-! ## All texts -/

theorem counts_nil : Counts [] [] := ⟨.nil, fun _ => Iff.rfl, fun _ => rfl⟩

/-- **One more text counts one more of it and leaves the others.** -/
theorem Counts.count {tally : Tally} {texts : List String} (h : tally.Counts texts) (text : String) :
    (tally.count text).Counts (texts ++ [text]) where
  ascending := ascending_count text h.ascending
  mem_keys other := by
    rw [mem_keys_count, h.mem_keys, List.mem_append, List.mem_singleton, or_comm]
  get_eq other := by
    rw [get_count text other h.ascending, h.get_eq, List.count_append, List.count_singleton]
    simp only [beq_iff_eq]

theorem Counts.foldl {tally : Tally} {texts : List String} (h : tally.Counts texts) (more : List String) :
    (more.foldl (fun tally text => tally.count text) tally).Counts (texts ++ more) := by
  induction more generalizing tally texts with
  | nil => rwa [List.append_nil]
  | cons text more ih =>
    have hnext := ih (h.count text)
    rwa [List.append_assoc] at hnext

theorem counts_ofTexts (texts : List String) : (ofTexts texts).Counts texts := counts_nil.foldl texts

theorem total_ofTexts (texts : List String) : (ofTexts texts).total = texts.length := by
  have hfold : ∀ tally : Tally,
      (texts.foldl (fun tally text => tally.count text) tally).total = tally.total + texts.length := by
    induction texts with
    | nil => exact fun _ => rfl
    | cons text texts ih =>
      intro tally
      rw [List.foldl_cons, ih, total_count, List.length_cons]
      omega
  rw [ofTexts, hfold]
  exact Nat.zero_add _

theorem Counts.perm {tally : Tally} {texts texts' : List String} (h : tally.Counts texts) (hperm : texts.Perm texts') :
    tally.Counts texts' where
  ascending := h.ascending
  mem_keys text := (h.mem_keys text).trans hperm.mem_iff
  get_eq text := (h.get_eq text).trans (hperm.count_eq text)

/-- **A tally is determined by the texts that it counts.** -/
theorem Counts.unique {tally tally' : Tally} {texts : List String} (h : tally.Counts texts)
    (h' : tally'.Counts texts) : tally = tally' := by
  have hless : ∀ {tally : Tally}, tally.keys.Pairwise (· < ·) → tally.Pairwise fun a b => a.1 < b.1 :=
    List.pairwise_map.1
  have : Std.Irrefl fun a b : String × Nat => a.1 < b.1 := ⟨fun _ => lt_irrefl _⟩
  have : Std.Antisymm fun a b : String × Nat => a.1 < b.1 := ⟨fun _ _ hab hba => absurd hba (lt_asymm hab)⟩
  refine List.Pairwise.eq_of_mem_iff (hless h.ascending) (hless h'.ascending) fun (text, n) => ?_
  rw [mem_iff h.ascending, mem_iff h'.ascending, h.mem_keys, h'.mem_keys, h.get_eq, h'.get_eq]

theorem ofTexts_perm {texts texts' : List String} (h : texts.Perm texts') : ofTexts texts = ofTexts texts' :=
  ((counts_ofTexts texts).perm h).unique (counts_ofTexts texts')

theorem isSum_append (texts more : List String) : (ofTexts (texts ++ more)).IsSum (ofTexts texts) (ofTexts more) where
  mem_keys text := by
    rw [(counts_ofTexts _).mem_keys, (counts_ofTexts _).mem_keys, (counts_ofTexts _).mem_keys, List.mem_append]
  get_eq text := by
    rw [(counts_ofTexts _).get_eq, (counts_ofTexts _).get_eq, (counts_ofTexts _).get_eq, List.count_append]

end Tally

/-! ## Catalogs -/

/-- Statistics are the sum of two others, number by number. -/
structure Stats.IsSum (sum a b : Stats) : Prop where
  sources : sum.sources = a.sources + b.sources
  endpoints : sum.endpoints = a.endpoints + b.endpoints
  byMethod : sum.byMethod.IsSum a.byMethod b.byMethod
  byStatus : sum.byStatus.IsSum a.byStatus b.byStatus

theorem Stats.foldl_tally (endpoints : List Endpoint) (stats : Stats) : endpoints.foldl Stats.tally stats =
    ⟨stats.sources, stats.endpoints + endpoints.length,
      (endpoints.map (·.method)).foldl (fun tally text => tally.count text) stats.byMethod,
      (endpoints.map (·.status.text)).foldl (fun tally text => tally.count text) stats.byStatus⟩ := by
  induction endpoints generalizing stats with
  | nil => rfl
  | cons endpoint endpoints ih =>
    rw [List.foldl_cons, ih, List.length_cons, Nat.add_comm endpoints.length, ← Nat.add_assoc]
    rfl

theorem Status.text_injective : Function.Injective Status.text := fun status other h => by
  rw [← Option.some_inj, ← ofText?_text status, h, ofText?_text]

namespace Catalog

/-- Another catalog has the entries, and the endpoints of each, in any other order; what else there is to an entry may
differ. -/
def Reordered (catalog other : Catalog) : Prop :=
  ∃ entries, entries.Perm catalog.entries ∧
    List.Forall₂ (fun entry entry' => entry'.endpoints.Perm entry.endpoints) entries other.entries

theorem stats_eq (catalog : Catalog) : catalog.stats =
    ⟨catalog.entries.length, catalog.endpoints.length, .ofTexts (catalog.endpoints.map (·.method)),
      .ofTexts (catalog.endpoints.map (·.status.text))⟩ := by
  rw [stats, Stats.foldl_tally, Nat.zero_add]
  rfl

theorem sources_stats (catalog : Catalog) : catalog.stats.sources = catalog.entries.length := by rw [stats_eq]

theorem endpoints_stats (catalog : Catalog) : catalog.stats.endpoints = catalog.endpoints.length := by rw [stats_eq]

theorem byMethod_stats (catalog : Catalog) :
    catalog.stats.byMethod = .ofTexts (catalog.endpoints.map (·.method)) := by rw [stats_eq]

theorem byStatus_stats (catalog : Catalog) :
    catalog.stats.byStatus = .ofTexts (catalog.endpoints.map (·.status.text)) := by rw [stats_eq]

theorem counts_byMethod (catalog : Catalog) : catalog.stats.byMethod.Counts (catalog.endpoints.map (·.method)) := by
  rw [byMethod_stats]
  exact Tally.counts_ofTexts _

theorem counts_byStatus (catalog : Catalog) :
    catalog.stats.byStatus.Counts (catalog.endpoints.map (·.status.text)) := by
  rw [byStatus_stats]
  exact Tally.counts_ofTexts _

theorem endpoints_add (catalog : Catalog) (entry : Entry) :
    (catalog.add entry).endpoints = catalog.endpoints ++ entry.endpoints := by
  simp [endpoints, add]

theorem Reordered.length_eq {catalog other : Catalog} (h : catalog.Reordered other) :
    other.entries.length = catalog.entries.length := by
  obtain ⟨entries, hperm, hentries⟩ := h
  rw [← hentries.length_eq, hperm.length_eq]

theorem Reordered.endpoints_perm {catalog other : Catalog} (h : catalog.Reordered other) :
    other.endpoints.Perm catalog.endpoints := by
  have hinner : ∀ {entries entries' : List Entry},
      List.Forall₂ (fun entry entry' => entry'.endpoints.Perm entry.endpoints) entries entries' →
        (entries'.flatMap (·.endpoints)).Perm (entries.flatMap (·.endpoints)) := fun hentries => by
    induction hentries with
    | nil => exact .refl _
    | cons hentry _ ih => exact hentry.append ih
  obtain ⟨entries, hperm, hentries⟩ := h
  exact (hinner hentries).trans (hperm.flatMap_right _)

theorem Reordered.stats_eq {catalog other : Catalog} (h : catalog.Reordered other) : other.stats = catalog.stats := by
  have hperm := h.endpoints_perm
  rw [Catalog.stats_eq, Catalog.stats_eq, h.length_eq, hperm.length_eq, Tally.ofTexts_perm (hperm.map _),
    Tally.ofTexts_perm (hperm.map _)]

theorem sources_add (catalog : Catalog) (entry : Entry) :
    (catalog.add entry).stats.sources = catalog.stats.sources + 1 := by
  rw [sources_stats, sources_stats]
  exact List.length_append

theorem isSum_add (catalog : Catalog) (entry : Entry) (now : Instant) :
    (catalog.add entry).stats.IsSum catalog.stats ((empty now).add entry).stats := by
  have hall := catalog.endpoints_add entry
  have halone : ((empty now).add entry).endpoints = entry.endpoints := endpoints_add _ _
  constructor
  · rw [sources_add, sources_add, sources_stats (empty now)]
    rfl
  · rw [endpoints_stats, endpoints_stats, endpoints_stats, hall, halone, List.length_append]
  · rw [byMethod_stats, byMethod_stats, byMethod_stats, hall, halone, List.map_append]
    exact Tally.isSum_append _ _
  · rw [byStatus_stats, byStatus_stats, byStatus_stats, hall, halone, List.map_append]
    exact Tally.isSum_append _ _

theorem mem_byMethod {catalog : Catalog} {method : String} {n : Nat} : (method, n) ∈ catalog.stats.byMethod ↔
    (∃ endpoint ∈ catalog.endpoints, endpoint.method = method) ∧ n = catalog.endpoints.countP (·.method = method) := by
  have hcount : (catalog.endpoints.map (·.method)).count method = catalog.endpoints.countP (·.method = method) := by
    rw [List.count_eq_countP, List.countP_map]
    exact List.countP_congr fun endpoint _ => by simp
  have h := catalog.counts_byMethod
  rw [Tally.mem_iff h.ascending, h.mem_keys, h.get_eq, hcount, List.mem_map]

theorem get_byStatus (catalog : Catalog) (status : Status) :
    catalog.stats.byStatus.get status.text = catalog.endpoints.countP (·.status = status) := by
  rw [catalog.counts_byStatus.get_eq, List.count_eq_countP, List.countP_map]
  exact List.countP_congr fun endpoint _ => by simp [Status.text_injective.eq_iff]

theorem mem_byStatus {catalog : Catalog} {key : String} {n : Nat} : (key, n) ∈ catalog.stats.byStatus ↔
    ∃ status : Status, key = status.text ∧ (∃ endpoint ∈ catalog.endpoints, endpoint.status = status) ∧
      n = catalog.endpoints.countP (·.status = status) := by
  have h := catalog.counts_byStatus
  rw [Tally.mem_iff h.ascending, h.mem_keys, List.mem_map]
  constructor
  · rintro ⟨⟨endpoint, hendpoint, rfl⟩, hn⟩
    exact ⟨endpoint.status, rfl, ⟨endpoint, hendpoint, rfl⟩, hn.trans (catalog.get_byStatus _)⟩
  · rintro ⟨status, rfl, ⟨endpoint, hendpoint, rfl⟩, hn⟩
    exact ⟨⟨endpoint, hendpoint, rfl⟩, hn.trans (catalog.get_byStatus _).symm⟩

/-- **Statistics conserve endpoints.**  The counts by method and those by status make up the number of endpoints; each
method and each status that an endpoint has is listed once, with the number of endpoints that have it, and no other.  An
entry that is added adds its own statistics, and no order of entries or endpoints makes a difference. -/
theorem stats_conserve (catalog : Catalog) :
    let stats := catalog.stats
    (stats.endpoints = catalog.endpointCount ∧ stats.byMethod.total = stats.endpoints ∧
      stats.byStatus.total = stats.endpoints) ∧
    (stats.byMethod.keys.Pairwise (· < ·) ∧ ∀ method n, (method, n) ∈ stats.byMethod ↔
      (∃ endpoint ∈ catalog.endpoints, endpoint.method = method) ∧
        n = catalog.endpoints.countP (·.method = method)) ∧
    (stats.byStatus.keys.Pairwise (· < ·) ∧ ∀ key n, (key, n) ∈ stats.byStatus ↔
      ∃ status : Status, key = status.text ∧ (∃ endpoint ∈ catalog.endpoints, endpoint.status = status) ∧
        n = catalog.endpoints.countP (·.status = status)) ∧
    stats.active = catalog.endpoints.countP (·.status = .active) ∧
    (∀ entry now, (catalog.add entry).stats.sources = stats.sources + 1 ∧
      (catalog.add entry).stats.IsSum stats ((empty now).add entry).stats) ∧
    ∀ other, catalog.Reordered other → other.stats = stats := by
  have hmethods : catalog.stats.byMethod.total = catalog.stats.endpoints := by
    rw [byMethod_stats, Tally.total_ofTexts, List.length_map, endpoints_stats]
  have hstates : catalog.stats.byStatus.total = catalog.stats.endpoints := by
    rw [byStatus_stats, Tally.total_ofTexts, List.length_map, endpoints_stats]
  refine ⟨⟨?_, hmethods, hstates⟩, ⟨catalog.counts_byMethod.ascending, fun _ _ => mem_byMethod⟩,
    ⟨catalog.counts_byStatus.ascending, fun _ _ => mem_byStatus⟩, catalog.get_byStatus .active,
    fun entry now => ⟨catalog.sources_add entry, catalog.isSum_add entry now⟩, fun other hother => hother.stats_eq⟩
  rw [endpoints_stats, endpointCount_eq]

/-- A method that is none of the usual ones, and endpoints of one method in two entries, in one order and another. -/
theorem stats_conserve_of_reordered :
    let purge : Endpoint := Endpoint.plain "PURGE" "/cache"
    let list : Endpoint := Endpoint.plain "GET" "/users"
    let old : Endpoint := { Endpoint.plain "GET" "/orders" with status := .deprecated }
    let catalog : Catalog := ⟨⟨0, 0⟩, [⟨"a", .blank, [purge, old]⟩, ⟨"b", .blank, [list]⟩]⟩
    let other : Catalog := ⟨⟨0, 0⟩, [⟨"b", .blank, [list]⟩, ⟨"a", .blank, [old, purge]⟩]⟩
    catalog.Reordered other ∧ other.stats = catalog.stats ∧
      catalog.stats = ⟨2, 3, [("GET", 2), ("PURGE", 1)], [("active", 2), ("deprecated", 1)]⟩ := by
  intro purge list old catalog other
  have hother : catalog.Reordered other :=
    ⟨[⟨"b", .blank, [list]⟩, ⟨"a", .blank, [purge, old]⟩], .swap _ _ _, .cons (.refl _) (.cons (.swap _ _ _) .nil)⟩
  exact ⟨hother, (stats_conserve catalog).2.2.2.2.2 other hother, by decide +kernel⟩

end Catalog

end ApiCatalog
