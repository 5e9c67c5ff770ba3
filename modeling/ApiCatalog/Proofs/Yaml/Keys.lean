import ApiCatalog.Proofs.Yaml.Alike
/-!
# Nodes that keys lead to

Keys lead from one node of a document to another, through mappings and the aliases of mappings (`Leads`).  What stands
at these keys of the value in JSON is the value of the node that they lead to (`exists_of_leads`), so a scalar without
quotes stands there as what its text is read as (`toJson_of_unquoted`).
-/

namespace ApiCatalog.Yaml

namespace Value

/-! ## Texts of keys -/

/-- Whether a character occurs in a text that a number or a truth value has as a key. -/
def isKeyMark (c : Char) : Bool := Decimal.isMark c || ['a', 'f', 'i', 'l', 'n', 'r', 's', 't', 'u'].contains c

theorem isKeyMark_of_isMark {c : Char} (h : Decimal.isMark c = true) : isKeyMark c = true := by
  rw [isKeyMark, h, Bool.true_or]

/-- A text with another character is no key of anything else. -/
theorem eq_string_of_keyText? {key : Value} {text : String} (h : key.keyText? = some text)
    (hother : text.toList.all isKeyMark = false) : key = .string text := by
  have hdigits : ∀ n, ∀ c ∈ Text.ofNat n, isKeyMark c = true := fun n c hc =>
    isKeyMark_of_isMark (Decimal.isMark_of_isDigit (Text.isDigit_of_mem_ofNat hc))
  suffices key = .string text ∨ ∀ c ∈ text.toList, isKeyMark c = true from
    this.resolve_right fun hall => Bool.false_ne_true (hother.symm.trans (List.all_eq_true.2 hall))
  cases key with
  | string s =>
    cases h
    exact .inl rfl
  | whole n =>
    cases h
    rw [String.toList_ofList]
    cases n with
    | ofNat n => exact .inr (hdigits n)
    | negSucc n => exact .inr (List.forall_mem_cons.2 ⟨rfl, hdigits _⟩)
  | real x =>
    cases h
    refine .inr ?_
    split
    · exact List.all_eq_true.1 rfl
    · split
      · split <;> exact List.all_eq_true.1 rfl
      · rw [String.toList_ofList]
        exact fun c hc => isKeyMark_of_isMark (Decimal.all_isMark_floatText _ _ c hc)
  | bool b =>
    cases h
    cases b <;> exact .inr (List.all_eq_true.1 rfl)
  | _ => cases h

/-! ## Members of a mapping -/

/-- No key of a mapping is like another one. -/
def DistinctKeys (members : List (Value × Value)) : Prop := members.Pairwise fun m m' => same m.1 m'.1 = false

/-- Among the members of a mapping, a key stands behind one place and in front of another. -/
inductive Member (read : Cursor → Option (Value × Cursor)) (key : String) : Cursor → Cursor → Prop
  | here {cursor place : Cursor} : read cursor = some (.string key, place) → Member read key cursor place
  | later {cursor behind next place : Cursor} {other v : Value} : read cursor = some (other, behind) →
      read behind = some (v, next) → Member read key next place → Member read key cursor place

section
variable {doc : Resolved} {read : Cursor → Option (Value × Cursor)} {depth fuel : Nat} {cursor after place : Cursor}
  {done members : List (Value × Value)} {key : String} {v : Value}

theorem mem_of_readMembers (h : readMembers doc read fuel done cursor = some (members, after)) :
    ∀ m ∈ done, m ∈ members := by
  induction fuel generalizing done cursor with
  | zero => cases h
  | succ fuel ih =>
    obtain ⟨rfl, -⟩ | ⟨left, key, behind, v, next, hleft, -, -, -, -, hrest⟩ := readMembers_cases h
    · exact fun m hm => List.mem_reverse.2 hm
    · cases hleft
      exact fun m hm => ih hrest m (List.mem_cons_of_mem _ hm)

theorem distinctKeys_of_readMembers (hdone : DistinctKeys done.reverse)
    (h : readMembers doc read fuel done cursor = some (members, after)) : DistinctKeys members := by
  induction fuel generalizing done cursor with
  | zero => cases h
  | succ fuel ih =>
    obtain ⟨rfl, -⟩ | ⟨left, key, behind, v, next, hleft, -, -, hnew, -, hrest⟩ := readMembers_cases h
    · exact hdone
    · cases hleft
      refine ih ?_ hrest
      rw [DistinctKeys, List.reverse_cons, List.pairwise_append]
      refine ⟨hdone, List.pairwise_singleton _ _, fun m hm m' hm' => ?_⟩
      rw [List.mem_singleton.1 hm']
      exact Bool.eq_false_iff.2 (List.any_eq_false.1 hnew m (List.mem_reverse.1 hm))

theorem readNode_end {number : Option Nat} (h : doc.events[cursor.position]? = some (.mappingEnd, number)) :
    readNode doc depth cursor = none := by
  refine Option.eq_none_iff_forall_ne_some.2 fun found hread => ?_
  obtain ⟨target, event, number', hfollow, hget, hnode⟩ := nodeAt_of_readNode hread
  rw [follow?, h] at hfollow
  cases hfollow
  cases h.symm.trans hget
  cases hnode

/-- A value is read behind the key of each member. -/
theorem exists_of_member (h : Member (readNode doc depth) key cursor place)
    (hread : readMembers doc (readNode doc depth) fuel done cursor = some (members, after)) :
    ∃ v behind, readNode doc depth place = some (v, behind) ∧ (.string key, v) ∈ members := by
  induction h generalizing fuel done with
  | here hkey =>
    obtain ⟨-, -, number, hend⟩ | ⟨left, key', behind, v, next, -, -, hkey', -, hv, hrest⟩ := readMembers_cases hread
    · rw [readNode_end hend] at hkey
      cases hkey
    · cases hkey.symm.trans hkey'
      exact ⟨v, next, hv, mem_of_readMembers hrest _ List.mem_cons_self⟩
  | later hother hvalue _ ih =>
    obtain ⟨-, -, number, hend⟩ | ⟨left, key', behind, v, next, -, -, hkey', -, hv, hrest⟩ := readMembers_cases hread
    · rw [readNode_end hend] at hother
      cases hother
    · cases hother.symm.trans hkey'
      cases hvalue.symm.trans hv
      exact ih hrest

theorem DistinctKeys.eq_of_text (h : DistinctKeys members) {m m' : Value × Value} (hm : m ∈ members)
    (hm' : m' ∈ members) (hkey : m.1 = .string key) (hkey' : m'.1 = .string key) : m = m' := by
  have hsame : same (.string key) (.string key) = true := beq_self_eq_true key
  refine List.Pairwise.forall_of_forall_of_flip
    (R := fun m m' : Value × Value => m.1 = .string key → m'.1 = .string key → m = m') (fun _ _ _ _ => rfl)
    (h.imp fun hne hkey hkey' => ?_) (h.imp fun hne hkey' hkey => ?_) hm hm' hkey hkey'
  all_goals
    rw [hkey, hkey', hsame] at hne
    cases hne

/-- A key that is a text has its value in JSON, unless numbers or truth values have this text. -/
theorem get?_toJson_mapping (hdistinct : DistinctKeys members) (h : (.string key, v) ∈ members)
    (hkey : key.toList.all isKeyMark = false) : (mapping members).toJson.get? key = some v.toJson := by
  rw [toJson_mapping]
  refine Json.Members.get?_ofList (List.mem_filterMap.2 ⟨_, h, rfl⟩) fun m hm hm' => ?_
  obtain ⟨member, hmember, hjson⟩ := List.mem_filterMap.1 hm
  obtain ⟨text, htext, rfl⟩ := Option.map_eq_some_iff.1 hjson
  obtain rfl : text = key := hm'
  have hname : member.1 = .string text := eq_string_of_keyText? htext hkey
  rw [hdistinct.eq_of_text hmember h hname rfl]

/-! ## Places in a document -/

/-- Keys lead from a node of a document to another one, through mappings and the aliases of mappings.  So many levels
are left for the first node. -/
inductive Leads (doc : Resolved) : Nat → List String → Cursor → Cursor → Prop
  | here {depth : Nat} {place : Cursor} : Leads doc depth [] place place
  | member {depth : Nat} {key : String} {keys : List String} {place start next target : Cursor}
      {properties : Properties} {number : Option Nat} : follow? doc place = some start →
      doc.events[start.position]? = some (.mappingStart properties, number) →
      Member (readNode doc depth) key { start with position := start.position + 1 } next →
      Leads doc depth keys next target → Leads doc (depth + 1) (key :: keys) place target

/-- What stands at keys of a value in JSON is the value of the node that the keys lead to. -/
theorem exists_of_leads {keys : List String} {place target : Cursor} (h : Leads doc depth keys place target)
    (hkeys : ∀ key ∈ keys, key.toList.all isKeyMark = false) (hread : readNode doc depth place = some (v, after)) :
    ∃ left w behind, readNode doc left target = some (w, behind) ∧
      keys.foldlM Json.Value.get? v.toJson = some w.toJson := by
  induction h generalizing v after with
  | here => exact ⟨_, v, after, hread, rfl⟩
  | @member depth key keys place start next target properties number hfollow hstart hmember _ ih =>
    rw [List.forall_mem_cons] at hkeys
    obtain ⟨start', event, number', hfollow', hstart', hnode⟩ := nodeAt_of_readNode hread
    cases hfollow.symm.trans hfollow'
    cases hstart.symm.trans hstart'
    cases hnode with
    | @mapping _ _ members _ hmembers htagged =>
      obtain ⟨w, behind, hw, hmem⟩ := exists_of_member hmember hmembers
      have hnone : DistinctKeys ([] : List (Value × Value)).reverse := List.Pairwise.nil
      have hdistinct : DistinctKeys members := distinctKeys_of_readMembers hnone hmembers
      obtain ⟨left, found, rest, hfound, hjson⟩ := ih hkeys.2 hw
      refine ⟨left, found, rest, hfound, ?_⟩
      rw [List.foldlM_cons, Written.toJson_of_tag? htagged, get?_toJson_mapping hdistinct hmem hkeys.1]
      exact hjson

end

def resolved? (content : List Char) : Option Resolved :=
  ((tokens? content).bind Event.ofTokens?).bind (resolveFrom ⟨[], []⟩ #[])

/-- In the document that a text holds, keys lead to a scalar that has neither quotes nor a tag, or to an alias of it. -/
def Unquoted (content : List Char) (keys : List String) (text : List Char) : Prop :=
  ∃ doc place target anchor number, resolved? content = some doc ∧ Leads doc maxDepth keys ⟨0, 0⟩ place ∧
    follow? doc place = some target ∧ doc.events[target.position]? = some (.scalar ⟨anchor, none⟩ text true, number)

theorem exists_readNode_of_ofText? {content : List Char} {doc : Resolved} {v : Value}
    (hdoc : resolved? content = some doc) (hv : ofText? content = some v) :
    doc.events = #[] ∨ ∃ after, readNode doc maxDepth ⟨0, 0⟩ = some (v, after) := by
  obtain ⟨events, hevents, hresolved⟩ := Option.bind_eq_some_iff.1 hdoc
  obtain ⟨tokens, htokens, hevents⟩ := Option.bind_eq_some_iff.1 hevents
  simp only [ofText?, htokens, hevents, Option.bind_eq_bind, Option.bind_some] at hv
  split at hv
  · rename_i hempty
    rw [List.isEmpty_iff.1 hempty] at hresolved
    cases hresolved
    exact .inl rfl
  · simp only [hresolved, Option.bind_some] at hv
    obtain ⟨⟨w, after⟩, hread, hw⟩ := Option.bind_eq_some_iff.1 hv
    cases hw
    exact .inr ⟨after, hread⟩

/-- **Where a text stands without quotes, the value in JSON is that of the text.** -/
theorem toJson_of_unquoted {content text : List Char} {keys : List String} {v : Value}
    (h : Unquoted content keys text) (hkeys : ∀ key ∈ keys, key.toList.all isKeyMark = false)
    (hv : ofText? content = some v) :
    ∃ w, ofPlain? (String.ofList text) = some w ∧ keys.foldlM Json.Value.get? v.toJson = some w.toJson := by
  obtain ⟨doc, place, target, anchor, number, hdoc, hleads, hfollow, hscalar⟩ := h
  rcases exists_readNode_of_ofText? hdoc hv with hempty | ⟨after, hread⟩
  · rw [hempty] at hscalar
    cases hscalar
  · obtain ⟨left, w, behind, hw, hjson⟩ := exists_of_leads hleads hkeys hread
    obtain ⟨target', event, number', hfollow', hscalar', hnode⟩ := nodeAt_of_readNode hw
    cases hfollow.symm.trans hfollow'
    cases hscalar.symm.trans hscalar'
    cases hnode with
    | scalar hplain htagged =>
      cases htagged
      exact ⟨_, hplain, hjson⟩

end Value

/-! ## Places in written nodes -/

namespace Written

open Yaml.Value (Resolved Member Unquoted resolved?)

/-- Whether all keys and values of members can be read. -/
def valued (depth : Nat) (members : List (Written × Written)) : Bool :=
  members.all fun m => (m.1.value? depth).isSome && (m.2.value? depth).isSome

/-- Keys lead from a written node to another one within it, behind members that can be read. -/
inductive Leads : Nat → List String → Written → Written → Prop
  | here {depth : Nat} {w : Written} : Leads depth [] w w
  | member {depth : Nat} {tag : Option (List Char)} {front back : List (Written × Written)} {text : String}
      {keys : List String} {key w target : Written} :
      valued depth front = true →
      key.value? depth = some (.string text) → Leads depth keys w target →
      Leads (depth + 1) (text :: keys) (.mapping tag (front ++ (key, w) :: back)) target

section
variable {doc : Resolved} {all rest : List Event} {depth position : Nat}

theorem exists_member (hdoc : Value.Holds doc all) (jumps : Nat) {front back : List (Written × Written)} {text : String}
    {key w : Written} (hfront : valued depth front = true)
    (hkey : key.value? depth = some (.string text))
    (hdrop : all.drop position = memberEvents (front ++ (key, w) :: back) ++ rest) :
    ∃ place more, Member (Value.readNode doc depth) text ⟨position, jumps⟩ ⟨place, jumps⟩ ∧
      all.drop place = w.events ++ more := by
  induction front generalizing position with
  | nil =>
    rw [List.nil_append, memberEvents, List.append_assoc, List.append_assoc] at hdrop
    have hread : Value.readNode doc depth ⟨position, jumps⟩ = _ := reads_readNode hdoc depth hdrop
    rw [hkey] at hread
    exact ⟨_, _, .here hread, Value.drop_add hdrop⟩
  | cons m front ih =>
    rw [valued, List.all_cons, Bool.and_eq_true, Bool.and_eq_true] at hfront
    obtain ⟨⟨hother, hv⟩, hfront⟩ := hfront
    obtain ⟨other, hother⟩ := Option.isSome_iff_exists.1 hother
    obtain ⟨v, hv⟩ := Option.isSome_iff_exists.1 hv
    rw [List.cons_append, memberEvents, List.append_assoc, List.append_assoc] at hdrop
    have hread : Value.readNode doc depth ⟨position, jumps⟩ = _ := reads_readNode hdoc depth hdrop
    have hbehind := Value.drop_add hdrop
    have hread' : Value.readNode doc depth ⟨_, jumps⟩ = _ := reads_readNode hdoc depth hbehind
    rw [hother] at hread
    rw [hv] at hread'
    obtain ⟨place, more, hmember, hplace⟩ := ih hfront (Value.drop_add hbehind)
    exact ⟨place, more, .later hread hread' hmember, hplace⟩

theorem Leads.exists_leads (hdoc : Value.Holds doc all) (jumps : Nat) {keys : List String} {w target : Written}
    (h : Leads depth keys w target) (hdrop : all.drop position = w.events ++ rest) :
    ∃ place more, Value.Leads doc depth keys ⟨position, jumps⟩ ⟨place, jumps⟩ ∧
      all.drop place = target.events ++ more := by
  induction h generalizing position rest with
  | here => exact ⟨position, rest, .here, hdrop⟩
  | @member depth tag front back text keys key w target hfront hkey _ ih =>
    have hstart : all.drop position = [.mappingStart ⟨none, tag⟩] ++
        (memberEvents (front ++ (key, w) :: back) ++ .mappingEnd :: rest) := by
      simpa [events] using hdrop
    have hget := hdoc.get hstart
    obtain ⟨next, more, hmember, hnext⟩ := exists_member hdoc jumps hfront hkey (Value.drop_add hstart)
    obtain ⟨place, more, hleads, hplace⟩ := ih hnext
    exact ⟨place, more, .member (Value.follow?_of_get hget) hget hmember hleads, hplace⟩

end

theorem resolved?_of_writes {content : List Char} {w : Written} (h : Writes content w) :
    resolved? content = some ⟨(w.events.map (·, none)).toArray, []⟩ := by
  have hevents : (tokens? content).bind Event.ofTokens? = some w.events := h
  rw [resolved?, hevents, Option.bind_some, Value.resolveFrom_bare _ _ (bare_of_mem_events w)]
  simp

/-- A text stands without quotes where keys lead to it in a document without anchors and aliases. -/
theorem unquoted_of_writes {content : List Char} {keys : List String} {text : String} {w : Written}
    (h : Writes content w) (hleads : Leads Value.maxDepth keys w (.scalar none text true)) :
    Unquoted content keys text.toList := by
  have hholds : Value.Holds ⟨(w.events.map (·, none)).toArray, []⟩ w.events := rfl
  have hdrop : w.events.drop 0 = w.events ++ [] := by simp
  obtain ⟨place, more, hplace, htarget⟩ := hleads.exists_leads hholds 0 hdrop
  have hget := hholds.get htarget
  exact ⟨_, _, _, none, none, resolved?_of_writes h, hplace, Value.follow?_of_get hget, hget⟩

end Written

end ApiCatalog.Yaml
