import ApiCatalog.Proofs.Text.Digits
import ApiCatalog.Proofs.Yaml.Document
import Mathlib.Logic.Relation
/-!
# Spellings of YAML values

A JSON value is brought back from the YAML value with the same structure (`toJson_ofJson`).  A YAML value is the same
in JSON whether its keys are texts or the numbers and truth values of these texts, and whether its values have tags or
not (`toJson_of_eqvGen`).  Without quotes a number, a truth value and a path are read as what they spell
(`ofPlain?_whole`, `ofPlain?_bool`, `ofPlain?_path`).
-/

namespace ApiCatalog.Yaml.Value

open Json (Members)

/-! ## The same structure -/

mutual

/-- The YAML value with the same structure as a JSON value; its keys are texts. -/
def ofJson : Json.Value → Value
  | .null => .null
  | .bool b => .bool b
  | .number (.whole n) => .whole n
  | .number (.real x) => .real x
  | .string s => .string s
  | .array items => .sequence (itemsOfJson items)
  | .object members => .mapping (membersOfJson members)

def itemsOfJson : List Json.Value → List Value
  | [] => []
  | v :: vs => ofJson v :: itemsOfJson vs

def membersOfJson : List (String × Json.Value) → List (Value × Value)
  | [] => []
  | (key, v) :: members => (.string key, ofJson v) :: membersOfJson members

end

/-- A number that JSON can write: an integer, or a float that is finite. -/
def IsFinite : Json.Number → Prop
  | .whole _ => True
  | .real x => x.isFinite = true

theorem itemsToJson_eq : ∀ (items : List Value) (done : List Json.Value),
    itemsToJson done items = done.reverse ++ items.map toJson
  | [], done => by rw [itemsToJson, List.map_nil, List.append_nil]
  | v :: vs, done => by
    rw [itemsToJson, itemsToJson_eq vs, List.reverse_cons, List.append_assoc]
    rfl

/-- A member in JSON, unless its key has no text. -/
def memberToJson? (member : Value × Value) : Option (String × Json.Value) :=
  (keyText? member.1).map fun key => (key, member.2.toJson)

theorem membersToJson_eq : ∀ (members : List (Value × Value)) (done : List (String × Json.Value)),
    membersToJson done members = done.reverse ++ members.filterMap memberToJson?
  | [], done => by rw [membersToJson, List.filterMap_nil, List.append_nil]
  | (key, v) :: members, done => by
    rw [membersToJson, List.filterMap_cons, memberToJson?]
    cases keyText? key with
    | none => exact membersToJson_eq members done
    | some text =>
      dsimp only [Option.map_some]
      rw [membersToJson_eq members, List.reverse_cons, List.append_assoc]
      rfl

theorem toJson_sequence (items : List Value) : (sequence items).toJson = .array (items.map toJson) := by
  rw [toJson, itemsToJson_eq]
  rfl

theorem toJson_mapping (members : List (Value × Value)) :
    (mapping members).toJson = .object (Members.ofList (members.filterMap memberToJson?)) := by
  rw [toJson, membersToJson_eq]
  rfl

mutual

/-- **A JSON value is brought back from the YAML value with the same structure**, with its keys in their order and its
numbers of their kind. -/
theorem toJson_ofJson : ∀ {v : Json.Value}, v.DistinctKeys → (∀ n ∈ v.numbers, IsFinite n) → (ofJson v).toJson = v
  | .null, _, _ | .bool _, _, _ | .string _, _, _ => rfl
  | .number (.whole n), _, _ => rfl
  | .number (.real x), _, hfinite => by
    have hx : x.isFinite = true := hfinite _ (List.mem_singleton_self _)
    rw [ofJson, toJson, if_pos hx]
  | .array items, hkeys, hfinite => by
    rw [ofJson, toJson_sequence, map_toJson_itemsOfJson hkeys hfinite]
  | .object members, ⟨hnodup, hkeys⟩, hfinite => by
    rw [ofJson, toJson_mapping, filterMap_membersOfJson hkeys hfinite, Members.ofList_of_nodup hnodup]

theorem map_toJson_itemsOfJson : ∀ {items : List Json.Value}, Json.Value.ItemsDistinct items →
    (∀ n ∈ Json.Value.itemNumbers items, IsFinite n) → (itemsOfJson items).map toJson = items
  | [], _, _ => rfl
  | v :: vs, ⟨hv, hvs⟩, hfinite => by
    rw [Json.Value.itemNumbers, List.forall_mem_append] at hfinite
    rw [itemsOfJson, List.map_cons, toJson_ofJson hv hfinite.1, map_toJson_itemsOfJson hvs hfinite.2]

theorem filterMap_membersOfJson : ∀ {members : List (String × Json.Value)}, Json.Value.MembersDistinct members →
    (∀ n ∈ Json.Value.memberNumbers members, IsFinite n) → (membersOfJson members).filterMap memberToJson? = members
  | [], _, _ => rfl
  | (key, v) :: members, ⟨hv, hmembers⟩, hfinite => by
    rw [Json.Value.memberNumbers, List.forall_mem_append] at hfinite
    have hmember : memberToJson? (.string key, ofJson v) = some (key, v) := by
      rw [memberToJson?, toJson_ofJson hv hfinite.1]
      rfl
    rw [membersOfJson, List.filterMap_cons_some hmember, filterMap_membersOfJson hmembers hfinite.2]

end

/-! ## Other spellings -/

/-- A key that is a text, and the number or the truth value that has this text. -/
inductive KeyRespelled : Value → Value → Prop
  | whole (n : Int) : KeyRespelled (.string (toString n)) (.whole n)
  | bool (b : Bool) : KeyRespelled (.string (toString b)) (.bool b)

mutual

/-- A value is spelled in another way at one place: it has a tag, or something within it is spelled so. -/
inductive Respelled : Value → Value → Prop
  | tag (tag : String) (v : Value) : Respelled v (.tagged tag v)
  | within {v v' : Value} : RespelledWithin v v' → Respelled v v'

/-- Something within a value is spelled in another way: a key, a value, or something within a key. -/
inductive RespelledWithin : Value → Value → Prop
  | key (front back : List (Value × Value)) {key key' : Value} (v : Value) : KeyRespelled key key' →
      RespelledWithin (.mapping (front ++ (key, v) :: back)) (.mapping (front ++ (key', v) :: back))
  | inKey (front back : List (Value × Value)) {key key' : Value} (v : Value) : RespelledWithin key key' →
      RespelledWithin (.mapping (front ++ (key, v) :: back)) (.mapping (front ++ (key', v) :: back))
  | member (front back : List (Value × Value)) (key : Value) {v v' : Value} : Respelled v v' →
      RespelledWithin (.mapping (front ++ (key, v) :: back)) (.mapping (front ++ (key, v') :: back))
  | item (front back : List Value) {v v' : Value} : Respelled v v' →
      RespelledWithin (.sequence (front ++ v :: back)) (.sequence (front ++ v' :: back))
  | tagged (tag : String) {v v' : Value} : Respelled v v' → RespelledWithin (.tagged tag v) (.tagged tag v')

end

theorem ofList_wholeText (n : Int) : String.ofList (Json.Number.wholeText n) = toString n := by
  cases n with
  | ofNat n => rfl
  | negSucc n => exact String.ofList_cons

theorem keyText?_of_keyRespelled {key key' : Value} (h : KeyRespelled key key') : keyText? key' = keyText? key := by
  cases h with
  | whole n => rw [keyText?, keyText?, ofList_wholeText]
  | bool b => cases b <;> rfl

/-- Nothing is within a key that has a text. -/
theorem keyText?_of_respelledWithin {key key' : Value} (h : RespelledWithin key key') :
    keyText? key' = keyText? key := by
  cases h <;> rfl

theorem toJson_mapping_congr (front back : List (Value × Value)) {member member' : Value × Value}
    (h : memberToJson? member' = memberToJson? member) :
    (mapping (front ++ member' :: back)).toJson = (mapping (front ++ member :: back)).toJson := by
  rw [toJson_mapping, toJson_mapping, List.filterMap_append, List.filterMap_append, List.filterMap_cons,
    List.filterMap_cons, h]

mutual

theorem toJson_of_respelled : ∀ {v v' : Value}, Respelled v v' → v'.toJson = v.toJson
  | v, _, .tag _ _ => by rw [toJson]
  | _, _, .within h => toJson_of_respelledWithin h

theorem toJson_of_respelledWithin : ∀ {v v' : Value}, RespelledWithin v v' → v'.toJson = v.toJson
  | _, _, .key front back v h => toJson_mapping_congr front back <| by
    rw [memberToJson?, memberToJson?, keyText?_of_keyRespelled h]
  | _, _, .inKey front back v h => toJson_mapping_congr front back <| by
    rw [memberToJson?, memberToJson?, keyText?_of_respelledWithin h]
  | _, _, .member front back key h => toJson_mapping_congr front back <| by
    rw [memberToJson?, memberToJson?, toJson_of_respelled h]
  | _, _, .item front back h => by
    rw [toJson_sequence, toJson_sequence, List.map_append, List.map_append, List.map_cons, List.map_cons,
      toJson_of_respelled h]
  | _, _, .tagged tag h => by rw [toJson, toJson, toJson_of_respelled h]

end

/-- **A value is the same in JSON however it is spelled.** -/
theorem toJson_of_eqvGen {v v' : Value} (h : Relation.EqvGen Respelled v v') : v'.toJson = v.toJson := by
  induction h with
  | rel _ _ h => exact toJson_of_respelled h
  | refl _ => rfl
  | symm _ _ _ ih => exact ih.symm
  | trans _ _ _ _ _ ih ih' => exact ih'.trans ih

/-! ## Scalars with and without quotes -/

/-- **A truth value without quotes is read as this truth value.** -/
theorem ofPlain?_bool (b : Bool) : ofPlain? (toString b) = some (.bool b) := by
  cases b <;> rfl

theorem digit?_ten {c : Char} (h : c.isDigit = true) : digit? 10 c = some (c.toNat - 48) := by
  have hval : c.toNat ≤ 57 := by
    simp only [Char.isDigit, Bool.and_eq_true, decide_eq_true_eq, UInt32.le_iff_toNat_le] at h
    exact h.2
  rw [digit?, Scalar.hexDigit?, if_pos h, Option.bind_some, if_pos (by omega)]

theorem foldlM_digits : ∀ (digits : List Char) (n : Nat), (∀ c ∈ digits, c.isDigit = true) →
    digits.foldlM (fun n c => (digit? 10 c).map (n * 10 + ·)) n = some (Text.value n digits)
  | [], n, _ => rfl
  | c :: digits, n, h => by
    rw [List.forall_mem_cons] at h
    rw [List.foldlM_cons, digit?_ten h.1, Text.value_cons, ← foldlM_digits digits _ h.2]
    rfl

theorem natural?_ofNat (n : Nat) : natural? 10 (Text.ofNat n) = some n := by
  rw [natural?, if_neg (by simpa using Text.ofNat_ne_nil n), foldlM_digits _ _ fun _ => Text.isDigit_of_mem_ofNat,
    Text.value_ofNat]

theorem prefixed?_ofNat (n : Nat) : prefixed? (Text.ofNat n) = none := by
  have hdigits : ∀ c ∈ Text.ofNat n, c.isDigit = true := fun _ => Text.isDigit_of_mem_ofNat
  unfold prefixed?
  split
  case h_4 => rfl
  all_goals
    rename_i heq
    rw [heq, List.forall_mem_cons, List.forall_mem_cons] at hdigits
    exact absurd hdigits.2.1 (by decide)

/-- No digit stands behind a zero in front. -/
theorem leadingZero_ofNat (n : Nat) :
    (decide (1 < (Text.ofNat n).length) && (Text.ofNat n).head? == some '0' && (Text.ofNat n).all Char.isDigit) =
      false := by
  by_cases hn : n = 0
  · subst hn
    rfl
  · rw [beq_false_of_ne (Text.head_ofNat hn), Bool.and_false, Bool.false_and]

theorem exists_digit_ofNat (n : Nat) : ∃ c rest, Text.ofNat n = c :: rest ∧ c ≠ '-' ∧ c ≠ '+' := by
  obtain ⟨c, rest, hcons⟩ := List.exists_cons_of_ne_nil (Text.ofNat_ne_nil n)
  have hc : c.isDigit = true := Text.isDigit_of_mem_ofNat (hcons ▸ List.mem_cons_self)
  refine ⟨c, rest, hcons, ?_, ?_⟩ <;> rintro rfl <;> exact absurd hc (by decide)

section
variable {c : Char} {rest : List Char} (hminus : c ≠ '-') (hplus : c ≠ '+')
include hminus hplus

theorem hasLeadingZero_unsigned : hasLeadingZero (c :: rest) =
    (decide (1 < (c :: rest).length) && (c :: rest).head? == some '0' && (c :: rest).all Char.isDigit) := by
  simp [hasLeadingZero, hminus, hplus]

theorem integer?_unsigned (hbase : prefixed? (c :: rest) = none) : integer? (c :: rest) =
    if hasLeadingZero (c :: rest) then none else (natural? 10 (c :: rest)).map fun n => (n : Int) := by
  simp [integer?, hminus, hplus, hbase]

end

theorem integer?_wholeText (n : Int) : integer? (Json.Number.wholeText n) = some n := by
  cases n with
  | ofNat n =>
    obtain ⟨c, rest, hcons, hminus, hplus⟩ := exists_digit_ofNat n
    have hzero := leadingZero_ofNat n
    have hbase := prefixed?_ofNat n
    have hnatural := natural?_ofNat n
    rw [hcons] at hzero hbase hnatural
    rw [Json.Number.wholeText, hcons, integer?_unsigned hminus hplus hbase, hasLeadingZero_unsigned hminus hplus,
      hzero, hnatural]
    rfl
  | negSucc n =>
    have hzero : hasLeadingZero ('-' :: Text.ofNat (n + 1)) = false := leadingZero_ofNat (n + 1)
    have hsigned : prefixed? ('-' :: Text.ofNat (n + 1)) = none := rfl
    simp [Json.Number.wholeText, integer?, hsigned, prefixed?_ofNat, hzero, natural?_ofNat, Int.negSucc_eq]

theorem contains_of_head {text : String} {c : Char} (htext : text.toList.head? = some c) {names : List String}
    (hnames : ∀ name ∈ names, name.toList.head? ≠ some c) : names.contains text = false :=
  Bool.eq_false_iff.2 fun hcontains => hnames text (List.contains_iff_mem.1 hcontains) htext

/-- The scalars that stand for null or a truth value start with a letter or a tilde; any other is read as a number if it
is one. -/
theorem ofPlain?_of_head {text : String} {c : Char} {rest : List Char} (htext : text.toList = c :: rest)
    (hc : c ∉ ['~', 'n', 'N', 't', 'T', 'f', 'F']) : ofPlain? text =
      (ofInteger? (c :: rest)).getD (some
        (((if hasLeadingZero (c :: rest) then none else float? (c :: rest)).map real).getD (.string text))) := by
  have hne : ¬ text.isEmpty = true := fun hempty => by
    rw [String.isEmpty_iff.1 hempty] at htext
    cases htext
  have hhead : text.toList.head? = some c := by rw [htext, List.head?_cons]
  have hnames : ∀ names : List String,
      (∀ name ∈ names, (name.toList.head?.all fun d => ['~', 'n', 'N', 't', 'T', 'f', 'F'].contains d) = true) →
        names.contains text = false := fun names hnames =>
    contains_of_head hhead fun name hname hd => by
      have hletter := hnames name hname
      rw [hd] at hletter
      exact hc (List.contains_iff_mem.1 hletter)
  have hnamed : (null? text).or (bool? text) = none := by
    have hnull : null? text = none := if_neg (Bool.eq_false_iff.1 (hnames _ (by decide)))
    have hbool : bool? text = none :=
      (if_neg (Bool.eq_false_iff.1 (hnames _ (by decide)))).trans
        (if_neg (Bool.eq_false_iff.1 (hnames _ (by decide))))
    rw [hnull, hbool, Option.or_none]
  rw [ofPlain?, if_neg hne, hnamed, htext]
  dsimp only
  cases ofInteger? (c :: rest) with
  | some value => rfl
  | none =>
    dsimp only
    generalize (if hasLeadingZero (c :: rest) then none else float? (c :: rest)) = x
    cases x <;> rfl

theorem toList_toString (n : Int) : (toString n).toList = Json.Number.wholeText n := by
  rw [← ofList_wholeText, String.toList_ofList]

/-- **A number without quotes is read as this number**, if 64 bits hold it. -/
theorem ofPlain?_whole {n : Int} (hleast : -(2 ^ 63 : Int) ≤ n) (hmost : n < 2 ^ 64) :
    ofPlain? (toString n) = some (.whole n) := by
  have hrange : inRange n = true := by
    rw [inRange, Bool.and_eq_true, decide_eq_true_eq, decide_eq_true_eq]
    exact ⟨hleast, hmost⟩
  have hinteger : ofInteger? (Json.Number.wholeText n) = some (some (.whole n)) := by
    rw [ofInteger?, integer?_wholeText]
    exact if_pos hrange
  obtain ⟨c, rest, hcons, hc⟩ : ∃ c rest, Json.Number.wholeText n = c :: rest ∧ (c = '-' ∨ c.isDigit = true) := by
    cases n with
    | ofNat n =>
      obtain ⟨c, rest, hcons⟩ := List.exists_cons_of_ne_nil (Text.ofNat_ne_nil n)
      exact ⟨c, rest, hcons, .inr (Text.isDigit_of_mem_ofNat (hcons ▸ List.mem_cons_self))⟩
    | negSucc n => exact ⟨'-', _, rfl, .inl rfl⟩
  have hletter : ∀ d ∈ ['~', 'n', 'N', 't', 'T', 'f', 'F'], ¬ (d = '-' ∨ d.isDigit = true) := by simp
  rw [hcons] at hinteger
  rw [ofPlain?_of_head ((toList_toString n).trans hcons) fun hmem => hletter c hmem hc, hinteger,
    Option.getD_some]

/-- **A path without quotes is read as this text.** -/
theorem ofPlain?_path {path : String} (h : path.toList.head? = some '/') : ofPlain? path = some (.string path) := by
  obtain ⟨rest, htext⟩ := List.head?_eq_some_iff.1 h
  have hzero : hasLeadingZero ('/' :: rest) = false := by
    rw [hasLeadingZero_unsigned (by decide) (by decide)]
    simp
  have hinteger : ofInteger? ('/' :: rest) = none := by
    rw [ofInteger?, integer?_unsigned (by decide) (by decide) rfl, hzero]
    rfl
  have hhead : (String.ofList ('/' :: rest)).toList.head? = some '/' := by rw [String.toList_ofList, List.head?_cons]
  have hfloat : float? ('/' :: rest) = none := by
    have hnames : ∀ names : List String, (∀ name ∈ names, name.toList.head? ≠ some '/') →
        names.contains (String.ofList ('/' :: rest)) = false := fun _ => contains_of_head hhead
    have hunsigned : float? ('/' :: rest) =
        if [".inf", ".Inf", ".INF"].contains (String.ofList ('/' :: rest)) then some (1.0 / 0.0)
        else if ["-.inf", "-.Inf", "-.INF"].contains (String.ofList ('/' :: rest)) then some (-(1.0 / 0.0))
        else if [".nan", ".NaN", ".NAN"].contains (String.ofList ('/' :: rest)) then some (0.0 / 0.0)
        else none := rfl
    rw [hunsigned, hnames _ (by decide), hnames _ (by decide), hnames _ (by decide)]
    rfl
  rw [ofPlain?_of_head htext (by decide), hinteger, hzero, hfloat]
  rfl

end ApiCatalog.Yaml.Value
