import ApiCatalog.Proofs.Json.Record
/-!
# Records in any arrangement

The members of a record may come in any order, those that hold their defaults may be left out, and members under other
keys are passed over (`record_of_arranged`).  A record with a field that comes twice is refused
(`not_repeats_of_record`), and so is a record with a member that is refused (`exists_read_of_record`).
-/

namespace ApiCatalog.Json

namespace Doc

def members : Doc → List (Key × Doc)
  | .object members _ => members
  | _ => []

/-- The document is an object with the members of a record, given as they are written, in another arrangement: in any
order, without some of those that hold their defaults, and among members under other keys, whose values only have to be
well formed. -/
def Arranged (defaults : Members) (form : List (Key × Doc)) (doc : Doc) : Prop :=
  ∃ members kept omitted foreign, doc = .object members none ∧ form.Perm (kept ++ omitted) ∧
    omitted ⊆ writtenMembers defaults ∧ members.Perm (kept ++ foreign) ∧
    ∀ m ∈ foreign, ∃ key, m.1 = some key ∧ some key ∉ form.map (·.1) ∧ m.2.skipError? = none

theorem Arranged.refl (defaults : Members) (form : List (Key × Doc)) : Arranged defaults form (.object form none) :=
  ⟨form, form, [], [], rfl, by rw [List.append_nil], List.nil_subset _, by rw [List.append_nil],
    fun _ h => absurd h List.not_mem_nil⟩

/-- The document is an object in which one of the keys comes twice. -/
def Repeats (keys : List String) (doc : Doc) : Prop :=
  ∃ key ∈ keys, ∃ front first middle second back cut,
    doc = .object (front ++ (some key, first) :: (middle ++ (some key, second) :: back)) cut

def Has (doc : Doc) (key : String) (value : Doc) : Prop :=
  ∃ members cut, doc = .object members cut ∧ (some key, value) ∈ members

end Doc

namespace Reader

variable {δ α : Type}

/-! ## Members -/

theorem member_eq_ok {fields : List (Slot δ)} {depth : Nat} {draft draft' : δ} {m : Key × Doc}
    (h : member fields depth draft m = .ok draft') : ∃ key, m.1 = some key ∧
      ((fields.find? (·.name == key) = none ∧ m.2.skipError? = none ∧ draft' = draft) ∨
        ∃ field ∈ fields, field.name = key ∧ fields.find? (·.name == key) = some field ∧ field.filled draft = false ∧
          field.read depth m.2 draft = .ok draft') := by
  obtain ⟨_ | key, doc⟩ := m
  · cases h
  refine ⟨key, rfl, ?_⟩
  simp only [member, Reader.key, bind, Except.bind] at h
  split at h
  · rename_i hfind
    split at h
    · rename_i hskip
      cases h
      exact .inl ⟨hfind, hskip, rfl⟩
    · cases h
  · rename_i field hfind
    split at h
    · cases h
    · rename_i hfilled
      exact .inr ⟨field, List.mem_of_find?_eq_some hfind, by simpa using List.find?_some hfind, hfind,
        by simpa using hfilled, h⟩

section
variable {fields : List (Slot δ)} {depth : Nat} {draft mid last : δ}

theorem member_of_field {key : String} {field : Slot δ} (hfind : fields.find? (·.name == key) = some field)
    (hfilled : field.filled draft = false) (doc : Doc) :
    member fields depth draft (some key, doc) = field.read depth doc draft := by
  simp [member, Reader.key, hfind, hfilled, bind, Except.bind]

theorem read_of_member {key : String} {field : Slot δ} {doc : Doc} (hfind : fields.find? (·.name == key) = some field)
    (hread : member fields depth draft (some key, doc) = .ok last) :
    field.filled draft = false ∧ field.read depth doc draft = .ok last := by
  obtain ⟨_, hkey, hcases⟩ := member_eq_ok hread
  cases hkey
  rcases hcases with ⟨hnone, -⟩ | ⟨other, -, -, hother, hempty, hread⟩
  · rw [hfind] at hnone
    cases hnone
  · rw [hfind] at hother
    cases hother
    exact ⟨hempty, hread⟩

theorem member_foreign {key : String} {doc : Doc} (hfind : fields.find? (·.name == key) = none)
    (hskip : doc.skipError? = none) (draft : δ) : member fields depth draft (some key, doc) = .ok draft := by
  simp [member, Reader.key, hfind, hskip, bind, Except.bind, pure, Except.pure]

/-- **Two members that are read one after the other can be read the other way round**: a field that comes twice is not
read the second time. -/
theorem member_swap (h : Orderly fields) {x y : Key × Doc} (hx : member fields depth draft x = .ok mid)
    (hy : member fields depth mid y = .ok last) :
    ∃ mid', member fields depth draft y = .ok mid' ∧ member fields depth mid' x = .ok last := by
  obtain ⟨key, docx⟩ := x
  obtain ⟨key', docy⟩ := y
  obtain ⟨name, rfl, hx'⟩ := member_eq_ok hx
  obtain ⟨name', rfl, hy'⟩ := member_eq_ok hy
  rcases hx' with ⟨hfind, hskip, rfl⟩ | ⟨field, hfield, -, hfind, hempty, hread⟩
  · exact ⟨last, hy, member_foreign hfind hskip last⟩
  rcases hy' with ⟨hfind', hskip, rfl⟩ | ⟨other, hother, -, hfind', hempty', hread'⟩
  · exact ⟨draft, member_foreign hfind' hskip draft, hx⟩
  -- The same field would be filled by then.
  have hne : field ≠ other := by
    rintro rfl
    rw [h.fills field hfield _ _ _ _ hread] at hempty'
    cases hempty'
  have hapart := h.apart.forall hfield hother hne
  obtain ⟨mid', hmid', hlast⟩ := hapart.swaps hread hread'
  rw [hapart.spares _ _ _ _ hread] at hempty'
  refine ⟨mid', ?_, ?_⟩
  · rw [member_of_field hfind' hempty', hmid']
  · rw [member_of_field hfind (by rw [hapart.spared _ _ _ _ hmid', hempty]), hlast]

/-- **The order of the members does not matter.** -/
theorem foldlM_perm (h : Orderly fields) {members members' : List (Key × Doc)} (hperm : members.Perm members') :
    ∀ {draft last : δ}, members.foldlM (member fields depth) draft = .ok last →
      members'.foldlM (member fields depth) draft = .ok last := by
  induction hperm with
  | nil => exact id
  | cons x _ ih =>
    intro draft last hfold
    obtain ⟨mid, hx, hrest⟩ := bind_eq_ok hfold
    rw [List.foldlM_cons, hx]
    exact ih hrest
  | swap x y rest =>
    intro draft last hfold
    obtain ⟨mid, hy, hfold⟩ := bind_eq_ok hfold
    obtain ⟨next, hx, hrest⟩ := bind_eq_ok hfold
    obtain ⟨mid', hx', hy'⟩ := member_swap h hy hx
    rw [List.foldlM_cons, hx']
    change (y :: rest).foldlM (member fields depth) mid' = .ok last
    rw [List.foldlM_cons, hy']
    exact hrest
  | trans _ _ ih ih' => exact fun hfold => ih' (ih hfold)

theorem foldlM_foreign : ∀ {foreign : List (Key × Doc)} {draft : δ},
    (∀ m ∈ foreign, ∃ key, m.1 = some key ∧ fields.find? (·.name == key) = none ∧ m.2.skipError? = none) →
      foreign.foldlM (member fields depth) draft = .ok draft
  | [], _, _ => rfl
  | (_, doc) :: foreign, draft, h => by
    obtain ⟨⟨key, rfl, hfind, hskip⟩, hrest⟩ := List.forall_mem_cons.1 h
    rw [List.foldlM_cons, member_foreign hfind hskip]
    exact foldlM_foreign hrest

end

/-! ## Members that may be left out -/

theorem optional_null {read : Reader α} {depth : Nat} {o : Option α}
    (h : optional read depth (Doc.written .null) = .ok o) : o = none := by
  cases h
  rfl

theorem list_empty {read : Reader α} {depth : Nat} {all : List α}
    (h : list read depth (Doc.written (.array [])) = .ok all) : all = [] := by
  cases depth with
  | zero => cases h
  | succ _ => exact (Except.ok.inj h).symm

theorem members_empty {depth : Nat} {all : Members} (h : Reader.members depth (Doc.written (.object [])) = .ok all) :
    all = [] := by
  cases depth with
  | zero => cases h
  | succ _ => exact (Except.ok.inj h).symm

section
variable {fields : List (Slot δ)} {finish : δ → Option α}

/-- A member without which the record comes to the same. -/
def Spare (fields : List (Slot δ)) (finish : δ → Option α) (m : Key × Doc) : Prop :=
  ∀ depth draft draft', member fields depth draft m = .ok draft' → finish draft' = finish draft

/-- A field is spare with the value that counts if the field is not there. -/
theorem spare_of_default {β : Type} (default : β) {key : String} {doc : Doc} {field : Slot δ} {get : δ → Option β}
    {read : Reader β} {set : δ → β → δ} (hfind : fields.find? (·.name == key) = some field)
    (hfilled : ∀ draft, field.filled draft = (get draft).isSome) (hsets : field.Sets read set)
    (hread : ∀ depth b, read depth doc = .ok b → b = default)
    (hfinish : ∀ draft, get draft = none → finish (set draft default) = finish draft) :
    Spare fields finish (some key, doc) := by
  intro depth draft draft' hmember
  obtain ⟨hempty, hset⟩ := read_of_member hfind hmember
  obtain ⟨b, hb, rfl⟩ := hsets.exists hset
  rw [hfilled] at hempty
  rw [hread depth b hb, hfinish draft (by simpa using hempty)]

theorem spare_null {β : Type} {key : String} {field : Slot δ} {get : δ → Option (Option β)} {read : Reader β}
    {set : δ → Option β → δ} (hfind : fields.find? (·.name == key) = some field)
    (hfilled : ∀ draft, field.filled draft = (get draft).isSome) (hsets : field.Sets (optional read) set)
    (hfinish : ∀ draft, get draft = none → finish (set draft none) = finish draft) :
    Spare fields finish (some key, Doc.written .null) :=
  spare_of_default none hfind hfilled hsets (fun _ _ => optional_null) hfinish

theorem finish_foldlM_spare {depth : Nat} : ∀ {omitted : List (Key × Doc)} {draft draft' : δ},
    (∀ m ∈ omitted, Spare fields finish m) → omitted.foldlM (member fields depth) draft = .ok draft' →
      finish draft' = finish draft
  | [], _, _, _, h => by cases h; rfl
  | m :: omitted, draft, draft', hspare, h => by
    obtain ⟨mid, hm, hrest⟩ := bind_eq_ok h
    rw [List.forall_mem_cons] at hspare
    rw [finish_foldlM_spare hspare.2 hrest, hspare.1 _ _ _ hm]

end

/-! ## Records -/

section
variable {fields : List (Slot δ)} {blank : δ} {finish : δ → Option α} {depth : Nat} {a : α}

theorem record_object_eq_ok {members : List (Key × Doc)} {cut : Option Cut} :
    record fields blank finish depth (.object members cut) = .ok a ↔ cut = none ∧ ∃ level, depth = level + 1 ∧
      ∃ draft, members.foldlM (member fields level) blank = .ok draft ∧ finish draft = some a := by
  cases depth with
  | zero =>
    constructor
    · exact fun h => by cases h
    · rintro ⟨-, level, hlevel, -⟩
      cases hlevel
  | succ level =>
    constructor
    · intro h
      obtain ⟨draft, hdraft, h⟩ := bind_eq_ok h
      obtain ⟨_, hend, h⟩ := bind_eq_ok h
      have hcut : cut = none := by
        cases cut with
        | none => rfl
        | some cut =>
          obtain ⟨comma, _ | _ | key, fault⟩ := cut
          · cases hend
          · cases hend
          · simp only [endOfRecord] at hend
            split at hend <;> cases hend
      refine ⟨hcut, level, rfl, draft, hdraft, ?_⟩
      split at h
      · rename_i hfinish
        cases h
        exact hfinish
      · cases h
    · rintro ⟨rfl, _, hlevel, draft, hdraft, hfinish⟩
      cases hlevel
      rw [record, hdraft]
      simp [bind, Except.bind, endOfRecord, hfinish, pure, Except.pure]

/-- **A record is read from any arrangement of its members as from the members in their order.** -/
theorem record_of_arranged (h : Orderly fields) {defaults : Members} {form : List (Key × Doc)} {doc : Doc}
    (hkeys : form.map (·.1) = fields.map fun field => some field.name)
    (hspare : ∀ m ∈ Doc.writtenMembers defaults, Spare fields finish m)
    (hread : record fields blank finish depth (.object form none) = .ok a)
    (harranged : Doc.Arranged defaults form doc) : record fields blank finish depth doc = .ok a := by
  obtain ⟨members, kept, omitted, foreign, rfl, hform, homitted, hmembers, hforeign⟩ := harranged
  obtain ⟨-, level, rfl, draft, hdraft, hfinish⟩ := record_object_eq_ok.1 hread
  -- With the members that are left out read last, the draft before them is the one that the document leads to.
  have hfold := foldlM_perm h hform hdraft
  rw [List.foldlM_append] at hfold
  obtain ⟨mid, hkept, hfold⟩ := bind_eq_ok hfold
  have hunknown : ∀ m ∈ foreign, ∃ key, m.1 = some key ∧ fields.find? (·.name == key) = none ∧
      m.2.skipError? = none := by
    intro m hm
    obtain ⟨key, hkey, hother, hskip⟩ := hforeign m hm
    refine ⟨key, hkey, List.find?_eq_none.2 fun field hfield hname => hother ?_, hskip⟩
    rw [hkeys, ← eq_of_beq hname]
    exact List.mem_map_of_mem (f := fun field : Slot δ => some field.name) hfield
  have hmid : (kept ++ foreign).foldlM (member fields level) blank = .ok mid := by
    rw [List.foldlM_append, hkept]
    exact foldlM_foreign hunknown
  refine record_object_eq_ok.2 ⟨rfl, level, rfl, mid, foldlM_perm h hmembers.symm hmid, ?_⟩
  rw [← hfinish, finish_foldlM_spare (fun m hm => hspare m (homitted hm)) hfold]

theorem exists_read_of_record (h : Orderly fields) {β : Type} {field : Slot δ} {read : Reader β} {set : δ → β → δ}
    {doc value : Doc} (hfield : field ∈ fields) (hsets : field.Sets read set)
    (hread : record fields blank finish depth doc = .ok a) (hhas : doc.Has field.name value) :
    ∃ level b, read level value = .ok b := by
  obtain ⟨members, cut, rfl, hmem⟩ := hhas
  obtain ⟨-, level, -, draft, hdraft, -⟩ := record_object_eq_ok.1 hread
  obtain ⟨front, back, rfl⟩ := List.append_of_mem hmem
  obtain ⟨mid, hmid, -⟩ := bind_eq_ok (foldlM_perm h List.perm_middle hdraft)
  obtain ⟨b, hb, -⟩ := hsets.exists (read_of_member (find?_name h.names hfield) hmid).2
  exact ⟨level, b, hb⟩

/-- **A record with a field that comes twice is refused.** -/
theorem not_repeats_of_record (h : Orderly fields) {doc : Doc} (hread : record fields blank finish depth doc = .ok a) :
    ¬ doc.Repeats (fields.map (·.name)) := by
  rintro ⟨_, hname, front, first, middle, second, back, cut, rfl⟩
  obtain ⟨field, hfield, rfl⟩ := List.mem_map.1 hname
  obtain ⟨-, level, -, draft, hdraft, -⟩ := record_object_eq_ok.1 hread
  have hperm : (front ++ (some field.name, first) :: (middle ++ (some field.name, second) :: back)).Perm
      ((some field.name, first) :: (some field.name, second) :: (front ++ (middle ++ back))) :=
    List.perm_middle.trans (.cons _ ((List.perm_middle.append_left front).trans List.perm_middle))
  obtain ⟨mid, hfirst, hfold⟩ := bind_eq_ok (foldlM_perm h hperm hdraft)
  obtain ⟨last, hsecond, -⟩ := bind_eq_ok hfold
  have hname := find?_name h.names hfield
  have hfilled := h.fills field hfield _ _ _ _ (read_of_member hname hfirst).2
  rw [(read_of_member hname hsecond).1] at hfilled
  cases hfilled

end

/-! ## Lists -/

theorem items_of_forall₂ {read : Doc → Except ErrorKind α} {P : α → Doc → Prop} :
    ∀ {all done : List α} {docs : List Doc}, List.Forall₂ P all docs → (∀ a ∈ all, ∀ doc, P a doc → read doc = .ok a) →
      items read done docs = .ok (done.reverse ++ all)
  | [], done, [], _, _ => by rw [items, List.append_nil]
  | a :: all, done, doc :: docs, .cons hdoc hdocs, h => by
    rw [List.forall_mem_cons] at h
    rw [items, h.1 doc hdoc]
    refine (items_of_forall₂ hdocs h.2).trans ?_
    simp

/-- A list is read from documents that are each read as its items. -/
theorem list_of_forall₂ {read : Reader α} {P : α → Doc → Prop} {depth : Nat} {all : List α} {docs : List Doc}
    (hdocs : List.Forall₂ P all docs) (h : ∀ a ∈ all, ∀ doc, P a doc → read depth doc = .ok a) :
    list read (depth + 1) (.array docs none) = .ok all := by
  rw [list, items_of_forall₂ hdocs h]
  rfl

theorem exists_read_of_items {read : Doc → Except ErrorKind α} : ∀ {docs : List Doc} {done all : List α},
    items read done docs = .ok all → ∀ doc ∈ docs, ∃ a, read doc = .ok a
  | first :: docs, done, all, h, doc, hdoc => by
    rw [items] at h
    split at h
    · rename_i a ha
      rcases List.mem_cons.1 hdoc with rfl | hdoc
      · exact ⟨a, ha⟩
      · exact exists_read_of_items h doc hdoc
    · cases h

theorem exists_read_of_list {read : Reader α} {depth : Nat} {docs : List Doc} {cut : Option Cut} {all : List α}
    (h : list read depth (.array docs cut) = .ok all) : ∀ doc ∈ docs, ∃ level a, read level doc = .ok a := by
  cases depth with
  | zero => cases h
  | succ level =>
    obtain ⟨_, hitems, -⟩ := bind_eq_ok h
    exact fun doc hdoc => ⟨level, exists_read_of_items hitems doc hdoc⟩

end Reader

end ApiCatalog.Json
