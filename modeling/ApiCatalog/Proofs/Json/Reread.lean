import ApiCatalog.Proofs.Json.Printed
/-!
# Reading printed values

The tokens of a value make the document of the value (`ofText_pretty`).  A reader brings the value back if it
nests no deeper than the reader goes, with every number as its text is read (`value_written`); objects have to
have distinct keys, which is all that they can have when they are read.
-/

namespace ApiCatalog.Json

/-! ## Measures of values -/

namespace Value

mutual

/-- How many arrays and objects are open around the innermost one, itself included. -/
def nesting : Value → Nat
  | .array items => itemNesting items + 1
  | .object members => memberNesting members + 1
  | _ => 0

def itemNesting : List Value → Nat
  | [] => 0
  | v :: vs => max (nesting v) (itemNesting vs)

def memberNesting : List (String × Value) → Nat
  | [] => 0
  | (_, v) :: members => max (nesting v) (memberNesting members)

end

theorem itemNesting_le {depth : Nat} {vs : List Value} : itemNesting vs ≤ depth ↔ ∀ v ∈ vs, v.nesting ≤ depth := by
  induction vs with
  | nil => simp [itemNesting]
  | cons v vs ih => rw [itemNesting, Nat.max_le, List.forall_mem_cons, ih]

theorem nesting_array_le {depth : Nat} {items : List Value} :
    (Value.array items).nesting ≤ depth + 1 ↔ ∀ v ∈ items, v.nesting ≤ depth := by
  rw [nesting, Nat.add_le_add_iff_right, itemNesting_le]

mutual

def numbers : Value → List Number
  | .number n => [n]
  | .array items => itemNumbers items
  | .object members => memberNumbers members
  | _ => []

def itemNumbers : List Value → List Number
  | [] => []
  | v :: vs => numbers v ++ itemNumbers vs

def memberNumbers : List (String × Value) → List Number
  | [] => []
  | (_, v) :: members => numbers v ++ memberNumbers members

end

mutual

/-- No object in a value has a key twice. -/
def DistinctKeys : Value → Prop
  | .array items => ItemsDistinct items
  | .object members => (members.map (·.1)).Nodup ∧ MembersDistinct members
  | _ => True

def ItemsDistinct : List Value → Prop
  | [] => True
  | v :: vs => DistinctKeys v ∧ ItemsDistinct vs

def MembersDistinct : List (String × Value) → Prop
  | [] => True
  | (_, v) :: members => DistinctKeys v ∧ MembersDistinct members

end

mutual

/-- The value with every number as its text is read; none if a number is too large for that. -/
def reread? : Value → Option Value
  | .number n => n.reread?.map .number
  | .array items => (rereadItems? items).map .array
  | .object members => (rereadMembers? members).map .object
  | v => some v

def rereadItems? : List Value → Option (List Value)
  | [] => some []
  | v :: vs => (reread? v).bind fun v => (rereadItems? vs).map (v :: ·)

def rereadMembers? : List (String × Value) → Option (List (String × Value))
  | [] => some []
  | (key, v) :: members => (reread? v).bind fun v => (rereadMembers? members).map ((key, v) :: ·)

end

mutual

/-- **A value is reread as itself if its numbers are.** -/
theorem reread?_eq_self : ∀ v : Value, v.reread? = some v ↔ ∀ n ∈ v.numbers, n.reread? = some n
  | .null | .bool _ | .string _ => by simp [reread?, numbers]
  | .number n => by
    simp only [reread?, numbers, List.mem_singleton, forall_eq, Option.map_eq_some_iff]
    exact ⟨fun ⟨m, hm, he⟩ => by cases he; exact hm, fun h => ⟨n, h, rfl⟩⟩
  | .array items => by
    rw [reread?, numbers, ← rereadItems?_eq_self items, Option.map_eq_some_iff]
    exact ⟨fun ⟨m, hm, he⟩ => by cases he; exact hm, fun h => ⟨items, h, rfl⟩⟩
  | .object members => by
    rw [reread?, numbers, ← rereadMembers?_eq_self members, Option.map_eq_some_iff]
    exact ⟨fun ⟨m, hm, he⟩ => by cases he; exact hm, fun h => ⟨members, h, rfl⟩⟩

theorem rereadItems?_eq_self : ∀ vs : List Value, rereadItems? vs = some vs ↔ ∀ n ∈ itemNumbers vs, n.reread? = some n
  | [] => by simp [rereadItems?, itemNumbers]
  | v :: vs => by
    simp only [rereadItems?, itemNumbers, List.forall_mem_append, ← reread?_eq_self v, ← rereadItems?_eq_self vs,
      Option.bind_eq_some_iff, Option.map_eq_some_iff, List.cons.injEq]
    constructor
    · rintro ⟨w, hw, ws, hws, rfl, rfl⟩; exact ⟨hw, hws⟩
    · exact fun ⟨hv, hvs⟩ => ⟨v, hv, vs, hvs, rfl, rfl⟩

theorem rereadMembers?_eq_self : ∀ members : List (String × Value),
    rereadMembers? members = some members ↔ ∀ n ∈ memberNumbers members, n.reread? = some n
  | [] => by simp [rereadMembers?, memberNumbers]
  | (key, v) :: members => by
    simp only [rereadMembers?, memberNumbers, List.forall_mem_append, ← reread?_eq_self v,
      ← rereadMembers?_eq_self members, Option.bind_eq_some_iff, Option.map_eq_some_iff, List.cons.injEq,
      Prod.mk.injEq, true_and]
    constructor
    · rintro ⟨w, hw, ws, hws, rfl, rfl⟩; exact ⟨hw, hws⟩
    · exact fun ⟨hv, hvs⟩ => ⟨v, hv, members, hvs, rfl, rfl⟩

end

end Value

/-! ## Documents -/

namespace Doc

mutual

/-- The document that the text of a value is read as. -/
def written : Value → Doc
  | .null => .scalar .null
  | .bool b => .scalar (.bool b)
  | .number n => .scalar (.number n.reread?)
  | .string s => .scalar (.string (some s))
  | .array items => .array (writtenItems items) none
  | .object members => .object (writtenMembers members) none

def writtenItems : List Value → List Doc
  | [] => []
  | v :: vs => written v :: writtenItems vs

def writtenMembers : List (String × Value) → List (Key × Doc)
  | [] => []
  | (key, v) :: members => (some key, written v) :: writtenMembers members

end

/-- How reading goes on after a step. -/
def Step.resume (step : Step) (tokens : List Token) : Root :=
  match step with
  | .more builder => builder.run tokens
  | .complete root => ⟨.ok root, !tokens.isEmpty⟩
  | .cut stack comma fault => ⟨cutAll stack comma fault, false⟩

theorem run_cons (builder : Builder) (token : Token) (tokens : List Token) :
    builder.run (token :: tokens) = (builder.feed token).resume tokens := by
  cases h : builder.feed token <;> simp [Builder.run, Step.resume, h]

mutual

theorem run_tokens (stack : List Frame) {expect : Expect} (he : expect = .value ∨ expect = .firstItem)
    (rest : List Token) :
    ∀ v : Value, Builder.run ⟨stack, expect⟩ (v.tokens ++ rest) = (Builder.put stack (written v)).resume rest
  | .null | .bool _ | .number _ | .string _ => by
    rcases he with rfl | rfl <;> exact run_cons _ _ _
  | .array [] => by
    rcases he with rfl | rfl <;> exact run_cons _ _ _
  | .array (v :: vs) => by
    have hopen : Builder.run ⟨stack, expect⟩
          (.openArray :: (v.tokens ++ (Value.itemTokens vs ++ .closeArray :: rest))) =
        Builder.run ⟨.array [] :: stack, .firstItem⟩ (v.tokens ++ (Value.itemTokens vs ++ .closeArray :: rest)) := by
      rcases he with rfl | rfl <;> exact run_cons _ _ _
    have hitems := run_itemTokens stack rest [written v] vs
    simp only [Value.tokens, List.cons_append, List.append_assoc, List.nil_append]
    rw [hopen, run_tokens (.array [] :: stack) (.inr rfl) _ v]
    exact hitems
  | .object [] => by
    rcases he with rfl | rfl <;> exact run_cons _ _ _
  | .object ((key, v) :: members) => by
    have hopen : ∀ more, Builder.run ⟨stack, expect⟩ (.openObject :: .scalar (.string (some key)) :: .colon :: more) =
        Builder.run ⟨.object [] (some (some key)) :: stack, .value⟩ more := fun more => by
      rcases he with rfl | rfl <;> rfl
    have hmembers := run_memberTokens stack rest [(some key, written v)] members
    simp only [Value.tokens, List.cons_append, List.append_assoc, List.nil_append]
    rw [hopen, run_tokens (.object [] (some (some key)) :: stack) (.inl rfl) _ v]
    exact hmembers

theorem run_itemTokens (stack : List Frame) (rest : List Token) (done : List Doc) : ∀ vs : List Value,
    Builder.run ⟨.array done :: stack, .separator⟩ (Value.itemTokens vs ++ .closeArray :: rest) =
      (Builder.put stack (.array (done.reverse ++ writtenItems vs) none)).resume rest
  | [] => by
    rw [writtenItems, List.append_nil]
    exact run_cons _ _ _
  | v :: vs => by
    have hcomma : ∀ more, Builder.run ⟨.array done :: stack, .separator⟩ (.comma :: more) =
        Builder.run ⟨.array done :: stack, .value⟩ more := fun _ => run_cons _ _ _
    have hitems := run_itemTokens stack rest (written v :: done) vs
    simp only [Value.itemTokens, List.cons_append, List.append_assoc, hcomma]
    rw [run_tokens (.array done :: stack) (.inl rfl) _ v]
    rw [List.reverse_cons, List.append_assoc] at hitems
    exact hitems

theorem run_memberTokens (stack : List Frame) (rest : List Token) (done : List (Key × Doc)) :
    ∀ members : List (String × Value),
      Builder.run ⟨.object done none :: stack, .separator⟩ (Value.memberTokens members ++ .closeObject :: rest) =
        (Builder.put stack (.object (done.reverse ++ writtenMembers members) none)).resume rest
  | [] => by
    rw [writtenMembers, List.append_nil]
    exact run_cons _ _ _
  | (key, v) :: members => by
    have hcomma : ∀ more, Builder.run ⟨.object done none :: stack, .separator⟩
          (.comma :: .scalar (.string (some key)) :: .colon :: more) =
        Builder.run ⟨.object done (some (some key)) :: stack, .value⟩ more := fun _ => rfl
    have hmembers := run_memberTokens stack rest ((some key, written v) :: done) members
    simp only [Value.memberTokens, List.cons_append, List.append_assoc, hcomma]
    rw [run_tokens (.object done (some (some key)) :: stack) (.inl rfl) _ v]
    rw [List.reverse_cons, List.append_assoc] at hmembers
    exact hmembers

end

/-- **A printed value is read as its document**, and nothing stands behind it. -/
theorem ofText_pretty (v : Value) : Doc.ofText v.pretty.toList = ⟨.ok (written v), false⟩ := by
  have h := run_tokens [] (.inl rfl) [] v
  rw [List.append_nil] at h
  rw [ofText, tokens_pretty, h]
  rfl

end Doc

/-! ## Readers -/

namespace Members

theorem put_of_notMem {members : Members} {key : String} (h : key ∉ members.map (·.1)) (v : Value) :
    members.put key v = members ++ [(key, v)] := by
  have : members.any (·.1 == key) = false := by
    rw [List.any_eq_false]
    intro m hm he
    exact h (List.mem_map.2 ⟨m, hm, eq_of_beq he⟩)
  rw [put, this, if_neg Bool.false_ne_true]

theorem foldl_put_of_nodup : ∀ (members done : Members), ((done ++ members).map (·.1)).Nodup →
    members.foldl (fun all m => all.put m.1 m.2) done = done ++ members
  | [], done, _ => by rw [List.foldl_nil, List.append_nil]
  | (key, v) :: members, done, h => by
    have hnew : key ∉ done.map (·.1) := fun hk => by
      rw [List.map_append, List.nodup_append] at h
      exact h.2.2 key hk key List.mem_cons_self rfl
    rw [List.foldl_cons, put_of_notMem hnew, foldl_put_of_nodup members (done ++ [(key, v)]) (by simpa using h)]
    simp

theorem ofList_of_nodup {members : Members} (h : (members.map (·.1)).Nodup) : ofList members = members :=
  foldl_put_of_nodup members [] h

end Members

theorem Value.keys_rereadMembers? : ∀ {members again : Members}, rereadMembers? members = some again →
    again.map (·.1) = members.map (·.1)
  | [], _, h => by cases h; rfl
  | (key, v) :: members, _, h => by
    obtain ⟨w, -, h⟩ := Option.bind_eq_some_iff.1 h
    obtain ⟨again, hagain, rfl⟩ := Option.map_eq_some_iff.1 h
    rw [List.map_cons, List.map_cons, Value.keys_rereadMembers? hagain]

theorem bind_eq_ok {ε α β : Type} {x : Except ε α} {f : α → Except ε β} {b : β} (h : x >>= f = .ok b) :
    ∃ a, x = .ok a ∧ f a = .ok b := by
  cases x with
  | error e => cases h
  | ok a => exact ⟨a, rfl, h⟩

theorem toOption_bind {ε α β : Type} (x : Except ε α) (f : α → Except ε β) :
    (x >>= f).toOption = x.toOption.bind fun a => (f a).toOption := by
  cases x <;> rfl

/-- What is read within two bounds, one after the other, is read within both. -/
theorem bind_within {α β : Type} {a b : Prop} [Decidable a] [Decidable b] (x : Option α) (f : α → Option β) :
    ((if a then x else none).bind fun v => if b then f v else none) = if a ∧ b then x.bind f else none := by
  by_cases ha : a <;> by_cases hb : b <;> simp [ha, hb]

theorem toOption_map {ε α β : Type} (f : α → β) (x : Except ε α) : (x.map f).toOption = x.toOption.map f := by
  cases x <;> rfl

namespace Reader

/-- From what `write` makes of `a` a reader brings `again a` back if that nests no deeper than it goes. -/
def Restores {α : Type} (read : Reader α) (write : α → Value) (again : α → Option α) (a : α) : Prop :=
  ∀ depth, (read depth (Doc.written (write a))).toOption = if (write a).nesting ≤ depth then again a else none

mutual

/-- **Any value is read from its document**, with its numbers as they are reread. -/
theorem value_written (depth : Nat) : ∀ v : Value, v.DistinctKeys →
    (value depth (Doc.written v)).toOption = if v.nesting ≤ depth then v.reread? else none
  | .null, _ | .bool _, _ | .string _, _ => by simp [Doc.written, value, Value.nesting, Value.reread?, Except.toOption]
  | .number n, _ => by
    cases hn : n.reread? <;> simp [Doc.written, value, Value.nesting, Value.reread?, hn, Except.toOption]
  | .array items, h => by
    cases depth with
    | zero => simp [Doc.written, value, Value.nesting, Except.toOption]
    | succ depth =>
      have hitems := values_written depth [] items h
      rw [Doc.written, value, toOption_bind, hitems, Value.nesting, Value.reread?]
      simp only [Nat.add_le_add_iff_right, List.reverse_nil, List.nil_append, Option.map_id', endOf]
      split
      · cases Value.rereadItems? items <;> rfl
      · rfl
  | .object members, h => by
    cases depth with
    | zero => simp [Doc.written, value, Value.nesting, Except.toOption]
    | succ depth =>
      have hmembers := membersOf_written depth [] members h.2
      rw [Doc.written, value, toOption_bind, hmembers, Value.nesting, Value.reread?]
      simp only [Nat.add_le_add_iff_right, List.reverse_nil, List.nil_append, Option.map_id', endOfMembers]
      split
      · cases hm : Value.rereadMembers? members with
        | none => rfl
        | some again =>
          have hkeys : (again.map (·.1)).Nodup := by rw [Value.keys_rereadMembers? hm]; exact h.1
          simp [Except.toOption, Members.ofList_of_nodup hkeys, bind, Except.bind, pure, Except.pure]
      · rfl

theorem values_written (depth : Nat) (done : List Value) : ∀ vs : List Value, Value.ItemsDistinct vs →
    (values depth done (Doc.writtenItems vs)).toOption =
      if Value.itemNesting vs ≤ depth then (Value.rereadItems? vs).map (done.reverse ++ ·) else none
  | [], _ => by simp [Doc.writtenItems, values, Value.itemNesting, Value.rereadItems?, Except.toOption]
  | v :: vs, h => by
    have hstep : values depth done (Doc.writtenItems (v :: vs)) =
        value depth (Doc.written v) >>= fun w => values depth (w :: done) (Doc.writtenItems vs) := by
      rw [Doc.writtenItems, values]
      cases value depth (Doc.written v) <;> rfl
    rw [hstep, toOption_bind, value_written depth v h.1, Value.itemNesting, Value.rereadItems?]
    simp only [fun w => values_written depth (w :: done) vs h.2, bind_within, Nat.max_le, Option.map_bind,
      Option.map_map, Function.comp_def, List.reverse_cons, List.append_assoc, List.singleton_append]

theorem membersOf_written (depth : Nat) (done : List (String × Value)) : ∀ members : List (String × Value),
    Value.MembersDistinct members →
    (membersOf depth done (Doc.writtenMembers members)).toOption =
      if Value.memberNesting members ≤ depth then (Value.rereadMembers? members).map (done.reverse ++ ·) else none
  | [], _ => by simp [Doc.writtenMembers, membersOf, Value.memberNesting, Value.rereadMembers?, Except.toOption]
  | (key, v) :: members, h => by
    have hstep : membersOf depth done (Doc.writtenMembers ((key, v) :: members)) =
        value depth (Doc.written v) >>= fun w => membersOf depth ((key, w) :: done) (Doc.writtenMembers members) := by
      rw [Doc.writtenMembers, membersOf]
      cases value depth (Doc.written v) <;> rfl
    rw [hstep, toOption_bind, value_written depth v h.1, Value.memberNesting, Value.rereadMembers?]
    simp only [fun w => membersOf_written depth ((key, w) :: done) members h.2, bind_within, Nat.max_le,
      Option.map_bind, Option.map_map, Function.comp_def, List.reverse_cons, List.append_assoc, List.singleton_append]

end

theorem restores_value {v : Value} (h : v.DistinctKeys) : Restores value id Value.reread? v :=
  fun depth => value_written depth v h

theorem restores_members {all : Members} (h : (Value.object all).DistinctKeys) :
    Restores members .object Value.rereadMembers? all := by
  intro depth
  have hv := value_written depth (.object all) h
  have heq : (members depth (Doc.written (.object all))).map .object = value depth (Doc.written (.object all)) := by
    cases depth with
    | zero => rfl
    | succ depth =>
      rw [Doc.written, members, value]
      cases membersOf depth [] (Doc.writtenMembers all) <;> rfl
  rw [← heq, toOption_map, Value.reread?] at hv
  split at hv
  · rename_i hn
    rw [if_pos hn]
    exact Option.map_injective (fun _ _ h => Value.object.inj h) hv
  · rename_i hn
    rw [if_neg hn]
    exact Option.map_eq_none_iff.1 hv

theorem restores_string (s : String) : Restores string .string some s := fun _ => by
  simp [Value.nesting, Doc.written, string, Except.toOption]

theorem restores_optional {α : Type} {read : Reader α} {write : α → Value} {again : α → Option α} {o : Option α}
    (hnull : ∀ a, Doc.written (write a) ≠ .scalar .null) (h : ∀ a ∈ o, Restores read write again a) :
    Restores (optional read) (fun o => o.elim .null write)
    (fun o => o.elim (some none) fun a => (again a).map some) o := by
  intro depth
  cases o with
  | none => simp [Value.nesting, Doc.written, optional, Except.toOption]
  | some a =>
    have hread : optional read depth (Doc.written (write a)) = (read depth (Doc.written (write a))).map some := by
      rw [optional]
      exact hnull a
    by_cases hn : (write a).nesting ≤ depth <;> simp [hread, toOption_map, h a rfl depth, hn]

theorem items_written {α : Type} {read : Reader α} {write : α → Value} {again : α → Option α} (depth : Nat) :
    ∀ (all done : List α), (∀ a ∈ all, Restores read write again a) →
      (items (read depth) done (Doc.writtenItems (all.map write))).toOption =
        if Value.itemNesting (all.map write) ≤ depth then (all.mapM again).map (done.reverse ++ ·) else none
  | [], done, _ => by simp [Doc.writtenItems, items, Value.itemNesting, Except.toOption]
  | a :: all, done, h => by
    have hstep : items (read depth) done (Doc.writtenItems ((a :: all).map write)) =
        read depth (Doc.written (write a)) >>= fun b =>
          items (read depth) (b :: done) (Doc.writtenItems (all.map write)) := by
      rw [List.map_cons, Doc.writtenItems, items]
      cases read depth (Doc.written (write a)) <;> rfl
    have hrest := fun b => items_written depth all (b :: done) fun a ha => h a (List.mem_cons_of_mem _ ha)
    rw [hstep, toOption_bind, h a List.mem_cons_self depth, List.map_cons, Value.itemNesting, List.mapM_cons]
    simp only [hrest, bind_within, Nat.max_le, Option.bind_eq_bind, Option.pure_def, List.reverse_cons,
      List.append_assoc, List.singleton_append, Function.comp_def, Option.map_eq_bind, Option.bind_assoc,
      Option.bind_some]

theorem restores_list {α : Type} {read : Reader α} {write : α → Value} {again : α → Option α} {all : List α}
    (h : ∀ a ∈ all, Restores read write again a) :
    Restores (list read) (fun all => .array (all.map write)) (fun all => all.mapM again) all := by
  intro depth
  cases depth with
  | zero => simp [Doc.written, list, Value.nesting, Except.toOption]
  | succ depth =>
    have hitems := items_written depth all [] h
    rw [Doc.written, list, toOption_bind, hitems, Value.nesting]
    simp only [Nat.add_le_add_iff_right, List.reverse_nil, List.nil_append, Option.map_id', endOf]
    split
    · cases all.mapM again <;> rfl
    · rfl

end Reader

theorem parse_pretty {v : Value} (hdistinct : v.DistinctKeys) (hnesting : v.nesting ≤ Reader.maxDepth)
    (hnumbers : ∀ n ∈ v.numbers, n.reread? = some n) : parse v.pretty.toList = .ok v := by
  have hread := Reader.value_written Reader.maxDepth v hdistinct
  rw [if_pos hnesting, (Value.reread?_eq_self v).2 hnumbers] at hread
  rw [parse, Reader.run, Doc.ofText_pretty]
  dsimp only
  cases hvalue : Reader.value Reader.maxDepth (Doc.written v) with
  | error e => rw [hvalue] at hread; cases hread
  | ok w =>
    rw [hvalue] at hread
    cases hread
    rfl

end ApiCatalog.Json
