import ApiCatalog.Proofs.Yaml.Node
/-!
# Nodes as they are written

A document without anchors and aliases is a tree of nodes, and its value is that of the tree (`ofText?_of_writes`).
-/

namespace ApiCatalog.Yaml

/-- A node as it is written, with no anchor and no alias. -/
inductive Written where
  | scalar (tag : Option (List Char)) (text : String) (plain : Bool)
  | sequence (tag : Option (List Char)) (items : List Written)
  | mapping (tag : Option (List Char)) (members : List (Written × Written))

namespace Written

open Yaml.Value (ofScalar? ownTag? tag? same)

mutual

def events : Written → List Event
  | .scalar tag text plain => [.scalar ⟨none, tag⟩ text.toList plain]
  | .sequence tag items => .sequenceStart ⟨none, tag⟩ :: (itemEvents items ++ [.sequenceEnd])
  | .mapping tag members => .mappingStart ⟨none, tag⟩ :: (memberEvents members ++ [.mappingEnd])

def itemEvents : List Written → List Event
  | [] => []
  | w :: ws => events w ++ itemEvents ws

def memberEvents : List (Written × Written) → List Event
  | [] => []
  | (key, w) :: members => events key ++ (events w ++ memberEvents members)

end

mutual

/-- The value of a node, with a number of levels left for it. -/
def value? : Nat → Written → Option Value
  | _, .scalar tag text plain =>
    (ofScalar? (tag.map String.ofList) (ownTag? tag).isSome text plain).bind (tag? (ownTag? tag))
  | 0, .sequence _ _ => none
  | depth + 1, .sequence tag items => (itemValues? depth items).bind fun vs => tag? (ownTag? tag) (.sequence vs)
  | 0, .mapping _ _ => none
  | depth + 1, .mapping tag members =>
    (memberValues? depth [] members).bind fun vs => tag? (ownTag? tag) (.mapping vs)

def itemValues? (depth : Nat) : List Written → Option (List Value)
  | [] => some []
  | w :: ws => (value? depth w).bind fun v => (itemValues? depth ws).map (v :: ·)

/-- The values of members behind others; no key may come twice. -/
def memberValues? (depth : Nat) (done : List (Value × Value)) : List (Written × Written) → Option (List (Value × Value))
  | [] => some []
  | (key, w) :: members => (value? depth key).bind fun key =>
    if done.any fun member => same member.1 key then none
    else (value? depth w).bind fun v => (memberValues? depth ((key, v) :: done) members).map ((key, v) :: ·)

end

/-! ## Reading -/

theorem exists_events (w : Written) :
    ∃ event rest, w.events = event :: rest ∧ event ≠ .sequenceEnd ∧ event ≠ .mappingEnd := by
  cases w <;> exact ⟨_, _, rfl, nofun, nofun⟩

theorem length_le_itemEvents : ∀ ws : List Written, ws.length ≤ (itemEvents ws).length
  | [] => Nat.le_refl 0
  | w :: ws => by
    obtain ⟨event, rest, hevents, -⟩ := exists_events w
    have hlength := length_le_itemEvents ws
    rw [itemEvents, List.length_append, hevents, List.length_cons, List.length_cons]
    omega

theorem length_le_memberEvents : ∀ members : List (Written × Written), members.length ≤ (memberEvents members).length
  | [] => Nat.le_refl 0
  | (key, w) :: members => by
    obtain ⟨event, rest, hevents, -⟩ := exists_events key
    have hlength := length_le_memberEvents members
    rw [memberEvents, List.length_append, List.length_append, hevents, List.length_cons, List.length_cons]
    omega

mutual

theorem bare_of_mem_events : ∀ w : Written, ∀ event ∈ w.events, Value.Bare event
  | .scalar tag text plain => by simp [events, Value.Bare]
  | .sequence tag items => by
    have hitems := bare_of_mem_itemEvents items
    simpa [events, Value.Bare, or_imp, forall_and] using hitems
  | .mapping tag members => by
    have hmembers := bare_of_mem_memberEvents members
    simpa [events, Value.Bare, or_imp, forall_and] using hmembers

theorem bare_of_mem_itemEvents : ∀ ws : List Written, ∀ event ∈ itemEvents ws, Value.Bare event
  | [] => by simp [itemEvents]
  | w :: ws => by
    rw [itemEvents, List.forall_mem_append]
    exact ⟨bare_of_mem_events w, bare_of_mem_itemEvents ws⟩

theorem bare_of_mem_memberEvents : ∀ members : List (Written × Written), ∀ event ∈ memberEvents members,
    Value.Bare event
  | [] => by simp [memberEvents]
  | (key, w) :: members => by
    rw [memberEvents, List.forall_mem_append, List.forall_mem_append]
    exact ⟨bare_of_mem_events key, bare_of_mem_events w, bare_of_mem_memberEvents members⟩

end

section
variable {doc : Value.Resolved} {all : List Event} {read : Value.Cursor → Option (Value × Value.Cursor)}
  {depth jumps : Nat}

/-- A reader gives the value of each node of the document and goes on behind it. -/
def Reads (all : List Event) (depth : Nat) (read : Value.Cursor → Option (Value × Value.Cursor)) : Prop :=
  ∀ {w : Written} {rest : List Event} {position jumps : Nat}, all.drop position = w.events ++ rest →
    read ⟨position, jumps⟩ = (w.value? depth).map (·, ⟨position + w.events.length, jumps⟩)

theorem readItems_node {event : Event} (fuel : Nat) (done : List Value) {position : Nat}
    (hevent : doc.events[position]? = some (event, none)) (hne : event ≠ .sequenceEnd) :
    Value.readItems doc read (fuel + 1) done ⟨position, jumps⟩ = (read ⟨position, jumps⟩).bind fun found =>
      Value.readItems doc read fuel (found.1 :: done) found.2 := by
  rw [Value.readItems, hevent]
  split
  · rename_i heq
    cases heq
    exact absurd rfl hne
  · cases read ⟨position, jumps⟩ <;> rfl

theorem readItems_written (hdoc : Value.Holds doc all) (hread : Reads all depth read) : ∀ {ws : List Written}
    {fuel : Nat} {done : List Value} {rest : List Event} {position : Nat}, ws.length < fuel →
    all.drop position = itemEvents ws ++ .sequenceEnd :: rest →
    Value.readItems doc read fuel done ⟨position, jumps⟩ = (itemValues? depth ws).map fun vs =>
      (done.reverse ++ vs, ⟨position + (itemEvents ws).length + 1, jumps⟩)
  | _, 0, _, _, _, hfuel, _ => by cases hfuel
  | [], fuel + 1, done, rest, position, _, hdrop => by
    rw [Value.readItems, hdoc.get hdrop]
    simp [itemValues?, itemEvents]
  | w :: ws, fuel + 1, done, rest, position, hfuel, hdrop => by
    rw [itemEvents, List.append_assoc] at hdrop
    obtain ⟨event, more, hevents, hend, -⟩ := exists_events w
    have hevent := hdoc.get (hevents ▸ hdrop : all.drop position = (event :: more) ++ _)
    rw [readItems_node fuel done hevent hend, hread hdrop, itemValues?]
    cases w.value? depth with
    | none => rfl
    | some v =>
      rw [Option.map_some, Option.bind_some, Option.bind_some,
        readItems_written hdoc hread (Nat.lt_of_succ_lt_succ hfuel) (Value.drop_add hdrop), Option.map_map]
      simp [itemEvents, Function.comp_def, Nat.add_assoc]

theorem readMembers_node {event : Event} (fuel : Nat) (done : List (Value × Value)) {position : Nat}
    (hevent : doc.events[position]? = some (event, none)) (hne : event ≠ .mappingEnd) :
    Value.readMembers doc read (fuel + 1) done ⟨position, jumps⟩ = (read ⟨position, jumps⟩).bind fun key =>
      if done.any fun member => same member.1 key.1 then none
      else (read key.2).bind fun found => Value.readMembers doc read fuel ((key.1, found.1) :: done) found.2 := by
  rw [Value.readMembers, hevent]
  split
  · rename_i heq
    cases heq
    exact absurd rfl hne
  · cases read ⟨position, jumps⟩ with
    | none => rfl
    | some key =>
      dsimp only [Option.bind_some]
      split
      · rfl
      · cases read key.2 <;> rfl

theorem readMembers_written (hdoc : Value.Holds doc all) (hread : Reads all depth read) :
    ∀ {ws : List (Written × Written)} {fuel : Nat} {done : List (Value × Value)} {rest : List Event} {position : Nat},
    ws.length < fuel → all.drop position = memberEvents ws ++ .mappingEnd :: rest →
    Value.readMembers doc read fuel done ⟨position, jumps⟩ = (memberValues? depth done ws).map fun vs =>
      (done.reverse ++ vs, ⟨position + (memberEvents ws).length + 1, jumps⟩)
  | _, 0, _, _, _, hfuel, _ => by cases hfuel
  | [], fuel + 1, done, rest, position, _, hdrop => by
    rw [Value.readMembers, hdoc.get hdrop]
    simp [memberValues?, memberEvents]
  | (key, w) :: ws, fuel + 1, done, rest, position, hfuel, hdrop => by
    rw [memberEvents, List.append_assoc, List.append_assoc] at hdrop
    obtain ⟨event, more, hevents, -, hend⟩ := exists_events key
    have hevent := hdoc.get (hevents ▸ hdrop : all.drop position = (event :: more) ++ _)
    rw [readMembers_node fuel done hevent hend, hread hdrop, memberValues?]
    have hdrop := Value.drop_add hdrop
    cases key.value? depth with
    | none => rfl
    | some text =>
      rw [Option.map_some, Option.bind_some, Option.bind_some]
      split
      · rfl
      · rw [hread hdrop]
        cases w.value? depth with
        | none => rfl
        | some v =>
          rw [Option.map_some, Option.bind_some, Option.bind_some,
            readMembers_written hdoc hread (Nat.lt_of_succ_lt_succ hfuel) (Value.drop_add hdrop), Option.map_map]
          simp [memberEvents, Function.comp_def, Nat.add_assoc]

/-- There are as many rounds as the document has events, so more than there are nodes in a collection. -/
theorem lt_size (hdoc : Value.Holds doc all) {event : Event} {part rest : List Event} {position count : Nat}
    (hdrop : all.drop position = [event] ++ (part ++ rest)) (hcount : count ≤ part.length) : count < doc.events.size := by
  have hsize : doc.events.size = all.length := by rw [show doc.events = _ from hdoc]; simp
  have hlength : (all.drop position).length ≤ all.length := by rw [List.length_drop]; exact Nat.sub_le _ _
  rw [hdrop, List.length_append, List.length_append, List.length_singleton] at hlength
  omega

/-- **A node is read as its value**, to its end. -/
theorem reads_readNode (hdoc : Value.Holds doc all) (depth : Nat) : Reads all depth (Value.readNode doc depth) := by
  induction depth using Nat.strongRecOn with
  | ind depth ih =>
    intro w rest position jumps hdrop
    cases w with
    | scalar tag text plain =>
      rw [Value.readNode_scalar (hdoc.get hdrop), String.ofList_toList]
      rfl
    | sequence tag items =>
      have hstart : all.drop position = [.sequenceStart ⟨none, tag⟩] ++ (itemEvents items ++ .sequenceEnd :: rest) := by
        simpa [events] using hdrop
      cases depth with
      | zero => exact Value.readNode_zero (hdoc.get hstart) nofun
      | succ depth =>
        have hitems : Value.readItems doc (Value.readNode doc depth) doc.events.size [] ⟨position + 1, jumps⟩ = _ :=
          readItems_written hdoc (ih depth (Nat.lt_succ_self depth))
            (lt_size hdoc hstart (length_le_itemEvents items)) (Value.drop_add hstart)
        rw [Value.readNode_sequence (hdoc.get hstart), hitems, value?, Option.map_bind, Option.bind_map]
        refine Option.bind_congr fun vs _ => ?_
        simp [events, Nat.add_assoc, Nat.add_comm 1]
    | mapping tag members =>
      have hstart : all.drop position = [.mappingStart ⟨none, tag⟩] ++ (memberEvents members ++ .mappingEnd :: rest) := by
        simpa [events] using hdrop
      cases depth with
      | zero => exact Value.readNode_zero (hdoc.get hstart) nofun
      | succ depth =>
        have hmembers : Value.readMembers doc (Value.readNode doc depth) doc.events.size [] ⟨position + 1, jumps⟩ = _ :=
          readMembers_written hdoc (ih depth (Nat.lt_succ_self depth))
            (lt_size hdoc hstart (length_le_memberEvents members)) (Value.drop_add hstart)
        rw [Value.readNode_mapping (hdoc.get hstart), hmembers, value?, Option.map_bind, Option.bind_map]
        refine Option.bind_congr fun vs _ => ?_
        simp [events, Nat.add_assoc, Nat.add_comm 1]

end

/-- The text is a document that is written as this node. -/
def Writes (text : List Char) (w : Written) : Prop := (tokens? text).bind Event.ofTokens? = some w.events

instance (text : List Char) (w : Written) : Decidable (Writes text w) := inferInstanceAs (Decidable (_ = _))

/-- **The value of a document is that of the node that it is written as.** -/
theorem ofText?_of_writes {text : List Char} {w : Written} (h : Writes text w) :
    Value.ofText? text = w.value? Value.maxDepth := by
  obtain ⟨tokens, htokens, hevents⟩ := Option.bind_eq_some_iff.1 h
  obtain ⟨event, rest, hcons, -⟩ := exists_events w
  have hresolved := Value.resolveFrom_bare ⟨[], []⟩ #[] (bare_of_mem_events w)
  have hholds : Value.Holds ⟨#[] ++ (w.events.map (·, none)).toArray, []⟩ w.events := by simp [Value.Holds]
  have hread : Value.readNode _ Value.maxDepth ⟨0, 0⟩ = _ :=
    reads_readNode hholds Value.maxDepth (show w.events.drop 0 = w.events ++ [] by simp)
  have hne : ¬ w.events.isEmpty = true := by rw [hcons]; exact Bool.false_ne_true
  simp only [Value.ofText?, htokens, hevents, Option.bind_eq_bind, Option.bind_some, hne, hresolved, hread]
  cases w.value? Value.maxDepth <;> rfl

end Written

end ApiCatalog.Yaml
