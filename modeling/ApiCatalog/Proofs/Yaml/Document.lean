import ApiCatalog.Proofs.Json.Sound
import ApiCatalog.Proofs.Yaml.Flow
import ApiCatalog.Proofs.Yaml.Written
/-!
# JSON documents as YAML values

The tokens of a node in flow style make the events of the node (`ofTokens?_tokens`), and these the value of the node.  So
the text of a JSON object is read as an object with no other keys, if it is read at all (`object_of_ofText?_pretty`).
-/

namespace ApiCatalog.Yaml

namespace Flow

mutual

/-- The node as it is written, without tags. -/
def written : Flow → Written
  | .scalar text plain => .scalar none (String.ofList text) plain
  | .sequence items => .sequence none (writtenItems items)
  | .mapping members => .mapping none (writtenMembers members)

def writtenItems : List Flow → List Written
  | [] => []
  | v :: vs => written v :: writtenItems vs

def writtenMembers : List (FlowKey × Flow) → List (Written × Written)
  | [] => []
  | (key, v) :: members => (.scalar none (String.ofList key.text) false, written v) :: writtenMembers members

end

end Flow

/-! ## Events -/

namespace Event.Machine

/-- The machine gets to the end of the document, where it is as told. -/
def Runs (last m : Machine) : Prop := ∃ fuel, run? fuel m = some last

section
variable {last m next : Machine} {stack : List Place} {events : List Event} {rest : List Token} {handles : Handles}

theorem Runs.cases (h : Runs last m) :
    m.place = .documentEnd ∧ m = last ∨ ∃ next, m.step? = some next ∧ Runs last next := by
  obtain ⟨fuel, h⟩ := h
  cases fuel with
  | zero => cases h
  | succ fuel =>
    rw [run?] at h
    split at h
    · rename_i hend
      exact .inl ⟨hend, Option.some.inj h⟩
    · obtain ⟨next, hstep, h⟩ := Option.bind_eq_some_iff.1 h
      exact .inr ⟨next, hstep, fuel, h⟩

theorem Runs.step (h : Runs last m) (hstep : m.step? = some next) : Runs last next := by
  rcases h.cases with ⟨hend, -⟩ | ⟨other, hother, h⟩
  · rw [step?, hend] at hstep
    cases hstep
  · cases hstep.symm.trans hother
    exact h

/-! ### Entries of collections -/

theorem flowSequenceStep?_first (node : Flow) {place : Place} :
    flowSequenceStep? ⟨place, stack, node.tokens ++ rest, events, handles⟩ true =
      some ⟨.node false false, .flowSequenceEntry :: stack, node.tokens ++ rest, events, handles⟩ := by
  rcases node with _ | (_ | _) | (_ | _) <;> rfl

theorem flowSequenceStep?_entry (node : Flow) {place : Place} :
    flowSequenceStep? ⟨place, stack, .flowEntry :: (node.tokens ++ rest), events, handles⟩ false =
      some ⟨.node false false, .flowSequenceEntry :: stack, node.tokens ++ rest, events, handles⟩ := by
  rcases node with _ | (_ | _) | (_ | _) <;> rfl

def behindKey (key : FlowKey) : Place := if key.marked then .flowMappingValue else .flowMappingEmptyValue

theorem flowMappingStep?_first (key : FlowKey) {place : Place} :
    flowMappingStep? ⟨place, stack, key.tokens ++ rest, events, handles⟩ true =
      some ⟨.node false false, behindKey key :: stack, .scalar key.text false :: .value :: rest, events, handles⟩ := by
  rcases key with ⟨_, _ | _⟩ <;> rfl

theorem flowMappingStep?_entry (key : FlowKey) {place : Place} :
    flowMappingStep? ⟨place, stack, .flowEntry :: (key.tokens ++ rest), events, handles⟩ false =
      some ⟨.node false false, behindKey key :: stack, .scalar key.text false :: .value :: rest, events, handles⟩ := by
  rcases key with ⟨_, _ | _⟩ <;> rfl

theorem flowMappingValueStep_tokens (node : Flow) {place : Place} :
    flowMappingValueStep ⟨place, stack, .value :: (node.tokens ++ rest), events, handles⟩ =
      ⟨.node false false, .flowMappingKey :: stack, node.tokens ++ rest, events, handles⟩ := by
  rcases node with _ | (_ | _) | (_ | _) <;> rfl

/-- A key has to be marked as one, since no colon may follow it otherwise. -/
theorem Runs.key {key : FlowKey} {node : Flow} (h : Runs last
      ⟨.node false false, behindKey key :: stack, .scalar key.text false :: .value :: (node.tokens ++ rest), events,
        handles⟩) :
    Runs last ⟨.node false false, .flowMappingKey :: stack, node.tokens ++ rest,
      .scalar .none key.text false :: events, handles⟩ := by
  have h : Runs last ⟨behindKey key, stack, .value :: (node.tokens ++ rest), .scalar .none key.text false :: events,
    handles⟩ := h.step rfl
  rcases key with ⟨text, _ | _⟩
  · have h : Runs last ⟨.flowMappingKey, stack, .value :: (node.tokens ++ rest), _, handles⟩ := h.step rfl
    rcases h.cases with ⟨hend, -⟩ | ⟨next, hstep, -⟩
    · cases hend
    · cases hstep
  · exact h.step (congrArg some (flowMappingValueStep_tokens node))

/-! ### Nodes -/

mutual

/-- **The tokens of a node make its events.** -/
theorem runs_node : ∀ (node : Flow) {block : Bool} {back : Place} {stack : List Place} {rest : List Token}
    {events : List Event}, Runs last ⟨.node block false, back :: stack, node.tokens ++ rest, events, handles⟩ →
    Runs last ⟨back, stack, rest, node.written.events.reverse ++ events, handles⟩
  | .scalar text plain, block, back, stack, rest, events, h => by
    have h : Runs last ⟨back, stack, rest, .scalar .none text plain :: events, handles⟩ := h.step rfl
    simpa [Flow.written, Written.events, Properties.none] using h
  | .sequence [], _, _, _, _, _, h => (h.step rfl).step rfl
  | .sequence (v :: vs), block, back, stack, rest, events, h => by
    simp only [Flow.tokens, List.cons_append, List.append_assoc] at h
    have h : Runs last ⟨.flowSequenceFirst, back :: stack, _, .sequenceStart .none :: events, handles⟩ := h.step rfl
    have h := runs_items vs (runs_node v (h.step (flowSequenceStep?_first v)))
    have h : Runs last ⟨back, stack, rest, .sequenceEnd :: _, handles⟩ := h.step rfl
    simpa [Flow.written, Flow.writtenItems, Written.events, Written.itemEvents, Properties.none] using h
  | .mapping [], _, _, _, _, _, h => (h.step rfl).step rfl
  | .mapping ((key, v) :: members), block, back, stack, rest, events, h => by
    simp only [Flow.tokens, List.cons_append, List.append_assoc] at h
    have h : Runs last ⟨.flowMappingFirst, back :: stack, _, .mappingStart .none :: events, handles⟩ := h.step rfl
    have h := runs_members members (runs_node v (h.step (flowMappingStep?_first key)).key)
    have h : Runs last ⟨back, stack, rest, .mappingEnd :: _, handles⟩ := h.step rfl
    simpa [Flow.written, Flow.writtenMembers, Written.events, Written.memberEvents, Properties.none] using h

theorem runs_items : ∀ (nodes : List Flow) {stack : List Place} {rest : List Token} {events : List Event},
    Runs last ⟨.flowSequenceEntry, stack, Flow.itemTokens nodes ++ rest, events, handles⟩ →
    Runs last ⟨.flowSequenceEntry, stack, rest, (Written.itemEvents (Flow.writtenItems nodes)).reverse ++ events, handles⟩
  | [], _, _, _, h => h
  | v :: vs, stack, rest, events, h => by
    simp only [Flow.itemTokens, List.cons_append, List.append_assoc] at h
    have h := runs_items vs (runs_node v (h.step (flowSequenceStep?_entry v)))
    simpa [Flow.writtenItems, Written.itemEvents] using h

theorem runs_members : ∀ (members : List (FlowKey × Flow)) {stack : List Place} {rest : List Token} {events : List Event},
    Runs last ⟨.flowMappingKey, stack, Flow.memberTokens members ++ rest, events, handles⟩ →
    Runs last ⟨.flowMappingKey, stack, rest, (Written.memberEvents (Flow.writtenMembers members)).reverse ++ events, handles⟩
  | [], _, _, _, h => h
  | (key, v) :: members, stack, rest, events, h => by
    simp only [Flow.memberTokens, List.cons_append, List.append_assoc] at h
    have h := runs_members members (runs_node v (h.step (flowMappingStep?_entry key)).key)
    simpa [Flow.writtenMembers, Written.events, Written.memberEvents, Properties.none] using h

end

end

end Machine

theorem ofTokens?_tokens {node : Flow} {events : List Event} (h : ofTokens? (node.tokens ++ [.streamEnd]) = some events) :
    events = node.written.events := by
  have hstart : start? (node.tokens ++ [.streamEnd]) =
      some (some ⟨.node true false, [.documentEnd], node.tokens ++ [.streamEnd], [], defaultHandles⟩) := by
    rcases node with _ | (_ | _) | (_ | _) <;> rfl
  rw [ofTokens?, hstart] at h
  obtain ⟨start, hsome, h⟩ := Option.bind_eq_some_iff.1 h
  cases hsome
  obtain ⟨last, hrun, h⟩ := Option.bind_eq_some_iff.1 h
  rcases (Machine.runs_node node ⟨_, hrun⟩).cases with ⟨-, rfl⟩ | ⟨next, hstep, -⟩
  · cases h
    simp
  · cases hstep

end Event

/-! ## Values -/

namespace Value

/-- The keys of a node in flow style are read as their texts. -/
theorem key_of_mem_memberValues? {depth : Nat} : ∀ {members : List (FlowKey × Flow)} {done all : List (Value × Value)},
    Written.memberValues? depth done (Flow.writtenMembers members) = some all →
      ∀ m ∈ all, ∃ member ∈ members, m.1 = .string (String.ofList member.1.text)
  | [], _, _, h => by
    cases h
    exact fun m hm => absurd hm List.not_mem_nil
  | (key, v) :: members, _, _, h => by
    obtain ⟨text, htext, h⟩ := Option.bind_eq_some_iff.1 h
    obtain rfl : .string (String.ofList key.text) = text := Option.some.inj htext
    split at h
    · cases h
    · obtain ⟨value, -, h⟩ := Option.bind_eq_some_iff.1 h
      obtain ⟨rest, hrest, rfl⟩ := Option.map_eq_some_iff.1 h
      refine List.forall_mem_cons.2 ⟨⟨(key, v), List.mem_cons_self, rfl⟩, fun m hm => ?_⟩
      obtain ⟨member, hmember, hkey⟩ := key_of_mem_memberValues? hrest m hm
      exact ⟨member, List.mem_cons_of_mem _ hmember, hkey⟩

/-- The text of an object, if it can be read, is read as a mapping; its keys are read from those of the object. -/
theorem mapping_of_ofText?_pretty {members : Json.Members} {v : Value}
    (h : ofText? (Json.Value.object members).pretty.toList = some v) :
    ∃ nodes all, Lexer.ReadKeys members nodes ∧ v = .mapping all ∧
      ∀ m ∈ all, ∃ member ∈ nodes, m.1 = .string (String.ofList member.1.text) := by
  obtain ⟨tokens, htokens, hrest⟩ := Option.bind_eq_some_iff.1 h
  obtain ⟨nodes, rfl, hread⟩ := tokens?_pretty htokens
  obtain ⟨events, hevents, -⟩ := Option.bind_eq_some_iff.1 hrest
  have hwrites : Written.Writes (Json.Value.object members).pretty.toList (Flow.mapping nodes).written := by
    rw [Written.Writes, htokens, Option.bind_some, hevents, Event.ofTokens?_tokens hevents]
  rw [Written.ofText?_of_writes hwrites] at h
  obtain ⟨all, hall, htagged⟩ := Option.bind_eq_some_iff.1 h
  cases htagged
  exact ⟨nodes, all, hread, rfl, key_of_mem_memberValues? hall⟩

theorem key_of_mem_membersToJson : ∀ {members : List (Value × Value)} {done : List (String × Json.Value)},
    ∀ m ∈ membersToJson done members, m ∈ done ∨ ∃ member ∈ members, keyText? member.1 = some m.1
  | [], done, m, hm => .inl (List.mem_reverse.1 hm)
  | (key, v) :: members, done, m, hm => by
    rw [membersToJson] at hm
    split at hm
    · rename_i text hkey
      rcases key_of_mem_membersToJson m hm with hdone | ⟨member, hmember, hm⟩
      · rcases List.mem_cons.1 hdone with rfl | hdone
        · exact .inr ⟨(key, v), List.mem_cons_self, hkey⟩
        · exact .inl hdone
      · exact .inr ⟨member, List.mem_cons_of_mem _ hmember, hm⟩
    · rcases key_of_mem_membersToJson m hm with hdone | ⟨member, hmember, hm⟩
      · exact .inl hdone
      · exact .inr ⟨member, List.mem_cons_of_mem _ hmember, hm⟩

/-- **The text of an object, if it can be read, is read as an object with no other keys**, as long as the keys have plain
characters alone; whatever strings and keys lie deeper. -/
theorem object_of_ofText?_pretty {members : Json.Members}
    (hkeys : ∀ m ∈ members, ∀ c ∈ m.1.toList, isNameChar c = true) {v : Value}
    (h : ofText? (Json.Value.object members).pretty.toList = some v) :
    ∃ again : Json.Members, v.toJson = .object again ∧ ∀ m ∈ again, m.1 ∈ members.map (·.1) := by
  obtain ⟨nodes, all, hread, rfl, hall⟩ := mapping_of_ofText?_pretty h
  refine ⟨_, rfl, fun m hm => ?_⟩
  obtain ⟨kept, hkept, hkey⟩ := List.mem_map.1 (Json.Members.key_of_mem_ofList hm)
  rcases key_of_mem_membersToJson kept hkept with hnone | ⟨member, hmember, htext⟩
  · cases hnone
  · obtain ⟨node, hnode, hstring⟩ := hall member hmember
    obtain ⟨written, hwritten, hsame⟩ := hread node hnode
    rw [hstring, hsame (hkeys written hwritten), String.ofList_toList] at htext
    rw [← hkey, ← Option.some.inj htext]
    exact List.mem_map_of_mem hwritten

end Value

end ApiCatalog.Yaml
