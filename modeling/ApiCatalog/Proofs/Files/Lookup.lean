import ApiCatalog.Files.Tree
import ApiCatalog.Proofs.Files.Path
/-!
# Where paths lead

Which node a path leads to depends on nothing but what is at each place of the tree (`follow_eq`), a place being
a list of names that leads to a node without links.  A path that goes on behind a folder leads on from there
(`followAt_append`, `locate_child`).
-/

namespace ApiCatalog.Node

mutual

/-- The names in each folder are proper and different. -/
def WellFormed : Node → Prop
  | .folder entries => (entries.map (·.1)).Nodup ∧ EntriesWellFormed entries
  | _ => True

def EntriesWellFormed : List (Name × Node) → Prop
  | [] => True
  | (name, node) :: entries => (name.Plain ∧ WellFormed node) ∧ EntriesWellFormed entries

end

/-- What is at a place. -/
def at? : Node → List Name → Option Node
  | node, [] => some node
  | .folder entries, name :: names => (named? name entries).bind fun node => node.at? names
  | _, _ :: _ => none

theorem at?_append : ∀ (names more : List Name) (node : Node),
    node.at? (names ++ more) = (node.at? names).bind fun inner => inner.at? more
  | [], more, node => by cases node <;> rfl
  | name :: names, more, .folder entries => by
    rw [List.cons_append, at?, at?, Option.bind_assoc]
    congr 1
    funext inner
    exact at?_append names more inner
  | _ :: _, _, .file _ _ | _ :: _, _, .link _ | _ :: _, _, .sealed _ _ _ | _ :: _, _, .barred _ => rfl

theorem at?_nil (node : Node) : node.at? [] = some node := by cases node <;> rfl

/-- What a folder holds is one name behind the folder. -/
theorem at?_concat {root : Node} {place : List Name} {entries : List (Name × Node)}
    (h : root.at? place = some (.folder entries))
    (name : Name) : root.at? (place ++ [name]) = named? name entries := by
  rw [at?_append, h, Option.bind_some, at?]
  simp only [at?_nil, Option.bind_fun_some]

theorem named?_of_mem {name : Name} {node : Node} : ∀ {entries : List (Name × Node)}, (entries.map (·.1)).Nodup →
    (name, node) ∈ entries → named? name entries = some node
  | [], _, h => by cases h
  | (other, first) :: entries, hnodup, h => by
    rw [List.map_cons, List.nodup_cons] at hnodup
    unfold named?
    rw [List.find?_cons]
    rcases List.mem_cons.1 h with h | h
    · cases h
      simp
    · have hne : (other == name) = false := by
        rw [beq_eq_false_iff_ne]
        rintro rfl
        exact hnodup.1 (List.mem_map.2 ⟨_, h, rfl⟩)
      rw [hne]
      exact named?_of_mem hnodup.2 h

theorem mem_of_named? {name : Name} {node : Node} {entries : List (Name × Node)}
    (h : named? name entries = some node) : (name, node) ∈ entries := by
  obtain ⟨⟨other, inner⟩, hfind, rfl⟩ := Option.map_eq_some_iff.1 h
  have hname := List.find?_some hfind
  rw [beq_iff_eq] at hname
  obtain rfl : other = name := hname
  exact List.mem_of_find?_eq_some hfind

mutual

def allNames : Node → List Name
  | .folder entries => namesAmong entries
  | _ => []

def namesAmong : List (Name × Node) → List Name
  | [] => []
  | (name, node) :: entries => name :: allNames node ++ namesAmong entries

end

theorem mem_namesAmong {name : Name} {inner : Node} : ∀ {entries : List (Name × Node)}, (name, inner) ∈ entries →
    name ∈ namesAmong entries ∧ ∀ other ∈ inner.allNames, other ∈ namesAmong entries
  | [], h => by cases h
  | (first, node) :: entries, h => by
    rw [namesAmong]
    rcases List.mem_cons.1 h with h | h
    · cases h
      exact ⟨List.mem_cons_self, fun other hother => List.mem_cons_of_mem _ (List.mem_append_left _ hother)⟩
    · obtain ⟨hname, hinner⟩ := mem_namesAmong h
      exact ⟨List.mem_cons_of_mem _ (List.mem_append_right _ hname),
        fun other hother => List.mem_cons_of_mem _ (List.mem_append_right _ (hinner other hother))⟩

theorem mem_allNames_of_at? {node : Node} : ∀ {place : List Name} {root : Node}, root.at? place = some node →
    ∀ name ∈ place, name ∈ root.allNames
  | [], _, _, _, hname => by cases hname
  | first :: place, .folder entries, hat, name, hname => by
    obtain ⟨inner, hnamed, hrest⟩ := Option.bind_eq_some_iff.1 hat
    obtain ⟨hfirst, hinner⟩ := mem_namesAmong (mem_of_named? hnamed)
    rw [allNames]
    rcases List.mem_cons.1 hname with rfl | hname
    · exact hfirst
    · exact hinner name (mem_allNames_of_at? hrest name hname)
  | _ :: _, .file _ _, hat, _, _ | _ :: _, .link _, hat, _, _ | _ :: _, .sealed _ _ _, hat, _, _
  | _ :: _, .barred _, hat, _, _ => by cases hat

theorem entriesWellFormed_iff : ∀ {entries : List (Name × Node)},
    EntriesWellFormed entries ↔ ∀ entry ∈ entries, entry.1.Plain ∧ entry.2.WellFormed
  | [] => by simp [EntriesWellFormed]
  | (name, node) :: entries => by
    rw [EntriesWellFormed, List.forall_mem_cons, entriesWellFormed_iff]

theorem wellFormed_folder {entries : List (Name × Node)} : (Node.folder entries).WellFormed ↔
    (entries.map (·.1)).Nodup ∧ ∀ entry ∈ entries, entry.1.Plain ∧ entry.2.WellFormed := by
  rw [WellFormed, entriesWellFormed_iff]

/-- What passes from a folder to its entries passes from a tree to whatever is in it. -/
theorem at?_of_entries {P : Node → Prop} (hentries : ∀ entries, P (.folder entries) → ∀ entry ∈ entries, P entry.2)
    {node : Node} : ∀ {names : List Name} {root : Node}, P root → root.at? names = some node → P node
  | [], root, h, hat => by
    rw [at?_nil] at hat
    cases hat
    exact h
  | name :: names, .folder entries, h, hat => by
    obtain ⟨inner, hnamed, hat⟩ := Option.bind_eq_some_iff.1 hat
    exact at?_of_entries hentries (hentries entries h _ (mem_of_named? hnamed)) hat
  | _ :: _, .file _ _, _, hat | _ :: _, .link _, _, hat | _ :: _, .sealed _ _ _, _, hat | _ :: _, .barred _, _, hat => by
    cases hat

theorem WellFormed.at? {node root : Node} {names : List Name} (h : root.WellFormed) (hat : root.at? names = some node) :
    node.WellFormed :=
  at?_of_entries (fun _ h entry hentry => ((wellFormed_folder.1 h).2 entry hentry).2) h hat

/-! ## Following steps from places -/

/-- Follows steps from a place, as `follow` does from the nodes on the way to it. -/
def followAt (root : Node) (through : Bool) (links : Nat) (place : List Name) : List Step → Except OsError Spot
  | [] =>
    match root.at? place with
    | some node => .ok (.node place node)
    | none => .error .notFound
  | step :: steps =>
    match root.at? place with
    | some (.folder entries) =>
      match step with
      | .stay _ => followAt root through links place steps
      | .up => if place = [] then .error .notFound else followAt root through links place.dropLast steps
      | .into name =>
        match named? name entries with
        | none => if steps.isEmpty then .ok (.vacant place name) else .error .notFound
        | some (.link target) =>
          if steps.isEmpty && !through then .ok (.node (place ++ [name]) (.link target))
          else if target.isAbsolute || target.bytes.isEmpty then .error .notFound
          else
            match links with
            | 0 => .error .tooManyLinks
            | links + 1 => followAt root through links place (target.pieces.map Step.ofPiece ++ steps)
        | some _ => followAt root through links (place ++ [name]) steps
    | some (.barred refusal) =>
      if step = .stay false then followAt root through links place steps else .error (.refused refusal)
    | _ => .error .notDirectory
termination_by steps => (links, steps.length)

section
variable {root : Node} {through : Bool} {links : Nat} {place : List Name} {entries : List (Name × Node)}
    {steps : List Step}

theorem followAt_nil {node : Node} (h : root.at? place = some node) :
    followAt root through links place [] = .ok (.node place node) := by
  rw [followAt, h]

theorem followAt_stay (h : root.at? place = some (.folder entries)) {dotted : Bool} :
    followAt root through links place (.stay dotted :: steps) = followAt root through links place steps := by
  rw [followAt, h]

theorem followAt_up (h : root.at? place = some (.folder entries)) :
    followAt root through links place (.up :: steps) =
      if place = [] then .error .notFound else followAt root through links place.dropLast steps := by
  rw [followAt, h]

theorem followAt_vacant (h : root.at? place = some (.folder entries)) {name : Name}
    (hname : named? name entries = none) :
    followAt root through links place (.into name :: steps) =
      if steps.isEmpty then .ok (.vacant place name) else .error .notFound := by
  rw [followAt, h]
  simp only [hname]

theorem followAt_link (h : root.at? place = some (.folder entries)) {name : Name} {target : Path}
    (hname : named? name entries = some (.link target)) :
    followAt root through links place (.into name :: steps) =
      if steps.isEmpty && !through then .ok (.node (place ++ [name]) (.link target))
      else if target.isAbsolute || target.bytes.isEmpty then .error .notFound
      else
        match links with
        | 0 => .error .tooManyLinks
        | links + 1 => followAt root through links place (target.pieces.map Step.ofPiece ++ steps) := by
  rw [followAt, h]
  simp only [hname]

theorem followAt_into (h : root.at? place = some (.folder entries)) {name : Name} {node : Node}
    (hname : named? name entries = some node) (hlink : ∀ target, node ≠ .link target) :
    followAt root through links place (.into name :: steps) = followAt root through links (place ++ [name]) steps := by
  rw [followAt, h]
  cases node with
  | link target => exact absurd rfl (hlink target)
  | file _ _ | folder _ | sealed _ _ _ | barred _ => simp only [hname]

theorem followAt_barred {refusal : Refusal} (h : root.at? place = some (.barred refusal)) {step : Step} :
    followAt root through links place (step :: steps) =
      if step = .stay false then followAt root through links place steps else .error (.refused refusal) := by
  rw [followAt, h]

theorem followAt_stuck (hfolder : ∀ entries, root.at? place ≠ some (.folder entries))
    (hbarred : ∀ refusal, root.at? place ≠ some (.barred refusal)) {step : Step} :
    followAt root through links place (step :: steps) = .error .notDirectory := by
  rw [followAt]
  split
  · rename_i entries hat
    exact absurd hat (hfolder entries)
  · rename_i refusal hat
    exact absurd hat (hbarred refusal)
  · rfl

end

/-- The nodes of a trail are at the places that its names lead to. -/
def OnWay (root : Node) : List (Name × Node) → Prop
  | [] => True
  | (name, node) :: trail => root.at? ((trail.map (·.1)).reverse ++ [name]) = some node ∧ OnWay root trail

theorem OnWay.at? {root : Node} : ∀ {trail : List (Name × Node)}, OnWay root trail →
    root.at? (trail.map (·.1)).reverse = some ((trail.head?.map (·.2)).getD root)
  | [], _ => at?_nil root
  | (name, node) :: trail, h => by simpa using h.1

theorem followUpTo_eq {root : Node} {through : Bool} (links : Nat)
    {beyond : List (Name × Node) → List Step → Except OsError Spot}
    (hbeyond : ∀ trail steps, OnWay root trail → beyond trail steps =
      match links with
      | 0 => .error .tooManyLinks
      | links + 1 => followAt root through links (trail.map (·.1)).reverse steps)
    {trail : List (Name × Node)} (h : OnWay root trail) (steps : List Step) :
    followUpTo root through beyond trail steps = followAt root through links (trail.map (·.1)).reverse steps := by
  have hat := h.at?
  fun_induction followUpTo root through beyond trail steps with
  | case1 => rw [followAt_nil hat]
  | case2 _ _ _ hfolder _ ih =>
    rw [hfolder] at hat
    rw [followAt_stay hat, ih h h.at?]
  | case3 _ _ hfolder =>
    rw [hfolder] at hat
    rw [followAt_up hat]
    rfl
  | case4 _ _ _ _ hfolder ih =>
    rw [hfolder] at hat
    rw [followAt_up hat, ih h.2 h.2.at?]
    simp
  | case5 _ _ _ hfolder _ hnamed hend =>
    rw [hfolder] at hat
    rw [followAt_vacant hat hnamed, if_pos hend]
  | case6 _ _ _ hfolder _ hnamed hend =>
    rw [hfolder] at hat
    rw [followAt_vacant hat hnamed, if_neg hend]
  | case7 _ _ _ hfolder _ _ hnamed hend =>
    rw [hfolder] at hat
    rw [followAt_link hat hnamed, if_pos hend, List.reverse_cons]
  | case8 _ _ _ hfolder _ _ hnamed hend hout =>
    rw [hfolder] at hat
    rw [followAt_link hat hnamed, if_neg hend, if_pos hout]
  | case9 _ _ _ hfolder _ _ hnamed hend hout =>
    rw [hfolder] at hat
    rw [followAt_link hat hnamed, if_neg hend, if_neg hout, hbeyond _ _ h]
  | case10 _ _ _ hfolder _ _ hlink hnamed ih =>
    rw [hfolder] at hat
    have hnext : root.at? _ = some _ := (at?_concat hat _).trans hnamed
    rw [followAt_into hat hnamed hlink, ih ⟨hnext, h⟩ (OnWay.at? ⟨hnext, h⟩)]
    simp
  | case11 _ _ _ hbarred ih =>
    rw [hbarred] at hat
    rw [followAt_barred hat, if_pos rfl, ih h h.at?]
  | case12 _ _ _ _ hbarred hstep =>
    rw [hbarred] at hat
    rw [followAt_barred hat, if_neg hstep]
  | case13 _ _ _ hfolder hbarred =>
    exact (followAt_stuck (fun entries he => hfolder entries (Option.some.inj (hat.symm.trans he)))
      fun refusal he => hbarred refusal (Option.some.inj (hat.symm.trans he))).symm

/-- **To follow a path it is enough to know what is at each place.** -/
theorem follow_eq (root : Node) (through : Bool) (links : Nat) (trail : List (Name × Node)) (steps : List Step)
    (h : OnWay root trail) :
    follow root through links trail steps = followAt root through links (trail.map (·.1)).reverse steps := by
  induction links generalizing trail steps with
  | zero =>
    rw [follow]
    exact followUpTo_eq 0 (fun _ _ _ => rfl) h steps
  | succ links ih =>
    rw [follow]
    exact followUpTo_eq (links + 1) (fun trail steps h => ih trail steps h) h steps

/-! ## Going on behind a folder -/

theorem Step.ofPiece_plain {name : Name} (h : name.Plain) : Step.ofPiece name = .into name := by
  simp [Step.ofPiece, h.ne_nil, h.ne_dot, h.ne_dots]

/-- **A path that leads to a node leads on from there**, with the links that are left. -/
theorem followAt_append {root node : Node} {links : Nat} {place goal : List Name} {steps : List Step}
    (h : followAt root true links place steps = .ok (.node goal node)) : root.at? goal = some node ∧
      ∃ left, ∀ more, followAt root true links place (steps ++ more) = followAt root true left goal more := by
  fun_induction followAt root true links place steps with
  | case1 links _ _ hat =>
    cases h
    exact ⟨hat, links, fun _ => rfl⟩
  | case3 _ _ _ _ hat _ ih =>
    obtain ⟨hgoal, left, hleft⟩ := ih h
    exact ⟨hgoal, left, fun more => by rw [List.cons_append, followAt_stay hat, hleft]⟩
  | case5 _ _ _ _ hat hne ih =>
    obtain ⟨hgoal, left, hleft⟩ := ih h
    exact ⟨hgoal, left, fun more => by rw [List.cons_append, followAt_up hat, if_neg hne, hleft]⟩
  | case11 _ _ _ hat _ _ hnamed hend hout _ ih =>
    obtain ⟨hgoal, left, hleft⟩ := ih h
    refine ⟨hgoal, left, fun more => ?_⟩
    rw [List.cons_append, followAt_link hat hnamed, if_neg (by simp), if_neg hout, ← List.append_assoc]
    exact hleft more
  | case12 _ _ _ _ hat _ _ hlink hnamed ih =>
    obtain ⟨hgoal, left, hleft⟩ := ih h
    exact ⟨hgoal, left, fun more => by rw [List.cons_append, followAt_into hat hnamed hlink, hleft]⟩
  | case13 _ _ _ _ hat ih =>
    obtain ⟨hgoal, left, hleft⟩ := ih h
    exact ⟨hgoal, left, fun more => by rw [List.cons_append, followAt_barred hat, if_pos rfl, hleft]⟩
  | case8 _ _ _ _ _ _ _ _ hend => simp at hend
  | case2 | case4 | case6 | case7 | case9 | case10 | case14 | case15 => cases h

theorem exists_of_followAt {root : Node} {through : Bool} {links : Nat} {place : List Name} {steps : List Step}
    {spot : Spot} (h : followAt root through links place steps = .ok spot) : ∃ node, root.at? place = some node := by
  cases hat : root.at? place with
  | some node => exact ⟨node, rfl⟩
  | none =>
    cases steps <;> rw [followAt, hat] at h <;> cases h

/-- A path that goes on leads through a node. -/
theorem followAt_front {root : Node} {links : Nat} {place : List Name} {steps more : List Step} {spot : Spot}
    (hmore : more ≠ []) (h : followAt root true links place (steps ++ more) = .ok spot) :
    ∃ goal node, followAt root true links place steps = .ok (.node goal node) := by
  fun_induction followAt root true links place steps with
  | case1 links place node hat => exact ⟨place, node, rfl⟩
  | case2 _ _ hat =>
    obtain ⟨step, more, rfl⟩ := List.exists_cons_of_ne_nil hmore
    rw [List.nil_append, followAt_stuck (by simp [hat]) (by simp [hat])] at h
    cases h
  | case3 _ _ _ _ hat _ ih =>
    rw [List.cons_append, followAt_stay hat] at h
    exact ih h
  | case4 _ _ _ hat =>
    rw [List.cons_append, followAt_up hat, if_pos rfl] at h
    cases h
  | case5 _ _ _ _ hat hne ih =>
    rw [List.cons_append, followAt_up hat, if_neg hne] at h
    exact ih h
  | case6 _ _ _ _ hat _ hnamed | case7 _ _ _ _ hat _ hnamed =>
    rw [List.cons_append, followAt_vacant hat hnamed, if_neg (by simp [hmore])] at h
    cases h
  | case8 _ _ _ _ _ _ _ _ hend => simp at hend
  | case9 _ _ _ _ hat _ _ hnamed _ hout =>
    rw [List.cons_append, followAt_link hat hnamed, if_neg (by simp), if_pos hout] at h
    cases h
  | case10 _ _ _ hat _ _ hnamed _ hout =>
    rw [List.cons_append, followAt_link hat hnamed, if_neg (by simp), if_neg hout] at h
    cases h
  | case11 _ _ _ hat _ _ hnamed _ hout _ ih =>
    rw [List.cons_append, followAt_link hat hnamed, if_neg (by simp), if_neg hout, ← List.append_assoc] at h
    exact ih h
  | case12 _ _ _ _ hat _ _ hlink hnamed ih =>
    rw [List.cons_append, followAt_into hat hnamed hlink] at h
    exact ih h
  | case13 _ _ _ _ hat ih =>
    rw [List.cons_append, followAt_barred hat, if_pos rfl] at h
    exact ih h
  | case14 _ _ _ _ _ hat hstep =>
    rw [List.cons_append, followAt_barred hat, if_neg hstep] at h
    cases h
  | case15 _ _ _ _ hfolder hbarred =>
    rw [List.cons_append, followAt_stuck hfolder hbarred] at h
    cases h

/-- To end in a slash a path has to lead to a folder, and leads to it. -/
theorem followAt_idle {root node : Node} {through : Bool} {links : Nat} {place : List Name} {spot : Spot}
    (hat : root.at? place = some node) (h : followAt root through links place [Step.ofPiece []] = .ok spot) :
    spot = .node place node := by
  have hidle : Step.ofPiece [] = .stay false := rfl
  rw [hidle] at h
  cases node with
  | folder _ =>
    rw [followAt_stay hat, followAt_nil hat] at h
    exact (Except.ok.inj h).symm
  | barred _ =>
    rw [followAt_barred hat, if_pos rfl, followAt_nil hat] at h
    exact (Except.ok.inj h).symm
  | file _ _ | link _ | sealed _ _ _ =>
    rw [followAt_stuck (by simp [hat]) (by simp [hat])] at h
    cases h

/-- Only from a folder does a path lead on to a name. -/
theorem exists_folder_of_followAt {root node : Node} {through : Bool} {links : Nat} {place : List Name} {name : Name}
    {steps : List Step} {spot : Spot} (hat : root.at? place = some node)
    (h : followAt root through links place (.into name :: steps) = .ok spot) : ∃ entries, node = .folder entries := by
  cases node with
  | folder entries => exact ⟨entries, rfl⟩
  | barred refusal =>
    rw [followAt_barred hat, if_neg (by simp)] at h
    cases h
  | file _ _ | link _ | sealed _ _ _ =>
    rw [followAt_stuck (by simp [hat]) (by simp [hat])] at h
    cases h

/-- A path that is followed to the end does not lead to a link. -/
theorem followAt_ne_link {root : Node} {target : Path} {links : Nat} {place goal : List Name} {steps : List Step}
    (hplace : ∀ target, root.at? place ≠ some (.link target)) :
    followAt root true links place steps ≠ .ok (.node goal (.link target)) := by
  fun_induction followAt root true links place steps with
  | case1 _ _ _ hat =>
    intro h
    cases h
    exact hplace target hat
  | case3 _ _ _ _ _ _ ih | case11 _ _ _ _ _ _ _ _ _ _ ih | case13 _ _ _ _ _ ih => exact ih hplace
  | case5 _ place _ entries hat hne ih =>
    refine ih fun target htarget => ?_
    have hup : root.at? (place.dropLast ++ [place.getLast hne]) = some (.folder entries) := by
      rw [List.dropLast_concat_getLast]
      exact hat
    rw [at?_append, htarget] at hup
    cases hup
  | case12 _ _ _ _ hat _ _ hlink hnamed ih =>
    refine ih fun target htarget => ?_
    rw [at?_concat hat, hnamed] at htarget
    exact hlink target (Option.some.inj htarget)
  | case8 _ _ _ _ _ _ _ _ hend => simp at hend
  | case2 | case4 | case6 | case7 | case9 | case10 | case14 | case15 => exact fun h => by cases h

theorem spot_eq (root : Node) (through : Bool) (path : Path) : root.spot through path =
    if path.isAbsolute || path.bytes.isEmpty then .error .notFound
    else followAt root through maxLinks [] (path.pieces.map Step.ofPiece) := by
  rw [spot, follow_eq root through maxLinks [] _ trivial]
  rfl

theorem locate_eq_ok {root : Node} {path : Path} {place : List Name} {node : Node} :
    root.locate path = .ok (place, node) ↔ path.isAbsolute = false ∧ path.bytes ≠ [] ∧
      followAt root true maxLinks [] (path.pieces.map Step.ofPiece) = .ok (.node place node) := by
  rw [locate, spot_eq]
  by_cases habs : path.isAbsolute = true
  · simp [habs]
  · by_cases hempty : path.bytes = []
    · simp [hempty]
    · simp only [habs, List.isEmpty_eq_false_iff.2 hempty, Bool.or_self, Bool.false_eq_true, if_false, ne_eq, hempty,
        not_false_eq_true, true_and]
      split <;> rename_i hfollow <;> simp [hfollow]

/-- Why a path leads nowhere. -/
theorem cause_of_followAt {root : Node} {through : Bool} {links : Nat} {place : List Name} {steps : List Step}
    {cause : OsError} (h : followAt root through links place steps = .error cause) :
    cause = .notFound ∨ cause = .notDirectory ∨ cause = .tooManyLinks ∨ ∃ refusal, cause = .refused refusal := by
  fun_induction followAt root through links place steps with
  | case2 | case4 | case7 | case9 =>
    cases h
    exact .inl rfl
  | case15 =>
    cases h
    exact .inr (.inl rfl)
  | case10 =>
    cases h
    exact .inr (.inr (.inl rfl))
  | case14 _ _ _ _ refusal =>
    cases h
    exact .inr (.inr (.inr ⟨refusal, rfl⟩))
  | case3 _ _ _ _ _ _ ih | case5 _ _ _ _ _ _ ih | case11 _ _ _ _ _ _ _ _ _ _ ih | case12 _ _ _ _ _ _ _ _ _ ih
  | case13 _ _ _ _ _ ih => exact ih h
  | case1 | case6 | case8 => cases h

theorem cause_of_locate {root : Node} {path : Path} {cause : OsError} (h : root.locate path = .error cause) :
    cause = .notFound ∨ cause = .notDirectory ∨ cause = .tooManyLinks ∨ ∃ refusal, cause = .refused refusal := by
  rw [locate, spot_eq] at h
  split at h
  · cases h
  · cases h
    exact .inl rfl
  · rename_i e hspot
    cases h
    split at hspot
    · cases hspot
      exact .inl rfl
    · exact cause_of_followAt hspot

theorem at?_of_locate {root : Node} {path : Path} {place : List Name} {node : Node}
    (h : root.locate path = .ok (place, node)) : root.at? place = some node :=
  (followAt_append (locate_eq_ok.1 h).2.2).1

theorem locate_of_node? {root : Node} {path : Path} {node : Node} (h : root.node? path = some node) :
    ∃ place, root.locate path = .ok (place, node) := by
  rw [Node.node?] at h
  cases hlocate : root.locate path with
  | error e => rw [hlocate] at h; cases h
  | ok found =>
    rw [hlocate] at h
    cases h
    exact ⟨found.1, rfl⟩

theorem locate_ne_link (root : Node) (path : Path) (place : List Name) (target : Path) :
    root.locate path ≠ .ok (place, .link target) := by
  intro h
  have hfollow := (locate_eq_ok.1 h).2.2
  by_cases hroot : ∃ target, root = .link target
  · obtain ⟨outer, rfl⟩ := hroot
    obtain ⟨piece, pieces, hpieces⟩ := List.exists_cons_of_ne_nil path.pieces_ne_nil
    rw [hpieces, List.map_cons, followAt_stuck (fun _ he => by cases he) fun _ he => by cases he] at hfollow
    cases hfollow
  · refine followAt_ne_link (fun target htarget => hroot ⟨target, ?_⟩) hfollow
    rw [at?_nil] at htarget
    exact Option.some.inj htarget

/-- **A name below a folder leads to what the folder holds.** -/
theorem locate_child {root : Node} {path : Path} {place : List Name} {entries : List (Name × Node)}
    (h : root.locate path = .ok (place, .folder entries)) {name : Name} (hname : name.Plain) {node : Node}
    (hnamed : named? name entries = some node) (hlink : ∀ target, node ≠ .link target) :
    root.locate (path.child name) = .ok (place ++ [name], node) := by
  obtain ⟨habs, hpath, hfollow⟩ := locate_eq_ok.1 h
  have hat := at?_of_locate h
  obtain ⟨front, idle, hpieces, hidle, hchild⟩ := path.pieces_child hpath hname.slash
  have hfront : followAt root true maxLinks [] (front.map Step.ofPiece) = .ok (.node place (.folder entries)) := by
    rcases hidle with rfl | rfl
    · rwa [hpieces, List.append_nil] at hfollow
    · rw [hpieces, List.map_append] at hfollow
      obtain ⟨goal, inner, hfront⟩ := followAt_front (by simp) hfollow
      obtain ⟨hgoal, left, hleft⟩ := followAt_append hfront
      rw [hleft, List.map_singleton] at hfollow
      rw [hfront, ← followAt_idle hgoal hfollow]
  obtain ⟨-, left, hleft⟩ := followAt_append hfront
  refine locate_eq_ok.2 ⟨by rw [path.isAbsolute_child hpath, habs], path.bytes_child_ne_nil hpath, ?_⟩
  rw [hchild, List.map_append, hleft, List.map_singleton, Step.ofPiece_plain hname, followAt_into hat hnamed hlink]
  exact followAt_nil ((at?_concat hat name).trans hnamed)

theorem locate_of_child {root : Node} {path : Path} (hpath : path.bytes ≠ []) {name : Name} (hname : name.Plain)
    {goal : List Name} {node : Node} (h : root.locate (path.child name) = .ok (goal, node)) : ∃ place entries left,
      root.locate path = .ok (place, .folder entries) ∧
        followAt root true left place [.into name] = .ok (.node goal node) := by
  obtain ⟨habs, -, hfollow⟩ := locate_eq_ok.1 h
  obtain ⟨front, idle, hpieces, hidle, hchild⟩ := path.pieces_child hpath hname.slash
  rw [hchild, List.map_append, List.map_singleton, Step.ofPiece_plain hname] at hfollow
  obtain ⟨place, outer, hfront⟩ := followAt_front (by simp) hfollow
  obtain ⟨hat, left, hleft⟩ := followAt_append hfront
  rw [hleft] at hfollow
  obtain ⟨entries, rfl⟩ := exists_folder_of_followAt hat hfollow
  refine ⟨place, entries, left, locate_eq_ok.2 ⟨by rw [← path.isAbsolute_child hpath, habs], hpath, ?_⟩, hfollow⟩
  rw [hpieces, List.map_append, hleft]
  rcases hidle with rfl | rfl
  · exact followAt_nil hat
  · exact (followAt_stay hat).trans (followAt_nil hat)

/-! ## Places as paths -/

/-- The names of a place, as a path, are followed one after the other. -/
theorem locate_below {root node : Node} {names goal : List Name} (hne : names ≠ [])
    (hplain : ∀ name ∈ names, name.Plain) : root.locate (Path.below ⟨[]⟩ names) = .ok (goal, node) ↔
      followAt root true maxLinks [] (names.map .into) = .ok (.node goal node) := by
  have hsteps : (Path.below ⟨[]⟩ names).pieces.map Step.ofPiece = names.map .into := by
    rw [Path.pieces_below hne hplain]
    exact List.map_congr_left fun name hname => Step.ofPiece_plain (hplain name hname)
  obtain ⟨name, names, rfl⟩ := List.exists_cons_of_ne_nil hne
  obtain ⟨rest, hbytes⟩ := Path.bytes_below name names
  obtain ⟨b, bytes, hb⟩ := List.exists_cons_of_ne_nil (hplain name List.mem_cons_self).ne_nil
  have habs : (Path.below ⟨[]⟩ (name :: names)).isAbsolute = false := by
    have hslash : b ≠ Path.slash := fun h => (hplain name List.mem_cons_self).slash (by simp [hb, h])
    rw [Path.isAbsolute, hbytes, hb]
    simp [hslash]
  rw [locate_eq_ok, hsteps, habs, hbytes, hb]
  simp

theorem followAt_along {root node : Node} {through : Bool} {links : Nat} (hlink : ∀ target, node ≠ .link target)
    {more : List Step} : ∀ {names place : List Name}, root.at? (place ++ names) = some node →
      followAt root through links place (names.map .into ++ more) = followAt root through links (place ++ names) more
  | [], place, _ => by rw [List.append_nil, List.map_nil, List.nil_append]
  | name :: names, place, hat => by
    have hsplit : place ++ name :: names = place ++ [name] ++ names := by simp
    obtain ⟨outer, houter, hrest⟩ := Option.bind_eq_some_iff.1 ((at?_append place _ root).symm.trans hat)
    cases outer with
    | file _ _ | link _ | sealed _ _ _ | barred _ => cases hrest
    | folder entries =>
      obtain ⟨inner, hnamed, hinner⟩ := Option.bind_eq_some_iff.1 hrest
      have hnext : ∀ target, inner ≠ .link target := by
        rintro target rfl
        cases names with
        | nil =>
          cases hinner
          exact hlink target rfl
        | cons => cases hinner
      rw [List.map_cons, List.cons_append, followAt_into houter hnamed hnext, hsplit]
      exact followAt_along hlink (hsplit ▸ hat)

theorem locate_below_folder {root node : Node} {place goal names : List Name} {entries : List (Name × Node)}
    (hat : root.at? place = some (.folder entries)) (hplace : ∀ name ∈ place, name.Plain) {name : Name}
    (hnames : ∀ other ∈ name :: names, other.Plain) :
    root.locate (Path.below ⟨[]⟩ (place ++ name :: names)) = .ok (goal, node) ↔
      followAt root true maxLinks place (.into name :: names.map .into) = .ok (.node goal node) := by
  rw [locate_below (List.append_ne_nil_of_right_ne_nil _ (List.cons_ne_nil _ _))
      (List.forall_mem_append.2 ⟨hplace, hnames⟩), List.map_append,
    followAt_along (fun _ he => by cases he) hat, List.nil_append, List.map_cons]

end ApiCatalog.Node
