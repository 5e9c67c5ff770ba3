import ApiCatalog.Proofs.Files.Put
/-!
# Changes by paths

Whatever is written to a path is put where the path leads (`write_eq_put`), and the folders made for it are put where
there was nothing (`makeFolder_eq_put`).  So all other files stay (`sameFiles_put`).
-/

namespace ApiCatalog.Node

/-! ## Places for new things -/

/-- A path to nothing leads to a folder that could hold it. -/
theorem folder_of_vacant {root : Node} {through : Bool} {links : Nat} {start around : List Name} {name : Name}
    {steps : List Step} (h : followAt root through links start steps = .ok (.vacant around name)) :
    ∃ entries, root.at? around = some (.folder entries) ∧ named? name entries = none := by
  fun_induction followAt root through links start steps with
  | case3 _ _ _ _ _ _ ih | case5 _ _ _ _ _ _ ih | case13 _ _ _ _ _ ih => exact ih h
  | case11 _ _ _ _ _ _ _ _ _ _ ih | case12 _ _ _ _ _ _ _ _ _ ih => exact ih h
  | case6 _ _ _ _ hat _ hnamed =>
    cases h
    exact ⟨_, hat, hnamed⟩
  | case1 | case2 | case4 | case7 | case8 | case9 | case10 | case14 | case15 => cases h

theorem spot_eq_ok {root : Node} {through : Bool} {path : Path} {spot : Spot} :
    root.spot through path = .ok spot ↔ path.isAbsolute = false ∧ path.bytes ≠ [] ∧
      followAt root through maxLinks [] (path.pieces.map Step.ofPiece) = .ok spot := by
  rw [spot_eq]
  split
  · rename_i hpath
    rw [Bool.or_eq_true, List.isEmpty_iff] at hpath
    simp only [reduceCtorEq, false_iff, not_and]
    rintro habs hbytes
    rcases hpath with hpath | hpath
    · rw [habs] at hpath
      cases hpath
    · exact absurd hpath hbytes
  · rename_i hpath
    rw [Bool.or_eq_true, not_or, List.isEmpty_iff] at hpath
    simp [hpath]

theorem slash_notMem_pieces (path : Path) : ∀ piece ∈ path.pieces, Path.slash ∉ piece := by
  have h : ∀ (bytes : List UInt8) (piece : Name), Path.slash ∉ piece →
      ∀ other ∈ Path.splitFrom piece [] bytes, Path.slash ∉ other := by
    intro bytes
    induction bytes with
    | nil =>
      intro piece hpiece other hother
      obtain rfl : other = piece.reverse := by simpa [Path.splitFrom] using hother
      simpa using hpiece
    | cons b bytes ih =>
      intro piece hpiece other hother
      rw [Path.splitFrom] at hother
      split at hother
      · rw [Path.splitFrom_done] at hother
        rcases List.mem_append.1 hother with hother | hother
        · obtain rfl : other = piece.reverse := by simpa using hother
          simpa using hpiece
        · exact ih [] List.not_mem_nil other hother
      · rename_i hne
        refine ih (b :: piece) ?_ other hother
        rw [List.mem_cons, not_or]
        exact ⟨Ne.symm hne, hpiece⟩
  exact h path.bytes [] List.not_mem_nil

theorem plain_of_mem_steps {path : Path} {name : Name} (h : .into name ∈ path.pieces.map Step.ofPiece) :
    name.Plain := by
  obtain ⟨piece, hpiece, hstep⟩ := List.mem_map.1 h
  unfold Step.ofPiece at hstep
  split at hstep
  · cases hstep
  · rename_i hnil
    split at hstep
    · cases hstep
    · rename_i hdot
      split at hstep
      · cases hstep
      · rename_i hup
        cases hstep
        exact ⟨hnil, slash_notMem_pieces path name hpiece, hdot, hup⟩

theorem plain_of_vacant {root : Node} {through : Bool} {links : Nat} {start around : List Name} {name : Name}
    {steps : List Step} (hsteps : ∀ other, .into other ∈ steps → other.Plain)
    (h : followAt root through links start steps = .ok (.vacant around name)) : name.Plain := by
  fun_induction followAt root through links start steps with
  | case3 _ _ _ _ _ _ ih | case5 _ _ _ _ _ _ ih | case12 _ _ _ _ _ _ _ _ _ ih | case13 _ _ _ _ _ ih =>
    exact ih (fun other hother => hsteps other (List.mem_cons_of_mem _ hother)) h
  | case11 _ _ _ _ _ _ _ _ _ _ ih =>
    refine ih (fun other hother => ?_) h
    rcases List.mem_append.1 hother with hother | hother
    · exact plain_of_mem_steps hother
    · exact hsteps other (List.mem_cons_of_mem _ hother)
  | case6 =>
    cases h
    exact hsteps name List.mem_cons_self
  | case1 | case2 | case4 | case7 | case8 | case9 | case10 | case14 | case15 => cases h

/-- **A path to nothing leads to a place where something can be put.** -/
theorem at?_of_vacant {root : Node} {through : Bool} {path : Path} {around : List Name} {name : Name}
    (h : root.spot through path = .ok (.vacant around name)) :
    (∃ entries, root.at? around = some (.folder entries)) ∧ root.at? (around ++ [name]) = none ∧
      (root.WellFormed → ∀ other ∈ around ++ [name], other.Plain) := by
  obtain ⟨-, -, hfollow⟩ := spot_eq_ok.1 h
  obtain ⟨entries, hat, hnamed⟩ := folder_of_vacant hfollow
  exact ⟨⟨entries, hat⟩, (at?_concat hat name).trans hnamed, fun hwf => List.forall_mem_append.2
    ⟨plain_of_at? hwf hat, List.forall_mem_singleton.2 (plain_of_vacant (fun _ => plain_of_mem_steps) hfollow)⟩⟩

theorem plain_of_spot {root : Node} (hwf : root.WellFormed) {path : Path} {spot : Spot}
    (h : root.spot true path = .ok spot) : ∀ name ∈ spot.place, name.Plain := by
  cases spot with
  | node names node => exact plain_of_at? hwf (followAt_append (spot_eq_ok.1 h).2.2).1
  | vacant around name => exact (at?_of_vacant h).2.2 hwf

theorem place_of_spot {root : Node} (hfree : root.LinkFree) {path : Path} {spot : Spot}
    (h : root.spot true path = .ok spot) : spot.place = placeOf path :=
  place_of_followAt hfree (spot_eq_ok.1 h).2.2

/-- Without links a path to a file, or to a place for one, ends with a step into a name. -/
theorem exists_last_of_open {root : Node} (hfree : root.LinkFree) {links : Nat} {start : List Name}
    {steps : List Step} {spot : Spot} (h : followAt root true links start steps = .ok spot)
    (hopen : root.Open spot.place) (hsteps : steps ≠ []) : ∃ name, steps.getLast? = some (.into name) := by
  have hend {links : Nat} {place : List Name} (h : followAt root true links place [] = .ok spot) :
      ∃ node, root.at? place = some node ∧ node.isFile = true := by
    obtain ⟨node, hat⟩ := exists_of_followAt h
    rw [followAt_nil hat] at h
    cases h
    exact ⟨node, hat, hopen node hat⟩
  have hnext {step : Step} {rest : List Step} (h : ∃ name, rest.getLast? = some (.into name)) :
      ∃ name, (step :: rest).getLast? = some (.into name) := by
    obtain ⟨name, hname⟩ := h
    exact ⟨name, by rw [List.getLast?_cons, hname, Option.getD_some]⟩
  fun_induction followAt root true links start steps with
  | case1 | case2 => exact absurd rfl hsteps
  | case3 _ _ rest _ hat _ ih | case13 _ _ rest _ hat ih =>
    by_cases hrest : rest = []
    · subst hrest
      obtain ⟨node, hnode, hfile⟩ := hend h
      cases hat.symm.trans hnode
      cases hfile
    · exact hnext (ih h hrest)
  | case5 _ place rest _ hat hne ih =>
    by_cases hrest : rest = []
    · subst hrest
      -- The folder that was left is in what would be a file.
      obtain ⟨node, hnode, hfile⟩ := hend h
      rw [← List.dropLast_concat_getLast hne, at?_append, hnode, Option.bind_some, at?_file hfile] at hat
      cases hat
    · exact hnext (ih h hrest)
  | case6 _ _ rest _ _ name _ hempty =>
    rw [List.isEmpty_iff.1 hempty]
    exact ⟨name, rfl⟩
  | case12 _ _ rest _ _ name _ _ _ ih =>
    by_cases hrest : rest = []
    · subst hrest
      exact ⟨name, rfl⟩
    · exact hnext (ih h hrest)
  | case8 _ _ _ _ hat _ _ hnamed | case11 _ _ _ hat _ _ hnamed =>
    exact (hfree.at? ((at?_concat hat _).trans hnamed)).elim
  | case4 | case7 | case9 | case10 | case14 | case15 => cases h

theorem name?_of_last {path : Path} {name : Name}
    (hlast : (path.pieces.map Step.ofPiece).getLast? = some (.into name)) : path.name? = some name := by
  have hplain := plain_of_mem_steps (List.mem_of_getLast? hlast)
  obtain ⟨front, piece, hpieces⟩ := path.pieces.eq_nil_or_concat'.resolve_left path.pieces_ne_nil
  rw [hpieces, List.map_append, List.map_singleton, List.getLast?_concat] at hlast
  have hpiece : piece = name := by
    unfold Step.ofPiece at hlast
    split at hlast
    · cases hlast
    · split at hlast
      · cases hlast
      · split at hlast <;> cases hlast
        rfl
  have hsteps : path.steps = front.filter (fun piece => piece ≠ [] && piece ≠ [Path.dot]) ++ [name] := by
    rw [Path.steps, hpieces, hpiece, List.filter_append]
    simp [hplain.ne_nil, hplain.ne_dot]
  rw [Path.name?, hsteps, List.getLast?_concat]
  exact if_neg hplain.ne_dots

/-- **Without links a path to a file, or to a place for one, ends with the last name of the place.** -/
theorem name?_of_open {root : Node} (hfree : root.LinkFree) {path : Path} {spot : Spot}
    (h : root.spot true path = .ok spot) (hopen : root.Open spot.place) : path.name? = spot.place.getLast? := by
  obtain ⟨-, -, hfollow⟩ := spot_eq_ok.1 h
  obtain ⟨name, hlast⟩ := exists_last_of_open hfree hfollow hopen (by simpa using path.pieces_ne_nil)
  rw [name?_of_last hlast, place_of_spot hfree h, placeOf]
  obtain ⟨front, hfront⟩ := List.getLast?_eq_some_iff.1 hlast
  rw [hfront, List.foldl_append, List.foldl_cons, List.foldl_nil, Step.lead, List.getLast?_concat]

/-! ## Folders that are made -/

/-- **A folder that is made is put where there was nothing.** -/
theorem makeFolder_eq_put {root root' : Node} {path : Path} (h : makeFolder root path = .ok root') :
    ∃ place, root.at? place = none ∧ root' = root.put place emptyFolder ∧
      (root.WellFormed → ∀ name ∈ place, name.Plain) := by
  unfold makeFolder at h
  split at h
  · cases h
  · cases h
  · rename_i around name hspot
    cases h
    obtain ⟨-, hnone, hplain⟩ := at?_of_vacant hspot
    exact ⟨around ++ [name], hnone, rfl, hplain⟩

/-- Whatever holds of a tree and is kept by each folder that is made holds when all are made, also of those that
are left on failure. -/
theorem makeFolders_induction {P : Node → Prop}
    (hstep : ∀ root path root', P root → makeFolder root path = .ok root' → P root') {root : Node} (h : P root)
    (path : Path) : P (makeFolders root path).1 := by
  have hup : ∀ (fuel : Nat) (root : Node) (path : Path), P root → P (makeFoldersUpTo root fuel path).1 := by
    intro fuel
    induction fuel with
    | zero => exact fun _ _ h => h
    | succ fuel ih =>
      intro root path h
      rw [makeFoldersUpTo]
      split
      · exact h
      · dsimp only
        split
        · rename_i root' hmake
          exact hstep root path root' h hmake
        · split
          · exact h
          · rename_i parent _
            have hparent := ih root parent h
            split
            · rename_i root' e hmade
              rwa [hmade] at hparent
            · rename_i root' hmade
              rw [hmade] at hparent
              split
              · rename_i root'' hmake
                exact hstep root' path root'' hparent hmake
              · exact hparent
        · exact h
  exact hup _ root path h

theorem linkFree_makeFolders {root : Node} (hfree : root.LinkFree) (path : Path) :
    (root.makeFolders path).1.LinkFree := by
  refine makeFolders_induction (fun made path made' hmade hmake => ?_) hfree path
  obtain ⟨place, hnone, rfl, -⟩ := makeFolder_eq_put hmake
  exact LinkFree.put linkFree_emptyFolder hmade

/-- **Whatever is in a tree stays when folders are made**, and a folder stays one. -/
theorem at?_makeFolders {root node : Node} {goal : List Name} (hat : root.at? goal = some node) (path : Path) :
    ∃ node', (root.makeFolders path).1.at? goal = some node' ∧
      (node' = node ∨ node.isFolder = true ∧ node'.isFolder = true) := by
  refine makeFolders_induction (P := fun made => ∃ node', made.at? goal = some node' ∧
    (node' = node ∨ node.isFolder = true ∧ node'.isFolder = true)) ?_ ⟨node, hat, .inl rfl⟩ path
  rintro made path made' ⟨old, hold, hsame⟩ hmake
  obtain ⟨place, hnone, rfl, -⟩ := makeFolder_eq_put hmake
  obtain ⟨new, hnew, hkept⟩ := at?_put (.folder hnone) hold
  refine ⟨new, hnew, ?_⟩
  cases hkept with
  | same => exact hsame
  | folder entries entries' =>
    rcases hsame with rfl | ⟨hfolder, -⟩
    · exact .inr ⟨rfl, rfl⟩
    · exact .inr ⟨hfolder, rfl⟩
  | put _ _ _ hfile he =>
    rw [he] at hnew
    rw [eq_of_at?_put hnew] at hfile
    cases hfile

theorem isFolder_of_makeFolders {root node node' : Node} {goal : List Name} {path : Path}
    (hat : root.at? goal = some node) (hmade : (root.makeFolders path).1.at? goal = some node') :
    node'.isFolder = node.isFolder := by
  obtain ⟨found, hfound, rfl | ⟨hold, hnew⟩⟩ := at?_makeFolders hat path <;> cases hmade.symm.trans hfound
  · rfl
  · rw [hold, hnew]

theorem eq_of_makeFolders {root node node' : Node} {goal : List Name} {path : Path} (hat : root.at? goal = some node)
    (hmade : (root.makeFolders path).1.at? goal = some node') (hno : node'.isFolder = false) : node' = node := by
  obtain ⟨found, hfound, rfl | ⟨-, hnew⟩⟩ := at?_makeFolders hat path <;> cases hmade.symm.trans hfound
  · rfl
  · cases hno.symm.trans hnew

/-- Somewhere the steps go up from where the tree has no folder. -/
def GoBack (root : Node) (place : List Name) (steps : List Step) : Prop :=
  ∃ front back, steps = front ++ .up :: back ∧
    ∀ entries, root.at? (front.foldl Step.lead place) ≠ some (.folder entries)

theorem GoBack.cons {root : Node} {place : List Name} {step : Step} {steps : List Step}
    (h : root.GoBack (Step.lead place step) steps) : root.GoBack place (step :: steps) := by
  obtain ⟨front, back, rfl, hnone⟩ := h
  exact ⟨step :: front, back, rfl, hnone⟩

theorem GoBack.folder {root : Node} {place : List Name} {steps : List Step}
    (h : ¬ root.GoBack place (.up :: steps)) : ∃ entries, root.at? place = some (.folder entries) := by
  by_contra hnone
  exact h ⟨[], steps, rfl, fun entries hat => hnone ⟨entries, hat⟩⟩

theorem not_goBack {steps : List Step} (h : .up ∉ steps) (root : Node) (place : List Name) :
    ¬ root.GoBack place steps := by
  rintro ⟨front, back, rfl, -⟩
  exact h (List.mem_append_right _ List.mem_cons_self)

/-- A path goes up again behind a folder that is missing, or behind what is none. -/
def GoesBack (root : Node) (path : Path) : Prop := root.GoBack [] (path.pieces.map Step.ofPiece)

/-- Steps that lead to what was in the tree before led there before the folders were made, unless they went up from one
of these. -/
theorem followAt_of_makeFolders {root node : Node} {made : Path} (hfree : (root.makeFolders made).1.LinkFree)
    {links : Nat} {place : List Name} {steps : List Step} {spot : Spot}
    (h : followAt (root.makeFolders made).1 true links place steps = .ok spot)
    (hback : ¬ root.GoBack place steps)
    (hat : root.at? spot.place = some node) : followAt root true links place steps = .ok (.node spot.place node) := by
  -- What is a folder now was one before, if there was anything.
  have hfolder : ∀ {goal entries}, (root.makeFolders made).1.at? goal = some (.folder entries) →
      (∃ old, root.at? goal = some old) → ∃ entries', root.at? goal = some (.folder entries') := by
    rintro goal entries hgoal ⟨old, hold⟩
    have hsame := isFolder_of_makeFolders hold hgoal
    cases old with
    | folder entries' => exact ⟨entries', hold⟩
    | file _ _ | link _ | sealed _ _ _ | barred _ => cases hsame
  fun_induction followAt (root.makeFolders made).1 true links place steps with
  | case1 =>
    cases h
    exact followAt_nil hat
  | case3 _ _ _ _ hgoal _ ih =>
    have hrest := ih h fun hrest => hback hrest.cons
    obtain ⟨entries, hold⟩ := hfolder hgoal (exists_of_followAt hrest)
    rw [followAt_stay hold, hrest]
  | case5 _ _ _ _ hgoal hne ih =>
    obtain ⟨entries, hold⟩ := GoBack.folder hback
    rw [followAt_up hold, if_neg hne, ih h fun hrest => hback hrest.cons]
  | case6 _ _ _ _ hgoal name hnamed =>
    cases h
    obtain ⟨new, hnew, -⟩ := at?_makeFolders hat made
    cases ((at?_concat hgoal name).trans hnamed).symm.trans hnew
  | case12 _ place _ _ hgoal name _ hlink hnamed ih =>
    have hrest := ih h fun hrest => hback hrest.cons
    obtain ⟨inner, hinner⟩ := exists_of_followAt hrest
    obtain ⟨old, hold, -⟩ := Option.bind_eq_some_iff.1 ((at?_append place [name] root).symm.trans hinner)
    obtain ⟨entries, hfold⟩ := hfolder hgoal ⟨old, hold⟩
    have hnoLink : ∀ target, inner ≠ .link target := by
      rintro target rfl
      obtain ⟨new, hnew, rfl | ⟨hno, -⟩⟩ := at?_makeFolders hinner made
      · exact hfree.at? hnew
      · cases hno
    rw [followAt_into hfold ((at?_concat hfold name).symm.trans hinner) hnoLink, hrest]
  | case13 _ _ _ _ hgoal ih =>
    have hrest := ih h fun hrest => hback hrest.cons
    obtain ⟨old, hold⟩ := exists_of_followAt hrest
    obtain rfl := eq_of_makeFolders hold hgoal rfl
    rw [followAt_barred hold, if_pos rfl, hrest]
  | case8 _ _ _ _ hgoal _ _ hnamed | case11 _ _ _ hgoal _ _ hnamed =>
    exact (hfree.at? ((at?_concat hgoal _).trans hnamed)).elim
  | case2 | case4 | case7 | case9 | case10 | case14 | case15 => cases h

/-! ## Files that are written -/

/-- **A file that is written is put where the path leads**, in place of another file or of nothing, and the path leads
to it. -/
theorem write_eq_put {root root' : Node} {path : Path} {content : ByteArray} {now : Instant}
    (h : root.write path content now = .ok root') : ∃ spot : Spot, root.spot true path = .ok spot ∧
      root.Open spot.place ∧ root' = root.put spot.place (.file content now) ∧
      root'.locate path = .ok (spot.place, .file content now) := by
  unfold write at h
  split at h
  · split at h <;> cases h
  · split at h
    · cases h
    · rename_i names old time hspot
      cases h
      obtain ⟨habs, hbytes, hfollow⟩ := spot_eq_ok.1 hspot
      have hat := (followAt_append hfollow).1
      have hopen : root.Open names := fun node hnode => by
        rw [hat] at hnode
        cases hnode
        rfl
      have hput := at?_put_append (.file content now) [] hat
      rw [List.append_nil, put_nil] at hput
      exact ⟨_, hspot, hopen, rfl, locate_eq_ok.2 ⟨habs, hbytes,
        followAt_put (.file _ rfl hopen) hfollow hput fun _ he => by cases he⟩⟩
    · cases h
    · cases h
    · rename_i around name hspot
      cases h
      obtain ⟨habs, hbytes, hfollow⟩ := spot_eq_ok.1 hspot
      obtain ⟨⟨entries, hat⟩, hnone, -⟩ := at?_of_vacant hspot
      have hopen := open_of_none hnone
      exact ⟨_, hspot, hopen, rfl, locate_eq_ok.2 ⟨habs, hbytes,
        followAt_put (.file _ rfl hopen) hfollow (at?_put_self hat) fun _ he => by cases he⟩⟩

theorem readText_of_locate {root : Node} {path : Path} {place : List Name} {text : String} {modified : Instant}
    (h : root.locate path = .ok (place, .file text.toUTF8 modified)) : root.readText path = .ok text := by
  simp only [readText, h, fromUTF8?_toUTF8]

/-! ## Files that stay -/

/-- Two trees have the same files at all places but some. -/
def SameFilesBut (changed : List (List Name)) (root root' : Node) : Prop :=
  ∀ place ∉ changed, ∀ node : Node, node.isFile = true → (root'.at? place = some node ↔ root.at? place = some node)

theorem SameFilesBut.refl (changed : List (List Name)) (root : Node) : SameFilesBut changed root root :=
  fun _ _ _ _ => Iff.rfl

theorem SameFilesBut.trans {changed : List (List Name)} {root root' root'' : Node} (h : SameFilesBut changed root root')
    (h' : SameFilesBut changed root' root'') : SameFilesBut changed root root'' := fun place hplace node hfile =>
  (h' place hplace node hfile).trans (h place hplace node hfile)

theorem SameFilesBut.mono {changed more : List (List Name)} {root root' : Node} (h : SameFilesBut changed root root')
    (hsub : changed ⊆ more) : SameFilesBut more root root' := fun place hplace =>
  h place fun hmem => hplace (hsub hmem)

/-- **What is put somewhere leaves the files elsewhere**, and a folder leaves all. -/
theorem sameFiles_put {root new : Node} {place : List Name} (hfits : root.Fits place new) {changed : List (List Name)}
    (hchanged : new.isFile = true → place ∈ changed) : SameFilesBut changed root (root.put place new) := by
  intro goal hgoal file hfile
  have hput : goal = place → new.isFile = false := fun he => by
    rw [Bool.eq_false_iff]
    exact fun hfile => hgoal (he ▸ hchanged hfile)
  cases hat : root.at? goal with
  | some node =>
    obtain ⟨node', hat', hkept⟩ := at?_put hfits hat
    rw [hat']
    cases hkept with
    | same => rfl
    | folder _ _ =>
      simp [folder_ne_file hfile]
    | put _ _ _ _ he =>
      -- Where there was a file only a file could be put.
      have hnew := hput he
      cases hfits with
      | file _ hnew' _ => cases hnew.symm.trans hnew'
      | folder hnone =>
        rw [he, hnone] at hat
        cases hat
  | none =>
    simp only [reduceCtorEq, iff_false]
    intro hat'
    by_cases he : goal = place
    · rw [he] at hat'
      have hnew := hput he
      rw [← eq_of_at?_put hat', hfile] at hnew
      cases hnew
    · cases (isFolder_of_at?_put hfits.at?_cons hat he hat').symm.trans (isFolder_file hfile)

theorem sameFiles_makeFolders (root : Node) (path : Path) : SameFilesBut [] root (root.makeFolders path).1 := by
  refine makeFolders_induction (fun mid path root' hmid hmake => ?_) (.refl [] root) path
  obtain ⟨place, hnone, rfl, -⟩ := makeFolder_eq_put hmake
  exact hmid.trans (sameFiles_put (.folder hnone) fun h => by cases h)

end ApiCatalog.Node
