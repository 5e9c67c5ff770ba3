import ApiCatalog.Proofs.Scan.Walk
/-!
# Names that are pruned

A name on the list of pruned names takes away what lies in folders of that name, and nothing else (`walk_pruned`).  It
does not take away files: a file of a pruned name is listed (`walk_pruned_files`).
-/

namespace ApiCatalog

/-- The names of the folders that lead from a root to a file below it; neither the root's nor the file's own. -/
def Path.foldersBelow (root file : Path) : List Name := (file.steps.drop root.steps.length).dropLast

theorem Path.foldersBelow_below (root : Path) {names : List Name} (h : ∀ name ∈ names, name.Plain) :
    root.foldersBelow (root.below names) = names.dropLast := by
  rw [foldersBelow, steps_below root h, List.drop_left]

namespace Walk

open Ignore (Excludes)

/-- Whether no folder on the way has the name. -/
def avoids (name : Name) (names : List Name) : Bool := !names.dropLast.contains name

theorem avoids_cons {name first : Name} {names : List Name} (h : names ≠ []) :
    avoids name (first :: names) = (first != name && avoids name names) := by
  obtain ⟨second, rest, rfl⟩ := List.exists_cons_of_ne_nil h
  rw [avoids, avoids, List.dropLast_cons_cons, List.contains_cons, Bool.not_or, Bool.beq_comm]
  rfl

theorem filter_avoids_self {name : Name} {all : List (List Name)} (h : [] ∉ all) :
    (all.map (name :: ·)).filter (avoids name) = [] := by
  rw [List.filter_map, List.map_eq_nil_iff, List.filter_eq_nil_iff]
  intro names hmem
  simp [avoids_cons fun he => h (he ▸ hmem)]

theorem filter_avoids_cons {name first : Name} (hne : first ≠ name) {all : List (List Name)} (h : [] ∉ all) :
    (all.map (first :: ·)).filter (avoids name) = (all.filter (avoids name)).map (first :: ·) := by
  rw [List.filter_map]
  congr 1
  refine List.filter_congr fun names hmem => ?_
  simp [avoids_cons fun he => h (he ▸ hmem), hne]

/-- The second plan is the first one with a further pruned name. -/
structure Plan.Prunes (plan plan' : Plan) (name : Name) : Prop where
  tree : plan'.tree = plan.tree
  options : plan'.options = { plan.options with extraIgnore := plan'.options.extraIgnore }
  excludes : plan'.excludes = plan.excludes
  pruned : ∀ other, other ∈ plan'.pruned ↔ other = name ∨ other ∈ plan.pruned

section
variable {plan plan' : Plan} {name : Name} {beyond beyond' : Stand → Node → List (List Name)}

theorem Plan.Prunes.admits (h : plan.Prunes plan' name) (stand : Stand) (other : Name) (isFolder : Bool) :
    stand.admits plan' other isFolder = stand.admits plan other isFolder := by
  rw [Stand.admits, Stand.admits, h.excludes]

theorem Plan.Prunes.looksAt (h : plan.Prunes plan' name) (stand : Stand) (other : Name) (size : Nat) :
    Walk.looksAt plan' stand other size = Walk.looksAt plan stand other size := by
  rw [Walk.looksAt, Walk.looksAt, h.admits, h.options]
  rfl

theorem Plan.Prunes.enter (h : plan.Prunes plan' name) (stand : Stand) (other : Name) (place : List Name) :
    stand.enter plan' other place = stand.enter plan other place := by
  rw [Stand.enter, Stand.enter, h.tree, h.options]
  rfl

theorem Plan.Prunes.enters_self (h : plan.Prunes plan' name) (stand : Stand) :
    Walk.enters plan' stand name = false := by
  simp [Walk.enters, (h.pruned name).2 (.inl rfl)]

theorem Plan.Prunes.enters (h : plan.Prunes plan' name) (stand : Stand) {other : Name} (hne : other ≠ name) :
    Walk.enters plan' stand other = Walk.enters plan stand other := by
  have hpruned : plan'.pruned.contains other = plan.pruned.contains other := by
    rw [Bool.eq_iff_iff]
    simp [h.pruned other, hne]
  rw [Walk.enters, Walk.enters, hpruned, h.admits, h.options]
  rfl

theorem Plan.Prunes.target? (h : plan.Prunes plan' name) (stand : Stand) (other : Name) :
    Walk.target? plan' stand other = Walk.target? plan stand other := by
  rw [Walk.target?, Walk.target?, h.tree]

theorem nil_notMem_filesAmong {stand : Stand} {entries : List (Name × Node)} :
    [] ∉ filesAmong plan beyond stand entries := by
  rw [filesAmong_eq_flatMap, List.mem_flatMap]
  rintro ⟨⟨first, node⟩, -, hmem⟩
  cases head_filesAt hmem

theorem filter_looksAt (stand : Stand) (other : Name) (size : Nat) :
    (if Walk.looksAt plan stand other size then [[other]] else []).filter (avoids name) =
      if Walk.looksAt plan stand other size then [[other]] else [] := by
  split <;> rfl

theorem enters_pruned (h : plan.Prunes plan' name) (stand : Stand) (other : Name) {all all' : List (List Name)}
    (hnil : [] ∉ all) (hall : all' = all.filter (avoids name)) :
    (if Walk.enters plan' stand other then all'.map (other :: ·) else []) =
      (if Walk.enters plan stand other then all.map (other :: ·) else []).filter (avoids name) := by
  by_cases he : other = name
  · subst he
    rw [h.enters_self, if_neg Bool.false_ne_true]
    split
    · rw [filter_avoids_self hnil]
    · rfl
  · rw [h.enters stand he]
    split
    · rw [filter_avoids_cons he hnil, hall]
    · rfl

mutual

/-- **Below a folder a walk with a further pruned name lists what it listed, but for what lies in folders of the
name.** -/
theorem filesAmong_pruned (h : plan.Prunes plan' name) (hnil : ∀ stand node, [] ∉ beyond stand node)
    (hbeyond : ∀ stand node, beyond' stand node = (beyond stand node).filter (avoids name)) :
    ∀ (entries : List (Name × Node)) (stand : Stand),
      filesAmong plan' beyond' stand entries = (filesAmong plan beyond stand entries).filter (avoids name)
  | [], stand => by
    rw [filesAmong, filesAmong]
    rfl
  | entry :: entries, stand => by
    rw [filesAmong, filesAmong, List.filter_append, filesAt_pruned h hnil hbeyond entry stand,
      filesAmong_pruned h hnil hbeyond entries stand]

theorem filesAt_pruned (h : plan.Prunes plan' name) (hnil : ∀ stand node, [] ∉ beyond stand node)
    (hbeyond : ∀ stand node, beyond' stand node = (beyond stand node).filter (avoids name)) :
    ∀ (entry : Name × Node) (stand : Stand),
      filesAt plan' beyond' stand entry = (filesAt plan beyond stand entry).filter (avoids name)
  | (other, .file _ _), stand | (other, .sealed _ _ _), stand => by
    rw [filesAt, filesAt, h.looksAt, filter_looksAt]
  | (other, .barred _), stand => by
    rw [filesAt, filesAt]
    rfl
  | (other, .folder inner), stand => by
    rw [filesAt, filesAt, h.enter]
    exact enters_pruned h stand other nil_notMem_filesAmong (filesAmong_pruned h hnil hbeyond inner _)
  | (other, .link target), stand => by
    have hlinks : plan'.options.followsSymlinks = plan.options.followsSymlinks := by rw [h.options]; rfl
    rw [filesAt, filesAt, hlinks, h.target?]
    split
    · split
      · rw [h.looksAt, filter_looksAt]
      · rw [h.looksAt, filter_looksAt]
      · rw [h.enter]
        exact enters_pruned h stand other (hnil _ _) (hbeyond _ _)
      · rfl
    · rfl

end

theorem nil_notMem_filesUpTo : ∀ (links : Nat) (stand : Stand) (node : Node), [] ∉ filesUpTo plan links stand node
  | 0, _, .folder _ | _ + 1, _, .folder _ => nil_notMem_filesAmong
  | 0, _, .file _ _ | _ + 1, _, .file _ _ | 0, _, .link _ | _ + 1, _, .link _ | 0, _, .sealed _ _ _
  | _ + 1, _, .sealed _ _ _ | 0, _, .barred _ | _ + 1, _, .barred _ => List.not_mem_nil

theorem filesUpTo_pruned (h : plan.Prunes plan' name) : ∀ (links : Nat) (stand : Stand) (node : Node),
    filesUpTo plan' links stand node = (filesUpTo plan links stand node).filter (avoids name)
  | 0, stand, .folder entries =>
    filesAmong_pruned h (fun _ _ => List.not_mem_nil) (fun _ _ => rfl) entries stand
  | links + 1, stand, .folder entries =>
    filesAmong_pruned h (nil_notMem_filesUpTo links) (filesUpTo_pruned h links) entries stand
  | 0, _, .file _ _ | _ + 1, _, .file _ _ | 0, _, .link _ | _ + 1, _, .link _ | 0, _, .sealed _ _ _
  | _ + 1, _, .sealed _ _ _ | 0, _, .barred _ | _ + 1, _, .barred _ => rfl

/-- What is listed does not lie in folders of pruned names. -/
theorem avoids_of_mem_filesUpTo (hname : name ∈ plan.pruned) {links : Nat} {stand : Stand} {node : Node}
    {names : List Name} (h : names ∈ filesUpTo plan links stand node) : avoids name names = true := by
  -- To prune the name once more changes nothing.
  have hprunes : plan.Prunes plan name := ⟨rfl, rfl, rfl, fun other => (or_iff_right_of_imp fun he => he ▸ hname).symm⟩
  rw [filesUpTo_pruned hprunes] at h
  exact (List.mem_filter.1 h).2

end

/-! ## The whole walk -/

section
variable {tree : Node} {options : ScanOptions} {root : Path} {excludes : Excludes}

theorem prunes_of {name : String} {extra : List String}
    (hextra : ∀ other, other ∈ extra ↔ other = name ∨ other ∈ options.extraIgnore) :
    (Plan.of tree options excludes).Prunes (Plan.of tree { options with extraIgnore := extra } excludes)
      (Name.ofText name) where
  tree := rfl
  options := rfl
  excludes := rfl
  pruned other := by
    simp only [Plan.of, List.map_append, List.mem_append, List.mem_map, hextra]
    constructor
    · rintro (h | ⟨text, rfl | htext, rfl⟩)
      · exact .inr (.inl h)
      · exact .inl rfl
      · exact .inr (.inr ⟨text, htext, rfl⟩)
    · rintro (rfl | h | ⟨text, htext, rfl⟩)
      · exact .inr ⟨name, .inl rfl, rfl⟩
      · exact .inl h
      · exact .inr ⟨text, .inr htext, rfl⟩

theorem start_extraIgnore (extra : List String) (place : List Name) :
    start (Plan.of tree { options with extraIgnore := extra } excludes) root place =
      start (Plan.of tree options excludes) root place :=
  rfl

theorem names_pruned {name : String} {extra : List String}
    (hextra : ∀ other, other ∈ extra ↔ other = name ∨ other ∈ options.extraIgnore) :
    names tree { options with extraIgnore := extra } root excludes =
      (names tree options root excludes).map (·.filter (avoids (Name.ofText name))) := by
  unfold names
  split
  · rfl
  · rfl
  · split
    · rfl
    · split
      · rfl
      · dsimp only
        rw [start_extraIgnore, filesUpTo_pruned (prunes_of hextra), ← filter_sorted]
        rfl

theorem avoids_of_mem_names {all : List (List Name)} (h : names tree options root excludes = .ok all)
    {names : List Name} (hnames : names ∈ all) {name : Name} (hname : name ∈ (Plan.of tree options excludes).pruned) :
    avoids name names = true := by
  obtain ⟨place, entries, hroot⟩ := exists_locate_of_names h
  exact avoids_of_mem_filesUpTo hname ((mem_names_iff hroot h).1 hnames).2

theorem plain_of_mem_names (hwf : tree.WellFormed) {all : List (List Name)}
    (h : names tree options root excludes = .ok all) : ∀ names ∈ all, ∀ name ∈ names, name.Plain := by
  intro names hnames
  obtain ⟨place, entries, hlocate⟩ := exists_locate_of_names h
  obtain ⟨all', hall', -, hfinds⟩ := @names_of_folder _ hwf options _ excludes _ _ hlocate
  rw [h] at hall'
  cases hall'
  exact (hfinds names hnames).plain

end

/-- **With a further pruned name a walk lists what it listed before, but for the files in folders of the name**; and
no file that any walk lists is in a folder of a pruned name.  Folders above the root do not matter, and what the file
itself is called matters neither. -/
theorem walk_pruned {tree : Node} (hwf : tree.WellFormed) (options : ScanOptions) (root : Path) (excludes : Excludes) :
    (∀ (name : String) (extra : List String),
      (∀ other, other ∈ extra ↔ other = name ∨ other ∈ options.extraIgnore) →
      walk tree { options with extraIgnore := extra } root excludes =
        (walk tree options root excludes).map (·.filter fun file => Name.ofText name ∉ root.foldersBelow file)) ∧
    ∀ files, walk tree options root excludes = .ok files → ∀ file ∈ files, ∀ name ∈ root.foldersBelow file,
      name ∉ (usuallyPruned ++ options.extraIgnore).map Name.ofText := by
  constructor
  · intro name extra hextra
    rw [walk, walk, names_pruned hextra]
    cases hall : names tree options root excludes with
    | error e => rfl
    | ok all =>
      have hplain := plain_of_mem_names hwf hall
      have hfilter : (all.map root.below).filter (fun file => Name.ofText name ∉ root.foldersBelow file) =
          (all.filter (avoids (Name.ofText name))).map root.below := by
        rw [List.filter_map]
        congr 1
        refine List.filter_congr fun names hnames => ?_
        simp [avoids, root.foldersBelow_below (hplain names hnames)]
      exact congrArg Except.ok hfilter.symm
  · intro files hfiles file hfile name hname hpruned
    cases hall : names tree options root excludes with
    | error e => rw [walk, hall] at hfiles; cases hfiles
    | ok all =>
      rw [walk_of_names hall] at hfiles
      cases hfiles
      obtain ⟨names, hnames, rfl⟩ := List.mem_map.1 hfile
      rw [root.foldersBelow_below (plain_of_mem_names hwf hall names hnames)] at hname
      simpa [avoids, hname] using avoids_of_mem_names hall hnames hpruned

/-- A folder with a file of a name that is pruned, and with a folder. -/
def vendored : Node :=
  .folder [(Name.ofText "r", .folder [(Name.ofText "vendor", .file ⟨#[]⟩ ⟨0, 0⟩),
    (Name.ofText "lib", .folder [(Name.ofText "b.json", .file ⟨#[]⟩ ⟨0, 0⟩)]),
    (Name.ofText "a.json", .file ⟨#[]⟩ ⟨0, 0⟩)])]

theorem walk_pruned_lib : vendored.WellFormed ∧
    walk vendored .unset (.ofText "r") = .ok [.ofText "r/a.json", .ofText "r/lib/b.json", .ofText "r/vendor"] ∧
    walk vendored { ScanOptions.unset with extraIgnore := ["lib"] } (.ofText "r") =
      .ok [.ofText "r/a.json", .ofText "r/vendor"] := by
  have hwf : vendored.WellFormed := by
    simp only [vendored, Node.WellFormed, Node.EntriesWellFormed]
    decide
  have hwalk : walk vendored .unset (.ofText "r") =
      .ok [.ofText "r/a.json", .ofText "r/lib/b.json", .ofText "r/vendor"] :=
    walk_of_perm rfl (by decide)
      [[Name.ofText "a.json"], [Name.ofText "lib", Name.ofText "b.json"], [Name.ofText "vendor"]] (by decide +kernel)
      (by decide) (by decide)
  refine ⟨hwf, hwalk, ?_⟩
  rw [(walk_pruned hwf .unset (.ofText "r") .none).1 "lib" ["lib"] (by simp [ScanOptions.unset]), hwalk]
  decide

/-- Files are listed whatever they are called: one of a usual pruned name, and one of a further pruned name. -/
theorem walk_pruned_files : "vendor" ∈ usuallyPruned ∧
    walk vendored { ScanOptions.unset with extraIgnore := ["a.json"] } (.ofText "r") =
      .ok [.ofText "r/a.json", .ofText "r/lib/b.json", .ofText "r/vendor"] := by
  exact ⟨by decide, walk_of_perm rfl (by decide)
    [[Name.ofText "a.json"], [Name.ofText "lib", Name.ofText "b.json"], [Name.ofText "vendor"]] (by decide +kernel)
    (by decide) (by decide)⟩

end Walk

end ApiCatalog
