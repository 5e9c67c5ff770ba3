import ApiCatalog.Proofs.Files.Write
import ApiCatalog.Proofs.Scan.Entries
/-!
# Files in isolation

In a tree without links a file that is put somewhere changes what a walk lists by its own names alone
(`names_put`), as long as it is no ignore file, and what a scan finds by its own entry alone (`scan_put`).
-/

namespace ApiCatalog

open Ignore (Excludes Level Rules)

/-! ## Ignore files -/

namespace Ignore

theorem Level.plain_customName : ∀ name ∈ [Level.customName], name.Plain := by decide

theorem Level.plain_gitName : ∀ name ∈ [Level.gitName], name.Plain := by decide

theorem Level.plain_excludeNames : ∀ name ∈ Level.excludeNames, name.Plain := by decide

theorem Rules.load_congr {tree tree' : Node} (hfree : tree.LinkFree) (hfree' : tree'.LinkFree) {names : List Name}
    (hsame : ∀ node : Node, node.isFile = true → (tree'.at? names = some node ↔ tree.at? names = some node))
    (hnil : names ≠ []) (hplain : ∀ name ∈ names, name.Plain) :
    Rules.load tree' (Path.below ⟨[]⟩ names) = Rules.load tree (Path.below ⟨[]⟩ names) := by
  rw [Rules.load, Rules.load, Node.node?_below hfree hnil hplain, Node.node?_below hfree' hnil hplain]
  split
  · rename_i hat'
    rw [(hsame _ rfl).1 hat']
  · rename_i hat'
    split
    · rename_i hat
      exact absurd ((hsame _ rfl).2 hat) (hat' _ _)
    · rfl

end Ignore

/-- A place where no file is read for ignore rules. -/
structure Apart (place : List Name) : Prop where
  custom : place.getLast? ≠ some Level.customName
  git : place.getLast? ≠ some Level.gitName
  exclude : Name.ofText ".git" ∉ place.dropLast

/-- No walk reads rules from a file at the place. -/
def Unread (place : List Name) : Prop :=
  ∀ names ∈ [[Level.customName], [Level.gitName], Level.excludeNames], ¬ names <:+ place

/-- Where the files are the same, but for some that no rules are read from, every folder has the same rules. -/
theorem Ignore.Level.load_congr {tree tree' : Node} (hfree : tree.LinkFree) (hfree' : tree'.LinkFree)
    {changed : List (List Name)} (hsame : tree.SameFilesBut changed tree')
    (hunread : ∀ place ∈ changed, Unread place) (git : Bool) {around : List Name}
    (hplain : ∀ name ∈ around, name.Plain) : Level.load tree' git around = Level.load tree git around := by
  have hload : ∀ names ∈ [[Level.customName], [Level.gitName], Level.excludeNames], names ≠ [] →
      (∀ name ∈ names, name.Plain) →
      Rules.load tree' (Path.below ⟨[]⟩ (around ++ names)) = Rules.load tree (Path.below ⟨[]⟩ (around ++ names)) :=
    fun names hnames hnil hproper => Rules.load_congr hfree hfree'
      (hsame _ fun hmem => hunread _ hmem names hnames ⟨around, rfl⟩) (List.append_ne_nil_of_right_ne_nil _ hnil)
      (List.forall_mem_append.2 ⟨hplain, hproper⟩)
  have hcustom := hload [Level.customName] (by simp) (List.cons_ne_nil _ _) Level.plain_customName
  have hgit := hload [Level.gitName] (by simp) (List.cons_ne_nil _ _) Level.plain_gitName
  have hexclude := hload Level.excludeNames (by simp) (List.cons_ne_nil _ _) Level.plain_excludeNames
  simp only [Level.load, hcustom, hgit, hexclude]

namespace Walk

/-! ## Walks that see the same ignore files -/

/-- Two plans with the same options, in whose trees the ignore files say the same. -/
structure Plan.Agrees (plan plan' : Plan) : Prop where
  options : plan'.options = plan.options
  pruned : plan'.pruned = plan.pruned
  excludes : plan'.excludes = plan.excludes
  level : ∀ git place, (∀ name ∈ place, name.Plain) → Level.load plan'.tree git place = Level.load plan.tree git place

section
variable {plan plan' : Plan} {beyond beyond' : Stand → Node → List (List Name)}

theorem Plan.Agrees.enter (h : plan.Agrees plan') (stand : Stand) (name : Name) {place : List Name}
    (hplain : ∀ n ∈ place, n.Plain) : stand.enter plan' name place = stand.enter plan name place := by
  rw [Stand.enter, Stand.enter, h.options, h.level _ _ hplain]

theorem Plan.Agrees.admits (h : plan.Agrees plan') (stand : Stand) (name : Name) (isFolder : Bool) :
    stand.admits plan' name isFolder = stand.admits plan name isFolder := by
  rw [Stand.admits, Stand.admits, h.excludes]

theorem Plan.Agrees.enters (h : plan.Agrees plan') (stand : Stand) (name : Name) :
    Walk.enters plan' stand name = Walk.enters plan stand name := by
  rw [Walk.enters, Walk.enters, h.options, h.pruned, h.admits]

theorem Plan.Agrees.looksAt (h : plan.Agrees plan') (stand : Stand) (name : Name) (size : Nat) :
    Walk.looksAt plan' stand name size = Walk.looksAt plan stand name size := by
  rw [Walk.looksAt, Walk.looksAt, h.options, h.admits]

theorem plain_concat {place : List Name} {name : Name} (hplace : ∀ n ∈ place, n.Plain) (hname : name.Plain) :
    ∀ n ∈ place ++ [name], n.Plain :=
  List.forall_mem_append.2 ⟨hplace, List.forall_mem_singleton.2 hname⟩

mutual

/-- Below a folder without links such walks list the same files. -/
theorem filesAmong_congr (h : plan.Agrees plan') : ∀ (entries : List (Name × Node)) (stand : Stand),
    (Node.folder entries).WellFormed → (Node.folder entries).LinkFree → (∀ name ∈ stand.place, name.Plain) →
      filesAmong plan' beyond' stand entries = filesAmong plan beyond stand entries
  | [], _, _, _, _ => by rw [filesAmong, filesAmong]
  | entry :: entries, stand, hwf, hfree, hplace => by
    rw [Node.wellFormed_folder, List.map_cons, List.nodup_cons, List.forall_mem_cons] at hwf
    rw [Node.linkFree_folder, List.forall_mem_cons] at hfree
    have hrest := filesAmong_congr h entries stand (Node.wellFormed_folder.2 ⟨hwf.1.2, hwf.2.2⟩)
      (Node.linkFree_folder.2 hfree.2) hplace
    rw [filesAmong, filesAmong, filesAt_congr h entry stand hwf.2.1 hfree.1 hplace, hrest]

theorem filesAt_congr (h : plan.Agrees plan') : ∀ (entry : Name × Node) (stand : Stand),
    entry.1.Plain ∧ entry.2.WellFormed → entry.2.LinkFree → (∀ name ∈ stand.place, name.Plain) →
      filesAt plan' beyond' stand entry = filesAt plan beyond stand entry
  | (name, .file _ _), stand, _, _, _ | (name, .sealed _ _ _), stand, _, _, _ => by
    rw [filesAt, filesAt, h.looksAt]
  | (_, .barred _), _, _, _, _ => by rw [filesAt, filesAt]
  | (name, .folder inner), stand, hentry, hfree, hplace => by
    have hinner := plain_concat hplace hentry.1
    rw [filesAt, filesAt, h.enters, h.enter stand name hinner,
      filesAmong_congr h inner (stand.enter plan name (stand.place ++ [name])) hentry.2 hfree hinner]

end

theorem filesAt_of_mem (h : plan.Agrees plan') {entries : List (Name × Node)}
    (hwf : (Node.folder entries).WellFormed) (hfree : (Node.folder entries).LinkFree) {stand : Stand}
    (hplace : ∀ name ∈ stand.place, name.Plain) (entry : Name × Node) (hentry : entry ∈ entries) :
    filesAt plan' beyond' stand entry = filesAt plan beyond stand entry :=
  filesAt_congr h entry stand ((Node.wellFormed_folder.1 hwf).2 entry hentry)
    (Node.linkFree_folder.1 hfree entry hentry) hplace

theorem filesAmong_setEntry {stand : Stand} {name : Name} {node' : Node} {keep : List Name → Bool} :
    ∀ {entries : List (Name × Node)},
      (∀ entry ∈ entries, filesAt plan' beyond' stand entry = filesAt plan beyond stand entry) →
      ((filesAt plan' beyond' stand (name, node')).filter keep =
        (((Node.named? name entries).elim [] fun node => filesAt plan beyond stand (name, node))).filter keep) →
      (filesAmong plan' beyond' stand (Node.setEntry name node' entries)).filter keep =
        (filesAmong plan beyond stand entries).filter keep
  | [], _, hname => by
    rw [Node.setEntry, filesAmong, filesAmong, filesAmong, List.append_nil]
    exact hname
  | (first, node) :: entries, hall, hname => by
    rw [List.forall_mem_cons] at hall
    by_cases he : first = name
    · subst he
      have hnamed : Node.named? first ((first, node) :: entries) = some node := by simp [Node.named?]
      rw [hnamed] at hname
      have hrest : filesAmong plan' beyond' stand entries = filesAmong plan beyond stand entries := by
        rw [filesAmong_eq_flatMap, filesAmong_eq_flatMap]
        exact List.flatMap_congr hall.2
      rw [Node.setEntry, if_pos rfl, filesAmong, filesAmong, List.filter_append, List.filter_append, hname, hrest]
      rfl
    · have hnamed : Node.named? name ((first, node) :: entries) = Node.named? name entries := by
        unfold Node.named?
        rw [List.find?_cons_of_neg (by simpa using he)]
      rw [hnamed] at hname
      rw [Node.setEntry, if_neg he, filesAmong, filesAmong, List.filter_append, List.filter_append, hall.1,
        filesAmong_setEntry hall.2 hname]

theorem filter_filesAt_file {node : Node} (hfile : node.isFile = true) (plan : Plan)
    (beyond : Stand → Node → List (List Name)) (stand : Stand) (name : Name) :
    (filesAt plan beyond stand (name, node)).filter (· ≠ [name]) = [] := by
  cases node with
  | file _ _ | sealed _ _ _ =>
    rw [filesAt]
    split <;> simp
  | folder _ | link _ | barred _ => cases hfile

theorem filter_filesAt_of_fits {new root : Node} {place : List Name} (hfits : root.Fits place new) (plan : Plan)
    (beyond : Stand → Node → List (List Name)) (stand : Stand) (name : Name) :
    (filesAt plan beyond stand (name, new)).filter (· ≠ [name]) = [] := by
  cases hfits with
  | file _ hfile _ => exact filter_filesAt_file hfile plan beyond stand name
  | folder _ =>
    rw [Node.emptyFolder, filesAt, filesAmong]
    split <;> rfl

theorem filter_map_cons (name : Name) (names : List Name) (all : List (List Name)) :
    (all.map (name :: ·)).filter (· ≠ name :: names) = (all.filter (· ≠ names)).map (name :: ·) := by
  rw [List.filter_map]
  congr 2
  funext other
  simp

/-- **What is put into a folder without links changes what is listed there by its own names alone.** -/
theorem filesAmong_put (h : plan.Agrees plan') {new : Node} {names : List Name}
    {name : Name} {entries : List (Name × Node)} {stand : Stand} (hwf : (Node.folder entries).WellFormed)
    (hfree : (Node.folder entries).LinkFree) (hfits : (Node.folder entries).Fits (name :: names) new)
    (hplace : ∀ n ∈ stand.place, n.Plain) (hnames : ∀ n ∈ name :: names, n.Plain) :
    (filesAmong plan' beyond' stand (Node.setEntry name
        (((Node.named? name entries).getD .emptyFolder).put names new) entries)).filter
        (· ≠ name :: names) =
      (filesAmong plan beyond stand entries).filter (· ≠ name :: names) := by
  induction names generalizing name entries stand with
  | nil =>
    refine filesAmong_setEntry (filesAt_of_mem h hwf hfree hplace) ?_
    rw [Node.put_nil, filter_filesAt_of_fits hfits]
    cases hnamed : Node.named? name entries with
    | none => rfl
    | some node =>
      exact (filter_filesAt_file (hfits.isOpen.inner hnamed node (Node.at?_nil node)) plan beyond stand name).symm
  | cons next names ih =>
    refine filesAmong_setEntry (filesAt_of_mem h hwf hfree hplace) ?_
    have hinner := plain_concat hplace (hnames name List.mem_cons_self)
    -- It goes into the folder of the name, which may be a new one.
    have hput : ∀ inner : List (Name × Node), (Node.folder inner).WellFormed → (Node.folder inner).LinkFree →
        (Node.folder inner).Fits (next :: names) new →
        (filesAt plan' beyond' stand (name, (Node.folder inner).put (next :: names) new)).filter
            (· ≠ name :: next :: names) =
          (filesAt plan beyond stand (name, .folder inner)).filter (· ≠ name :: next :: names) := by
      intro inner hwf hfree hfits
      rw [Node.put, filesAt, filesAt, h.enters, h.enter stand name hinner]
      split
      · rw [filter_map_cons, filter_map_cons, ih hwf hfree hfits hinner (List.forall_mem_cons.1 hnames).2]
      · rfl
    cases hnamed : Node.named? name entries with
    | none =>
      refine (hput [] Node.wellFormed_emptyFolder Node.linkFree_emptyFolder (hfits.empty next names)).trans ?_
      rw [filesAt, filesAmong]
      split <;> rfl
    | some node =>
      have hmem := Node.mem_of_named? hnamed
      have hfree' := Node.linkFree_folder.1 hfree _ hmem
      cases node with
      | file _ _ | sealed _ _ _ | barred _ =>
        exact congrArg (List.filter _) (filesAt_of_mem h hwf hfree hplace _ hmem)
      | folder inner =>
        exact hput inner ((Node.wellFormed_folder.1 hwf).2 _ hmem).2 hfree' (hfits.inner hnamed)
      | link _ => exact hfree'.elim

end

/-! ## Walks after something was put -/

/-- Of two orders of the same names that are both ascending there is only one. -/
theorem filter_sorted_congr {all all' : List (List Name)} {keep : List Name → Bool}
    (h : all'.filter keep = all.filter keep) :
    (all'.mergeSort precedes).filter keep = (all.mergeSort precedes).filter keep := by
  rw [filter_sorted, filter_sorted, h]

section
variable {tree tree' new : Node} {place : List Name} {changed : List (List Name)}

theorem agrees_of_sameFiles (hfree : tree.LinkFree) (hfree' : tree'.LinkFree) (hsame : tree.SameFilesBut changed tree')
    (hunread : ∀ place ∈ changed, Unread place) (options : ScanOptions) (excludes : Excludes) :
    (Plan.of tree options excludes).Agrees (Plan.of tree' options excludes) where
  options := rfl
  pruned := rfl
  excludes := rfl
  level git _ hplain := Level.load_congr hfree hfree' hsame hunread git hplain

theorem start_of_sameFiles (hfree : tree.LinkFree) (hfree' : tree'.LinkFree) (hsame : tree.SameFilesBut changed tree')
    (hunread : ∀ place ∈ changed, Unread place) (options : ScanOptions) (excludes : Excludes) (root : Path)
    {around : List Name} (hplain : ∀ n ∈ around, n.Plain) :
    start (Plan.of tree' options excludes) root around = start (Plan.of tree options excludes) root around := by
  have hlevels : levelsAround tree' around = levelsAround tree around := by
    rw [levelsAround, levelsAround]
    refine List.map_congr_left fun n _ => ?_
    rw [Level.load_congr hfree hfree' hsame hunread true fun name hname => hplain name (List.mem_of_mem_take hname)]
  simp only [start, Plan.of, Level.load_congr hfree hfree' hsame hunread _ hplain, hlevels]
  rfl

/-- What is put where no rules are read from leaves all files that they are read from. -/
theorem exists_sameFiles_put (hfits : tree.Fits place new) (hunread : new.isFile = true → Unread place) :
    ∃ changed, tree.SameFilesBut changed (tree.put place new) ∧ ∀ place ∈ changed, Unread place := by
  cases hfile : new.isFile with
  | true => exact ⟨[place], Node.sameFiles_put hfits fun _ => List.mem_singleton_self place,
      List.forall_mem_singleton.2 (hunread hfile)⟩
  | false =>
    refine ⟨[], Node.sameFiles_put hfits fun h => ?_, fun _ h => by cases h⟩
    rw [hfile] at h
    cases h

/-- **What is put into a tree without links changes what a walk of a folder lists by its own names alone.** -/
theorem names_put (hwf : tree.WellFormed) (hfree : tree.LinkFree) (hplain : ∀ n ∈ place, n.Plain)
    (hfits : tree.Fits place new) (hunread : new.isFile = true → Unread place) (options : ScanOptions)
    (excludes : Excludes) {root : Path} {around : List Name} {entries : List (Name × Node)}
    (hroot : tree.locate root = .ok (around, .folder entries)) {all all' : List (List Name)}
    (hall : names tree options root excludes = .ok all)
    (hall' : names (tree.put place new) options root excludes = .ok all') :
    all'.filter (fun names => around ++ names ≠ place) = all.filter (fun names => around ++ names ≠ place) := by
  obtain ⟨entries', hroot'⟩ := Node.locate_put_folder hfits hroot
  obtain ⟨changed, hsame, hchanged⟩ := exists_sameFiles_put hfits hunread
  have hfree' : (tree.put place new).LinkFree := Node.LinkFree.put hfits.linkFree hfree
  have hat := Node.at?_of_locate hroot
  have hat' := Node.at?_of_locate hroot'
  have haround := Node.plain_of_at? hwf hat
  have habove := hfits.isOpen.not_prefix hat
  have hagrees := agrees_of_sameFiles hfree hfree' hsame hchanged options excludes
  rw [names_folder hroot] at hall
  rw [names_folder hroot', start_of_sameFiles hfree hfree' hsame hchanged options excludes root haround] at hall'
  cases hall
  cases hall'
  split
  · rfl
  · refine filter_sorted_congr ?_
    have hnode := hwf.at? hat
    have hnodeFree := hfree.at? hat
    by_cases hbelow : around <+: place
    · obtain ⟨rest, rfl⟩ := hbelow
      have hput := Node.at?_put_append new rest hat
      rw [hat'] at hput
      cases rest with
      | nil => exact absurd (List.append_nil _ ▸ List.prefix_rfl) habove
      | cons name names =>
        rw [Node.put] at hput
        cases hput
        simp only [ne_eq, List.append_cancel_left_eq]
        exact filesAmong_put hagrees hnode hnodeFree (hfits.below hat) haround fun n hn =>
          hplain n (List.mem_append_right _ hn)
    · rw [Node.at?_put_apart hbelow habove, hat] at hat'
      cases hat'
      exact congrArg (List.filter _) (filesAmong_congr hagrees entries _ hnode hnodeFree haround)

end

end Walk

/-! ## Scans after something was put -/

/-- The entries of a scan, each with the file that it comes from. -/
def sources (tree : Node) (options : ScanOptions) (root : Path) (excludes : Excludes := .none) : List (Path × Entry) :=
  match scanFiles tree options root excludes with
  | .ok files => files.filterMap fun file => (Registry.builtin.dispatch tree file options.teamOwner).map (file, ·)
  | .error _ => []

theorem scan_eq_sources {tree : Node} {options : ScanOptions} {root : Path} {excludes : Excludes} {files : List Path}
    (h : scanFiles tree options root excludes = .ok files) (now : Instant) :
    scan tree .builtin options root now excludes = .ok ⟨now, (sources tree options root excludes).map (·.2)⟩ := by
  have hentries : (sources tree options root excludes).map (·.2) =
      files.flatMap (fileEntries tree .builtin options) := by
    rw [sources, h, ← filterMap_dispatch, List.map_filterMap]
    congr 1
    funext file
    rw [Option.map_map]
    exact Option.map_id'
  rw [scan_of_files h, hentries]

/-- Whether a path leads to a place. -/
def Node.leadsTo (tree : Node) (path : Path) (place : List Name) : Bool :=
  (tree.locate path).toOption.map (·.1) == some place

theorem filter_files (p : Path → Bool) (found : Path → Option Entry) : ∀ files : List Path,
    (files.filterMap fun file => (found file).map (file, ·)).filter (fun source => p source.1) =
      (files.filter p).filterMap fun file => (found file).map (file, ·)
  | [] => rfl
  | file :: files => by
    have ih := filter_files p found files
    rw [List.filterMap_cons, List.filter_cons]
    cases hentry : found file with
    | none =>
      rw [Option.map_none, ih]
      split
      · rw [List.filterMap_cons, hentry, Option.map_none]
      · rfl
    | some entry =>
      rw [Option.map_some, List.filter_cons, ih]
      split
      · rw [List.filterMap_cons, hentry, Option.map_some]
      · rfl

/-- The entries of a scan of a folder that do not come from the file at a place. -/
theorem filter_sources {tree : Node} (hwf : tree.WellFormed) (hfree : tree.LinkFree)
    {options : ScanOptions} {root : Path} {excludes : Excludes}
    {around : List Name} {entries : List (Name × Node)} (hroot : tree.locate root = .ok (around, .folder entries))
    {all : List (List Name)} (hall : Walk.names tree options root excludes = .ok all) (place : List Name) :
    (sources tree options root excludes).filter (fun source => !tree.leadsTo source.1 place) =
      ((all.filter fun names => around ++ names ≠ place).map root.below).filterMap fun file =>
        (Registry.builtin.dispatch tree file options.teamOwner).map (file, ·) := by
  have hfolder := hasFolder_iff.2 ⟨around, entries, hroot⟩
  rw [sources, scanFiles_of_hasFolder hfolder (Walk.walk_of_names hall),
    filter_files fun file => !tree.leadsTo file place, List.filter_map]
  congr 2
  refine List.filter_congr fun names hnames => ?_
  obtain ⟨all', hall', -, hfinds⟩ := @Walk.names_of_folder tree hwf options root excludes around entries hroot
  rw [hall] at hall'
  cases hall'
  obtain ⟨goal, node, hlocate, -⟩ := (hfinds names hnames).file
  obtain rfl := Node.goal_of_locate_below hfree hroot (hfinds names hnames).plain hlocate
  simp [Node.leadsTo, hlocate, Except.toOption, beq_eq_decide]

theorem scan_eq_sources_of_hasFolder {tree : Node} (hwf : tree.WellFormed) (options : ScanOptions) {root : Path}
    (hroot : tree.hasFolder root = true) (now : Instant) (excludes : Excludes) :
    scan tree .builtin options root now excludes = .ok ⟨now, (sources tree options root excludes).map (·.2)⟩ := by
  obtain ⟨around, entries, hlocate⟩ := hasFolder_iff.1 hroot
  obtain ⟨all, hall, -, -⟩ := @Walk.names_of_folder tree hwf options root excludes around entries hlocate
  exact scan_eq_sources (scanFiles_of_hasFolder hroot (Walk.walk_of_names hall)) now

theorem hasFolder_put {tree new : Node} {place : List Name} (hfits : tree.Fits place new) {root : Path}
    (hroot : tree.hasFolder root = true) : (tree.put place new).hasFolder root = true := by
  obtain ⟨around, entries, hlocate⟩ := hasFolder_iff.1 hroot
  obtain ⟨entries', hlocate'⟩ := Node.locate_put_folder hfits hlocate
  exact hasFolder_iff.2 ⟨around, entries', hlocate'⟩

/-- **What is put into a tree without links changes what a scan finds by its own entry alone.** -/
theorem sources_put {tree new : Node} (hwf : tree.WellFormed) (hfree : tree.LinkFree) {place : List Name}
    (hplain : ∀ name ∈ place, name.Plain) (hfits : tree.Fits place new) (hunread : new.isFile = true → Unread place)
    (options : ScanOptions) (excludes : Excludes) {root : Path} (hroot : tree.hasFolder root = true) :
    (sources (tree.put place new) options root excludes).filter
        (fun source => !(tree.put place new).leadsTo source.1 place) =
      (sources tree options root excludes).filter (fun source => !tree.leadsTo source.1 place) := by
  have hwf' : (tree.put place new).WellFormed := Node.WellFormed.put hfits.wellFormed hwf hplain
  have hfree' : (tree.put place new).LinkFree := Node.LinkFree.put hfits.linkFree hfree
  obtain ⟨around, entries, hlocate⟩ := hasFolder_iff.1 hroot
  obtain ⟨entries', hlocate'⟩ := Node.locate_put_folder hfits hlocate
  obtain ⟨all, hall, -, hfinds⟩ := @Walk.names_of_folder tree hwf options root excludes around entries hlocate
  obtain ⟨all', hall', -, -⟩ := @Walk.names_of_folder _ hwf' options root excludes around entries' hlocate'
  rw [filter_sources hwf hfree hlocate hall, filter_sources hwf' hfree' hlocate' hall',
    Walk.names_put hwf hfree hplain hfits hunread options excludes hlocate hall hall']
  refine List.filterMap_congr fun file hfile => ?_
  obtain ⟨names, hnames, rfl⟩ := List.mem_map.1 hfile
  obtain ⟨hmem, hne⟩ := List.mem_filter.1 hnames
  obtain ⟨goal, node, hfound, hfile⟩ := (hfinds names hmem).file
  obtain rfl := Node.goal_of_locate_below hfree hlocate (hfinds names hmem).plain hfound
  obtain ⟨node', hfound', hkept⟩ := Node.locate_put hfits hfound
  have hsame : (tree.put place new).locate (root.below names) = tree.locate (root.below names) := by
    cases hkept with
    | same => rw [hfound', hfound]
    | folder => cases hfile
    | put _ _ _ _ he => exact absurd he (by simpa using hne)
  rw [Registry.dispatch_congr Registry.isLocal_of_mem_builtin hsame]

theorem exists_sources_sample : ∃ users tagged : Entry, sources Node.sample .unset (.ofText "api") =
      [(.ofText "api/b/routes.py", users), (.ofText "api/b.json", tagged)] ∧
    users.offers = [("GET", "/users")] ∧ tagged.offers = [("GET", "/a")] := by
  obtain ⟨users, tagged, husers, hroute, htagged, hoperation⟩ := exists_dispatch_sample none
  obtain ⟨hbinary, hsealed, hbroken⟩ := dispatch_sample_eq_none none
  refine ⟨users, tagged, ?_, hroute, hoperation⟩
  rw [sources, scanFiles_of_hasFolder hasFolder_sample (walk_sample .unset (by simp))]
  generalize Registry.builtin.dispatch Node.sample = dispatch at husers htagged hbinary hsealed hbroken ⊢
  change List.filterMap (fun file => (dispatch file none).map (file, ·)) _ = _
  rw [List.map_cons, List.filterMap_cons_none (by rw [hbinary]; rfl), List.map_cons,
    List.filterMap_cons_none (by rw [hsealed]; rfl), List.map_cons, List.filterMap_cons_some (by rw [husers]; rfl),
    List.map_cons, List.filterMap_cons_some (by rw [htagged]; rfl), List.map_cons,
    List.filterMap_cons_none (by rw [hbroken]; rfl)]
  rfl

end ApiCatalog
