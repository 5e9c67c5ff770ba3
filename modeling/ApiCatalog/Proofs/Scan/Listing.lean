import ApiCatalog.Proofs.Files.Put
import ApiCatalog.Proofs.Scan.Walk
/-!
# Which files a walk lists

Where there is no ignore file, names and sizes alone decide.  `Listed` says which files these are, with no walk in it;
below a folder a walk lists exactly them (`mem_filesAmong`, `walk_listed`).  A root that is spelled as a single hyphen
is the exception: nothing is listed there.
-/

namespace ApiCatalog

open Ignore (Excludes Level Scope Verdict)

/-! ## Folders without ignore files -/

namespace Ignore

def Level.silent : Level := ⟨[], [], []⟩

theorem Scope.verdictOf_silent {kind : Level → Rules} (hkind : kind Level.silent = []) (name : Name) (isFolder : Bool) :
    ∀ {scope : Scope}, (∀ entry ∈ scope, entry.1 = Level.silent) → Scope.verdictOf kind scope name isFolder = .undecided
  | [], _ => rfl
  | (level, names) :: scope, h => by
    rw [List.forall_mem_cons] at h
    obtain rfl : level = Level.silent := h.1
    have hfirst : (kind Level.silent).verdict ((names ++ [name]).intersperse [Path.slash]).flatten isFolder =
        .undecided := by
      rw [hkind]
      rfl
    rw [Scope.verdictOf, List.foldl_cons]
    dsimp only
    rw [hfirst]
    exact Scope.verdictOf_silent hkind name isFolder h.2

theorem Scope.verdict_silent {scope : Scope} (h : ∀ entry ∈ scope, entry.1 = Level.silent) (name : Name)
    (isFolder : Bool) : scope.verdict name isFolder = .undecided := by
  rw [Scope.verdict, Scope.verdictOf_silent rfl name isFolder h, Scope.verdictOf_silent rfl name isFolder h,
    Scope.verdictOf_silent rfl name isFolder h]
  rfl

/-- Without an ignore file, and with no regard to repositories, a folder has no rules. -/
theorem Level.load_silent {tree : Node} (hfree : tree.LinkFree) {place : List Name}
    (hplain : ∀ name ∈ place, name.Plain)
    (hnone : ∀ content modified, tree.at? (place ++ [Level.customName]) ≠ some (.file content modified)) :
    Level.load tree false place = Level.silent := by
  have hname : Level.customName.Plain := by decide
  have hrules : Rules.load tree (Path.below ⟨[]⟩ (place ++ [Level.customName])) = [] := by
    rw [Rules.load, Node.node?_below hfree (List.append_ne_nil_of_right_ne_nil _ (List.cons_ne_nil _ _))
      (List.forall_mem_append.2 ⟨hplain, List.forall_mem_singleton.2 hname⟩)]
    split
    · rename_i hat
      exact absurd hat (hnone _ _)
    · rfl
  simp only [Level.load, hrules, Level.silent, Bool.false_eq_true, if_false]

end Ignore

namespace Walk

/-- A file below a folder that is listed where there is no ignore file: no name on the way to it is hidden, no folder
on the way is pruned, it is not too large, and it is in the folder itself unless folders are entered. -/
structure Listed (options : ScanOptions) (folder : Node) (names : List Name) : Prop where
  shown : ∀ name ∈ names, name.head? ≠ some Path.dot
  entered : ∀ name ∈ names.dropLast, name ∉ (usuallyPruned ++ options.extraIgnore).map Name.ofText
  near : options.isRecursive = false → names.length = 1
  file : ∃ node size, folder.at? names = some node ∧ node.size? = some size ∧ size ≤ options.sizeLimit

section
variable {options : ScanOptions} {name : Name} {names : List Name}

/-- What is listed below a folder is listed below one of its entries. -/
theorem listed_entries {entries : List (Name × Node)} (hnodup : (entries.map (·.1)).Nodup) :
    Listed options (.folder entries) names ↔ ∃ entry ∈ entries, Listed options (.folder [entry]) names := by
  have hone : ∀ (name : Name) (node : Node), Node.named? name [(name, node)] = some node := fun name node => by
    simp [Node.named?]
  constructor
  · rintro ⟨hshown, hentered, hnear, file, size, hat, hsize, hlimit⟩
    cases names with
    | nil =>
      cases hat
      cases hsize
    | cons name names =>
      obtain ⟨node, hnamed, hrest⟩ := Option.bind_eq_some_iff.1 hat
      refine ⟨(name, node), Node.mem_of_named? hnamed, hshown, hentered, hnear, file, size, ?_, hsize, hlimit⟩
      rw [Node.at?, hone, Option.bind_some, hrest]
  · rintro ⟨⟨first, node⟩, hmem, hshown, hentered, hnear, file, size, hat, hsize, hlimit⟩
    cases names with
    | nil =>
      cases hat
      cases hsize
    | cons name names =>
      obtain ⟨inner, hnamed, hrest⟩ := Option.bind_eq_some_iff.1 hat
      obtain ⟨rfl, rfl⟩ : name = first ∧ inner = node := by simpa using Node.mem_of_named? hnamed
      refine ⟨hshown, hentered, hnear, file, size, ?_, hsize, hlimit⟩
      rw [Node.at?, Node.named?_of_mem hnodup hmem, Option.bind_some, hrest]

theorem listed_file {node : Node} {size : Nat} (hsize : node.size? = some size) :
    Listed options (.folder [(name, node)]) names ↔
      (name.head? ≠ some Path.dot ∧ size ≤ options.sizeLimit) ∧ names = [name] := by
  constructor
  · rintro ⟨hshown, -, -, file, size', hat, hsize', hlimit⟩
    cases names with
    | nil =>
      cases hat
      cases hsize'
    | cons first rest =>
      obtain ⟨inner, hnamed, hrest⟩ := Option.bind_eq_some_iff.1 hat
      obtain ⟨rfl, rfl⟩ : first = name ∧ inner = node := by simpa using Node.mem_of_named? hnamed
      cases rest with
      | nil =>
        rw [Node.at?_nil] at hrest
        cases hrest
        cases hsize.symm.trans hsize'
        exact ⟨⟨hshown first List.mem_cons_self, hlimit⟩, rfl⟩
      | cons second rest =>
        rw [Node.at?_file (Node.isFile_of_size? hsize)] at hrest
        cases hrest
  · rintro ⟨⟨hshown, hlimit⟩, rfl⟩
    exact ⟨by simpa using hshown, by simp, fun _ => rfl, node, size, by simp [Node.at?, Node.named?],
      hsize, hlimit⟩

theorem not_listed_barred {refusal : Refusal} : ¬ Listed options (.folder [(name, .barred refusal)]) names := by
  rintro ⟨-, -, -, file, size, hat, hsize, -⟩
  cases names with
  | nil =>
    cases hat
    cases hsize
  | cons first rest =>
    obtain ⟨inner, hnamed, hrest⟩ := Option.bind_eq_some_iff.1 hat
    obtain ⟨rfl, rfl⟩ : first = name ∧ inner = .barred refusal := by simpa using Node.mem_of_named? hnamed
    cases rest with
    | nil =>
      cases hrest
      cases hsize
    | cons _ _ => cases hrest

theorem listed_folder {inner : List (Name × Node)} :
    Listed options (.folder [(name, .folder inner)]) names ↔
      (options.isRecursive = true ∧ name.head? ≠ some Path.dot ∧
        name ∉ (usuallyPruned ++ options.extraIgnore).map Name.ofText) ∧
      ∃ rest, Listed options (.folder inner) rest ∧ name :: rest = names := by
  constructor
  · rintro ⟨hshown, hentered, hnear, file, size, hat, hsize, hlimit⟩
    cases names with
    | nil =>
      cases hat
      cases hsize
    | cons first rest =>
      obtain ⟨node, hnamed, hrest⟩ := Option.bind_eq_some_iff.1 hat
      obtain ⟨rfl, rfl⟩ : first = name ∧ node = .folder inner := by simpa using Node.mem_of_named? hnamed
      cases rest with
      | nil =>
        cases hrest
        cases hsize
      | cons second rest =>
        have hrecursive : options.isRecursive = true := by
          by_contra h
          simpa using hnear (by simpa using h)
        rw [List.dropLast_cons_cons, List.forall_mem_cons] at hentered
        rw [List.forall_mem_cons] at hshown
        exact ⟨⟨hrecursive, hshown.1, hentered.1⟩, second :: rest, ⟨hshown.2, hentered.2,
          fun h => (Bool.eq_false_iff.1 h hrecursive).elim, file, size, hrest, hsize, hlimit⟩, rfl⟩
  · rintro ⟨⟨hrecursive, hname, hpruned⟩, rest, ⟨hshown, hentered, -, file, size, hat, hsize, hlimit⟩, rfl⟩
    cases rest with
    | nil =>
      cases hat
      cases hsize
    | cons second rest =>
      refine ⟨List.forall_mem_cons.2 ⟨hname, hshown⟩, ?_, fun h => (Bool.eq_false_iff.1 h hrecursive).elim,
        file, size, ?_, hsize, hlimit⟩
      · rw [List.dropLast_cons_cons, List.forall_mem_cons]
        exact ⟨hpruned, hentered⟩
      · rw [Node.at?, show Node.named? name [(name, .folder inner)] = some (.folder inner) by simp [Node.named?],
          Option.bind_some, hat]

end

/-! ## Walks without ignore files -/

/-- No folder has rules that the walk heeds, and the user excludes nothing from it. -/
structure Plan.Silent (plan : Plan) : Prop where
  level : ∀ place : List Name, (∀ name ∈ place, name.Plain) →
    Level.load plan.tree plan.options.respectsGitignore place = Level.silent
  excludes : plan.excludes = .none

/-- The walk stands in a folder that no rule speaks about. -/
structure Stand.Silent (stand : Stand) : Prop where
  plain : ∀ name ∈ stand.place, name.Plain
  scope : ∀ entry ∈ stand.scope, entry.1 = Level.silent

theorem Stand.Silent.enter {plan : Plan} (hplan : plan.Silent) {stand : Stand} (h : stand.Silent) {name : Name}
    (hname : name.Plain) : (stand.enter plan name (stand.place ++ [name])).Silent where
  plain := List.forall_mem_append.2 ⟨h.plain, List.forall_mem_singleton.2 hname⟩
  scope := by
    have hplain := List.forall_mem_append.2 ⟨h.plain, List.forall_mem_singleton.2 hname⟩
    refine List.forall_mem_cons.2 ⟨hplan.level _ hplain, ?_⟩
    rintro entry hentry
    obtain ⟨outer, houter, rfl⟩ := List.mem_map.1 hentry
    exact h.scope outer houter

theorem Stand.Silent.admits {plan : Plan} (hplan : plan.Silent) {stand : Stand} (h : stand.Silent) (name : Name)
    (isFolder : Bool) : stand.admits plan name isFolder = true ↔ name.head? ≠ some Path.dot := by
  rw [Stand.admits, Scope.verdict_silent h.scope, hplan.excludes]
  exact bne_iff_ne

section
variable {tree : Node} {options : ScanOptions} {excludes : Excludes} {beyond : Stand → Node → List (List Name)}

theorem Stand.Silent.looksAt (hplan : (Plan.of tree options excludes).Silent) {stand : Stand} (h : stand.Silent)
    {name : Name} {size : Nat} : Walk.looksAt (Plan.of tree options excludes) stand name size = true ↔
      name.head? ≠ some Path.dot ∧ size ≤ options.sizeLimit := by
  rw [Walk.looksAt, Bool.and_eq_true, h.admits hplan, decide_eq_true_iff]
  rfl

mutual

/-- **Below a folder without links and ignore files a walk lists what is `Listed` and nothing else.** -/
theorem mem_filesAmong (hplan : (Plan.of tree options excludes).Silent) :
    ∀ (entries : List (Name × Node)) (stand : Stand),
    stand.Silent → (Node.folder entries).WellFormed → (Node.folder entries).LinkFree → ∀ names : List Name,
      names ∈ filesAmong (Plan.of tree options excludes) beyond stand entries ↔
        ∃ entry ∈ entries, Listed options (.folder [entry]) names
  | [], _, _, _, _, names => by simp [filesAmong]
  | entry :: entries, stand, hstand, hwf, hfree, names => by
    rw [Node.wellFormed_folder, List.map_cons, List.nodup_cons, List.forall_mem_cons] at hwf
    rw [Node.linkFree_folder, List.forall_mem_cons] at hfree
    have hrest := mem_filesAmong hplan entries stand hstand (Node.wellFormed_folder.2 ⟨hwf.1.2, hwf.2.2⟩)
      (Node.linkFree_folder.2 hfree.2) names
    rw [filesAmong, List.mem_append, mem_filesAt hplan entry stand hstand hwf.2.1 hfree.1 names, hrest,
      List.exists_mem_cons_iff]

theorem mem_filesAt (hplan : (Plan.of tree options excludes).Silent) : ∀ (entry : Name × Node) (stand : Stand),
    stand.Silent → entry.1.Plain ∧ entry.2.WellFormed → entry.2.LinkFree → ∀ names : List Name,
      names ∈ filesAt (Plan.of tree options excludes) beyond stand entry ↔ Listed options (.folder [entry]) names
  | (name, .file content _), stand, hstand, _, _, names => by
    rw [filesAt, listed_file rfl, ← hstand.looksAt hplan, List.mem_ite_nil_right, List.mem_singleton]
  | (name, .sealed size _ _), stand, hstand, _, _, names => by
    rw [filesAt, listed_file rfl, ← hstand.looksAt hplan, List.mem_ite_nil_right, List.mem_singleton]
  | (name, .barred _), _, _, _, _, names => by
    rw [filesAt]
    exact iff_of_false List.not_mem_nil not_listed_barred
  | (name, .folder inner), stand, hstand, hentry, hfree, names => by
    have hinner := mem_filesAmong hplan inner _ (hstand.enter hplan hentry.1) hentry.2 hfree
    have henters : enters (Plan.of tree options excludes) stand name = true ↔ options.isRecursive = true ∧
        name.head? ≠ some Path.dot ∧ name ∉ (usuallyPruned ++ options.extraIgnore).map Name.ofText := by
      rw [enters, Bool.and_eq_true, Bool.and_eq_true, hstand.admits hplan, Bool.not_eq_true', List.contains_eq_mem,
        decide_eq_false_iff_not, and_assoc]
      rfl
    rw [filesAt, listed_folder, ← henters, List.mem_ite_nil_right, List.mem_map]
    simp only [hinner, listed_entries (Node.wellFormed_folder.1 hentry.2).1]

end

/-! ## The whole walk -/

/-- Without links and ignore files a walk that pays no regard to repositories meets no rule. -/
theorem silent_of_noRules (hfree : tree.LinkFree) (hgit : options.respectsGitignore = false)
    (hnone : ∀ place content modified, tree.at? (place ++ [Level.customName]) ≠ some (.file content modified)) :
    (Plan.of tree options excludes).Silent where
  level place hplain := by
    have hsame : (Plan.of tree options excludes).options.respectsGitignore = false := hgit
    rw [hsame]
    exact Level.load_silent hfree hplain (hnone place)
  excludes := Plan.excludes_of_heedless hgit tree excludes

theorem silent_start (hplan : (Plan.of tree options excludes).Silent) (hgit : options.respectsGitignore = false)
    (root : Path) {place : List Name} (hplain : ∀ name ∈ place, name.Plain) :
    (start (Plan.of tree options excludes) root place).Silent where
  plain := hplain
  scope := by
    have hsame : (Plan.of tree options excludes).options.respectsGitignore = false := hgit
    rw [start, hsame]
    exact List.forall_mem_cons.2 ⟨hsame ▸ hplan.level place hplain, fun _ h => by cases h⟩

end

/-- **Without links and ignore files a walk of a folder lists exactly the files that names, sizes and the options speak
for, in strictly ascending order and each of them once**; the names of the root itself play no part.  Under a root that
is spelled as a single hyphen it lists none.  The root lies within the tree. -/
theorem walk_listed {tree : Node} (hwf : tree.WellFormed) (hfree : tree.LinkFree)
    (hnone : ∀ place content modified, tree.at? (place ++ [Level.customName]) ≠ some (.file content modified))
    {options : ScanOptions} (hgit : options.respectsGitignore = false) {root : Path} {entries : List (Name × Node)}
    (hroot : tree.node? root = some (.folder entries)) (excludes : Excludes) :
    ∃ all : List (List Name), walk tree options root excludes = .ok (all.map root.below) ∧
      ((all.map root.below).map Path.steps).Pairwise (· < ·) ∧
      ∀ names, names ∈ all ↔ isHyphen root = false ∧ Listed options (.folder entries) names := by
  obtain ⟨place, hlocate⟩ := Node.locate_of_node? hroot
  have hat := Node.at?_of_locate hlocate
  have hplan := @silent_of_noRules tree options excludes hfree hgit hnone
  obtain ⟨all, hnames, -, -⟩ := @names_of_folder tree hwf options root excludes place entries hlocate
  obtain ⟨files, hwalk, hsorted, -⟩ := @walk_of_folder tree hwf options root excludes place entries hlocate
  rw [walk_of_names hnames] at hwalk
  cases hwalk
  refine ⟨all, walk_of_names hnames, hsorted, fun names => ?_⟩
  have hstand := silent_start hplan hgit root (Node.plain_of_at? hwf hat)
  have hbelow : filesUpTo (Plan.of tree options excludes) (maxLinks tree)
        (start (Plan.of tree options excludes) root place) (.folder entries) =
      filesAmong (Plan.of tree options excludes) (filesUpTo (Plan.of tree options excludes) tree.folderCount)
        (start (Plan.of tree options excludes) root place) entries := rfl
  rw [mem_names_iff hlocate hnames, hbelow, mem_filesAmong hplan entries _ hstand (hwf.at? hat) (hfree.at? hat),
    ← listed_entries (Node.wellFormed_folder.1 (hwf.at? hat)).1]

/-- A hidden folder with files of two bytes and one of three. -/
def mixed : Node :=
  let small : Node := .file ⟨#[0x7b, 0x7d]⟩ ⟨0, 0⟩
  .folder [(Name.ofText "d.json", small), (Name.ofText ".b.json", small),
    (Name.ofText "build", .folder [(Name.ofText "c.json", small)]),
    (Name.ofText "builds", .folder [(Name.ofText "e.json", small)]),
    (Name.ofText "a.json", .file ⟨#[0x7b, 0x7d, 0x0a]⟩ ⟨0, 0⟩)]

/-- A walk of the hidden folder, with a limit of two bytes: the limit itself is not too large, and a name that only
starts like a pruned one is not pruned. -/
theorem walk_listed_mixed : ∃ all : List (List Name),
    walk (.folder [(Name.ofText ".api", mixed)]) { ScanOptions.unset with maxFileSize := some 2 } (Path.ofText ".api") =
      .ok (all.map (Path.ofText ".api").below) ∧
    [Name.ofText "d.json"] ∈ all ∧ [Name.ofText "builds", Name.ofText "e.json"] ∈ all ∧
    [Name.ofText "build", Name.ofText "c.json"] ∉ all ∧ [Name.ofText "a.json"] ∉ all := by
  have hwf : (Node.folder [(Name.ofText ".api", mixed)]).WellFormed := by
    simp only [mixed, Node.WellFormed, Node.EntriesWellFormed]
    decide
  have hfree : (Node.folder [(Name.ofText ".api", mixed)]).LinkFree := by
    simp [mixed, Node.LinkFree, Node.EntriesLinkFree]
  have hnone : ∀ place content modified,
      (Node.folder [(Name.ofText ".api", mixed)]).at? (place ++ [Level.customName]) ≠ some (.file content modified) :=
    fun place content modified hat =>
      absurd (Node.mem_allNames_of_at? hat Level.customName (by simp)) (by decide)
  have hroot : (Node.folder [(Name.ofText ".api", mixed)]).node? (Path.ofText ".api") = some mixed := by
    rw [show Path.ofText ".api" = Path.below ⟨[]⟩ [Name.ofText ".api"] by decide,
      Node.node?_below hfree (by decide) (by decide)]
    rfl
  have hgit : { ScanOptions.unset with maxFileSize := some 2 }.respectsGitignore = false := rfl
  obtain ⟨all, hwalk, -, hall⟩ := walk_listed hwf hfree hnone hgit hroot .none
  refine ⟨all, hwalk, (hall _).2 ⟨by decide, ?_⟩, (hall _).2 ⟨by decide, ?_⟩, fun h => ?_, fun h => ?_⟩
  · exact ⟨by decide, by decide, by decide, _, _, rfl, rfl, by decide⟩
  · exact ⟨by decide, by decide, by decide, _, _, rfl, rfl, by decide⟩
  · exact ((hall _).1 h).2.entered (Name.ofText "build") (by decide) (by decide)
  · obtain ⟨file, size, hat, hsize, hlimit⟩ := ((hall _).1 h).2.file
    cases hat
    cases hsize
    exact absurd hlimit (by decide)

/-- A folder that is spelled as a single hyphen is walked as if it were empty. -/
theorem walk_hyphen :
    let tree : Node := .folder [(Name.ofText "-", .folder [(Name.ofText "a.json", .file ⟨#[0x7b, 0x7d]⟩ ⟨0, 0⟩)])]
    (tree.WellFormed ∧ tree.LinkFree ∧
      ∀ place content modified, tree.at? (place ++ [Level.customName]) ≠ some (.file content modified)) ∧
    (∃ entries, tree.node? (Path.ofText "-") = some (.folder entries) ∧
      Listed .unset (.folder entries) [Name.ofText "a.json"]) ∧
    walk tree .unset (Path.ofText "-") = .ok [] := by
  intro tree
  have hwf : tree.WellFormed := by
    simp only [tree, Node.WellFormed, Node.EntriesWellFormed]
    decide
  have hfree : tree.LinkFree := by simp [tree, Node.LinkFree, Node.EntriesLinkFree]
  have hroot : tree.node? (Path.ofText "-") =
      some (.folder [(Name.ofText "a.json", .file ⟨#[0x7b, 0x7d]⟩ ⟨0, 0⟩)]) := by
    rw [show Path.ofText "-" = Path.below ⟨[]⟩ [Name.ofText "-"] by decide,
      Node.node?_below hfree (by decide) (by decide)]
    rfl
  obtain ⟨place, hlocate⟩ := Node.locate_of_node? hroot
  have hhyphen : isHyphen (Path.ofText "-") = true := by decide
  refine ⟨⟨hwf, hfree, fun place content modified hat =>
    absurd (Node.mem_allNames_of_at? hat Level.customName (by simp)) (by decide)⟩,
    ⟨_, hroot, by decide, by decide, by decide, _, _, rfl, rfl, by decide⟩, ?_⟩
  rw [walk, names_folder hlocate, hhyphen]
  rfl

end Walk

end ApiCatalog
