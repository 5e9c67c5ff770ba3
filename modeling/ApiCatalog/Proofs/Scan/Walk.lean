import ApiCatalog.Proofs.Files.Lookup
import ApiCatalog.Scan.Walk
import Mathlib.Data.List.Nodup
/-!
# What a walk lists

In a tree with proper names every name list of a walk leads to a file (`finds_filesUpTo`), none comes twice
(`nodup_filesUpTo`), and they come in strictly ascending order (`names_of_folder`).
-/

namespace ApiCatalog

theorem Ignore.Verdict.or_undecided (verdict : Verdict) : verdict.or .undecided = verdict := by
  cases verdict <;> rfl

namespace Walk

open Ignore (Excludes)

/-- The names lead from the path to a file. -/
structure Finds (tree : Node) (path : Path) (names : List Name) : Prop where
  plain : ∀ name ∈ names, name.Plain
  file : ∃ place node, tree.locate (path.below names) = .ok (place, node) ∧ node.isFile = true

theorem Finds.single {tree : Node} {path : Path} {name : Name} {place : List Name} {node : Node} (hname : name.Plain)
    (h : tree.locate (path.child name) = .ok (place, node)) (hfile : node.isFile = true) : Finds tree path [name] where
  plain := by simpa using hname
  file := ⟨place, node, h, hfile⟩

theorem Finds.cons {tree : Node} {path : Path} {name : Name} {names : List Name} (hname : name.Plain)
    (h : Finds tree (path.child name) names) : Finds tree path (name :: names) where
  plain := List.forall_mem_cons.2 ⟨hname, h.plain⟩
  file := h.file

/-- The walk stands in the folder of the node. -/
def Stand.At (tree : Node) (stand : Stand) (node : Node) : Prop :=
  tree.locate stand.path = .ok (stand.place, node)

section
variable {plan : Plan} {beyond : Stand → Node → List (List Name)}

theorem locate_of_target? {stand : Stand} {name : Name} {place : List Name} {node : Node}
    (h : target? plan stand name = some (place, node)) :
    plan.tree.locate (stand.path.child name) = .ok (place, node) := by
  unfold target? at h
  split at h
  · cases h
  · rename_i hlocate
    split at h
    · cases h
    · cases h
      exact hlocate

theorem filesAmong_eq_flatMap {stand : Stand} : ∀ entries : List (Name × Node),
    filesAmong plan beyond stand entries = entries.flatMap (filesAt plan beyond stand)
  | [] => by rw [filesAmong, List.flatMap_nil]
  | entry :: entries => by rw [filesAmong, List.flatMap_cons, filesAmong_eq_flatMap]

mutual

theorem finds_filesBelow (hwf : plan.tree.WellFormed)
    (hbeyond : ∀ stand node, stand.At plan.tree node → ∀ names ∈ beyond stand node, Finds plan.tree stand.path names) :
    ∀ (node : Node) (stand : Stand), stand.At plan.tree node →
      ∀ names ∈ filesBelow plan beyond stand node, Finds plan.tree stand.path names
  | .folder entries, stand, hstand, names, hnames =>
    finds_filesAmong hwf hbeyond entries stand hstand (List.Subset.refl _) names hnames
  | .file _ _, _, _, _, hnames | .link _, _, _, _, hnames | .sealed _ _ _, _, _, _, hnames
  | .barred _, _, _, _, hnames => by cases hnames

theorem finds_filesAmong (hwf : plan.tree.WellFormed)
    (hbeyond : ∀ stand node, stand.At plan.tree node → ∀ names ∈ beyond stand node, Finds plan.tree stand.path names)
    {all : List (Name × Node)} : ∀ (entries : List (Name × Node)) (stand : Stand), stand.At plan.tree (.folder all) →
      entries ⊆ all → ∀ names ∈ filesAmong plan beyond stand entries, Finds plan.tree stand.path names
  | [], _, _, _, _, hnames => by
    rw [filesAmong] at hnames
    cases hnames
  | entry :: entries, stand, hstand, hsub, names, hnames => by
    rw [filesAmong, List.mem_append] at hnames
    rcases hnames with hnames | hnames
    · exact finds_filesAt hwf hbeyond entry stand hstand (hsub List.mem_cons_self) names hnames
    · exact finds_filesAmong hwf hbeyond entries stand hstand
        (fun e he => hsub (List.mem_cons_of_mem _ he)) names hnames

theorem finds_filesAt (hwf : plan.tree.WellFormed)
    (hbeyond : ∀ stand node, stand.At plan.tree node → ∀ names ∈ beyond stand node, Finds plan.tree stand.path names)
    {all : List (Name × Node)} : ∀ (entry : Name × Node) (stand : Stand), stand.At plan.tree (.folder all) →
      entry ∈ all → ∀ names ∈ filesAt plan beyond stand entry, Finds plan.tree stand.path names
  | (name, .file _ _), stand, hstand, hmem, names, hnames
  | (name, .sealed _ _ _), stand, hstand, hmem, names, hnames => by
    have hfolder := Node.wellFormed_folder.1 (hwf.at? (Node.at?_of_locate hstand))
    have hname := (hfolder.2 _ hmem).1
    rw [filesAt] at hnames
    split at hnames
    · obtain rfl := List.mem_singleton.1 hnames
      exact .single hname
        (Node.locate_child hstand hname (Node.named?_of_mem hfolder.1 hmem) fun _ he => by cases he) rfl
    · cases hnames
  | (name, .barred _), _, _, _, names, hnames => by
    rw [filesAt] at hnames
    cases hnames
  | (name, .folder inner), stand, hstand, hmem, names, hnames => by
    have hfolder := Node.wellFormed_folder.1 (hwf.at? (Node.at?_of_locate hstand))
    have hname := (hfolder.2 _ hmem).1
    rw [filesAt] at hnames
    split at hnames
    · obtain ⟨more, hmore, rfl⟩ := List.mem_map.1 hnames
      have hinner : (stand.enter plan name (stand.place ++ [name])).At plan.tree (.folder inner) :=
        Node.locate_child hstand hname (Node.named?_of_mem hfolder.1 hmem) fun _ he => by cases he
      exact .cons hname (finds_filesAmong hwf hbeyond inner _ hinner (List.Subset.refl _) more hmore)
    · cases hnames
  | (name, .link target), stand, hstand, hmem, names, hnames => by
    have hname := ((Node.wellFormed_folder.1 (hwf.at? (Node.at?_of_locate hstand))).2 _ hmem).1
    rw [filesAt] at hnames
    split at hnames
    · split at hnames
      · rename_i htarget
        split at hnames
        · obtain rfl := List.mem_singleton.1 hnames
          exact .single hname (locate_of_target? htarget) rfl
        · cases hnames
      · rename_i htarget
        split at hnames
        · obtain rfl := List.mem_singleton.1 hnames
          exact .single hname (locate_of_target? htarget) rfl
        · cases hnames
      · rename_i htarget
        split at hnames
        · obtain ⟨more, hmore, rfl⟩ := List.mem_map.1 hnames
          exact .cons hname (hbeyond (stand.enter plan name _) _ (locate_of_target? htarget) more hmore)
        · cases hnames
      · cases hnames
    · cases hnames

end

theorem head_filesAt {stand : Stand} {name : Name} {node : Node} {names : List Name}
    (h : names ∈ filesAt plan beyond stand (name, node)) : names.head? = some name := by
  have hprefix : ∀ all : List (List Name), names ∈ all.map (name :: ·) → names.head? = some name := fun all hall => by
    obtain ⟨more, -, rfl⟩ := List.mem_map.1 hall
    rfl
  have hone : names ∈ [[name]] → names.head? = some name := hprefix [[]]
  cases node with
  | file _ _ | sealed _ _ _ =>
    rw [filesAt] at h
    split at h
    · exact hone h
    · cases h
  | barred _ =>
    rw [filesAt] at h
    cases h
  | folder _ =>
    rw [filesAt] at h
    split at h
    · exact hprefix _ h
    · cases h
  | link _ =>
    rw [filesAt] at h
    split at h
    · split at h
      · split at h
        · exact hone h
        · cases h
      · split at h
        · exact hone h
        · cases h
      · split at h
        · exact hprefix _ h
        · cases h
      · cases h
    · cases h

theorem nodup_map_cons {name : Name} {all : List (List Name)} (h : all.Nodup) : (all.map (name :: ·)).Nodup :=
  List.Nodup.map (fun _ _ he => (List.cons.inj he).2) h

mutual

theorem nodup_filesBelow (hwf : plan.tree.WellFormed)
    (hbeyond : ∀ stand node, node.WellFormed → (beyond stand node).Nodup) :
    ∀ (node : Node) (stand : Stand), node.WellFormed → (filesBelow plan beyond stand node).Nodup
  | .folder entries, stand, hnode =>
    nodup_filesAmong hwf hbeyond entries stand (Node.wellFormed_folder.1 hnode).1 (Node.wellFormed_folder.1 hnode).2
  | .file _ _, _, _ | .link _, _, _ | .sealed _ _ _, _, _ | .barred _, _, _ => List.nodup_nil

theorem nodup_filesAmong (hwf : plan.tree.WellFormed)
    (hbeyond : ∀ stand node, node.WellFormed → (beyond stand node).Nodup) :
    ∀ (entries : List (Name × Node)) (stand : Stand), (entries.map (·.1)).Nodup →
      (∀ entry ∈ entries, entry.1.Plain ∧ entry.2.WellFormed) → (filesAmong plan beyond stand entries).Nodup
  | [], _, _, _ => by
    rw [filesAmong]
    exact List.nodup_nil
  | (name, node) :: entries, stand, hnodup, hall => by
    rw [List.map_cons, List.nodup_cons] at hnodup
    rw [List.forall_mem_cons] at hall
    rw [filesAmong, List.nodup_append]
    refine ⟨nodup_filesAt hwf hbeyond (name, node) stand hall.1.2,
      nodup_filesAmong hwf hbeyond entries stand hnodup.2 hall.2, ?_⟩
    rintro names hfirst other hother rfl
    have hhead := head_filesAt hfirst
    rw [filesAmong_eq_flatMap, List.mem_flatMap] at hother
    obtain ⟨⟨later, inner⟩, hlater, hother⟩ := hother
    rw [head_filesAt hother] at hhead
    cases hhead
    exact hnodup.1 (List.mem_map.2 ⟨_, hlater, rfl⟩)

theorem nodup_filesAt (hwf : plan.tree.WellFormed)
    (hbeyond : ∀ stand node, node.WellFormed → (beyond stand node).Nodup) :
    ∀ (entry : Name × Node) (stand : Stand), entry.2.WellFormed → (filesAt plan beyond stand entry).Nodup
  | (name, .file _ _), stand, _ | (name, .sealed _ _ _), stand, _ => by
    rw [filesAt]
    split
    · exact List.nodup_singleton _
    · exact List.nodup_nil
  | (name, .barred _), stand, _ => by
    rw [filesAt]
    exact List.nodup_nil
  | (name, .folder inner), stand, hnode => by
    rw [filesAt]
    split
    · exact nodup_map_cons (nodup_filesAmong hwf hbeyond inner _ (Node.wellFormed_folder.1 hnode).1
        (Node.wellFormed_folder.1 hnode).2)
    · exact List.nodup_nil
  | (name, .link target), stand, _ => by
    rw [filesAt]
    split
    · split
      · split
        · exact List.nodup_singleton _
        · exact List.nodup_nil
      · split
        · exact List.nodup_singleton _
        · exact List.nodup_nil
      · rename_i htarget
        split
        · exact nodup_map_cons (hbeyond _ _ (hwf.at? (Node.at?_of_locate (locate_of_target? htarget))))
        · exact List.nodup_nil
      · exact List.nodup_nil
    · exact List.nodup_nil

end

theorem finds_filesUpTo (hwf : plan.tree.WellFormed) : ∀ (links : Nat) (stand : Stand) (node : Node),
    stand.At plan.tree node → ∀ names ∈ filesUpTo plan links stand node, Finds plan.tree stand.path names
  | 0, stand, node, hstand => finds_filesBelow hwf (fun _ _ _ _ hnames => by cases hnames) node stand hstand
  | links + 1, stand, node, hstand => finds_filesBelow hwf (finds_filesUpTo hwf links) node stand hstand

theorem nodup_filesUpTo (hwf : plan.tree.WellFormed) : ∀ (links : Nat) (stand : Stand) (node : Node),
    node.WellFormed → (filesUpTo plan links stand node).Nodup
  | 0, stand, node, hnode => nodup_filesBelow hwf (fun _ _ _ => List.nodup_nil) node stand hnode
  | links + 1, stand, node, hnode => nodup_filesBelow hwf (nodup_filesUpTo hwf links) node stand hnode

end

/-! ## Order -/

theorem precedes_iff {a b : List Name} : precedes a b = true ↔ a ≤ b := by
  simp [precedes]

theorem pairwise_sorted (all : List (List Name)) : (all.mergeSort precedes).Pairwise (· ≤ ·) := by
  have htrans : ∀ a b c, precedes a b = true → precedes b c = true → precedes a c = true := by
    intro a b c hab hbc
    rw [precedes_iff] at *
    exact List.le_trans hab hbc
  have htotal : ∀ a b, (precedes a b || precedes b a) = true := by
    intro a b
    rw [Bool.or_eq_true, precedes_iff, precedes_iff]
    exact List.le_total a b
  exact (List.pairwise_mergeSort htrans htotal all).imp precedes_iff.1

/-- What is left of names is sorted as it was among all of them. -/
theorem filter_sorted (keep : List Name → Bool) (all : List (List Name)) :
    (all.mergeSort precedes).filter keep = (all.filter keep).mergeSort precedes := by
  have hperm : ((all.mergeSort precedes).filter keep).Perm ((all.filter keep).mergeSort precedes) :=
    ((List.mergeSort_perm all precedes).filter keep).trans (List.mergeSort_perm _ precedes).symm
  exact hperm.eq_of_pairwise (fun _ _ _ _ hab hba => List.le_antisymm hab hba) ((pairwise_sorted all).filter keep)
    (pairwise_sorted _)

/-! ## What a walk gives -/

theorem Plan.excludes_of_heedless {options : ScanOptions} (hgit : options.respectsGitignore = false) (tree : Node)
    (excludes : Excludes) : (Plan.of tree options excludes).excludes = .none := by
  rw [Plan.of, hgit]
  rfl

section
variable {tree : Node} {options : ScanOptions} {root : Path} {excludes : Excludes} {place : List Name}
  {entries : List (Name × Node)} {all : List (List Name)}

theorem names_folder (h : tree.locate root = .ok (place, .folder entries)) : names tree options root excludes =
    .ok (if isHyphen root then [] else (filesUpTo (Plan.of tree options excludes) (maxLinks tree)
      (start (Plan.of tree options excludes) root place) (.folder entries)).mergeSort precedes) := by
  simp only [names, h, Node.isFolder, Bool.not_true, Bool.false_eq_true, if_false]
  split <;> rfl

theorem exists_locate_of_names (h : names tree options root excludes = .ok all) :
    ∃ place entries, tree.locate root = .ok (place, .folder entries) := by
  unfold names at h
  cases hlocate : tree.locate root with
  | error e => rw [hlocate] at h; cases h
  | ok found =>
    obtain ⟨place, node⟩ := found
    rw [hlocate] at h
    cases node with
    | folder entries => exact ⟨place, entries, rfl⟩
    | file _ _ | link _ | sealed _ _ _ | barred _ => cases h

theorem mem_names_iff (hroot : tree.locate root = .ok (place, .folder entries))
    (hall : names tree options root excludes = .ok all) {names : List Name} : names ∈ all ↔ isHyphen root = false ∧
      names ∈ filesUpTo (Plan.of tree options excludes) (maxLinks tree)
        (start (Plan.of tree options excludes) root place) (.folder entries) := by
  rw [names_folder hroot] at hall
  cases hall
  cases isHyphen root <;> simp [(List.mergeSort_perm _ _).mem_iff]

end

/-- **A walk of a folder lists names that lead to files, in strictly ascending order.** -/
theorem names_of_folder {tree : Node} (hwf : tree.WellFormed) (options : ScanOptions) {root : Path}
    {excludes : Excludes} {place : List Name} {entries : List (Name × Node)}
    (h : tree.locate root = .ok (place, .folder entries)) : ∃ all, names tree options root excludes = .ok all ∧
      all.Pairwise (· < ·) ∧ ∀ names ∈ all, Finds tree root names := by
  refine ⟨_, names_folder h, ?_, fun all hall => ?_⟩
  · split
    · exact List.Pairwise.nil
    · have hnodup := @nodup_filesUpTo (Plan.of tree options excludes) hwf (maxLinks tree)
        (start (Plan.of tree options excludes) root place) (.folder entries) (hwf.at? (Node.at?_of_locate h))
      have hsorted := pairwise_sorted (filesUpTo (Plan.of tree options excludes) (maxLinks tree)
        (start (Plan.of tree options excludes) root place) (.folder entries))
      exact (hsorted.and (hnodup.perm (List.mergeSort_perm _ _).symm)).imp fun h =>
        Std.lt_of_le_of_ne h.1 h.2
  · exact @finds_filesUpTo (Plan.of tree options excludes) hwf (maxLinks tree)
      (start (Plan.of tree options excludes) root place) (.folder entries) h all
      ((mem_names_iff h (names_folder h)).1 hall).2

theorem walk_of_names {tree : Node} {options : ScanOptions} {root : Path} {excludes : Excludes}
    {all : List (List Name)} (h : names tree options root excludes = .ok all) :
    walk tree options root excludes = .ok (all.map root.below) := by
  rw [walk, h]
  rfl

/-- A walk lists, in ascending order, the files that it comes upon in any order. -/
theorem walk_of_perm {tree : Node} {options : ScanOptions} {root : Path} {excludes : Excludes} {place : List Name}
    {entries : List (Name × Node)} {files : List Path} (h : tree.locate root = .ok (place, .folder entries))
    (hhyphen : isHyphen root = false) (all : List (List Name))
    (hperm : (filesUpTo (Plan.of tree options excludes) (maxLinks tree)
      (start (Plan.of tree options excludes) root place) (.folder entries)).Perm all)
    (hsorted : all.Pairwise (· ≤ ·)) (hfiles : all.map root.below = files) :
    walk tree options root excludes = .ok files := by
  have heq := ((List.mergeSort_perm _ precedes).trans hperm).eq_of_pairwise
    (fun _ _ _ _ hab hba => List.le_antisymm hab hba) (pairwise_sorted _) hsorted
  have hnames : names tree options root excludes = .ok all := by
    rw [names_folder h, hhyphen, heq]
    rfl
  rw [walk_of_names hnames, hfiles]

/-- **The paths that a walk of a folder lists lead to files and come in strictly ascending order, step by step.** -/
theorem walk_of_folder {tree : Node} (hwf : tree.WellFormed) (options : ScanOptions) {root : Path}
    {excludes : Excludes} {place : List Name} {entries : List (Name × Node)}
    (h : tree.locate root = .ok (place, .folder entries)) : ∃ files, walk tree options root excludes = .ok files ∧
      (files.map Path.steps).Pairwise (· < ·) ∧ ∀ file ∈ files, tree.hasFile file = true := by
  obtain ⟨all, hnames, hsorted, hfinds⟩ := @names_of_folder tree hwf options root excludes place entries h
  refine ⟨all.map root.below, walk_of_names hnames, ?_, ?_⟩
  · rw [List.pairwise_map, List.pairwise_map]
    refine hsorted.imp_of_mem fun ha hb hlt => ?_
    rw [root.steps_below (hfinds _ ha).plain, root.steps_below (hfinds _ hb).plain]
    exact List.append_left_lt hlt
  · rintro file hfile
    obtain ⟨names, hmem, rfl⟩ := List.mem_map.1 hfile
    obtain ⟨place, node, hlocate, hfile⟩ := (hfinds names hmem).file
    simp [Node.hasFile, Node.node?, hlocate, Except.toOption, hfile]

end Walk

end ApiCatalog
