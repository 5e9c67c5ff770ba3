import ApiCatalog.Proofs.Files.Lookup
import Mathlib.Data.List.Induction
import Mathlib.Data.List.Nodup
/-!
# Files put into trees

A file put where there is nothing, or another file, leaves everything else where it is (`at?_put`, `followAt_put`), and
the paths that led anywhere lead there still (`locate_put`).  So does an empty folder where there is nothing.
-/

namespace ApiCatalog.Node

/-! ## What is in a folder -/

theorem named?_setEntry_self (name : Name) (node : Node) : ∀ entries : List (Name × Node),
    named? name (setEntry name node entries) = some node
  | [] => by simp [setEntry, named?]
  | (other, inner) :: entries => by
    by_cases he : other = name
    · simp [setEntry, named?, he]
    · have ih := named?_setEntry_self name node entries
      unfold named? at ih ⊢
      rw [setEntry, if_neg he, List.find?_cons_of_neg (by simpa using he)]
      exact ih

theorem named?_setEntry_ne {name other : Name} (node : Node) (hne : other ≠ name) : ∀ entries : List (Name × Node),
    named? other (setEntry name node entries) = named? other entries
  | [] => by simp [setEntry, named?, Ne.symm hne]
  | (first, inner) :: entries => by
    have ih := named?_setEntry_ne node hne entries
    unfold named? at ih ⊢
    by_cases he : first = name
    · subst he
      rw [setEntry, if_pos rfl, List.find?_cons_of_neg (by simpa using Ne.symm hne),
        List.find?_cons_of_neg (by simpa using Ne.symm hne)]
    · rw [setEntry, if_neg he, List.find?_cons, List.find?_cons]
      cases first == other
      · exact ih
      · rfl

theorem mem_setEntry {name : Name} {node : Node} {entry : Name × Node} : ∀ {entries : List (Name × Node)},
    entry ∈ setEntry name node entries → entry = (name, node) ∨ entry ∈ entries
  | [], h => .inl (by simpa [setEntry] using h)
  | first :: entries, h => by
    rw [setEntry] at h
    split at h
    · rcases List.mem_cons.1 h with rfl | h
      · exact .inl rfl
      · exact .inr (List.mem_cons_of_mem _ h)
    · rcases List.mem_cons.1 h with rfl | h
      · exact .inr List.mem_cons_self
      · exact (mem_setEntry h).imp_right (List.mem_cons_of_mem _)

theorem names_setEntry (name : Name) (node : Node) : ∀ entries : List (Name × Node),
    (setEntry name node entries).map (·.1) = entries.map (·.1) ∨
      name ∉ entries.map (·.1) ∧ (setEntry name node entries).map (·.1) = entries.map (·.1) ++ [name]
  | [] => .inr ⟨List.not_mem_nil, rfl⟩
  | (first, inner) :: entries => by
    rw [setEntry]
    split
    · rename_i he
      exact .inl (by rw [List.map_cons, List.map_cons, he])
    · rename_i hne
      rcases names_setEntry name node entries with h | ⟨hnew, h⟩
      · exact .inl (by rw [List.map_cons, List.map_cons, h])
      · refine .inr ⟨?_, by rw [List.map_cons, List.map_cons, h]; rfl⟩
        rw [List.map_cons, List.mem_cons, not_or]
        exact ⟨Ne.symm hne, hnew⟩

theorem nodup_setEntry {entries : List (Name × Node)} (h : (entries.map (·.1)).Nodup) (name : Name) (node : Node) :
    ((setEntry name node entries).map (·.1)).Nodup := by
  rcases names_setEntry name node entries with he | ⟨hnew, he⟩
  · rwa [he]
  · rw [he, List.nodup_append]
    refine ⟨h, List.nodup_singleton _, ?_⟩
    rintro first hfirst other hother rfl
    exact hnew (List.mem_singleton.1 hother ▸ hfirst)

/-! ## What is in a tree -/

mutual

/-- There is no link in the tree. -/
def LinkFree : Node → Prop
  | .folder entries => EntriesLinkFree entries
  | .link _ => False
  | _ => True

def EntriesLinkFree : List (Name × Node) → Prop
  | [] => True
  | (_, node) :: entries => LinkFree node ∧ EntriesLinkFree entries

end

/-- The size of a file, whether it can be read or not. -/
def size? : Node → Option Nat
  | .file content _ => some content.size
  | .sealed size _ _ => some size
  | _ => none

theorem size?_eq_none_iff {node : Node} : node.size? = none ↔ node.isFile = false := by
  cases node <;> simp [size?, isFile]

theorem isFile_of_size? {node : Node} {size : Nat} (h : node.size? = some size) : node.isFile = true := by
  rw [← Bool.not_eq_false, ← size?_eq_none_iff, h]
  simp

theorem folder_ne_file {node : Node} (h : node.isFile = true) (entries : List (Name × Node)) :
    .folder entries ≠ node := by
  rintro rfl
  cases h

theorem isFolder_file {node : Node} (h : node.isFile = true) : node.isFolder = false := by
  cases node with
  | file _ _ | sealed _ _ _ => rfl
  | folder _ | link _ | barred _ => cases h

theorem linkFree_file {node : Node} (h : node.isFile = true) : node.LinkFree := by
  cases node with
  | file _ _ | sealed _ _ _ => exact trivial
  | folder _ | link _ | barred _ => cases h

theorem wellFormed_file {node : Node} (h : node.isFile = true) : node.WellFormed := by
  cases node with
  | file _ _ | sealed _ _ _ => exact trivial
  | folder _ | link _ | barred _ => cases h

theorem at?_file {node : Node} (h : node.isFile = true) (name : Name) (names : List Name) :
    node.at? (name :: names) = none := by
  cases node with
  | file _ _ | sealed _ _ _ => rfl
  | folder _ | link _ | barred _ => cases h

theorem linkFree_emptyFolder : emptyFolder.LinkFree := trivial

theorem wellFormed_emptyFolder : emptyFolder.WellFormed := ⟨List.nodup_nil, trivial⟩

theorem linkFree_folder : ∀ {entries : List (Name × Node)},
    (Node.folder entries).LinkFree ↔ ∀ entry ∈ entries, entry.2.LinkFree
  | [] => by simp [LinkFree, EntriesLinkFree]
  | (name, node) :: entries => by
    have ih := @linkFree_folder entries
    rw [LinkFree] at ih ⊢
    rw [EntriesLinkFree, List.forall_mem_cons, ih]

theorem LinkFree.at? {node root : Node} {names : List Name} (h : root.LinkFree) (hat : root.at? names = some node) :
    node.LinkFree :=
  at?_of_entries (fun _ => linkFree_folder.1) h hat

theorem put_nil (node new : Node) : node.put [] new = new := by cases node <;> rfl

theorem WellFormed.put {new : Node} (hnew : new.WellFormed) : ∀ {names : List Name} {root : Node}, root.WellFormed →
    (∀ name ∈ names, name.Plain) → (root.put names new).WellFormed
  | [], root, _, _ => by rwa [put_nil]
  | name :: names, .folder entries, h, hnames => by
    rw [List.forall_mem_cons] at hnames
    rw [wellFormed_folder] at h
    have hold : ((named? name entries).getD emptyFolder).WellFormed := by
      cases hnamed : named? name entries with
      | none => exact wellFormed_emptyFolder
      | some inner => exact (h.2 _ (mem_of_named? hnamed)).2
    rw [Node.put, wellFormed_folder]
    refine ⟨nodup_setEntry h.1 _ _, fun entry hentry => ?_⟩
    rcases mem_setEntry hentry with rfl | hentry
    · exact ⟨hnames.1, WellFormed.put hnew hold hnames.2⟩
    · exact h.2 entry hentry
  | _ :: _, .file _ _, h, _ | _ :: _, .link _, h, _ | _ :: _, .sealed _ _ _, h, _ | _ :: _, .barred _, h, _ => h

theorem LinkFree.put {new : Node} (hnew : new.LinkFree) : ∀ {names : List Name} {root : Node}, root.LinkFree →
    (root.put names new).LinkFree
  | [], root, _ => by rwa [put_nil]
  | name :: names, .folder entries, h => by
    rw [linkFree_folder] at h
    have hold : ((named? name entries).getD emptyFolder).LinkFree := by
      cases hnamed : named? name entries with
      | none => exact linkFree_emptyFolder
      | some inner => exact h _ (mem_of_named? hnamed)
    rw [Node.put, linkFree_folder]
    intro entry hentry
    rcases mem_setEntry hentry with rfl | hentry
    · exact LinkFree.put hnew hold
    · exact h entry hentry
  | _ :: _, .file _ _, _ | _ :: _, .sealed _ _ _, _ | _ :: _, .barred _, _ => trivial

theorem plain_of_at? {node : Node} : ∀ {names : List Name} {root : Node}, root.WellFormed →
    root.at? names = some node →
    ∀ name ∈ names, name.Plain
  | [], _, _, _ => fun _ h => by cases h
  | name :: names, .folder entries, h, hat => by
    obtain ⟨inner, hnamed, hat⟩ := Option.bind_eq_some_iff.1 hat
    have hentry := (wellFormed_folder.1 h).2 _ (mem_of_named? hnamed)
    exact List.forall_mem_cons.2 ⟨hentry.1, plain_of_at? hentry.2 hat⟩
  | _ :: _, .file _ _, _, hat | _ :: _, .link _, _, hat | _ :: _, .sealed _ _ _, _, hat | _ :: _, .barred _, _, hat => by
    cases hat

/-! ## What may be put where -/

/-- At a place of a tree there is nothing, or a file. -/
def Open (root : Node) (place : List Name) : Prop := ∀ node, root.at? place = some node → node.isFile = true

/-- What can be put at a place and leave the rest of the tree as it is: a file where there is nothing or another file,
and an empty folder where there is nothing. -/
inductive Fits (root : Node) (place : List Name) : Node → Prop where
  | file (new : Node) : new.isFile = true → root.Open place → Fits root place new
  | folder : root.at? place = none → Fits root place emptyFolder

/-- What has become of a node at a place when a file was put somewhere. -/
inductive Kept (place goal : List Name) : Node → Node → Prop where
  | same (node : Node) : Kept place goal node node
  | folder (entries entries' : List (Name × Node)) : Kept place goal (.folder entries) (.folder entries')
  | put (node node' : Node) : node.isFile = true → node'.isFile = true → goal = place → Kept place goal node node'

namespace Kept

variable {place goal : List Name} {node node' : Node}

theorem cons (name : Name) (h : Kept place goal node node') : Kept (name :: place) (name :: goal) node node' := by
  cases h with
  | same => exact .same node
  | folder entries entries' => exact .folder entries entries'
  | put _ _ hfile hfile' he => exact .put node node' hfile hfile' (by rw [he])

theorem of_folder {entries : List (Name × Node)} (h : Kept place goal (.folder entries) node') :
    ∃ entries', node' = .folder entries' := by
  cases h with
  | same => exact ⟨entries, rfl⟩
  | folder _ entries' => exact ⟨entries', rfl⟩
  | put _ _ hfile => cases hfile

/-- What is no folder and no file stays as it is. -/
theorem eq (h : Kept place goal node node') (hfolder : node.isFolder = false) (hfile : node.isFile = false) :
    node' = node := by
  cases h with
  | same => rfl
  | folder => cases hfolder
  | put _ _ hfile' => cases hfile.symm.trans hfile'

theorem ne_link (h : Kept place goal node node') (hlink : ∀ target, node ≠ .link target) (target : Path) :
    node' ≠ .link target := by
  rintro rfl
  cases h with
  | same => exact hlink target rfl
  | put _ _ _ hfile' => cases hfile'

end Kept

theorem Open.inner {entries : List (Name × Node)} {name : Name} {names : List Name} {inner : Node}
    (h : (Node.folder entries).Open (name :: names)) (hnamed : named? name entries = some inner) : inner.Open names :=
  fun node hat => h node (by rw [at?, hnamed]; exact hat)

theorem Open.below {root node : Node} {around rest : List Name} (h : root.Open (around ++ rest))
    (hat : root.at? around = some node) : node.Open rest := fun inner hinner =>
  h inner (by rw [at?_append, hat]; exact hinner)

/-- Nothing lies below a place for a file, and no folder at it. -/
theorem Open.not_prefix {root : Node} {place goal : List Name} {entries : List (Name × Node)} (h : root.Open place)
    (hat : root.at? goal = some (.folder entries)) : ¬ place <+: goal := by
  rintro ⟨more, rfl⟩
  rw [at?_append] at hat
  obtain ⟨node, hplace, hmore⟩ := Option.bind_eq_some_iff.1 hat
  have hfile := h node hplace
  cases more with
  | nil =>
    rw [at?_nil] at hmore
    cases hmore
    cases hfile
  | cons name more =>
    rw [at?_file hfile] at hmore
    cases hmore

theorem open_of_none {root : Node} {place : List Name} (h : root.at? place = none) : root.Open place :=
  fun node hat => by
    rw [h] at hat
    cases hat

namespace Fits

variable {root new : Node} {place : List Name}

theorem isOpen (h : root.Fits place new) : root.Open place := by
  cases h with
  | file _ _ hopen => exact hopen
  | folder hnone => exact open_of_none hnone

theorem wellFormed (h : root.Fits place new) : new.WellFormed := by
  cases h with
  | file _ hfile _ => exact wellFormed_file hfile
  | folder _ => exact wellFormed_emptyFolder

theorem linkFree (h : root.Fits place new) : new.LinkFree := by
  cases h with
  | file _ hfile _ => exact linkFree_file hfile
  | folder _ => exact linkFree_emptyFolder

theorem at?_cons (h : root.Fits place new) (name : Name) (names : List Name) : new.at? (name :: names) = none := by
  cases h with
  | file _ hfile _ => exact at?_file hfile name names
  | folder _ => rfl

theorem inner {entries : List (Name × Node)} {name : Name} {names : List Name} {inner : Node}
    (h : (Node.folder entries).Fits (name :: names) new) (hnamed : named? name entries = some inner) :
    inner.Fits names new := by
  cases h with
  | file _ hfile hopen => exact .file new hfile (hopen.inner hnamed)
  | folder hnone =>
    rw [Node.at?, hnamed, Option.bind_some] at hnone
    exact .folder hnone

theorem below {node : Node} {around rest : List Name} (h : root.Fits (around ++ rest) new)
    (hat : root.at? around = some node) : node.Fits rest new := by
  cases h with
  | file _ hfile hopen => exact .file new hfile (hopen.below hat)
  | folder hnone =>
    rw [at?_append, hat, Option.bind_some] at hnone
    exact .folder hnone

theorem empty (h : root.Fits place new) (name : Name) (names : List Name) : emptyFolder.Fits (name :: names) new := by
  have hnone : emptyFolder.at? (name :: names) = none := rfl
  cases h with
  | file _ hfile _ => exact .file new hfile (open_of_none hnone)
  | folder _ => exact .folder hnone

end Fits

/-! ## After something was put -/

/-- **What was in a tree is there after something was put into it**, but for the content of a file that was put
there. -/
theorem at?_put {new node : Node} : ∀ {place goal : List Name} {root : Node},
    root.Fits place new → root.at? goal = some node →
      ∃ node', (root.put place new).at? goal = some node' ∧ Kept place goal node node'
  | [], goal, root, hfits, hat => by
    cases hfits with
    | folder hnone =>
      rw [at?_nil] at hnone
      cases hnone
    | file _ hnew hopen =>
      have hfile := hopen root (at?_nil root)
      cases goal with
      | nil =>
        rw [at?_nil] at hat
        cases hat
        exact ⟨new, by rw [put_nil, at?_nil], .put node new hfile hnew rfl⟩
      | cons name goal =>
        rw [at?_file hfile] at hat
        cases hat
  | name :: place, [], .folder entries, _, hat => by
    cases hat
    exact ⟨_, rfl, .folder _ _⟩
  | name :: place, first :: goal, .folder entries, hfits, hat => by
    obtain ⟨inner, hnamed, hat⟩ := Option.bind_eq_some_iff.1 hat
    rw [Node.put, at?]
    by_cases he : first = name
    · subst he
      obtain ⟨node', hat', hkept⟩ := at?_put (hfits.inner hnamed) hat
      rw [named?_setEntry_self, hnamed]
      exact ⟨node', hat', hkept.cons first⟩
    · rw [named?_setEntry_ne _ he, hnamed]
      exact ⟨node, hat, .same node⟩
  | _ :: _, _, .file _ _, _, hat | _ :: _, _, .link _, _, hat | _ :: _, _, .sealed _ _ _, _, hat
  | _ :: _, _, .barred _, _, hat => ⟨node, hat, .same node⟩

/-- Where there was nothing there are only folders around what was put. -/
theorem isFolder_of_at?_put {new node : Node} (hnew : ∀ name names, new.at? (name :: names) = none) :
    ∀ {place goal : List Name} {root : Node}, root.at? goal = none → goal ≠ place →
      (root.put place new).at? goal = some node → node.isFolder = true
  | [], goal, root, _, hne, hat => by
    rw [put_nil] at hat
    cases goal with
    | nil => exact absurd rfl hne
    | cons name names =>
      rw [hnew] at hat
      cases hat
  | _ :: _, [], root, hnone, _, _ => by
    rw [at?_nil] at hnone
    cases hnone
  | name :: place, first :: goal, .folder entries, hnone, hne, hat => by
    rw [Node.put, at?] at hat
    rw [at?] at hnone
    by_cases he : first = name
    · subst he
      have hne' : goal ≠ place := fun h => hne (by rw [h])
      rw [named?_setEntry_self, Option.bind_some] at hat
      cases hnamed : named? first entries with
      | some inner =>
        rw [hnamed] at hnone hat
        exact isFolder_of_at?_put hnew hnone hne' hat
      | none =>
        rw [hnamed] at hat
        cases goal with
        | cons inner goal =>
          have hempty : emptyFolder.at? (inner :: goal) = none := rfl
          exact isFolder_of_at?_put hnew hempty hne' hat
        | nil =>
          cases place with
          | nil => exact absurd rfl hne'
          | cons =>
            cases hat
            rfl
    · rw [named?_setEntry_ne _ he, hnone] at hat
      cases hat
  | _ :: _, _ :: _, .file _ _, _, _, hat | _ :: _, _ :: _, .link _, _, _, hat
  | _ :: _, _ :: _, .sealed _ _ _, _, _, hat | _ :: _, _ :: _, .barred _, _, _, hat => by cases hat

/-- What is put below a place is put into what is there. -/
theorem at?_put_append (new : Node) {node : Node} (rest : List Name) : ∀ {front : List Name} {root : Node},
    root.at? front = some node → (root.put (front ++ rest) new).at? front = some (node.put rest new)
  | [], root, hat => by
    rw [at?_nil] at hat
    cases hat
    exact at?_nil _
  | name :: front, .folder entries, hat => by
    obtain ⟨inner, hnamed, hat⟩ := Option.bind_eq_some_iff.1 hat
    rw [List.cons_append, Node.put, at?, named?_setEntry_self, hnamed]
    exact at?_put_append new rest hat
  | _ :: _, .file _ _, hat | _ :: _, .link _, hat | _ :: _, .sealed _ _ _, hat | _ :: _, .barred _, hat => by cases hat

/-- Apart from the way to what is put nothing changes. -/
theorem at?_put_apart {new : Node} : ∀ {place goal : List Name} {root : Node}, ¬ goal <+: place → ¬ place <+: goal →
    (root.put place new).at? goal = root.at? goal
  | [], goal, _, _, hplace => absurd List.nil_prefix hplace
  | _ :: _, [], _, hgoal, _ => absurd List.nil_prefix hgoal
  | name :: place, first :: goal, .folder entries, hgoal, hplace => by
    rw [Node.put, at?, at?]
    by_cases he : first = name
    · subst he
      rw [List.cons_prefix_cons] at hgoal hplace
      have hgoal' : ¬ goal <+: place := fun h => hgoal ⟨rfl, h⟩
      have hplace' : ¬ place <+: goal := fun h => hplace ⟨rfl, h⟩
      rw [named?_setEntry_self, Option.bind_some, at?_put_apart hgoal' hplace']
      cases named? first entries with
      | some inner => rfl
      | none =>
        cases goal with
        | nil => exact absurd List.nil_prefix hgoal'
        | cons => rfl
    · rw [named?_setEntry_ne _ he]
  | _ :: _, _ :: _, .file _ _, _, _ | _ :: _, _ :: _, .link _, _, _ | _ :: _, _ :: _, .sealed _ _ _, _, _
  | _ :: _, _ :: _, .barred _, _, _ => rfl

theorem at?_put_self {new : Node} {name : Name} {around : List Name} {root : Node} {entries : List (Name × Node)}
    (h : root.at? around = some (.folder entries)) :
    (root.put (around ++ [name]) new).at? (around ++ [name]) = some new := by
  have hput := at?_put_append new [name] h
  rw [Node.put] at hput
  rw [at?_concat hput, named?_setEntry_self, put_nil]

/-- What is at a place after something was put there, if there is anything, is what was put. -/
theorem eq_of_at?_put {new node : Node} : ∀ {place : List Name} {root : Node},
    (root.put place new).at? place = some node → node = new
  | [], root, hat => by
    rw [put_nil, at?_nil] at hat
    exact (Option.some.inj hat).symm
  | name :: place, .folder entries, hat => by
    rw [Node.put, at?, named?_setEntry_self, Option.bind_some] at hat
    exact eq_of_at?_put hat
  | _ :: _, .file _ _, hat | _ :: _, .link _, hat | _ :: _, .sealed _ _ _, hat | _ :: _, .barred _, hat => by cases hat

def Spot.place : Spot → List Name
  | .node names _ => names
  | .vacant around name => around ++ [name]

section
variable {root new : Node} {place : List Name}

/-- **Steps that led to a place lead there after something was put into the tree.** -/
theorem followAt_put (hfits : root.Fits place new) {links : Nat} {start : List Name} {steps : List Step} {spot : Spot}
    (h : followAt root true links start steps = .ok spot) {node : Node}
    (hat : (root.put place new).at? spot.place = some node)
    (hlink : ∀ target, node ≠ .link target) :
    followAt (root.put place new) true links start steps = .ok (.node spot.place node) := by
  -- A folder on the way is still one, and what it held is there, of the same kind.
  have hfolder : ∀ {goal entries}, root.at? goal = some (.folder entries) → ∃ entries',
      (root.put place new).at? goal = some (.folder entries') := fun hgoal => by
    obtain ⟨node', hat', hkept⟩ := at?_put hfits hgoal
    obtain ⟨entries', rfl⟩ := hkept.of_folder
    exact ⟨entries', hat'⟩
  fun_induction followAt root true links start steps with
  | case1 =>
    cases h
    exact followAt_nil hat
  | case3 _ _ _ _ hgoal _ ih =>
    obtain ⟨entries', hgoal'⟩ := hfolder hgoal
    rw [followAt_stay hgoal', ih h]
  | case5 _ _ _ _ hgoal hne ih =>
    obtain ⟨entries', hgoal'⟩ := hfolder hgoal
    rw [followAt_up hgoal', if_neg hne, ih h]
  | case6 _ _ _ _ hgoal name _ hend =>
    cases h
    obtain ⟨entries', hgoal'⟩ := hfolder hgoal
    rw [List.isEmpty_iff.1 hend, followAt_into hgoal' ((at?_concat hgoal' name).symm.trans hat) hlink]
    exact followAt_nil hat
  | case11 _ _ _ hgoal name target hnamed _ hout _ ih =>
    obtain ⟨entries', hgoal'⟩ := hfolder hgoal
    obtain ⟨node', hat', hkept⟩ := at?_put hfits
      ((at?_concat hgoal name).trans hnamed)
    obtain rfl := hkept.eq rfl rfl
    rw [followAt_link hgoal' ((at?_concat hgoal' name).symm.trans hat'), if_neg (by simp), if_neg hout]
    exact ih h
  | case12 _ _ _ _ hgoal name inner hinner hnamed ih =>
    obtain ⟨entries', hgoal'⟩ := hfolder hgoal
    obtain ⟨node', hat', hkept⟩ := at?_put hfits
      ((at?_concat hgoal name).trans hnamed)
    rw [followAt_into hgoal' ((at?_concat hgoal' name).symm.trans hat') (hkept.ne_link hinner)]
    exact ih h
  | case13 _ _ _ _ hgoal ih =>
    obtain ⟨node', hgoal', hkept⟩ := at?_put hfits hgoal
    obtain rfl := hkept.eq rfl rfl
    rw [followAt_barred hgoal', if_pos rfl, ih h]
  | case8 _ _ _ _ _ _ _ _ hend => simp at hend
  | case2 | case4 | case7 | case9 | case10 | case14 | case15 => cases h

/-- **Paths that led anywhere lead there after something was put into the tree.** -/
theorem locate_put (hfits : root.Fits place new) {path : Path}
    {goal : List Name} {node : Node} (h : root.locate path = .ok (goal, node)) : ∃ node',
      (root.put place new).locate path = .ok (goal, node') ∧ Kept place goal node node' := by
  obtain ⟨habs, hbytes, hfollow⟩ := locate_eq_ok.1 h
  obtain ⟨node', hat', hkept⟩ := at?_put hfits (at?_of_locate h)
  have hlink : ∀ target, node ≠ .link target := by
    rintro target rfl
    exact locate_ne_link root path goal target h
  exact ⟨node', locate_eq_ok.2 ⟨habs, hbytes, followAt_put hfits hfollow hat' (hkept.ne_link hlink)⟩, hkept⟩

theorem locate_put_folder (hfits : root.Fits place new) {path : Path}
    {goal : List Name} {entries : List (Name × Node)} (h : root.locate path = .ok (goal, .folder entries)) :
    ∃ entries', (root.put place new).locate path = .ok (goal, .folder entries') := by
  obtain ⟨node', hlocate, hkept⟩ := locate_put hfits h
  obtain ⟨entries', rfl⟩ := hkept.of_folder
  exact ⟨entries', hlocate⟩

end

theorem fromUTF8?_toUTF8 (text : String) : String.fromUTF8? text.toUTF8 = some text := by
  rw [String.fromUTF8?, dif_pos (by simpa using text.isValidUTF8)]
  rfl

/-! ## Trees without links -/

/-- Where a step leads if there are no links. -/
def Step.lead (place : List Name) : Step → List Name
  | .stay _ => place
  | .up => place.dropLast
  | .into name => place ++ [name]

/-- **Without links the steps alone tell to which place a path leads.** -/
theorem place_of_followAt {root : Node} (hfree : root.LinkFree) {links : Nat} {place : List Name} {steps : List Step}
    {spot : Spot} (h : followAt root true links place steps = .ok spot) : spot.place = steps.foldl Step.lead place := by
  fun_induction followAt root true links place steps with
  | case1 =>
    cases h
    rfl
  | case3 _ _ _ _ _ _ ih | case5 _ _ _ _ _ _ ih | case12 _ _ _ _ _ _ _ _ _ ih | case13 _ _ _ _ _ ih => exact ih h
  | case6 _ _ _ _ _ _ _ hend =>
    cases h
    rw [List.isEmpty_iff.1 hend]
    rfl
  | case8 _ _ _ _ hat _ _ hnamed | case11 _ _ _ hat _ _ hnamed =>
    exact (hfree.at? ((at?_concat hat _).trans hnamed)).elim
  | case2 | case4 | case7 | case9 | case10 | case14 | case15 => cases h

/-- Where a path leads if there are no links, and folders wherever it goes on. -/
def placeOf (path : Path) : List Name := (path.pieces.map Step.ofPiece).foldl Step.lead []

theorem place_of_locate {root node : Node} (hfree : root.LinkFree) {path : Path} {goal : List Name}
    (h : root.locate path = .ok (goal, node)) : goal = placeOf path :=
  place_of_followAt hfree (locate_eq_ok.1 h).2.2

/-- Without links a list of names leads where it says. -/
theorem followAt_names {root node : Node} {links : Nat} {goal : List Name} (hfree : root.LinkFree) :
    ∀ {names place : List Name}, followAt root true links place (names.map .into) = .ok (.node goal node) ↔
      goal = place ++ names ∧ root.at? (place ++ names) = some node
  | [], place => by
    rw [List.append_nil, List.map_nil, followAt]
    cases root.at? place <;> simp [eq_comm]
  | name :: names, place => by
    have hstep : place ++ name :: names = place ++ [name] ++ names := by simp
    rw [List.map_cons, hstep]
    by_cases hfolder : ∃ entries, root.at? place = some (.folder entries)
    · obtain ⟨entries, hat⟩ := hfolder
      cases hnamed : named? name entries with
      | none =>
        rw [followAt_vacant hat hnamed, at?_append, at?_concat hat, hnamed]
        cases names <;> simp
      | some inner =>
        have hinner := hfree.at? ((at?_concat hat name).trans hnamed)
        rw [followAt_into hat hnamed fun target he => by rw [he] at hinner; exact hinner]
        exact followAt_names hfree
    · have hnone : root.at? (place ++ [name] ++ names) = none := by
        rw [List.append_assoc, at?_append]
        cases hat : root.at? place with
        | none => rfl
        | some inner =>
          cases inner with
          | folder entries => exact absurd ⟨entries, hat⟩ hfolder
          | file _ _ | link _ | sealed _ _ _ | barred _ => rfl
      rw [hnone]
      refine ⟨fun h => ?_, fun h => by cases h.2⟩
      obtain ⟨inner, hat⟩ := exists_of_followAt h
      obtain ⟨entries, rfl⟩ := exists_folder_of_followAt hat h
      exact absurd ⟨entries, hat⟩ hfolder

/-- **Without links the names of a place, as a path, lead to the place.** -/
theorem node?_below {root : Node} (hfree : root.LinkFree) {names : List Name} (hne : names ≠ [])
    (hplain : ∀ name ∈ names, name.Plain) : root.node? (Path.below ⟨[]⟩ names) = root.at? names := by
  have hlocate : ∀ goal node, root.locate (Path.below ⟨[]⟩ names) = .ok (goal, node) ↔
      goal = names ∧ root.at? names = some node := fun goal node => by
    rw [locate_below hne hplain, followAt_names hfree, List.nil_append]
  unfold node?
  cases hl : root.locate (Path.below ⟨[]⟩ names) with
  | ok found =>
    obtain ⟨goal, node⟩ := found
    obtain ⟨rfl, hat⟩ := (hlocate goal node).1 hl
    rw [hat]
    rfl
  | error e =>
    cases hat : root.at? names with
    | none => rfl
    | some node =>
      rw [(hlocate names node).2 ⟨rfl, hat⟩] at hl
      cases hl

/-- Without links a path below a folder leads to the place below the folder's. -/
theorem goal_of_locate_below {root : Node} (hfree : root.LinkFree) {path : Path} {place : List Name} {folder : Node}
    (hpath : root.locate path = .ok (place, folder)) : ∀ {names goal : List Name} {node : Node},
      (∀ name ∈ names, name.Plain) → root.locate (path.below names) = .ok (goal, node) → goal = place ++ names := by
  intro names
  induction names using List.reverseRecOn with
  | nil =>
    intro goal node _ h
    have he := h.symm.trans hpath
    cases he
    simp
  | append_singleton names name ih =>
    intro goal node hnames h
    rw [List.forall_mem_append, List.forall_mem_singleton] at hnames
    have hchild : path.below (names ++ [name]) = (path.below names).child name := by simp [Path.below]
    rw [hchild] at h
    obtain ⟨middle, entries, left, hlocate, hfollow⟩ := locate_of_child
      (Path.bytes_below_ne_nil (locate_eq_ok.1 hpath).2.1 names) hnames.2 h
    rw [ih hnames.1 hlocate] at hfollow
    rw [← List.append_assoc]
    rw [show [Step.into name] = [name].map .into from rfl, followAt_names hfree] at hfollow
    exact hfollow.1

end ApiCatalog.Node
