import ApiCatalog.Proofs.Scan.Isolation
import ApiCatalog.Proofs.Scan.Pruned
import ApiCatalog.Proofs.Text.Cut
/-!
# Scans that pay no regard to repositories

What belongs to a repository, its folder `.git` and the files with its rules, is hidden, and nothing but a rule that
keeps can bring it to light.  So where no ignore file has such a rule, a scan that does not heed repositories finds the
same in two trees that hold the same beside them (`scan_sameBesideGit`).
-/

namespace ApiCatalog

open Ignore (Excludes Level Rule Rules Scope Verdict)

def gitFolder : Name := Name.ofText ".git"

/-- The files that tell which files a repository, or a search in it, passes over. -/
def gitRuleFiles : List Name := [".gitignore", ".ignore"].map Name.ofText

/-- Outside of the folders of repositories the trees have the same folders that can be entered and, but for files with
rules of repositories, the same files. -/
structure Node.SameBesideGit (tree tree' : Node) : Prop where
  file : ∀ {place}, gitFolder ∉ place → (∀ name ∈ place.getLast?, name ∉ gitRuleFiles) → ∀ node : Node,
    node.isFile = true → (tree.at? place = some node ↔ tree'.at? place = some node)
  folder : ∀ {place}, gitFolder ∉ place →
    ((∃ entries, tree.at? place = some (.folder entries)) ↔ ∃ entries, tree'.at? place = some (.folder entries))

/-- No ignore file outside of the folders of repositories has a rule that keeps what it matches. -/
def Node.KeepsNothing (tree : Node) : Prop :=
  ∀ around, gitFolder ∉ around → ∀ content modified,
    tree.at? (around ++ [Level.customName]) = some (.file content modified) →
      ∀ rule ∈ Rules.ofBytes content.toList, rule.keeps = false

theorem Node.SameBesideGit.symm {tree tree' : Node} (h : tree.SameBesideGit tree') : tree'.SameBesideGit tree where
  file hplace hlast node hfile := (h.file hplace hlast node hfile).symm
  folder hplace := (h.folder hplace).symm

theorem head?_gitFolder : gitFolder.head? = some Path.dot := by decide

theorem head?_of_mem_gitRuleFiles : ∀ name ∈ gitRuleFiles, name.head? = some Path.dot := by decide

/-! ## Rules that keep nothing -/

namespace Ignore

theorem Line.keeps_ofText (text : List Char) : (Line.ofText text).keeps = true ↔ text.head? = some '!' := by
  unfold Line.ofText
  split
  rename_i keeps anchored pattern hmarks
  have hkeeps : keeps = true ↔ text.head? = some '!' := by
    split at hmarks
    case h_6 _ _ hmark _ =>
      cases hmarks
      cases text with
      | nil => simp
      | cons c rest => simpa using fun hc => hmark rest (by rw [hc])
    all_goals
      cases hmarks
      simp
  split <;> exact hkeeps

/-- **A rule keeps what it matches exactly if its line starts with an exclamation mark.** -/
theorem Rule.keeps_iff_of_ofText? {text : List Char} {rule : Rule} (h : Rule.ofText? text = some rule) :
    rule.keeps = true ↔ text.head? = some '!' := by
  unfold Rule.ofText? at h
  split at h
  · cases h
  · -- Blanks at the end do not matter for the start of a line that is not blank.
    have hhead : ∀ line, (line = text ∨ line = Text.trimEnd text) → line.isEmpty ≠ true → line.head? = text.head? := by
      rintro line (rfl | rfl) hne
      · rfl
      · obtain ⟨more, hmore⟩ := Text.trimEndBy_isPrefix Text.isBlank text
        obtain ⟨c, rest, hcons⟩ := List.exists_cons_of_ne_nil (List.isEmpty_eq_false_iff.1 (Bool.eq_false_iff.2 hne))
        calc (Text.trimEnd text).head? = (Text.trimEnd text ++ more).head? := by rw [hcons]; rfl
          _ = text.head? := congrArg List.head? hmore
    have hline := ite_eq_or_eq (endsWith text "\\ ".toList = true) text (Text.trimEnd text)
    generalize (if endsWith text "\\ ".toList = true then text else Text.trimEnd text) = line at h hline
    dsimp only at h
    split at h
    · cases h
    · rename_i hne
      obtain ⟨glob, -, h⟩ := Option.bind_eq_some_iff.1 h
      cases h
      dsimp only
      rw [Line.keeps_ofText, hhead line hline hne]

theorem Rules.verdict_ne_kept {rules : Rules} (h : ∀ rule ∈ rules, rule.keeps = false) (path : List UInt8)
    (isFolder : Bool) : rules.verdict path isFolder ≠ .kept := by
  unfold Rules.verdict
  split
  · decide
  · rename_i rule hfind
    rw [h rule (List.mem_reverse.1 (List.mem_of_find?_eq_some hfind))]
    decide

theorem Verdict.or_ne_kept {verdict other : Verdict} (h : verdict ≠ .kept) (hother : other ≠ .kept) :
    verdict.or other ≠ .kept := by
  cases verdict with
  | undecided => exact hother
  | ignored => exact h
  | kept => exact absurd rfl h

/-- No rule of the folder keeps what it matches. -/
structure Level.KeepsNothing (level : Level) : Prop where
  custom : ∀ rule ∈ level.custom, rule.keeps = false
  git : ∀ rule ∈ level.git, rule.keeps = false
  exclude : ∀ rule ∈ level.exclude, rule.keeps = false

theorem Scope.verdictOf_ne_kept {kind : Level → Rules} {scope : Scope}
    (h : ∀ entry ∈ scope, ∀ rule ∈ kind entry.1, rule.keeps = false) (name : Name) (isFolder : Bool) :
    scope.verdictOf kind name isFolder ≠ .kept := by
  have hfold : ∀ (scope : Scope) (verdict : Verdict), verdict ≠ .kept →
      (∀ entry ∈ scope, ∀ rule ∈ kind entry.1, rule.keeps = false) →
      scope.foldl (fun verdict entry =>
        verdict.or ((kind entry.1).verdict ((entry.2 ++ [name]).intersperse [Path.slash]).flatten isFolder)) verdict ≠
          .kept := by
    intro scope
    induction scope with
    | nil => exact fun _ hverdict _ => hverdict
    | cons entry scope ih =>
      intro verdict hverdict hall
      rw [List.forall_mem_cons] at hall
      exact ih _ (Verdict.or_ne_kept hverdict (Rules.verdict_ne_kept hall.1 _ _)) hall.2
  exact hfold scope .undecided (by decide) h

theorem Scope.verdict_ne_kept {scope : Scope} (h : ∀ entry ∈ scope, entry.1.KeepsNothing) (name : Name)
    (isFolder : Bool) : scope.verdict name isFolder ≠ .kept :=
  Verdict.or_ne_kept
    (Verdict.or_ne_kept (Scope.verdictOf_ne_kept (fun entry hentry => (h entry hentry).custom) name isFolder)
      (Scope.verdictOf_ne_kept (fun entry hentry => (h entry hentry).git) name isFolder))
    (Scope.verdictOf_ne_kept (fun entry hentry => (h entry hentry).exclude) name isFolder)

/-- With no regard to repositories a folder has no rules but those of its own ignore file. -/
theorem Level.keepsNothing_load {tree : Node} (hfree : tree.LinkFree) (hkeep : tree.KeepsNothing) {place : List Name}
    (hplain : ∀ name ∈ place, name.Plain) (houtside : gitFolder ∉ place) :
    (Level.load tree false place).KeepsNothing where
  custom := by
    rw [Level.load]
    dsimp only
    rw [Rules.load, Node.node?_below hfree (List.append_ne_nil_of_right_ne_nil _ (List.cons_ne_nil _ _))
      (List.forall_mem_append.2 ⟨hplain, Level.plain_customName⟩)]
    split
    · rename_i hat
      exact hkeep place houtside _ _ hat
    · exact fun _ h => by cases h
  git := fun _ h => by cases h
  exclude := fun _ h => by cases h

theorem Level.load_sameBesideGit {tree tree' : Node} (hfree : tree.LinkFree) (hfree' : tree'.LinkFree)
    (hsame : tree.SameBesideGit tree') {place : List Name} (hplain : ∀ name ∈ place, name.Plain)
    (houtside : gitFolder ∉ place) : Level.load tree' false place = Level.load tree false place := by
  have hname : gitFolder ≠ Level.customName ∧ Level.customName ∉ gitRuleFiles := by decide
  have hfile : ∀ node : Node, node.isFile = true → (tree'.at? (place ++ [Level.customName]) = some node ↔
      tree.at? (place ++ [Level.customName]) = some node) := fun node hnode =>
    (hsame.file (by simpa [houtside] using hname.1) (by simpa using hname.2) node hnode).symm
  have hcustom := Rules.load_congr hfree hfree' hfile
    (List.append_ne_nil_of_right_ne_nil _ (List.cons_ne_nil _ _))
    (List.forall_mem_append.2 ⟨hplain, Level.plain_customName⟩)
  rw [Level.load, Level.load]
  dsimp only
  rw [hcustom]
  rfl

end Ignore

/-! ## Walks -/

namespace Walk

/-- The walk stands outside of the folders of repositories, in a folder that no rule keeps anything in. -/
structure Stand.Strict (stand : Stand) : Prop where
  plain : ∀ name ∈ stand.place, name.Plain
  outside : gitFolder ∉ stand.place
  scope : ∀ entry ∈ stand.scope, entry.1.KeepsNothing

section
variable {tree tree' : Node} {options : ScanOptions} {excludes excludes' : Excludes} {stand : Stand} {name : Name}

theorem Stand.admits_heedless (hgit : options.respectsGitignore = false) (isFolder : Bool) :
    stand.admits (Plan.of tree' options excludes') name isFolder =
      stand.admits (Plan.of tree options excludes) name isFolder := by
  rw [Stand.admits, Stand.admits, Plan.excludes_of_heedless hgit, Plan.excludes_of_heedless hgit]

theorem Stand.Strict.shown_of_admits (h : stand.Strict) (hgit : options.respectsGitignore = false) {isFolder : Bool}
    (hadmits : stand.admits (Plan.of tree options excludes) name isFolder = true) : name.head? ≠ some Path.dot := by
  rw [Stand.admits, Plan.excludes_of_heedless hgit, Excludes.none, Ignore.Verdict.or_undecided] at hadmits
  split at hadmits
  · cases hadmits
  · rename_i hkept
    exact absurd hkept (Ignore.Scope.verdict_ne_kept h.scope name isFolder)
  · simpa using hadmits

theorem Stand.Strict.outside_concat (h : stand.Strict) (hshown : name.head? ≠ some Path.dot) :
    gitFolder ∉ stand.place ++ [name] := by
  rw [List.mem_append, List.mem_singleton, not_or]
  exact ⟨h.outside, fun he => hshown (he ▸ head?_gitFolder)⟩

theorem Stand.Strict.enter (h : stand.Strict) (hfree : tree.LinkFree) (hkeep : tree.KeepsNothing)
    (hgit : options.respectsGitignore = false) (hname : name.Plain) (hshown : name.head? ≠ some Path.dot) :
    (stand.enter (Plan.of tree options excludes) name (stand.place ++ [name])).Strict := by
  have hplain := plain_concat h.plain hname
  have houtside := h.outside_concat hshown
  refine ⟨hplain, houtside, List.forall_mem_cons.2 ⟨?_, fun entry hentry => ?_⟩⟩
  · have hsame : (Plan.of tree options excludes).options.respectsGitignore = false := hgit
    dsimp only
    rw [hsame]
    exact Ignore.Level.keepsNothing_load hfree hkeep hplain houtside
  · obtain ⟨outer, houter, rfl⟩ := List.mem_map.1 hentry
    exact h.scope outer houter

theorem Stand.enter_sameBesideGit (hfree : tree.LinkFree) (hfree' : tree'.LinkFree) (hsame : tree.SameBesideGit tree')
    (hgit : options.respectsGitignore = false) {place : List Name} (hplain : ∀ name ∈ place, name.Plain)
    (houtside : gitFolder ∉ place) :
    stand.enter (Plan.of tree' options excludes') name place =
      stand.enter (Plan.of tree options excludes) name place := by
  have hload := Ignore.Level.load_sameBesideGit hfree hfree' hsame hplain houtside
  simp only [Stand.enter, Plan.of, hgit, hload]

end

section
variable {plan : Plan} {beyond : Stand → Node → List (List Name)} {stand : Stand} {name : Name} {names : List Name}

theorem cons_mem_filesAmong {entries : List (Name × Node)} (hnodup : (entries.map (·.1)).Nodup) :
    name :: names ∈ filesAmong plan beyond stand entries ↔
      ∃ node, Node.named? name entries = some node ∧ name :: names ∈ filesAt plan beyond stand (name, node) := by
  rw [filesAmong_eq_flatMap, List.mem_flatMap]
  constructor
  · rintro ⟨⟨first, node⟩, hmem, hat⟩
    obtain rfl : name = first := Option.some.inj (head_filesAt hat)
    exact ⟨node, Node.named?_of_mem hnodup hmem, hat⟩
  · rintro ⟨node, hnamed, hat⟩
    exact ⟨(name, node), Node.mem_of_named? hnamed, hat⟩

theorem cons_mem_filesAt_file {node : Node} {size : Nat} (hsize : node.size? = some size) :
    name :: names ∈ filesAt plan beyond stand (name, node) ↔ looksAt plan stand name size = true ∧ names = [] := by
  cases node with
  | file _ _ | sealed _ _ _ =>
    cases hsize
    rw [filesAt, List.mem_ite_nil_right, List.mem_singleton, List.cons.injEq]
    simp
  | folder _ | link _ | barred _ => cases hsize

theorem cons_mem_filesAt_folder {inner : List (Name × Node)} :
    name :: names ∈ filesAt plan beyond stand (name, .folder inner) ↔
      enters plan stand name = true ∧
        names ∈ filesAmong plan beyond (stand.enter plan name (stand.place ++ [name])) inner := by
  rw [filesAt, List.mem_ite_nil_right, List.mem_map]
  simp

end

section
variable {tree tree' : Node} {options : ScanOptions} {excludes excludes' : Excludes}
  {beyond beyond' : Stand → Node → List (List Name)}

/-- **Where no rule keeps anything, what is listed in the one tree is not hidden, and listed in the other.** -/
theorem shown_of_mem_filesAmong (hwf : tree.WellFormed) (hwf' : tree'.WellFormed) (hfree : tree.LinkFree)
    (hfree' : tree'.LinkFree) (hsame : tree.SameBesideGit tree') (hkeep : tree.KeepsNothing)
    (hgit : options.respectsGitignore = false) : ∀ {names : List Name} {stand : Stand}
    {entries entries' : List (Name × Node)}, stand.Strict → tree.at? stand.place = some (.folder entries) →
    tree'.at? stand.place = some (.folder entries') →
      names ∈ filesAmong (Plan.of tree options excludes) beyond stand entries →
      (∀ name ∈ names, name.head? ≠ some Path.dot) ∧
        names ∈ filesAmong (Plan.of tree' options excludes') beyond' stand entries'
  | [], _, _, _, _, _, _, h => absurd h nil_notMem_filesAmong
  | name :: names, stand, entries, entries', hstand, hat, hat', h => by
    have hfolder := Node.wellFormed_folder.1 (hwf.at? hat)
    have hfolder' := Node.wellFormed_folder.1 (hwf'.at? hat')
    obtain ⟨node, hnamed, h⟩ := (cons_mem_filesAmong hfolder.1).1 h
    have hplain := (hfolder.2 _ (Node.mem_of_named? hnamed)).1
    have hinner := (Node.at?_concat hat name).trans hnamed
    -- Files of both kinds alike.
    have hlisted {size : Nat} (hsize : node.size? = some size) :
        (∀ other ∈ name :: names, other.head? ≠ some Path.dot) ∧
          name :: names ∈ filesAmong (Plan.of tree' options excludes') beyond' stand entries' := by
      obtain ⟨hlooks, rfl⟩ := (cons_mem_filesAt_file hsize).1 h
      have hshown := hstand.shown_of_admits hgit (Bool.and_eq_true_iff.1 hlooks).1
      have hfile : ∀ last ∈ (stand.place ++ [name]).getLast?, last ∉ gitRuleFiles := by
        rintro last hlast hmem
        rw [List.getLast?_concat, Option.mem_some_iff] at hlast
        exact hshown (hlast ▸ head?_of_mem_gitRuleFiles last hmem)
      have hinner' := (hsame.file (hstand.outside_concat hshown) hfile node (Node.isFile_of_size? hsize)).1 hinner
      rw [looksAt, ← Stand.admits_heedless hgit] at hlooks
      exact ⟨List.forall_mem_singleton.2 hshown, (cons_mem_filesAmong hfolder'.1).2
        ⟨_, (Node.at?_concat hat' name).symm.trans hinner', (cons_mem_filesAt_file hsize).2 ⟨hlooks, rfl⟩⟩⟩
    cases node with
    | file _ _ | sealed _ _ _ => exact hlisted rfl
    | barred _ =>
      rw [filesAt] at h
      cases h
    | folder inner =>
      obtain ⟨henters, h⟩ := cons_mem_filesAt_folder.1 h
      have hshown := hstand.shown_of_admits hgit (Bool.and_eq_true_iff.1 (Bool.and_eq_true_iff.1 henters).1).2
      obtain ⟨inner', hinner'⟩ := (hsame.folder (hstand.outside_concat hshown)).1 ⟨inner, hinner⟩
      have hrest := shown_of_mem_filesAmong hwf hwf' hfree hfree' hsame hkeep hgit
        (hstand.enter hfree hkeep hgit hplain hshown) hinner hinner' h
      rw [← Stand.enter_sameBesideGit hfree hfree' hsame hgit (plain_concat hstand.plain hplain)
        (hstand.outside_concat hshown)] at hrest
      rw [enters, ← Stand.admits_heedless hgit] at henters
      exact ⟨List.forall_mem_cons.2 ⟨hshown, hrest.1⟩, (cons_mem_filesAmong hfolder'.1).2
        ⟨_, (Node.at?_concat hat' name).symm.trans hinner', cons_mem_filesAt_folder.2 ⟨henters, hrest.2⟩⟩⟩
    | link _ => exact (hfree.at? hinner).elim

end
end Walk

theorem Node.KeepsNothing.of_same {tree tree' : Node} (hkeep : tree.KeepsNothing) (hsame : tree.SameBesideGit tree') :
    tree'.KeepsNothing := fun around houtside content modified hat => by
  have hname : gitFolder ≠ Level.customName ∧ Level.customName ∉ gitRuleFiles := by decide
  refine hkeep around houtside content modified ((hsame.file ?_ ?_ _ rfl).2 hat)
  · simpa [houtside] using hname.1
  · simpa using hname.2

/-! ## Roots -/

namespace Node

theorem folder_of_followAt {root : Node} {links : Nat} {place goal : List Name} {steps : List Step}
    {entries : List (Name × Node)} (h : followAt root true links place steps = .ok (.node goal (.folder entries))) :
    ∃ first, root.at? place = some (.folder first) := by
  fun_induction followAt root true links place steps with
  | case1 _ _ _ hat =>
    cases h
    exact ⟨entries, hat⟩
  | case3 _ _ _ first hat | case5 _ _ _ first hat | case12 _ _ _ first hat | case11 _ _ _ hat => exact ⟨_, hat⟩
  | case13 _ _ _ _ hat ih =>
    obtain ⟨first, hfirst⟩ := ih h
    cases hat.symm.trans hfirst
  | case2 | case4 | case6 | case7 | case8 | case9 | case10 | case14 | case15 => cases h

/-- A path that does not go through the folder of a repository leads to a folder in both trees or in none. -/
theorem followAt_sameBesideGit {tree tree' : Node} (hfree : tree.LinkFree)
    (hsame : tree.SameBesideGit tree') {links : Nat} {place goal : List Name} {steps : List Step}
    {entries : List (Name × Node)} (h : followAt tree true links place steps = .ok (.node goal (.folder entries)))
    (houtside : gitFolder ∉ place) (hsteps : Step.into gitFolder ∉ steps) :
    ∃ entries', followAt tree' true links place steps = .ok (.node goal (.folder entries')) := by
  fun_induction followAt tree true links place steps with
  | case1 _ _ _ hat =>
    cases h
    obtain ⟨entries', hat'⟩ := (hsame.folder houtside).1 ⟨entries, hat⟩
    exact ⟨entries', followAt_nil hat'⟩
  | case3 _ _ _ _ hat _ ih =>
    obtain ⟨_, hat'⟩ := (hsame.folder houtside).1 ⟨_, hat⟩
    rw [followAt_stay hat']
    exact ih h houtside fun hmem => hsteps (List.mem_cons_of_mem _ hmem)
  | case5 _ _ _ _ hat hne ih =>
    obtain ⟨_, hat'⟩ := (hsame.folder houtside).1 ⟨_, hat⟩
    rw [followAt_up hat', if_neg hne]
    exact ih h (fun hmem => houtside (List.mem_of_mem_dropLast hmem)) fun hmem =>
      hsteps (List.mem_cons_of_mem _ hmem)
  | case12 _ place _ _ hat name _ _ hnamed ih =>
    obtain ⟨_, hat'⟩ := (hsame.folder houtside).1 ⟨_, hat⟩
    rw [List.mem_cons, not_or] at hsteps
    have hinner : gitFolder ∉ place ++ [name] := by
      rw [List.mem_append, List.mem_singleton, not_or]
      exact ⟨houtside, fun he => hsteps.1 (by rw [he])⟩
    obtain ⟨_, hnext⟩ := (hsame.folder hinner).1 (folder_of_followAt h)
    rw [followAt_into hat' ((at?_concat hat' name).symm.trans hnext) fun _ he => by cases he]
    exact ih h hinner hsteps.2
  | case11 _ _ _ hat _ _ hnamed => exact (hfree.at? ((at?_concat hat _).trans hnamed)).elim
  | case13 _ _ _ _ hat _ =>
    obtain ⟨_, hfirst⟩ := folder_of_followAt h
    cases hat.symm.trans hfirst
  | case2 | case4 | case6 | case7 | case8 | case9 | case10 | case14 | case15 => cases h

end Node

/-! ## Scans -/

namespace Walk

section
variable {tree tree' : Node} {options : ScanOptions} {root : Path} {excludes excludes' : Excludes} {place : List Name}
    {entries entries' : List (Name × Node)}

theorem strict_start (hwf : tree.WellFormed) (hfree : tree.LinkFree) (hkeep : tree.KeepsNothing)
    (hgit : options.respectsGitignore = false) (root : Path) (hat : tree.at? place = some (.folder entries))
    (houtside : gitFolder ∉ place) : (start (Plan.of tree options excludes) root place).Strict where
  plain := Node.plain_of_at? hwf hat
  outside := houtside
  scope := by
    simp only [start, Plan.of, hgit, Bool.false_eq_true, if_false, List.forall_mem_singleton]
    exact Ignore.Level.keepsNothing_load hfree hkeep (Node.plain_of_at? hwf hat) houtside

theorem start_sameBesideGit (hfree : tree.LinkFree) (hfree' : tree'.LinkFree) (hsame : tree.SameBesideGit tree')
    (hgit : options.respectsGitignore = false) (root : Path) (hplain : ∀ name ∈ place, name.Plain)
    (houtside : gitFolder ∉ place) :
    start (Plan.of tree' options excludes') root place = start (Plan.of tree options excludes) root place := by
  have hload := Ignore.Level.load_sameBesideGit hfree hfree' hsame hplain houtside
  simp only [start, Plan.of, hgit, hload, Bool.false_eq_true, if_false]

/-- **Where no rule keeps anything, a walk that pays no regard to repositories lists the same in both trees**, and
nothing that is hidden. -/
theorem names_sameBesideGit (hwf : tree.WellFormed) (hwf' : tree'.WellFormed) (hfree : tree.LinkFree)
    (hfree' : tree'.LinkFree) (hsame : tree.SameBesideGit tree') (hkeep : tree.KeepsNothing)
    (hgit : options.respectsGitignore = false) (hroot : tree.locate root = .ok (place, .folder entries))
    (hroot' : tree'.locate root = .ok (place, .folder entries')) (houtside : gitFolder ∉ place) :
    ∃ all, names tree options root excludes = .ok all ∧ names tree' options root excludes' = .ok all ∧
      ∀ names ∈ all, ∀ name ∈ names, name.head? ≠ some Path.dot := by
  have hat := Node.at?_of_locate hroot
  have hat' := Node.at?_of_locate hroot'
  have hstart : start (Plan.of tree' options excludes') root place = start (Plan.of tree options excludes) root place :=
    start_sameBesideGit hfree hfree' hsame hgit root (Node.plain_of_at? hwf hat) houtside
  have hstrict : (start (Plan.of tree options excludes) root place).Strict :=
    strict_start hwf hfree hkeep hgit root hat houtside
  have hshown : ∀ names ∈ filesUpTo (Plan.of tree options excludes) (maxLinks tree)
        (start (Plan.of tree options excludes) root place) (.folder entries),
      (∀ name ∈ names, name.head? ≠ some Path.dot) ∧ names ∈ filesUpTo (Plan.of tree' options excludes')
        (maxLinks tree') (start (Plan.of tree options excludes) root place) (.folder entries') := fun _ h =>
    shown_of_mem_filesAmong hwf hwf' hfree hfree' hsame hkeep hgit hstrict hat hat' h
  have hperm : (filesUpTo (Plan.of tree' options excludes') (maxLinks tree')
        (start (Plan.of tree options excludes) root place) (.folder entries')).Perm
      (filesUpTo (Plan.of tree options excludes) (maxLinks tree)
        (start (Plan.of tree options excludes) root place) (.folder entries)) := by
    refine (List.perm_ext_iff_of_nodup (nodup_filesUpTo hwf' _ _ _ (hwf'.at? hat'))
      (nodup_filesUpTo hwf _ _ _ (hwf.at? hat))).2 fun names => ⟨fun h => ?_, fun h => (hshown names h).2⟩
    exact (shown_of_mem_filesAmong hwf' hwf hfree' hfree hsame.symm (hkeep.of_same hsame) hgit hstrict hat' hat h).2
  refine ⟨_, names_folder hroot, ?_, fun names hnames =>
    (hshown names ((mem_names_iff hroot (names_folder hroot)).1 hnames).2).1⟩
  rw [names_folder hroot', hstart]
  split
  · rfl
  · exact congrArg Except.ok (((List.mergeSort_perm _ _).trans (hperm.trans (List.mergeSort_perm _ _).symm)).eq_of_pairwise
      (fun _ _ _ _ hab hba => List.le_antisymm hab hba) (pairwise_sorted _) (pairwise_sorted _))

end
end Walk

/-- What is not hidden is the same in both trees, wherever it is outside of the folders of repositories. -/
theorem Node.SameBesideGit.file_below {tree tree' : Node} (hsame : tree.SameBesideGit tree') {place names : List Name}
    (houtside : gitFolder ∉ place) (hshown : ∀ name ∈ names, name.head? ≠ some Path.dot) (hnil : names ≠ [])
    {node : Node} (hfile : node.isFile = true) :
    tree.at? (place ++ names) = some node ↔ tree'.at? (place ++ names) = some node := by
  refine hsame.file (fun hmem => ?_) (fun last hlast hmem => ?_) node hfile
  · rcases List.mem_append.1 hmem with hmem | hmem
    · exact houtside hmem
    · exact hshown _ hmem head?_gitFolder
  · rw [List.getLast?_append_of_ne_nil _ hnil] at hlast
    exact hshown last (List.mem_of_getLast? hlast) (head?_of_mem_gitRuleFiles last hmem)

theorem sources_sameBesideGit {tree tree' : Node} (hwf : tree.WellFormed) (hwf' : tree'.WellFormed)
    (hfree : tree.LinkFree) (hfree' : tree'.LinkFree) (hsame : tree.SameBesideGit tree') {options : ScanOptions}
    {root : Path} {excludes excludes' : Excludes} {place : List Name} {entries entries' : List (Name × Node)}
    (hroot : tree.locate root = .ok (place, .folder entries))
    (hroot' : tree'.locate root = .ok (place, .folder entries')) (houtside : gitFolder ∉ place)
    {all : List (List Name)} (hall : Walk.names tree options root excludes = .ok all)
    (hall' : Walk.names tree' options root excludes' = .ok all)
    (hshown : ∀ names ∈ all, ∀ name ∈ names, name.head? ≠ some Path.dot) :
    sources tree' options root excludes' = sources tree options root excludes := by
  rw [sources, sources, scanFiles_of_hasFolder (hasFolder_iff.2 ⟨_, _, hroot⟩) (Walk.walk_of_names hall),
    scanFiles_of_hasFolder (hasFolder_iff.2 ⟨_, _, hroot'⟩) (Walk.walk_of_names hall')]
  refine List.filterMap_congr fun file hfile => ?_
  obtain ⟨names, hnames, rfl⟩ := List.mem_map.1 hfile
  obtain ⟨_, h, -, hfinds⟩ := @Walk.names_of_folder tree hwf options root excludes place entries hroot
  obtain rfl := Except.ok.inj (hall.symm.trans h)
  obtain ⟨_, h', -, hfinds'⟩ := @Walk.names_of_folder tree' hwf' options root excludes' place entries' hroot'
  obtain rfl := Except.ok.inj (hall'.symm.trans h')
  obtain ⟨goal, node, hlocate, hnode⟩ := (hfinds names hnames).file
  obtain ⟨goal', node', hlocate', -⟩ := (hfinds' names hnames).file
  obtain rfl := Node.goal_of_locate_below hfree hroot (hfinds names hnames).plain hlocate
  obtain rfl := Node.goal_of_locate_below hfree' hroot' (hfinds names hnames).plain hlocate'
  have hat := Node.at?_of_locate hlocate
  have hnil : names ≠ [] := by
    rintro rfl
    rw [List.append_nil, Node.at?_of_locate hroot] at hat
    cases hat
    cases hnode
  have hat' := (hsame.file_below houtside (hshown names hnames) hnil hnode).1 hat
  rw [Node.at?_of_locate hlocate'] at hat'
  rw [Option.some.inj hat'] at hlocate'
  rw [Registry.dispatch_congr Registry.isLocal_of_mem_builtin (hlocate'.trans hlocate.symm)]

/-- **A scan that pays no regard to repositories finds the same files and the same entries in two trees that differ in
nothing but the folders of repositories and files with their rules**, wherever these are, if no rule of the other ignore
files keeps what it matches and the root is not in the folder of a repository.  The root is a folder in both trees
unless the path to it goes through the folder of a repository. -/
theorem scan_sameBesideGit {tree tree' : Node} (hwf : tree.WellFormed) (hwf' : tree'.WellFormed)
    (hfree : tree.LinkFree) (hfree' : tree'.LinkFree) (hsame : tree.SameBesideGit tree') (hkeep : tree.KeepsNothing)
    {options : ScanOptions} (hgit : options.respectsGitignore = false) {root : Path} {place : List Name}
    {entries : List (Name × Node)} (hroot : tree.locate root = .ok (place, .folder entries))
    (houtside : gitFolder ∉ place) (excludes excludes' : Excludes) :
    (gitFolder ∉ root.pieces → tree'.hasFolder root = true) ∧
    (tree'.hasFolder root = true → walk tree' options root excludes' = walk tree options root excludes ∧
      ∀ now, scan tree' .builtin options root now excludes' = scan tree .builtin options root now excludes) := by
  obtain ⟨habs, hbytes, hfollow⟩ := Node.locate_eq_ok.1 hroot
  constructor
  · intro hpieces
    have hsteps : Node.Step.into gitFolder ∉ root.pieces.map Node.Step.ofPiece := fun hmem => by
      obtain ⟨piece, hpiece, hstep⟩ := List.mem_map.1 hmem
      unfold Node.Step.ofPiece at hstep
      split at hstep
      · cases hstep
      · split at hstep
        · cases hstep
        · split at hstep
          · cases hstep
          · cases hstep
            exact hpieces hpiece
    obtain ⟨entries', hfollow'⟩ := Node.followAt_sameBesideGit hfree hsame hfollow List.not_mem_nil hsteps
    exact hasFolder_iff.2 ⟨place, entries', Node.locate_eq_ok.2 ⟨habs, hbytes, hfollow'⟩⟩
  · intro hfolder'
    obtain ⟨place', entries', hroot'⟩ := hasFolder_iff.1 hfolder'
    obtain rfl : place' = place := (Node.place_of_locate hfree' hroot').trans
      (Node.place_of_locate hfree hroot).symm
    obtain ⟨all, hall, hall', hshown⟩ := @Walk.names_sameBesideGit tree tree' options root excludes excludes' _
      entries entries' hwf hwf' hfree hfree' hsame hkeep hgit hroot hroot' houtside
    have hfolder := hasFolder_iff.2 ⟨_, _, hroot⟩
    refine ⟨by rw [Walk.walk_of_names hall, Walk.walk_of_names hall'], fun now => ?_⟩
    rw [scan_eq_sources_of_hasFolder hwf options hfolder, scan_eq_sources_of_hasFolder hwf' options hfolder',
      sources_sameBesideGit hwf hwf' hfree hfree' hsame hroot hroot' houtside hall hall' hshown]

/-! ## A repository in a repository -/

namespace Node

section
variable {name : Name} {node node' : Node} {entries entries' : List (Name × Node)}

theorem at?_first (rest : List Name) : (folder ((name, node) :: entries)).at? (name :: rest) = node.at? rest := by
  simp [at?, named?]

theorem at?_later {other : Name} (hne : other ≠ name) (rest : List Name) :
    (folder ((name, node) :: entries)).at? (other :: rest) = (folder entries).at? (other :: rest) := by
  simp [at?, named?, List.find?_cons_of_neg, Ne.symm hne]

theorem SameBesideGit.refl (node : Node) : node.SameBesideGit node := ⟨fun _ _ _ _ => Iff.rfl, fun _ => Iff.rfl⟩

theorem SameBesideGit.cons (hnode : node.SameBesideGit node')
    (h : (Node.folder entries).SameBesideGit (Node.folder entries')) :
    (Node.folder ((name, node) :: entries)).SameBesideGit (Node.folder ((name, node') :: entries')) where
  file {place} hplace hlast file hfile := by
    cases place with
    | nil => simp [at?_nil, folder_ne_file hfile]
    | cons first rest =>
      by_cases he : first = name
      · rw [he, at?_first, at?_first]
        refine hnode.file (fun hmem => hplace (List.mem_cons_of_mem _ hmem)) (fun last hmem => hlast last ?_) file hfile
        rw [List.getLast?_cons, Option.mem_def.1 hmem]
        rfl
      · rw [at?_later he, at?_later he]
        exact h.file hplace hlast file hfile
  folder {place} hplace := by
    cases place with
    | nil => simp [at?_nil]
    | cons first rest =>
      by_cases he : first = name
      · rw [he, at?_first, at?_first]
        exact hnode.folder fun hmem => hplace (List.mem_cons_of_mem _ hmem)
      · rw [at?_later he, at?_later he]
        exact h.folder hplace

theorem SameBesideGit.leaveOut
    (hname : name = gitFolder ∨ name ∈ gitRuleFiles ∧ node.isFile = true ∧ named? name entries = none)
    (h : (Node.folder entries).SameBesideGit (Node.folder entries')) :
    (Node.folder ((name, node) :: entries)).SameBesideGit (Node.folder entries') where
  file {place} hplace hlast file hfile := by
    cases place with
    | nil => simp [at?_nil, folder_ne_file hfile]
    | cons first rest =>
      rw [← h.file hplace hlast file hfile]
      by_cases he : first = name
      · obtain rfl | ⟨hmem, hnode, hnew⟩ := hname
        · exact absurd (he ▸ List.mem_cons_self) hplace
        · rw [he, at?_first, at?, hnew]
          cases rest with
          | nil => exact absurd (he ▸ hmem) (hlast first rfl)
          | cons _ _ => simp [at?_file hnode]
      · rw [at?_later he]
  folder {place} hplace := by
    cases place with
    | nil => simp [at?_nil]
    | cons first rest =>
      rw [← h.folder hplace]
      by_cases he : first = name
      · obtain rfl | ⟨-, hnode, hnew⟩ := hname
        · exact absurd (he ▸ List.mem_cons_self) hplace
        · rw [he, at?_first, at?, hnew]
          cases rest with
          | nil => simp [at?_nil, Ne.symm (folder_ne_file hnode _)]
          | cons _ _ => simp [at?_file hnode]
      · rw [at?_later he]

theorem keepsNothing_file (content : ByteArray) (modified : Instant) : (Node.file content modified).KeepsNothing :=
  fun around _ _ _ hat => by cases around <;> cases hat

theorem keepsNothing_emptyFolder : emptyFolder.KeepsNothing :=
  fun around _ _ _ hat => by cases around <;> cases hat

theorem KeepsNothing.cons
    (hfirst : name = Level.customName → ∀ content modified, node = .file content modified →
      ∀ rule ∈ Rules.ofBytes content.toList, rule.keeps = false)
    (hnode : node.KeepsNothing) (h : (Node.folder entries).KeepsNothing) :
    (Node.folder ((name, node) :: entries)).KeepsNothing := fun around houtside content modified hat => by
  cases around with
  | nil =>
    rw [List.nil_append] at hat
    by_cases he : Level.customName = name
    · rw [he, at?_first, at?_nil] at hat
      exact hfirst he.symm content modified (Option.some.inj hat)
    · rw [at?_later he] at hat
      exact h [] houtside content modified hat
  | cons first rest =>
    rw [List.cons_append] at hat
    by_cases he : first = name
    · rw [he, at?_first] at hat
      exact hnode rest (fun hmem => houtside (List.mem_cons_of_mem _ hmem)) content modified hat
    · rw [at?_later he] at hat
      exact h (first :: rest) houtside content modified hat

end
end Node

def emptyObject : Node := .file ⟨#[0x7b, 0x7d]⟩ ⟨0, 0⟩

/-- A folder with a folder in it, the outer one in a folder with rules of a repository, and with what else belongs to
one. -/
def nested (above outer inner : List (Name × Node)) : Node :=
  .folder (above ++ [(Name.ofText "p", .folder (outer ++ [(Level.customName, .file "b.json".toUTF8 ⟨0, 0⟩),
    (Name.ofText "a.json", emptyObject), (Name.ofText "b.json", emptyObject),
    (Name.ofText "d", .folder (inner ++ [(Name.ofText "c.json", emptyObject)]))]))])

/-- Neither an ignored file above, in or below a folder nor a repository there changes what is listed. -/
theorem scan_sameBesideGit_nested :
    let rules (text : String) : Node := .file text.toUTF8 ⟨0, 0⟩
    let tree := nested [(gitFolder, .folder []), (Level.gitName, rules "*.json")] [] [(Level.gitName, rules "c.json")]
    let tree' := nested [] [(gitFolder, .folder []), (Name.ofText ".ignore", rules "a.json")] [(gitFolder, .folder [])]
    tree'.hasFolder (.ofText "p") = true ∧
      walk tree' .unset (.ofText "p") = .ok [.ofText "p/a.json", .ofText "p/d/c.json"] ∧
      ∀ now, scan tree' .builtin .unset (.ofText "p") now = scan tree .builtin .unset (.ofText "p") now := by
  intro rules tree tree'
  have hwf : tree.WellFormed ∧ tree'.WellFormed := by
    simp only [tree, tree', rules, nested, emptyObject, List.cons_append, List.nil_append, Node.WellFormed,
      Node.EntriesWellFormed]
    decide
  have hfree : tree.LinkFree ∧ tree'.LinkFree := by
    simp [tree, tree', rules, nested, emptyObject, Node.LinkFree, Node.EntriesLinkFree]
  have hinner : (Node.folder [(Level.gitName, rules "c.json"), (Name.ofText "c.json", emptyObject)]).SameBesideGit
      (.folder [(gitFolder, .folder []), (Name.ofText "c.json", emptyObject)]) :=
    .leaveOut (.inr ⟨by decide, rfl, rfl⟩) (.symm (.leaveOut (.inl rfl) (.refl _)))
  have hsame : tree.SameBesideGit tree' :=
    .leaveOut (.inl rfl) <| .leaveOut (.inr ⟨by decide, rfl, rfl⟩) <| .cons
      (.symm <| .leaveOut (.inl rfl) <| .leaveOut (.inr ⟨by decide, rfl, rfl⟩) <| .symm <|
        .cons (.refl _) <| .cons (.refl _) <| .cons (.refl _) <| .cons hinner <| .refl _)
      (.refl _)
  have hkeep : tree.KeepsNothing := by
    have hcustom : (Rules.ofBytes "b.json".toUTF8.toList).all (!·.keeps) = true := by decide +kernel
    rw [List.all_eq_true] at hcustom
    have hfile {name : Name} {content : ByteArray} {modified : Instant} {entries : List (Name × Node)}
        (hne : name ≠ Level.customName) (h : (Node.folder entries).KeepsNothing) :
        (Node.folder ((name, .file content modified) :: entries)).KeepsNothing :=
      .cons (fun he => absurd he hne) (Node.keepsNothing_file _ _) h
    refine .cons (fun he => absurd he (by decide)) Node.keepsNothing_emptyFolder (hfile (by decide) ?_)
    refine .cons (fun he => absurd he (by decide)) ?_ Node.keepsNothing_emptyFolder
    refine .cons (fun _ content modified he => ?_) (Node.keepsNothing_file _ _)
      (hfile (by decide) (hfile (by decide) ?_))
    · cases he
      exact fun rule hrule => by simpa using hcustom rule hrule
    · exact .cons (fun he => absurd he (by decide))
        (hfile (by decide) (hfile (by decide) Node.keepsNothing_emptyFolder)) Node.keepsNothing_emptyFolder
  have hroot : tree.locate (.ofText "p") = .ok ([Name.ofText "p"], _) := rfl
  have hgit : ScanOptions.unset.respectsGitignore = false := rfl
  obtain ⟨hfolder, hscan⟩ := scan_sameBesideGit hwf.1 hwf.2 hfree.1 hfree.2 hsame hkeep hgit hroot
    (by decide) .none .none
  have hfolder' := hfolder (by decide)
  refine ⟨hfolder', ?_, (hscan hfolder').2⟩
  simp only [tree', rules]
  exact Walk.walk_of_perm rfl (by decide) [[Name.ofText "a.json"], [Name.ofText "d", Name.ofText "c.json"]]
    (by decide +kernel) (by decide) (by decide)

end ApiCatalog
