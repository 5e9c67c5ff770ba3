import ApiCatalog.Proofs.Files.Put
import ApiCatalog.Proofs.Scan.Walk
/-!
# Ignore files around the root

Whether a scan heeds the rules of repositories must not matter where there are none: then the ignore files below the
root count either way (`Level.load_gitless`).  Those of the folders around the root are the exception, since they are
read for the one kind of scan alone; as long as they say nothing about what is below the root both list the same files
(`walk_gitless`), and else not (`walk_gitless_above`).
-/

namespace ApiCatalog

open Ignore (Level Rules Scope Verdict)

/-- No repository has rules in the tree: nothing but folders is called `.gitignore`, and nothing but files `.git`. -/
structure Node.Gitless (tree : Node) : Prop where
  gitignore : ∀ around node, tree.at? (around ++ [Level.gitName]) = some node →
    node.isFolder = true ∨ node.isBarred = true
  git : ∀ around node, tree.at? (around ++ [Name.ofText ".git"]) = some node → node.isFile = true

namespace Ignore

theorem Rules.load_eq_nil {tree : Node} {path : Path}
    (h : ∀ place content modified, tree.locate path ≠ .ok (place, .file content modified)) :
    Rules.load tree path = [] := by
  rw [Rules.load]
  split
  · rename_i hnode
    obtain ⟨place, hlocate⟩ := Node.locate_of_node? hnode
    exact absurd hlocate (h _ _ _)
  · rfl

section
variable {tree : Node} {place : List Name} {entries : List (Name × Node)}

theorem Rules.load_gitignore (hgit : tree.Gitless) (hplain : ∀ name ∈ place, name.Plain)
    (hat : tree.at? place = some (.folder entries)) :
    Rules.load tree (Path.below ⟨[]⟩ (place ++ [Level.gitName])) = [] := by
  refine Rules.load_eq_nil fun goal content modified hlocate => ?_
  rw [Node.locate_below_folder hat hplain (by decide), List.map_nil] at hlocate
  have hgoal := Node.at?_concat hat Level.gitName
  cases hnamed : Node.named? Level.gitName entries with
  | none =>
    rw [Node.followAt_vacant hat hnamed] at hlocate
    cases hlocate
  | some inner =>
    rw [hnamed] at hgoal
    have hfolder := hgit.gitignore place inner hgoal
    rw [Node.followAt_into hat hnamed (by rintro target rfl; cases hfolder <;> contradiction),
      Node.followAt_nil hgoal] at hlocate
    cases hlocate
    cases hfolder <;> contradiction

theorem Rules.load_exclude (hgit : tree.Gitless) (hplain : ∀ name ∈ place, name.Plain)
    (hat : tree.at? place = some (.folder entries)) :
    Rules.load tree (Path.below ⟨[]⟩ (place ++ Level.excludeNames)) = [] := by
  refine Rules.load_eq_nil fun goal content modified hlocate => ?_
  rw [Level.excludeNames, List.map_cons, List.map_cons, Node.locate_below_folder hat hplain (by decide)] at hlocate
  have hgoal := Node.at?_concat hat (Name.ofText ".git")
  cases hnamed : Node.named? (Name.ofText ".git") entries with
  | none =>
    rw [Node.followAt_vacant hat hnamed] at hlocate
    cases hlocate
  | some inner =>
    rw [hnamed] at hgoal
    have hfile := hgit.git place inner hgoal
    rw [Node.followAt_into hat hnamed (by rintro target rfl; cases hfile), List.map_cons] at hlocate
    obtain ⟨more, rfl⟩ := Node.exists_folder_of_followAt hgoal hlocate
    cases hfile

/-- **Where there is no repository a folder has the same rules for every scan.** -/
theorem Level.load_gitless (hgit : tree.Gitless) (hplain : ∀ name ∈ place, name.Plain)
    (hat : tree.at? place = some (.folder entries)) : Level.load tree true place = Level.load tree false place := by
  simp only [Level.load, Rules.load_gitignore hgit hplain hat, Rules.load_exclude hgit hplain hat, if_true,
    Bool.false_eq_true, if_false]

end

/-! ## Scopes with further levels around them -/

/-- The rules of the levels say nothing about what is below the folder. -/
def Scope.Mute (scope : Scope) : Prop :=
  ∀ level names, (level, names) ∈ scope → level.git = [] ∧ level.exclude = [] ∧ ∀ more isFolder, more ≠ [] →
    level.custom.verdict ((names ++ more).intersperse [Path.slash]).flatten isFolder = .undecided

theorem Scope.verdictOf_append {kind : Level → Rules} {name : Name} {isFolder : Bool} {outer : Scope}
    (h : ∀ level names, (level, names) ∈ outer →
      (kind level).verdict ((names ++ [name]).intersperse [Path.slash]).flatten isFolder = .undecided) (scope : Scope) :
    Scope.verdictOf kind (scope ++ outer) name isFolder = Scope.verdictOf kind scope name isFolder := by
  have hfold : ∀ verdict : Verdict, outer.foldl (fun verdict entry =>
      verdict.or ((kind entry.1).verdict ((entry.2 ++ [name]).intersperse [Path.slash]).flatten isFolder)) verdict =
        verdict := by
    intro verdict
    induction outer with
    | nil => rfl
    | cons entry outer ih =>
      obtain ⟨level, names⟩ := entry
      rw [List.foldl_cons, h level names List.mem_cons_self, Verdict.or_undecided]
      exact ih fun level names hmem => h level names (List.mem_cons_of_mem _ hmem)
  rw [Scope.verdictOf, List.foldl_append]
  exact hfold _

theorem Scope.Mute.verdict {outer : Scope} (h : outer.Mute) (scope : Scope) (name : Name) (isFolder : Bool) :
    (scope ++ outer).verdict name isFolder = scope.verdict name isFolder := by
  rw [Scope.verdict, Scope.verdict,
    Scope.verdictOf_append fun level names hmem => (h level names hmem).2.2 [name] isFolder (List.cons_ne_nil _ _),
    Scope.verdictOf_append fun level names hmem => by rw [(h level names hmem).1]; rfl,
    Scope.verdictOf_append fun level names hmem => by rw [(h level names hmem).2.1]; rfl]

/-- What is said about a folder's folder was said about the folder. -/
theorem Scope.Mute.enter {outer : Scope} (h : outer.Mute) (name : Name) :
    Scope.Mute (outer.map fun (level, names) => (level, names ++ [name])) := by
  intro level names hmem
  obtain ⟨⟨level', names'⟩, hmem', he⟩ := List.mem_map.1 hmem
  cases he
  obtain ⟨hgit, hexclude, hcustom⟩ := h _ _ hmem'
  refine ⟨hgit, hexclude, fun more isFolder _ => ?_⟩
  rw [List.append_assoc]
  exact hcustom ([name] ++ more) isFolder (by simp)

end Ignore

namespace Walk

/-- The stand with further levels around it. -/
def Stand.around (stand : Stand) (outer : Scope) : Stand := { stand with scope := stand.scope ++ outer }

/-- Two plans for a tree without repositories, of which only the second heeds their rules. -/
structure Plan.Heeds (plan plan' : Plan) : Prop where
  gitless : plan.tree.Gitless
  wellFormed : plan.tree.WellFormed
  tree : plan'.tree = plan.tree
  pruned : plan'.pruned = plan.pruned
  ignores : plan.options.respectsGitignore = false
  heeds : plan'.options.respectsGitignore = true
  options : plan'.options = { plan.options with respectGitignore := plan'.options.respectGitignore }
  excludes : plan'.excludes = plan.excludes

section
variable {plan plan' : Plan} {beyond beyond' : Stand → Node → List (List Name)} {outer : Scope}

theorem Plan.Heeds.admits (h : plan.Heeds plan') (hmute : outer.Mute) (stand : Stand) (name : Name) (isFolder : Bool) :
    (stand.around outer).admits plan' name isFolder = stand.admits plan name isFolder := by
  simp only [Stand.admits, Stand.around, hmute.verdict, h.excludes]

theorem Plan.Heeds.looksAt (h : plan.Heeds plan') (hmute : outer.Mute) (stand : Stand) (name : Name)
    (size : Nat) : Walk.looksAt plan' (stand.around outer) name size = Walk.looksAt plan stand name size := by
  rw [Walk.looksAt, Walk.looksAt, h.admits hmute, h.options]
  rfl

theorem Plan.Heeds.enters (h : plan.Heeds plan') (hmute : outer.Mute) (stand : Stand) (name : Name) :
    Walk.enters plan' (stand.around outer) name = Walk.enters plan stand name := by
  rw [Walk.enters, Walk.enters, h.admits hmute, h.pruned, h.options]
  rfl

theorem Plan.Heeds.target? (h : plan.Heeds plan') (stand : Stand) (name : Name) :
    Walk.target? plan' (stand.around outer) name = Walk.target? plan stand name := by
  rw [Walk.target?, Walk.target?, h.tree]
  rfl

theorem Plan.Heeds.load (h : plan.Heeds plan') {place : List Name} {entries : List (Name × Node)}
    (hat : plan.tree.at? place = some (.folder entries)) :
    Level.load plan'.tree true place = Level.load plan.tree false place := by
  rw [h.tree, Ignore.Level.load_gitless h.gitless (Node.plain_of_at? h.wellFormed hat) hat]

theorem Plan.Heeds.enter (h : plan.Heeds plan') (stand : Stand) (name : Name) {place : List Name}
    {entries : List (Name × Node)} (hat : plan.tree.at? place = some (.folder entries)) :
    (stand.around outer).enter plan' name place =
      (stand.enter plan name place).around (outer.map fun (level, names) => (level, names ++ [name])) := by
  rw [Stand.enter, Stand.enter, h.heeds, h.ignores, h.load hat]
  simp only [Stand.around, Scope.enter, List.map_append, List.cons_append]

mutual

/-- **Below a folder of a tree without repositories levels that say nothing make no difference.** -/
theorem filesAmong_around (h : plan.Heeds plan')
    (hbeyond : ∀ stand node outer, plan.tree.at? stand.place = some node → Scope.Mute outer →
      beyond' (stand.around outer) node = beyond stand node) {all : List (Name × Node)} :
    ∀ (entries : List (Name × Node)) (stand : Stand) (outer : Scope),
      plan.tree.at? stand.place = some (.folder all) → entries ⊆ all → outer.Mute →
      filesAmong plan' beyond' (stand.around outer) entries = filesAmong plan beyond stand entries
  | [], _, _, _, _, _ => by rw [filesAmong, filesAmong]
  | entry :: entries, stand, outer, hat, hsub, hmute => by
    rw [filesAmong, filesAmong, filesAt_around h hbeyond entry stand outer hat (hsub List.mem_cons_self) hmute,
      filesAmong_around h hbeyond entries stand outer hat (fun e he => hsub (List.mem_cons_of_mem _ he)) hmute]

theorem filesAt_around (h : plan.Heeds plan')
    (hbeyond : ∀ stand node outer, plan.tree.at? stand.place = some node → Scope.Mute outer →
      beyond' (stand.around outer) node = beyond stand node) {all : List (Name × Node)} :
    ∀ (entry : Name × Node) (stand : Stand) (outer : Scope),
      plan.tree.at? stand.place = some (.folder all) → entry ∈ all → outer.Mute →
      filesAt plan' beyond' (stand.around outer) entry = filesAt plan beyond stand entry
  | (name, .file _ _), stand, outer, _, _, hmute | (name, .sealed _ _ _), stand, outer, _, _, hmute => by
    rw [filesAt, filesAt, h.looksAt hmute]
  | (name, .barred _), stand, outer, _, _, _ => by
    rw [filesAt, filesAt]
  | (name, .folder inner), stand, outer, hat, hmem, hmute => by
    have hnodup := (Node.wellFormed_folder.1 (h.wellFormed.at? hat)).1
    have hinner := (Node.at?_concat hat name).trans (Node.named?_of_mem hnodup hmem)
    have hplace : (stand.around outer).place = stand.place := rfl
    rw [filesAt, filesAt, h.enters hmute, hplace, h.enter stand name hinner,
      filesAmong_around h hbeyond inner _ _ hinner (List.Subset.refl _) (hmute.enter name)]
  | (name, .link target), stand, outer, _, _, hmute => by
    have hlinks : plan'.options.followsSymlinks = plan.options.followsSymlinks := by rw [h.options]; rfl
    rw [filesAt, filesAt, hlinks, h.target?]
    split
    · split
      · rw [h.looksAt hmute]
      · rw [h.looksAt hmute]
      · rename_i place inner htarget
        have hlocate := locate_of_target? htarget
        rw [h.enters hmute, h.enter stand name (Node.at?_of_locate hlocate),
          hbeyond _ _ _ (Node.at?_of_locate hlocate) (hmute.enter name)]
      · rfl
    · rfl

end

theorem filesUpTo_around (h : plan.Heeds plan') : ∀ (links : Nat) (stand : Stand) (node : Node) (outer : Scope),
    plan.tree.at? stand.place = some node → outer.Mute →
      filesUpTo plan' links (stand.around outer) node = filesUpTo plan links stand node
  | 0, stand, .folder entries, outer, hat, hmute =>
    filesAmong_around h (fun _ _ _ _ _ => rfl) entries stand outer hat (List.Subset.refl _) hmute
  | links + 1, stand, .folder entries, outer, hat, hmute =>
    filesAmong_around h (filesUpTo_around h links) entries stand outer hat (List.Subset.refl _) hmute
  | 0, _, .file _ _, _, _, _ | _ + 1, _, .file _ _, _, _, _ | 0, _, .link _, _, _, _ | _ + 1, _, .link _, _, _, _
  | 0, _, .sealed _ _ _, _, _, _ | _ + 1, _, .sealed _ _ _, _, _, _ | 0, _, .barred _, _, _, _
  | _ + 1, _, .barred _, _, _, _ => rfl

end

/-! ## The whole walk -/

/-- No rule of an ignore file around a place speaks about what is below the place. -/
def SilentAround (tree : Node) (place : List Name) : Prop :=
  ∀ n < place.length, ∀ more isFolder, more ≠ [] →
    (Level.load tree false (place.take n)).custom.verdict
      ((place.drop n ++ more).intersperse [Path.slash]).flatten isFolder = .undecided

theorem heeds_of {tree : Node} (hwf : tree.WellFormed) (hgit : tree.Gitless) (options : ScanOptions) :
    (Plan.of tree { options with respectGitignore := some false } .none).Heeds
      (Plan.of tree { options with respectGitignore := some true } .none) :=
  ⟨hgit, hwf, rfl, rfl, rfl, rfl, rfl, rfl⟩

theorem at?_take {tree : Node} {place : List Name} {entries : List (Name × Node)}
    (hat : tree.at? place = some (.folder entries)) (n : Nat) :
    ∃ outer, tree.at? (place.take n) = some (.folder outer) := by
  have hsplit := Node.at?_append (place.take n) (place.drop n) tree
  rw [List.take_append_drop, hat] at hsplit
  obtain ⟨node, hnode, hrest⟩ := Option.bind_eq_some_iff.1 hsplit.symm
  cases node with
  | folder outer => exact ⟨outer, hnode⟩
  | file _ _ | link _ | sealed _ _ _ | barred _ => cases hdrop : place.drop n <;> rw [hdrop] at hrest <;> cases hrest

theorem mute_levelsAround {tree : Node} (hwf : tree.WellFormed) (hgit : tree.Gitless) {place : List Name}
    {entries : List (Name × Node)} (hat : tree.at? place = some (.folder entries)) (habove : SilentAround tree place) :
    Scope.Mute (levelsAround tree place) := by
  intro level names hmem
  obtain ⟨n, hn, he⟩ := List.mem_map.1 hmem
  cases he
  obtain ⟨outer, houter⟩ := at?_take hat n
  rw [Ignore.Level.load_gitless hgit (Node.plain_of_at? hwf houter) houter]
  exact ⟨rfl, rfl, habove n (by simpa using hn)⟩

/-- **In a tree without repositories a scan that heeds their rules lists the same files below a folder as one that
does not**, provided that no ignore file around the folder speaks about what is below it; those in the folder and below
it count either way. -/
theorem walk_gitless {tree : Node} (hwf : tree.WellFormed) (hgit : tree.Gitless) (options : ScanOptions) {root : Path}
    {place : List Name} {entries : List (Name × Node)} (hroot : tree.locate root = .ok (place, .folder entries))
    (habove : SilentAround tree place) :
    walk tree { options with respectGitignore := some true } root =
      walk tree { options with respectGitignore := some false } root := by
  have hat := Node.at?_of_locate hroot
  have hheeds := heeds_of hwf hgit options
  have hstart : start (Plan.of tree { options with respectGitignore := some true } .none) root place =
      (start (Plan.of tree { options with respectGitignore := some false } .none) root place).around
        (levelsAround tree place) := by
    have hload := hheeds.load hat
    simp only [start, Stand.around, hheeds.heeds, hheeds.ignores, hload, if_true, Bool.false_eq_true, if_false,
      List.cons_append, List.nil_append]
    rfl
  have hfiles := filesUpTo_around hheeds (maxLinks tree)
    (start (Plan.of tree { options with respectGitignore := some false } .none) root place) (.folder entries) _ hat
    (mute_levelsAround hwf hgit hat habove)
  have hnames : names tree { options with respectGitignore := some true } root =
      names tree { options with respectGitignore := some false } root := by
    rw [names_folder hroot, names_folder hroot, hstart]
    exact congrArg (fun files => Except.ok (if isHyphen root then [] else files.mergeSort precedes)) hfiles
  rw [walk, walk, hnames]

/-! ## Rules above and beside a root -/

def ignoreFile (rules : String) : Name × Node := (Level.customName, .file rules.toUTF8 ⟨0, 0⟩)

/-- Sources, of which one is generated, with an ignore file beside them. -/
def sourceFiles (beside : String) : List (Name × Node) :=
  [ignoreFile beside, (Name.ofText "gen.json", .file ⟨#[]⟩ ⟨0, 0⟩), (Name.ofText "api.json", .file ⟨#[]⟩ ⟨0, 0⟩)]

/-- A project with sources, with an ignore file above them. -/
def project (above beside : String) : Node :=
  .folder [(Name.ofText "p", .folder [ignoreFile above, (Name.ofText "src", .folder (sourceFiles beside))])]

theorem wellFormed_project (above beside : String) : (project above beside).WellFormed := by
  simp only [project, sourceFiles, ignoreFile, Node.WellFormed, Node.EntriesWellFormed, List.map_cons, List.map_nil]
  decide

theorem gitless_project (above beside : String) : (project above beside).Gitless := by
  have hnames : (project above beside).allNames = [Name.ofText "p", Level.customName, Name.ofText "src",
      Level.customName, Name.ofText "gen.json", Name.ofText "api.json"] := rfl
  have hnone : ∀ name ∉ (project above beside).allNames, ∀ around node,
      (project above beside).at? (around ++ [name]) ≠ some node := fun name hname around node hat =>
    hname (Node.mem_allNames_of_at? hat name (by simp))
  rw [hnames] at hnone
  exact ⟨fun around node hat => absurd hat (hnone _ (by decide) around node),
    fun around node hat => absurd hat (hnone _ (by decide) around node)⟩

/-- A rule for another folder above the root, and one beside the sources. -/
theorem walk_gitless_project : SilentAround (project "/docs\n" "gen.json\n") [Name.ofText "p", Name.ofText "src"] ∧
    walk (project "/docs\n" "gen.json\n") { ScanOptions.unset with respectGitignore := some true } (.ofText "p/src") =
      .ok [.ofText "p/src/api.json"] := by
  have hroot : (project "/docs\n" "gen.json\n").locate (.ofText "p/src") =
      .ok ([Name.ofText "p", Name.ofText "src"], .folder (sourceFiles "gen.json\n")) := rfl
  have htop : (Level.load (project "/docs\n" "gen.json\n") false []).custom = [] := rfl
  have hdocs : (Level.load (project "/docs\n" "gen.json\n") false [Name.ofText "p"]).custom =
      [⟨⟨"docs".toList.map fun c => .literal (Utf8.encodeChar c)⟩, false, false⟩] := by
    have hbytes : "/docs\n".toUTF8.toList = [47, 100, 111, 99, 115, 10] := by decide +kernel
    change Rules.ofBytes "/docs\n".toUTF8.toList = _
    rw [hbytes]
    rfl
  have habove : SilentAround (project "/docs\n" "gen.json\n") [Name.ofText "p", Name.ofText "src"] := by
    intro n hn more isFolder hmore
    obtain ⟨name, more, rfl⟩ := List.exists_cons_of_ne_nil hmore
    have hcases : n = 0 ∨ n = 1 := by
      rw [List.length_cons, List.length_singleton] at hn
      omega
    rcases hcases with rfl | rfl
    · rw [List.take_zero, htop]
      rfl
    · rw [show [Name.ofText "p", Name.ofText "src"].take 1 = [Name.ofText "p"] from rfl, hdocs]
      rfl
  refine ⟨habove, ?_⟩
  rw [walk_gitless (wellFormed_project _ _) (gitless_project _ _) _ hroot habove]
  exact walk_of_perm hroot (by decide) [[Name.ofText "api.json"]] (by decide +kernel) (by decide) (by decide)

/-- **A rule above the root counts only for the scan that heeds the rules of repositories**, though there are none. -/
theorem walk_gitless_above : (project "gen.json\n" "").WellFormed ∧ (project "gen.json\n" "").Gitless ∧
    walk (project "gen.json\n" "") { ScanOptions.unset with respectGitignore := some true } (.ofText "p/src") =
      .ok [.ofText "p/src/api.json"] ∧
    walk (project "gen.json\n" "") { ScanOptions.unset with respectGitignore := some false } (.ofText "p/src") =
      .ok [.ofText "p/src/api.json", .ofText "p/src/gen.json"] := by
  refine ⟨wellFormed_project _ _, gitless_project _ _, ?_, ?_⟩
  · exact walk_of_perm rfl (by decide) [[Name.ofText "api.json"]] (by decide +kernel) (by decide) (by decide)
  · exact walk_of_perm rfl (by decide) [[Name.ofText "api.json"], [Name.ofText "gen.json"]] (by decide +kernel)
      (by decide) (by decide)

end Walk

end ApiCatalog
