import ApiCatalog.Files.Path
import Mathlib.Data.List.Basic
/-!
# Steps of paths

A name below a path is one more step at its end (`steps_child`), whether the path ends with a slash or not.
-/

namespace ApiCatalog

/-- A name that a folder can give to what it holds. -/
structure Name.Plain (name : Name) : Prop where
  ne_nil : name ≠ []
  slash : Path.slash ∉ name
  ne_dot : name ≠ [Path.dot]
  ne_dots : name ≠ [Path.dot, Path.dot]

instance (name : Name) : Decidable name.Plain :=
  decidable_of_iff (name ≠ [] ∧ Path.slash ∉ name ∧ name ≠ [Path.dot] ∧ name ≠ [Path.dot, Path.dot])
    ⟨fun h => ⟨h.1, h.2.1, h.2.2.1, h.2.2.2⟩, fun h => ⟨h.ne_nil, h.slash, h.ne_dot, h.ne_dots⟩⟩

namespace Path

theorem splitFrom_done (done : List Name) : ∀ (bytes : List UInt8) (piece : Name),
    splitFrom piece done bytes = done.reverse ++ splitFrom piece [] bytes
  | [], piece => by simp [splitFrom]
  | b :: bytes, piece => by
    rw [splitFrom, splitFrom]
    split
    · rw [splitFrom_done (piece.reverse :: done), splitFrom_done [piece.reverse]]
      simp
    · exact splitFrom_done done bytes (b :: piece)

theorem splitFrom_name : ∀ (name piece : Name), slash ∉ name → splitFrom piece [] name = [piece.reverse ++ name]
  | [], piece, _ => by simp [splitFrom]
  | b :: name, piece, h => by
    rw [List.mem_cons, not_or] at h
    rw [splitFrom, if_neg (Ne.symm h.1), splitFrom_name name (b :: piece) h.2]
    simp

theorem splitFrom_append (rest : List UInt8) : ∀ (bytes : List UInt8) (piece : Name),
    splitFrom piece [] (bytes ++ slash :: rest) = splitFrom piece [] bytes ++ splitFrom [] [] rest
  | [], piece => by
    have hslash : splitFrom piece [] (slash :: rest) = splitFrom [] [piece.reverse] rest := by simp [splitFrom]
    rw [List.nil_append, hslash, splitFrom_done]
    rfl
  | b :: bytes, piece => by
    rw [List.cons_append, splitFrom, splitFrom]
    split
    · rw [splitFrom_done, splitFrom_append rest bytes [], splitFrom_done [piece.reverse] bytes, List.append_assoc]
    · exact splitFrom_append rest bytes (b :: piece)

theorem pieces_ne_nil (path : Path) : path.pieces ≠ [] := by
  have h : ∀ (bytes : List UInt8) (piece : Name), splitFrom piece [] bytes ≠ [] := by
    intro bytes
    induction bytes with
    | nil => simp [splitFrom]
    | cons b bytes ih =>
      intro piece
      rw [splitFrom]
      split
      · rw [splitFrom_done]
        simp
      · exact ih _
  exact h path.bytes []

theorem bytes_child (path : Path) (name : Name) (h : path.bytes ≠ []) : ∃ front : List UInt8,
    (path.bytes = front ∨ path.bytes = front ++ [slash]) ∧ (path.child name).bytes = front ++ slash :: name := by
  unfold child
  rw [if_neg (by simpa using h)]
  split
  · rename_i hlast
    obtain ⟨front, hfront⟩ : ∃ front, path.bytes = front ++ [slash] := by
      rw [beq_iff_eq, List.getLast?_eq_some_iff] at hlast
      exact hlast
    exact ⟨front, .inr hfront, by simp [hfront]⟩
  · exact ⟨path.bytes, .inl rfl, rfl⟩

/-- A name below a path is one more piece, in place of the empty one behind a slash. -/
theorem pieces_child (path : Path) {name : Name} (h : path.bytes ≠ []) (hname : slash ∉ name) :
    ∃ front idle : List Name, path.pieces = front ++ idle ∧ (idle = [] ∨ idle = [[]]) ∧
      (path.child name).pieces = front ++ [name] := by
  obtain ⟨front, hpath, hchild⟩ := path.bytes_child name h
  have hpieces : (path.child name).pieces = splitFrom [] [] front ++ [name] := by
    rw [pieces, hchild, splitFrom_append, splitFrom_name name [] hname]
    rfl
  rcases hpath with hpath | hpath
  · exact ⟨splitFrom [] [] front, [], by rw [pieces, hpath, List.append_nil], .inl rfl, hpieces⟩
  · refine ⟨splitFrom [] [] front, [[]], ?_, .inr rfl, hpieces⟩
    rw [pieces, hpath, splitFrom_append]
    rfl

/-- **A name below a path is its last step.** -/
theorem steps_child (path : Path) {name : Name} (h : name.Plain) : (path.child name).steps = path.steps ++ [name] := by
  have hstep : [name].filter (fun piece => piece ≠ [] && piece ≠ [dot]) = [name] := by
    simp [h.ne_nil, h.ne_dot]
  by_cases hp : path.bytes = []
  · have hchild : (path.child name).bytes = name := by simp [child, hp]
    have hpath : path.steps = [] := by simp [steps, pieces, hp, splitFrom]
    rw [hpath, steps, pieces, hchild, splitFrom_name name [] h.slash]
    exact hstep
  · obtain ⟨front, idle, hpath, hidle, hchild⟩ := path.pieces_child hp h.slash
    rw [steps, steps, hpath, hchild, List.filter_append, List.filter_append, hstep]
    rcases hidle with rfl | rfl <;> simp

theorem steps_below (path : Path) : ∀ {names : List Name}, (∀ name ∈ names, name.Plain) →
    (path.below names).steps = path.steps ++ names := by
  intro names
  induction names generalizing path with
  | nil => intro _; simp [below]
  | cons name names ih =>
    intro h
    rw [List.forall_mem_cons] at h
    change ((path.child name).below names).steps = _
    rw [ih (path.child name) h.2, steps_child path h.1, List.append_assoc]
    rfl

/-- A path to which names were added ends with the last of them. -/
theorem name?_below (path : Path) {names : List Name} (hne : names ≠ []) (hplain : ∀ name ∈ names, name.Plain) :
    (path.below names).name? = names.getLast? := by
  rw [name?, path.steps_below hplain, List.getLast?_append_of_ne_nil _ hne]
  cases hlast : names.getLast? with
  | none => rfl
  | some name => exact if_neg (hplain name (List.mem_of_getLast? hlast)).ne_dots

theorem getLast?_ne_slash {name : Name} (h : name.Plain) (front : List UInt8) :
    (front ++ name).getLast? ≠ some slash := by
  intro hlast
  rw [List.getLast?_append_of_ne_nil front h.ne_nil] at hlast
  exact h.slash (List.mem_of_getLast? hlast)

/-- The names below a path that does not end with a slash are its last pieces. -/
theorem pieces_below_append : ∀ {names : List Name} {path : Path}, path.bytes ≠ [] →
    path.bytes.getLast? ≠ some slash →
    (∀ name ∈ names, name.Plain) → (path.below names).pieces = path.pieces ++ names
  | [], path, _, _, _ => by simp [below]
  | name :: names, path, hpath, hlast, hnames => by
    rw [List.forall_mem_cons] at hnames
    have hchild : path.child name = ⟨path.bytes ++ [slash] ++ name⟩ := by simp [child, hpath, hlast]
    have hpieces : (path.child name).pieces = path.pieces ++ [name] := by
      rw [hchild, pieces, pieces, List.append_assoc]
      exact (splitFrom_append name path.bytes []).trans (by rw [splitFrom_name name [] hnames.1.slash]; rfl)
    have hlast' : (path.child name).bytes.getLast? ≠ some slash := by
      rw [hchild]
      exact getLast?_ne_slash hnames.1 _
    have ih := pieces_below_append (by simp [hchild]) hlast' hnames.2
    rw [hpieces, List.append_assoc] at ih
    exact ih

/-- The pieces of names, as a path, are the names. -/
theorem pieces_below {names : List Name} (hne : names ≠ []) (hplain : ∀ name ∈ names, name.Plain) :
    (below ⟨[]⟩ names).pieces = names := by
  obtain ⟨name, names, rfl⟩ := List.exists_cons_of_ne_nil hne
  rw [List.forall_mem_cons] at hplain
  change (below ⟨name⟩ names).pieces = _
  rw [pieces_below_append hplain.1.ne_nil (getLast?_ne_slash hplain.1 []) hplain.2, pieces,
    splitFrom_name name [] hplain.1.slash]
  rfl

theorem bytes_below (name : Name) (names : List Name) : ∃ rest, (below ⟨[]⟩ (name :: names)).bytes = name ++ rest := by
  have h : ∀ (names : List Name) (path : Path), ∃ rest, (path.below names).bytes = path.bytes ++ rest := by
    intro names
    induction names with
    | nil => exact fun path => ⟨[], by simp [below]⟩
    | cons first names ih =>
      intro path
      obtain ⟨rest, hrest⟩ := ih (path.child first)
      have hchild : ∃ more, (path.child first).bytes = path.bytes ++ more := by
        unfold child
        split
        · rename_i hempty
          exact ⟨first, by rw [List.isEmpty_iff.1 hempty]; rfl⟩
        · split
          · exact ⟨first, rfl⟩
          · exact ⟨slash :: first, rfl⟩
      obtain ⟨more, hmore⟩ := hchild
      exact ⟨more ++ rest, by rw [← List.append_assoc, ← hmore]; exact hrest⟩
  exact h names ⟨name⟩

theorem bytes_child_ne_nil (path : Path) {name : Name} (h : path.bytes ≠ []) : (path.child name).bytes ≠ [] := by
  obtain ⟨front, -, hchild⟩ := path.bytes_child name h
  simp [hchild]

theorem bytes_below_ne_nil : ∀ {path : Path}, path.bytes ≠ [] → ∀ names : List Name, (path.below names).bytes ≠ []
  | _, h, [] => h
  | path, h, _ :: names => bytes_below_ne_nil (path.bytes_child_ne_nil h) names

theorem isAbsolute_child (path : Path) {name : Name} (h : path.bytes ≠ []) :
    (path.child name).isAbsolute = path.isAbsolute := by
  obtain ⟨b, bytes, hb⟩ := List.exists_cons_of_ne_nil h
  unfold isAbsolute child
  rw [if_neg (by simp [hb]), hb]
  split <;> rfl

end Path

end ApiCatalog
