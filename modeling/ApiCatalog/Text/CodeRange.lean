/-!
# Look-up by code point in a sorted table

A property of characters is stored as an array of rows, each covering an inclusive range of
code points, in ascending order and without overlap.  `findRow?` halves the array until one
row is left, so a table of several hundred rows costs about ten comparisons.
-/

namespace ApiCatalog.CodeRange

/-- The row between indices `lo` (included) and `hi` (excluded) whose range holds `point`. -/
def findRow? {α : Type} (rows : Array α) (range : α → Nat × Nat) (point lo hi : Nat) : Option α :=
  if _h : lo < hi then
    match rows[(lo + hi) / 2]? with
    | none => none
    | some row =>
      if point < (range row).1 then findRow? rows range point lo ((lo + hi) / 2)
      else if (range row).2 < point then findRow? rows range point ((lo + hi) / 2 + 1) hi
      else some row
  else none
termination_by hi - lo

def covers (table : Array (Nat × Nat)) (c : Char) : Bool :=
  (findRow? table id c.toNat 0 table.size).isSome

theorem range_of_findRow? {α : Type} {rows : Array α} {range : α → Nat × Nat} {point lo hi : Nat} {row : α}
    (h : findRow? rows range point lo hi = some row) :
    (range row).1 ≤ point ∧ point ≤ (range row).2 := by
  fun_induction findRow? rows range point lo hi with
  | case1 => simp at h
  | case2 lo hi _ row' _ _ ih => exact ih h
  | case3 lo hi _ row' _ _ _ ih => exact ih h
  | case4 lo hi _ row' _ h₁ h₂ =>
    cases h
    omega
  | case5 => simp at h

theorem mem_of_findRow? {α : Type} {rows : Array α} {range : α → Nat × Nat} {point lo hi : Nat} {row : α}
    (h : findRow? rows range point lo hi = some row) : row ∈ rows := by
  fun_induction findRow? rows range point lo hi with
  | case1 => simp at h
  | case2 lo hi _ row' _ _ ih => exact ih h
  | case3 lo hi _ row' _ _ _ ih => exact ih h
  | case4 lo hi _ row' hrow _ _ =>
    cases h
    exact Array.mem_of_getElem? hrow
  | case5 => simp at h

end ApiCatalog.CodeRange
