import JosKernel.Lib.ListSeg

/-!
# Lists with a tail pointer

A list may be built at its end through a pointer to the cell in which the next node belongs: the
variable that holds the head of the list, or the link of its last node. `c` is the content of all
cells, and `link` turns a node into the cell of its link.
-/
namespace JosKernel.Lib

variable {α P L : Type*} {node : α → P} {link : α → L} {c : L → P} {x y : L} {l l' : List α}
  {a : α} {p q r : P}

/-- Two segments, the second behind the first. -/
theorem ListSeg.append {next : α → P} (h : ListSeg node next p l q)
    (h' : ListSeg node next q l' r) : ListSeg node next p (l ++ l') r := by
  induction l generalizing p with
  | nil => exact h ▸ h'
  | cons a l ih => exact ⟨h.1, ih h.2⟩

/-- The cell `x` is the head of the list `l`, and the pointer behind its last node is `q`. -/
def Hangs (node : α → P) (link : α → L) (c : L → P) (x : L) (l : List α) (q : P) : Prop :=
  ListSeg node (fun a => c (link a)) (c x) l q

/-- The cell with the pointer behind the last node. -/
def tailCell (link : α → L) : L → List α → L
  | x, [] => x
  | _, a :: l => tailCell link (link a) l

theorem tailCell_mem : tailCell link x l ∈ x :: l.map link := by
  induction l generalizing x with
  | nil => exact List.mem_cons_self
  | cons a l ih => exact List.mem_cons_of_mem _ ih

@[simp] theorem tailCell_concat : tailCell link x (l ++ [a]) = link a := by
  induction l generalizing x with
  | nil => rfl
  | cons b l ih => exact ih

namespace Hangs

theorem append (h : Hangs node link c x l q) (h' : Hangs node link c y l' r) (hq : q = c y) :
    Hangs node link c x (l ++ l') r := by
  subst hq
  exact ListSeg.append h h'

/-- The pointer behind the last node is the one in the tail cell. -/
theorem eq_tailCell (h : Hangs node link c x l q) : c (tailCell link x l) = q := by
  induction l generalizing x with
  | nil => exact h
  | cons a l ih => exact ih h.2

variable [DecidableEq L]

/-- Writing to a cell that does not belong to the list changes nothing. -/
theorem update_of_not_mem (h : Hangs node link c x l q) (hy : y ∉ x :: l.map link) (v : P) :
    Hangs node link (Function.update c y v) x l q := by
  obtain ⟨hx, hl⟩ := not_or.mp (mt List.mem_cons.mpr hy)
  unfold Hangs
  rw [Function.update_of_ne (Ne.symm hx)]
  apply ListSeg.congr h
  intro a ha
  apply Function.update_of_ne
  rintro rfl
  exact hl (List.mem_map_of_mem ha)

/-- Writing to the tail cell. -/
theorem setTail (h : Hangs node link c x l q) (hnd : (x :: l.map link).Nodup) (v : P) :
    Hangs node link (Function.update c (tailCell link x l) v) x l v := by
  induction l generalizing x with
  | nil => exact Function.update_self _ _ _
  | cons a l ih =>
    obtain ⟨hx, htail⟩ := List.nodup_cons.mp hnd
    have hne : x ≠ tailCell link (link a) l := fun he => hx (he ▸ tailCell_mem)
    refine ⟨?_, ih h.2 htail⟩
    exact (Function.update_of_ne hne _ _).trans h.1

/-- Writing a new last node to the tail cell. -/
theorem concat (h : Hangs node link c x l q) (hnd : (x :: (l ++ [a]).map link).Nodup) :
    Hangs node link (Function.update c (tailCell link x l) (node a)) x (l ++ [a])
      (c (link a)) := by
  rw [List.map_append, ← List.cons_append, List.nodup_append] at hnd
  obtain ⟨hnd, -, hdisj⟩ := hnd
  have hne : link a ≠ tailCell link x l :=
    (hdisj _ tailCell_mem _ (List.mem_singleton_self _)).symm
  apply ListSeg.append (h.setTail hnd (node a))
  exact ⟨rfl, Function.update_of_ne hne _ _⟩

end Hangs

end JosKernel.Lib
