import Mathlib.Data.Fin.Basic
import Mathlib.Algebra.Group.Fin.Basic
import Mathlib.Data.List.FinRange
import Mathlib.Data.List.Nodup
import Mathlib.Order.Fin.Basic
import Mathlib.Tactic.Abel

/-!
# Ring buffers

A ring buffer is an array with two cyclic indices. Its contents are the cells from `head` up to,
not including, `tail`; an array of `N` cells holds at most `N - 1` entries, because equal indices
mean that it is empty.

A circular search visits all cells, from a given one on.
-/
namespace JosKernel.Lib

variable {α : Type*} {N : ℕ} [NeZero N]

/-- The entries from `head` to `tail`, oldest first. -/
def ring (f : Fin N → α) (head tail : Fin N) : List α :=
  (List.range (tail - head).val).map fun i => f (head + Fin.ofNat N i)

variable {f : Fin N → α} {head tail : Fin N}

@[simp] theorem ring_self : ring f head head = [] := by
  simp [ring]

theorem length_ring : (ring f head tail).length = (tail - head).val := by
  simp [ring]

theorem length_ring_lt : (ring f head tail).length < N := by
  rw [length_ring]
  exact (tail - head).isLt

theorem val_add_one {d : Fin N} (h : d + 1 ≠ 0) : (d + 1).val = d.val + 1 := by
  have hd : (d + 1).val = (d.val + 1) % N := by
    rw [Fin.val_add, Fin.val_one', Nat.add_mod_mod]
  rw [hd]
  refine Nat.mod_eq_of_lt (lt_of_le_of_ne d.isLt fun heq => h (Fin.ext ?_))
  rw [hd, heq, Nat.mod_self, Fin.val_zero]

theorem add_ofNat_sub (i : Fin N) : head + Fin.ofNat N (i - head).val = i := by
  rw [Fin.ofNat_val_eq_self]
  abel

theorem ofNat_add_one (i : ℕ) : Fin.ofNat N (i + 1) = 1 + Fin.ofNat N i := by
  refine Fin.ext ?_
  simp only [Fin.val_add, Fin.val_ofNat, Fin.val_one']
  rw [← Nat.add_mod, Nat.add_comm]

/-- Writing at `tail` appends. -/
theorem ring_push (room : tail + 1 ≠ head) (x : α) :
    ring (Function.update f tail x) head (tail + 1) = ring f head tail ++ [x] := by
  have hlen : (tail + 1 - head).val = (tail - head).val + 1 := by
    rw [show tail + 1 - head = tail - head + 1 by abel]
    exact val_add_one fun h => room (sub_eq_zero.mp (by rw [← h]; abel))
  rw [ring, hlen, List.range_succ, List.map_append, List.map_singleton, add_ofNat_sub,
    Function.update_self, ring]
  congr 1
  refine List.map_congr_left fun i hi => Function.update_of_ne (fun h => ?_) ..
  have : Fin.ofNat N i = tail - head := by rw [← h]; abel
  have hv := congrArg Fin.val this
  rw [List.mem_range, ← hv] at hi
  exact absurd (Nat.mod_le i N) (by simpa using hi)

/-- Moving `head` drops the oldest entry. -/
theorem ring_pop (h : head ≠ tail) : ring f head tail = f head :: ring f (head + 1) tail := by
  have hlen : (tail - head).val = (tail - (head + 1)).val + 1 := by
    have heq : tail - head = tail - (head + 1) + 1 := by abel
    rw [heq]
    refine val_add_one fun h0 => h (sub_eq_zero.mp ?_).symm
    rw [heq, h0]
  rw [ring, hlen, List.range_succ_eq_map, List.map_cons, List.map_map, ring]
  congr 1
  · simp
  · refine List.map_congr_left fun i _ => ?_
    simp only [Function.comp_apply, ofNat_add_one, add_assoc]

/-! ## Circular search -/

/-- The first cell with `P` in the order `s, s + 1, …`. -/
def FirstFrom (P : Fin N → Prop) (s i : Fin N) : Prop := P i ∧ ∀ j, j - s < i - s → ¬P j

variable {P : Fin N → Prop} {s i j : Fin N}

theorem FirstFrom.unique (h : FirstFrom P s i) (h' : FirstFrom P s j) : i = j := by
  rcases lt_trichotomy (i - s) (j - s) with hlt | heq | hlt
  · exact absurd h.1 (h'.2 i hlt)
  · exact sub_left_injective heq
  · exact absurd h'.1 (h.2 j hlt)

theorem val_sub_of_ne (h : i ≠ s) : (i - s).val = (i - (s + 1)).val + 1 := by
  have heq : i - s = i - (s + 1) + 1 := by abel
  rw [heq]
  exact val_add_one fun h0 => h (sub_eq_zero.mp (heq.trans h0))

/-- The search can start after a cell that does not qualify. -/
theorem firstFrom_succ_iff (hs : ¬P s) : FirstFrom P (s + 1) i ↔ FirstFrom P s i := by
  refine and_congr_right fun hi => forall_congr' fun j => ?_
  have his : i ≠ s := fun h => hs (h ▸ hi)
  by_cases hj : j = s
  · simp [hj, hs]
  · rw [Fin.lt_def, Fin.lt_def, val_sub_of_ne hj, val_sub_of_ne his, Nat.add_lt_add_iff_right]

theorem find?_eq_some_iff_firstFrom {p : Fin N → Bool} :
    ((List.finRange N).map fun d => d + s).find? p = some i ↔
      FirstFrom (fun i => p i = true) s i := by
  rw [List.find?_map, Option.map_eq_some_iff]
  simp only [List.find?_eq_some_iff_getElem, List.getElem_finRange, List.length_finRange,
    Function.comp_apply, Bool.not_eq_true']
  constructor
  · rintro ⟨d, ⟨hd, k, hk, rfl, hbefore⟩, rfl⟩
    refine ⟨hd, fun j hj => ?_⟩
    rw [add_sub_cancel_right, Fin.lt_def] at hj
    have := hbefore (j - s).val hj
    simpa using this
  · rintro ⟨hi, hbefore⟩
    refine ⟨i - s, ⟨by simpa using hi, (i - s).val, (i - s).isLt, by simp, fun k hk => ?_⟩, by simp⟩
    have := hbefore (⟨k, hk.trans (i - s).isLt⟩ + s) (by
      rw [add_sub_cancel_right]
      exact hk)
    simpa using this

end JosKernel.Lib
