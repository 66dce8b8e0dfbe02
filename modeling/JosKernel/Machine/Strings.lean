import JosKernel.Machine.Mmu
import Mathlib.Tactic.Ring

/-!
# Strings in memory

Memory around a string, by the distance from some byte of it.
-/
namespace JosKernel

variable {s s' : ℤ → Byte} {k j : ℤ} {l r : List Byte}

/-- An offset behind a list of bytes. -/
theorem length_behind (k : ℤ) (c : Byte) (l : List Byte) :
    k + ((c :: l).length : ℤ) = k + 1 + l.length := by
  rw [List.length_cons]
  push_cast
  ring

/-- The bytes from `k` on, up to a terminating zero byte. -/
def HoldsAt (s : ℤ → Byte) : ℤ → List Byte → Prop
  | k, [] => s k = 0
  | k, ch :: l => s k = ch ∧ ch ≠ 0 ∧ HoldsAt s (k + 1) l

instance HoldsAt.decidable (s : ℤ → Byte) : ∀ (k : ℤ) (l : List Byte), Decidable (HoldsAt s k l)
  | k, [] => inferInstanceAs (Decidable (s k = 0))
  | k, ch :: l =>
    haveI := HoldsAt.decidable s (k + 1) l
    inferInstanceAs (Decidable (s k = ch ∧ ch ≠ 0 ∧ _))

theorem HoldsAt.zero_not_mem (h : HoldsAt s k l) : 0 ∉ l := by
  induction l generalizing k with
  | nil => exact List.not_mem_nil
  | cons c l ih =>
    rw [List.mem_cons, not_or]
    exact ⟨h.2.1.symm, ih h.2.2⟩

theorem HoldsAt.append (h : HoldsAt s k (l ++ r)) :
    HoldsAt s (k + l.length) r := by
  induction l generalizing k with
  | nil => simpa using h
  | cons c l ih =>
    rw [length_behind]
    exact ih h.2.2

theorem HoldsAt.ne_of_not_mem (h : HoldsAt s k (l ++ r)) {c : Byte} (hc : c ∉ l)
    (hj : k ≤ j) (hj' : j < k + l.length) : s j ≠ c := by
  induction l generalizing k with
  | nil =>
    simp only [List.length_nil, Nat.cast_zero] at hj'
    omega
  | cons d l ih =>
    obtain ⟨hd, hl⟩ := not_or.mp (mt List.mem_cons.mpr hc)
    rcases eq_or_lt_of_le hj with rfl | hlt
    · exact h.1 ▸ Ne.symm hd
    · rw [length_behind] at hj'
      exact ih h.2.2 hl (by omega) hj'

/-- Changes before the string do not matter. -/
theorem HoldsAt.congr (h : HoldsAt s k l) (same : ∀ j, k ≤ j → s' j = s j) : HoldsAt s' k l := by
  induction l generalizing k with
  | nil => exact (same k le_rfl).trans h
  | cons c l ih =>
    obtain ⟨hc, hne, hl⟩ := h
    exact ⟨(same k le_rfl).trans hc, hne, ih hl fun j hj => same j (by omega)⟩

/-- The bytes of `l` are in memory from `k` on. -/
def Bytes (s : ℤ → Byte) : ℤ → List Byte → Prop
  | _, [] => True
  | k, c :: l => s k = c ∧ Bytes s (k + 1) l

theorem Bytes.holdsAt {t : List Byte} (h : Bytes s k (l ++ 0 :: t)) (hl : 0 ∉ l) :
    HoldsAt s k l := by
  induction l generalizing k with
  | nil => exact h.1
  | cons c l ih =>
    obtain ⟨hc, htail⟩ := h
    obtain ⟨hne, hl⟩ := not_or.mp (mt List.mem_cons.mpr hl)
    exact ⟨hc, Ne.symm hne, ih htail hl⟩

end JosKernel
