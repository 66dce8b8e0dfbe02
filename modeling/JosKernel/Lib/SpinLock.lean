import Mathlib.Logic.Function.Basic
import Mathlib.Tactic.SplitIfs

/-!
# Spin locks that record their owner

A lock has a word that is set with an atomic exchange, and a field for the owner that is written
while the word is set. `Phase` is how far a thread has come with taking and releasing the lock, and
`Guards` relates the two: a thread passes the phases `out`, `taken`, `held`, `leaving` and `out`
again, and only one at a time is not `out`.
-/
namespace JosKernel.Lib

structure SpinLock (C : Type*) where
  locked : Bool
  owner : Option C

/-- Where a thread is with respect to a lock. -/
inductive Phase where
  | out
  /-- The word is set, the owner is not written yet. -/
  | taken
  | held
  /-- The owner is cleared, the word is still set. -/
  | leaving
  deriving DecidableEq

variable {C : Type*} {lk : SpinLock C} {ph : C → Phase} {i j : C}

/-- The test of the lock's functions for misuse. -/
def SpinLock.Holding (lk : SpinLock C) (i : C) : Prop := lk.locked = true ∧ lk.owner = some i

/-- The lock is as the phases of the threads say. -/
structure Guards (lk : SpinLock C) (ph : C → Phase) : Prop where
  excl : ∀ i j, ph i ≠ .out → ph j ≠ .out → i = j
  locked : lk.locked = true ↔ ∃ i, ph i ≠ .out
  owner : ∀ i, lk.owner = some i ↔ ph i = .held

namespace Guards

theorem free : Guards (⟨false, none⟩ : SpinLock C) fun _ => .out :=
  ⟨fun _ _ h => absurd rfl h, by simp, by simp⟩

theorem holding_iff (h : Guards lk ph) : lk.Holding i ↔ ph i = .held := by
  constructor
  · exact fun hh => (h.owner i).mp hh.2
  · intro hi
    exact ⟨h.locked.mpr ⟨i, by rw [hi]; decide⟩, (h.owner i).mpr hi⟩

variable [DecidableEq C]

/-- The exchange finds the word clear. -/
theorem take (h : Guards lk ph) (hl : lk.locked = false) :
    Guards { lk with locked := true } (Function.update ph i .taken) := by
  have hout : ∀ j, ph j = .out := by
    intro j
    by_contra hj
    rw [h.locked.mpr ⟨j, hj⟩] at hl
    cases hl
  refine ⟨fun j k hj hk => ?_, iff_of_true rfl ⟨i, by simp⟩, fun j => ?_⟩
  · have hji : j = i := by
      by_contra hne
      exact hj (by rw [Function.update_of_ne hne, hout])
    have hki : k = i := by
      by_contra hne
      exact hk (by rw [Function.update_of_ne hne, hout])
    exact hji.trans hki.symm
  · rw [h.owner, hout]
    by_cases hji : j = i
    · subst hji
      simp
    · simp [hji, hout]

/-- A thread that is in passes to another phase in which it is in. -/
theorem pass {q : Phase} (h : Guards lk ph) (hi : ph i ≠ .out) (hq : q ≠ .out) :
    Guards { lk with owner := if q = .held then some i else none } (Function.update ph i q) := by
  have hother : ∀ j, j ≠ i → ph j = .out := by
    intro j hj
    by_contra hne
    exact hj (h.excl j i hne hi)
  have hin : ∀ j, Function.update ph i q j ≠ .out ↔ ph j ≠ .out := by
    intro j
    by_cases hji : j = i
    · subst hji
      simp [hi, hq]
    · rw [Function.update_of_ne hji]
  refine ⟨fun j k hj hk => h.excl j k ((hin j).mp hj) ((hin k).mp hk), ?_, fun j => ?_⟩
  · simp only [hin]
    exact h.locked
  · by_cases hji : j = i
    · subst hji
      rw [Function.update_self]
      split_ifs with hheld
      · simp [hheld]
      · simp [hheld]
    · rw [Function.update_of_ne hji, hother j hji]
      split_ifs
      · simp [Ne.symm hji]
      · simp

theorem record (h : Guards lk ph) (hi : ph i = .taken) :
    Guards { lk with owner := some i } (Function.update ph i .held) :=
  h.pass (q := .held) (by rw [hi]; decide) (by decide)

theorem clear (h : Guards lk ph) (hi : ph i = .held) :
    Guards { lk with owner := none } (Function.update ph i .leaving) :=
  h.pass (q := .leaving) (by rw [hi]; decide) (by decide)

theorem release (h : Guards lk ph) (hi : ph i = .leaving) :
    Guards { lk with locked := false } (Function.update ph i .out) := by
  have hout : ∀ j, Function.update ph i .out j = .out := by
    intro j
    by_cases hji : j = i
    · subst hji
      exact Function.update_self ..
    · rw [Function.update_of_ne hji]
      by_contra hne
      exact hji (h.excl j i hne (by rw [hi]; decide))
  refine ⟨fun j _ hj => absurd (hout j) hj, ?_, fun j => ?_⟩
  · simp [hout]
  · rw [h.owner, hout]
    by_cases hji : j = i
    · subst hji
      simp [hi]
    · have := hout j
      rw [Function.update_of_ne hji] at this
      simp [this]

end Guards

end JosKernel.Lib
