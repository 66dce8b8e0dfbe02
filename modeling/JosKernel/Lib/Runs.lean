import Mathlib.Order.Basic

/-!
# Runs of labelled transition systems

The states reachable from an initial set, and finite runs given by the sequence of their states
and labels. `Reachable.invariant` and `IsRun.invariant` are the induction rules: what holds
initially and is kept by every step holds throughout. `exists_switch` finds the step in which a
property ends.
-/
namespace JosKernel.Lib

variable {σ α : Type*}

/-- The states that steps lead to from `init`. -/
inductive Reachable (init : σ → Prop) (step : σ → α → σ → Prop) : σ → Prop
  | init {s : σ} : init s → Reachable init step s
  | step {s s' : σ} {a : α} : Reachable init step s → step s a s' → Reachable init step s'

variable {init P : σ → Prop} {step step' : σ → α → σ → Prop} {s : σ}

theorem Reachable.invariant (h : Reachable init step s) (hinit : ∀ s, init s → P s)
    (hstep : ∀ s a s', P s → step s a s' → P s') : P s := by
  induction h with
  | init h => exact hinit _ h
  | step _ h ih => exact hstep _ _ _ ih h

/-- More steps reach more states. -/
theorem Reachable.mono (h : Reachable init step s)
    (hstep : ∀ s a s', step s a s' → step' s a s') : Reachable init step' s := by
  induction h with
  | init h => exact .init h
  | step _ h ih => exact ih.step (hstep _ _ _ h)

/-- The first `N` steps of a sequence of states and labels are steps of the system. -/
def IsRun (step : σ → α → σ → Prop) (N : ℕ) (s : ℕ → σ) (a : ℕ → α) : Prop :=
  ∀ i < N, step (s i) (a i) (s (i + 1))

theorem IsRun.invariant {N : ℕ} {s : ℕ → σ} {a : ℕ → α} (h : IsRun step N s a)
    (h0 : P (s 0)) (hstep : ∀ s a s', P s → step s a s' → P s') {i : ℕ} (hi : i ≤ N) :
    P (s i) := by
  induction i with
  | zero => exact h0
  | succ i ih => exact hstep _ _ _ (ih (by omega)) (h i (by omega))

/-- A property that holds in state `i` and not in state `j` ends in some step between them. -/
theorem exists_switch (P : ℕ → Prop) {i j : ℕ} (hij : i ≤ j) (hi : P i) (hj : ¬P j) :
    ∃ m, i ≤ m ∧ m < j ∧ (∀ l, i ≤ l → l ≤ m → P l) ∧ ¬P (m + 1) := by
  induction j using Nat.strongRecOn with
  | ind j ih =>
    have hne : i ≠ j := fun h => hj (h ▸ hi)
    by_cases hall : ∀ l, i ≤ l → l < j → P l
    · obtain ⟨m, rfl⟩ : ∃ m, j = m + 1 := ⟨j - 1, by omega⟩
      exact ⟨m, by omega, by omega, fun l hl hlm => hall l hl (by omega), hj⟩
    · simp only [not_forall] at hall
      obtain ⟨l, hil, hlj, hl⟩ := hall
      obtain ⟨m, him, hml, hm⟩ := ih l hlj hil hl
      exact ⟨m, him, by omega, hm⟩

end JosKernel.Lib
