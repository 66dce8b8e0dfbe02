import Mathlib.Data.Nat.Init
import Mathlib.Tactic.Lift

/-!
# Loops

A loop goes from state to state until a step yields a result. `loop` makes a bounded number of
steps; `EndsIn` is what it does without a bound.
-/
namespace JosKernel.Lib

variable {σ ρ : Type*}

/-- The result after at most `fuel` steps. -/
def loop (step : σ → ρ ⊕ σ) : ℕ → σ → Option ρ
  | 0, _ => none
  | fuel + 1, s =>
    match step s with
    | .inl r => some r
    | .inr s => loop step fuel s

/-- The loop ends with result `r`. -/
inductive EndsIn (step : σ → ρ ⊕ σ) : σ → ρ → Prop
  | done {s : σ} {r : ρ} : step s = .inl r → EndsIn step s r
  | next {s s' : σ} {r : ρ} : step s = .inr s' → EndsIn step s' r → EndsIn step s r

variable {step : σ → ρ ⊕ σ} {s : σ} {r r' : ρ}

/-- A loop whose states are known, with enough fuel. -/
theorem loop_of_states {x : ℕ → σ} {k fuel : ℕ} (hstep : ∀ i < k, step (x i) = .inr (x (i + 1)))
    (hdone : step (x k) = .inl r) (hfuel : k < fuel) : loop step fuel (x 0) = some r := by
  induction k generalizing x fuel with
  | zero =>
    obtain ⟨fuel, rfl⟩ := Nat.exists_eq_add_one_of_ne_zero (Nat.ne_of_gt hfuel)
    simp only [loop, hdone]
  | succ k ih =>
    obtain ⟨fuel, rfl⟩ := Nat.exists_eq_add_one_of_ne_zero (Nat.ne_of_gt (Nat.zero_lt_of_lt hfuel))
    simp only [loop, hstep 0 (Nat.succ_pos k)]
    exact ih (x := fun i => x (i + 1)) (fun i hi => hstep (i + 1) (Nat.succ_lt_succ hi)) hdone
      (Nat.lt_of_succ_lt_succ hfuel)

theorem endsIn_of_loop {fuel : ℕ} (h : loop step fuel s = some r) : EndsIn step s r := by
  induction fuel generalizing s with
  | zero => cases h
  | succ fuel ih =>
    rw [loop] at h
    cases hs : step s with
    | inl r' =>
      rw [hs] at h
      exact .done (hs.trans (congrArg _ (Option.some.inj h)))
    | inr s' =>
      rw [hs] at h
      exact .next hs (ih h)

theorem EndsIn.exists_loop (h : EndsIn step s r) : ∃ fuel, loop step fuel s = some r := by
  induction h with
  | done hs => exact ⟨1, by simp only [loop, hs]⟩
  | next hs _ ih =>
    obtain ⟨fuel, hfuel⟩ := ih
    exact ⟨fuel + 1, by simp only [loop, hs, hfuel]⟩

/-- The bound does not matter as long as the loop ends. -/
theorem endsIn_iff : EndsIn step s r ↔ ∃ fuel, loop step fuel s = some r :=
  ⟨EndsIn.exists_loop, fun ⟨_, h⟩ => endsIn_of_loop h⟩

namespace EndsIn

/-- A loop has one result. -/
theorem unique (h : EndsIn step s r) (h' : EndsIn step s r') : r = r' := by
  induction h with
  | done hs =>
    cases h' with
    | done hs' => exact Sum.inl.inj (hs.symm.trans hs')
    | next hs' _ => cases hs.symm.trans hs'
  | next hs _ ih =>
    cases h' with
    | done hs' => cases hs.symm.trans hs'
    | next hs' h' =>
      obtain rfl := Sum.inr.inj (hs.symm.trans hs')
      exact ih h'

/-- What every step keeps holds at the end. -/
theorem invariant {I : σ → Prop} {Q : ρ → Prop} (h : EndsIn step s r) (hs : I s)
    (hstep : ∀ s s', I s → step s = .inr s' → I s')
    (hdone : ∀ s r, I s → step s = .inl r → Q r) : Q r := by
  induction h with
  | done h => exact hdone _ _ hs h
  | next h _ ih => exact ih (hstep _ _ hs h)

/-- A loop whose states are known. -/
theorem of_states {x : ℕ → σ} {k : ℕ} (hstep : ∀ i < k, step (x i) = .inr (x (i + 1)))
    (hdone : step (x k) = .inl r) : EndsIn step (x 0) r :=
  endsIn_of_loop (loop_of_states hstep hdone (Nat.lt_succ_self k))

end EndsIn

end JosKernel.Lib
