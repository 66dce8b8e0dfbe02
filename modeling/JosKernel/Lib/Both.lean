import Mathlib.Logic.Basic

/-!
# Two runs side by side

`Both R x y` relates two computations that may fail: they fail with the same error, or they both
succeed and their results are related by `R`. The rules follow the structure of a program, so that
two runs of it are compared statement by statement.
-/
namespace JosKernel.Lib

/-- Both computations fail alike, or their results are related. -/
inductive Both {ε α β : Type*} (R : α → β → Prop) : Except ε α → Except ε β → Prop
  | ok {a : α} {b : β} (h : R a b) : Both R (.ok a) (.ok b)
  | error (e : ε) : Both R (.error e) (.error e)

namespace Both

universe u
variable {ε α β γ δ : Type u} {R : α → β → Prop} {Q : γ → δ → Prop}

theorem bind {x : Except ε α} {y : Except ε β} {f : α → Except ε γ} {g : β → Except ε δ}
    (h : Both R x y) (hf : ∀ a b, R a b → Both Q (f a) (g b)) : Both Q (x >>= f) (y >>= g) := by
  cases h with
  | ok h => exact hf _ _ h
  | error e => exact .error e

/-- A first part that is the same in both. -/
theorem bind_same {x : Except ε α} {f : α → Except ε γ} {g : α → Except ε δ}
    (hf : ∀ a, Both Q (f a) (g a)) : Both Q (x >>= f) (x >>= g) := by
  cases x with
  | ok a => exact hf a
  | error e => exact .error e

/-- A test that is the same in both, however it is decided. -/
theorem test {p : Prop} {d d' : Decidable p} {x x' : Except ε γ} {y y' : Except ε δ}
    (pos : p → Both Q x y) (neg : ¬p → Both Q x' y') :
    Both Q (@ite _ p d x x') (@ite _ p d' y y') := by
  by_cases h : p
  · rw [if_pos h, if_pos h]
    exact pos h
  · rw [if_neg h, if_neg h]
    exact neg h

end Both

end JosKernel.Lib
