import Mathlib.Logic.Function.Basic

/-!
# Caches of a map

A cache holds values of a map for some of its keys. The operations of a cache forget values; a
fill is the only way in. `Agrees R c f` says that what is cached is related to what the map holds
now, and the lemmas say which changes of the map that survives.
-/
namespace JosKernel.Lib

/-- A partial copy of a map from `α` to `β`. -/
abbrev Cache (α β : Type*) := α → Option β

namespace Cache

variable {α β : Type*} {c c' c'' : Cache α β} {f : α → β} {R : β → β → Prop}

def empty : Cache α β := fun _ => none

/-- Everything in `c` is in `c'`. -/
structure Sub (c c' : Cache α β) : Prop where
  some : ∀ a b, c a = .some b → c' a = .some b

theorem Sub.refl (c : Cache α β) : c.Sub c := ⟨fun _ _ h => h⟩

theorem Sub.trans (h : c.Sub c') (h' : c'.Sub c'') : c.Sub c'' :=
  ⟨fun a b hab => h'.some a b (h.some a b hab)⟩

theorem empty_sub (c : Cache α β) : empty.Sub c := ⟨fun _ _ h => by cases h⟩

theorem Sub.eq_empty (h : c.Sub empty) : c = empty := by
  funext a
  cases hc : c a with
  | none => rfl
  | some b => cases h.some a b hc

/-- What has no value in a cache has none in a part of it. -/
theorem Sub.none {a : α} (h : c.Sub c') (ha : c' a = none) : c a = none := by
  cases hc : c a with
  | none => rfl
  | some b => cases ha.symm.trans (h.some a b hc)

/-- Every cached value is related to the current one. -/
def Agrees (R : β → β → Prop) (c : Cache α β) (f : α → β) : Prop := ∀ a b, c a = some b → R b (f a)

theorem Agrees.empty : Agrees R empty f := fun _ _ h => by cases h

theorem Agrees.sub (h : Agrees R c' f) (hc : c.Sub c') : Agrees R c f :=
  fun a b hab => h a b (hc.some a b hab)

section
variable [DecidableEq α]

/-- Forget the value for `a`. -/
def drop (c : Cache α β) (a : α) : Cache α β := Function.update c a none

def fill (c : Cache α β) (a : α) (b : β) : Cache α β := Function.update c a (some b)

@[simp] theorem drop_self (c : Cache α β) (a : α) : c.drop a a = none := Function.update_self ..

theorem drop_sub (c : Cache α β) (a : α) : (c.drop a).Sub c := by
  refine ⟨fun i b h => ?_⟩
  by_cases hi : i = a
  · subst hi; simp [drop] at h
  · rwa [drop, Function.update_of_ne hi] at h

/-- The current value is loaded. -/
theorem Agrees.fill (h : Agrees R c f) {a : α} (ha : R (f a) (f a)) :
    Agrees R (c.fill a (f a)) f := by
  intro i b hb
  by_cases hi : i = a
  · subst hi
    rw [Cache.fill, Function.update_self] at hb
    cases hb
    exact ha
  · rw [Cache.fill, Function.update_of_ne hi] at hb
    exact h i b hb

/-- The map changes where nothing is cached, or to a value that serves what is cached. -/
theorem Agrees.update (h : Agrees R c f) {a : α} {v : β}
    (ha : ∀ b, c a = some b → R b (f a) → R b v) : Agrees R c (Function.update f a v) := by
  intro i b hb
  by_cases hi : i = a
  · subst hi
    rw [Function.update_self]
    exact ha b hb (h i b hb)
  · rw [Function.update_of_ne hi]
    exact h i b hb

end

end Cache

end JosKernel.Lib
