import Mathlib.Data.Fintype.BigOperators
import Mathlib.Data.Fintype.Card
import Mathlib.Data.Fintype.Sets
import Mathlib.Data.List.Nodup
import Mathlib.Data.Set.Insert
import Mathlib.Logic.Function.Basic

/-!
# Reference-counted objects

Finitely many slots `R` each refer to at most one object of `P`. Besides the slots, an object can
be referred to from elsewhere: `x p` counts these outside references (temporary ones of a running
operation, or references that were lost). `Counted` says that a stored counter and a free list
agree with all this: an object is free exactly when nothing refers to it and it is not currently
held by an operation that has taken it off the free list.

The rules below are the elementary moves of such a system. Every composite operation is a
sequence of them.
-/
namespace JosKernel.Lib

variable {P R : Type*} [DecidableEq P] [DecidableEq R] [Fintype R]

/-- The number of slots that refer to `p`. -/
def count (f : R → Option P) (p : P) : ℕ := (Finset.univ.filter fun r => f r = some p).card

omit [DecidableEq R] in
theorem count_eq_zero {f : R → Option P} {p : P} : count f p = 0 ↔ ∀ r, f r ≠ some p := by
  simp [count, Finset.filter_eq_empty_iff]

omit [DecidableEq R] in
theorem count_pos {f : R → Option P} {p : P} {r : R} (h : f r = some p) : 0 < count f p :=
  Finset.card_pos.mpr ⟨r, by simp [h]⟩

omit [DecidableEq R] in
/-- An object with an exclusive slot is referred to exactly once. -/
theorem count_eq_one {f : R → Option P} {p : P} {r : R} (h : f r = some p)
    (only : ∀ r', f r' = some p → r' = r) : count f p = 1 := by
  refine Finset.card_eq_one.mpr ⟨r, Finset.ext fun r' => ?_⟩
  simp only [Finset.mem_filter, Finset.mem_univ, true_and, Finset.mem_singleton]
  exact ⟨only r', fun e => e ▸ h⟩

omit [DecidableEq R] in
/-- Slots with different keys. -/
theorem count_le_card {β : Type*} {f : R → Option P} {p : P} {A : Finset β} (key : R → β)
    (hA : ∀ r, f r = some p → key r ∈ A)
    (inj : ∀ r r', f r = some p → f r' = some p → key r = key r' → r = r') :
    count f p ≤ A.card := by
  refine Finset.card_le_card_of_injOn key (fun r hr => ?_) fun r hr r' hr' => ?_
  · exact hA r (Finset.mem_filter.mp hr).2
  · exact inj r r' (Finset.mem_filter.mp hr).2 (Finset.mem_filter.mp hr').2

omit [DecidableEq R] in
/-- Renaming the slots. -/
theorem count_comp_equiv {R' : Type*} [Fintype R'] (σ : R' ≃ R) (f : R → Option P) (p : P) :
    count (f ∘ σ) p = count f p :=
  Finset.card_equiv σ fun r => by simp

omit [DecidableEq R] in
/-- Slots of two kinds. -/
theorem count_sum {R' : Type*} [Fintype R'] (f : R ⊕ R' → Option P) (p : P) :
    count f p = count (f ∘ .inl) p + count (f ∘ .inr) p := by
  simp only [count, Finset.card_filter, Fintype.sum_sum_type, Function.comp_apply]

/-- Redirecting one slot takes one reference from its old object and gives one to its new one. -/
theorem count_update (f : R → Option P) (r : R) (v : Option P) (p : P) :
    count (Function.update f r v) p + (if f r = some p then 1 else 0) =
      count f p + (if v = some p then 1 else 0) := by
  have rest : ∀ g : R → Option P, count g p =
      ((Finset.univ.erase r).filter fun s => g s = some p).card +
        (if g r = some p then 1 else 0) := by
    intro g
    unfold count
    rw [← Finset.insert_erase (Finset.mem_univ r), Finset.filter_insert]
    split_ifs with h
    · rw [Finset.card_insert_of_notMem (by simp), Finset.erase_insert (by simp)]
    · rw [Finset.erase_insert (by simp)]; rfl
  have same : ((Finset.univ.erase r).filter fun s => Function.update f r v s = some p) =
      (Finset.univ.erase r).filter fun s => f s = some p := by
    refine Finset.filter_congr fun s hs => ?_
    rw [Function.update_of_ne (Finset.ne_of_mem_erase hs)]
  rw [rest (Function.update f r v), rest f, same, Function.update_self]
  omega

theorem count_update_none {f : R → Option P} {r : R} {p : P} (h : f r = some p) :
    count (Function.update f r none) p + 1 = count f p := by
  simpa [h] using count_update f r none p

theorem count_update_some {f : R → Option P} {r : R} {p : P} (h : f r = none) :
    count (Function.update f r (some p)) p = count f p + 1 := by
  simpa [h] using count_update f r (some p) p

theorem count_update_of_ne {f : R → Option P} {r : R} {v : Option P} {p : P}
    (hf : f r ≠ some p) (hv : v ≠ some p) : count (Function.update f r v) p = count f p := by
  simpa [hf, hv] using count_update f r v p

/-! ## Emptying slots -/

/-- The slots in `gone` are empty, and all others as before. -/
structure Cleared (gone : Set R) (f f' : R → Option P) : Prop where
  empty : ∀ r ∈ gone, f' r = none
  keep : ∀ r ∉ gone, f' r = f r

namespace Cleared

variable {gone gone' : Set R} {f f' f'' : R → Option P} {r : R} {p : P}

omit [DecidableEq P] [DecidableEq R] [Fintype R] in
theorem refl (f : R → Option P) : Cleared ∅ f f := ⟨fun _ h => h.elim, fun _ _ => rfl⟩

omit [DecidableEq P] [DecidableEq R] [Fintype R] in
theorem trans (h : Cleared gone f f') (h' : Cleared gone' f' f'') :
    Cleared (gone ∪ gone') f f'' where
  empty r hr := by
    by_cases hr' : r ∈ gone'
    · exact h'.empty r hr'
    · exact (h'.keep r hr').trans (h.empty r (hr.resolve_right hr'))
  keep r hr := by
    rw [Set.mem_union, not_or] at hr
    exact (h'.keep r hr.2).trans (h.keep r hr.1)

omit [DecidableEq P] [Fintype R] in
theorem update (f : R → Option P) (r : R) : Cleared {r} f (Function.update f r none) where
  empty s hs := by rw [Set.mem_singleton_iff.mp hs, Function.update_self]
  keep s hs := Function.update_of_ne hs ..

omit [DecidableEq P] [DecidableEq R] [Fintype R] in
/-- Slots that are empty anyway can be counted among those that were emptied. -/
theorem enlarge (h : Cleared gone f f') (hsub : gone ⊆ gone')
    (hnone : ∀ r ∈ gone', r ∉ gone → f r = none) : Cleared gone' f f' where
  empty r hr := by
    by_cases hg : r ∈ gone
    · exact h.empty r hg
    · exact (h.keep r hg).trans (hnone r hr hg)
  keep r hr := h.keep r fun hg => hr (hsub hg)

omit [DecidableEq P] [DecidableEq R] [Fintype R] in
theorem eq_some_iff (h : Cleared gone f f') : f' r = some p ↔ r ∉ gone ∧ f r = some p := by
  by_cases hr : r ∈ gone
  · simp [h.empty r hr, hr]
  · simp [h.keep r hr, hr]

omit [DecidableEq R] in
/-- What refers to an object afterwards. -/
theorem count_eq_zero (h : Cleared gone f f') :
    count f' p = 0 ↔ ∀ r, f r = some p → r ∈ gone := by
  rw [Lib.count_eq_zero]
  refine forall_congr' fun r => ?_
  rw [ne_eq, h.eq_some_iff]
  tauto

end Cleared

/-! ## Counters and free list -/

/-- The counters `ref` and the list `free` agree with the slots `f`, the outside references `x`
and the set `h` of objects that are held without a reference. Only the objects of `S` are
managed. -/
structure Counted (S : Set P) (f : R → Option P) (x : P → ℕ) (h : Set P) (free : List P)
    (ref : P → ℕ) : Prop where
  nodup : free.Nodup
  mem_free : ∀ p, p ∈ free ↔ p ∈ S ∧ count f p + x p = 0 ∧ p ∉ h
  ref_eq : ∀ p ∈ S, ref p = count f p + x p
  target_mem : ∀ r p, f r = some p → p ∈ S
  held : ∀ p ∈ h, p ∈ S ∧ count f p + x p = 0

namespace Counted

variable {S h : Set P} {f : R → Option P} {x : P → ℕ} {free l : List P} {ref : P → ℕ} {p : P}
  {r : R}

omit [DecidableEq R] in
/-- Taking the first object off the free list makes it a held one. -/
theorem alloc (c : Counted S f x h (p :: l) ref) : Counted S f x (insert p h) l ref where
  nodup := (List.nodup_cons.mp c.nodup).2
  mem_free q := by
    have hq := c.mem_free q
    have hp := (List.nodup_cons.mp c.nodup).1
    simp only [List.mem_cons] at hq
    simp only [Set.mem_insert_iff, not_or]
    constructor
    · intro hl
      obtain ⟨hS, h0, hh⟩ := hq.mp (.inr hl)
      exact ⟨hS, h0, ne_of_mem_of_not_mem hl hp, hh⟩
    · rintro ⟨hS, h0, hne, hh⟩
      exact (hq.mpr ⟨hS, h0, hh⟩).resolve_left hne
  ref_eq := c.ref_eq
  target_mem := c.target_mem
  held q hq := by
    rcases hq with rfl | hq
    · obtain ⟨hS, h0, -⟩ := (c.mem_free q).mp List.mem_cons_self
      exact ⟨hS, h0⟩
    · exact c.held q hq

omit [DecidableEq R] in
/-- A held object can be put back on the free list. -/
theorem release (c : Counted S f x h free ref) (hp : p ∈ h) :
    Counted S f x (h \ {p}) (p :: free) ref where
  nodup := List.nodup_cons.mpr ⟨fun hm => ((c.mem_free p).mp hm).2.2 hp, c.nodup⟩
  mem_free q := by
    rw [List.mem_cons, c.mem_free q]
    by_cases hq : q = p
    · subst hq; simpa using c.held q hp
    · simp [hq]
  ref_eq := c.ref_eq
  target_mem := c.target_mem
  held q hq := c.held q hq.1

omit [DecidableEq R] in
/-- Counting one more outside reference to an object that is not free. -/
theorem incr (c : Counted S f x h free ref) (hS : p ∈ S) (hp : p ∉ free) :
    Counted S f (Function.update x p (x p + 1)) (h \ {p}) free
      (Function.update ref p (ref p + 1)) where
  nodup := c.nodup
  mem_free q := by
    by_cases hq : q = p
    · subst hq; simp [hp]
    · simpa [hq] using c.mem_free q
  ref_eq q hq := by
    by_cases e : q = p
    · subst e; simp [c.ref_eq q hq, Nat.add_assoc]
    · simpa [e] using c.ref_eq q hq
  target_mem := c.target_mem
  held q hq := by
    have hne : q ≠ p := fun e => hq.2 e
    simpa [hne] using c.held q hq.1

omit [DecidableEq R] in
/-- Dropping an outside reference that is not the last reference. -/
theorem decr (c : Counted S f x h free ref) (hx : 0 < x p) (more : 1 < count f p + x p)
    (hS : p ∈ S) :
    Counted S f (Function.update x p (x p - 1)) h free (Function.update ref p (ref p - 1)) where
  nodup := c.nodup
  mem_free q := by
    by_cases hq : q = p
    · subst hq
      have := c.mem_free q
      simp only [Function.update_self]
      constructor
      · intro hm; have := (this.mp hm).2.1; omega
      · rintro ⟨-, h0, -⟩; omega
    · simpa [hq] using c.mem_free q
  ref_eq q hq := by
    by_cases e : q = p
    · subst e
      have := c.ref_eq q hq
      simp only [Function.update_self]; omega
    · simpa [e] using c.ref_eq q hq
  target_mem := c.target_mem
  held q hq := by
    have hne : q ≠ p := by rintro rfl; have := (c.held q hq).2; omega
    simpa [hne] using c.held q hq

omit [DecidableEq R] in
/-- Dropping the last reference puts the object on the free list. -/
theorem decr_last (c : Counted S f x h free ref) (hS : p ∈ S) (last : count f p = 0)
    (hx : x p = 1) :
    Counted S f (Function.update x p 0) h (p :: free) (Function.update ref p 0) where
  nodup := by
    refine List.nodup_cons.mpr ⟨fun hm => ?_, c.nodup⟩
    have := ((c.mem_free p).mp hm).2.1
    omega
  mem_free q := by
    rw [List.mem_cons, c.mem_free q]
    by_cases hq : q = p
    · subst hq
      have hh : q ∉ h := fun hm => by have := (c.held q hm).2; omega
      simp [hS, last, hh]
    · simp [hq]
  ref_eq q hq := by
    by_cases e : q = p
    · subst e; simp [last]
    · simpa [e] using c.ref_eq q hq
  target_mem := c.target_mem
  held q hq := by
    have hne : q ≠ p := by rintro rfl; have := (c.held q hq).2; omega
    simpa [hne] using c.held q hq

/-- An outside reference moves into an empty slot. -/
theorem link (c : Counted S f x h free ref) (hS : p ∈ S) (hr : f r = none) (hx : 0 < x p) :
    Counted S (Function.update f r (some p)) (Function.update x p (x p - 1)) h free ref := by
  have total : ∀ q, count (Function.update f r (some p)) q + Function.update x p (x p - 1) q =
      count f q + x q := by
    intro q
    by_cases hq : q = p
    · subst hq; rw [count_update_some hr, Function.update_self]; omega
    · rw [count_update_of_ne (by simp [hr]) (by simpa using Ne.symm hq),
        Function.update_of_ne hq]
  exact
    { nodup := c.nodup
      mem_free := fun q => by rw [total]; exact c.mem_free q
      ref_eq := fun q hq => by rw [total]; exact c.ref_eq q hq
      target_mem := by
        intro s q hs
        by_cases e : s = r
        · subst e
          obtain rfl : p = q := by simpa using hs
          exact hS
        · exact c.target_mem s q (by simpa [e] using hs)
      held := fun q hq => by rw [total]; exact c.held q hq }

/-- Clearing a slot turns its reference into an outside one. -/
theorem unlink (c : Counted S f x h free ref) (hr : f r = some p) :
    Counted S (Function.update f r none) (Function.update x p (x p + 1)) h free ref := by
  have total : ∀ q, count (Function.update f r none) q + Function.update x p (x p + 1) q =
      count f q + x q := by
    intro q
    by_cases hq : q = p
    · subst hq
      have := count_update_none hr
      rw [Function.update_self]; omega
    · rw [count_update_of_ne (by simpa [hr] using Ne.symm hq) (by simp), Function.update_of_ne hq]
  exact
    { nodup := c.nodup
      mem_free := fun q => by rw [total]; exact c.mem_free q
      ref_eq := fun q hq => by rw [total]; exact c.ref_eq q hq
      target_mem := by
        intro s q hs
        by_cases e : s = r
        · subst e; simp at hs
        · exact c.target_mem s q (by simpa [e] using hs)
      held := fun q hq => by rw [total]; exact c.held q hq }

omit [DecidableEq R] in
/-- An object that something refers to is not free. -/
theorem not_mem_free (c : Counted S f x h free ref) (hp : 0 < count f p + x p) : p ∉ free :=
  fun hm => by have := ((c.mem_free p).mp hm).2.1; omega

end Counted

end JosKernel.Lib
