import Mathlib.Data.List.FinRange
import Mathlib.Data.List.Nodup
import Mathlib.Logic.Function.Basic

/-!
# Intrusive singly linked lists

A list whose links are stored in its own nodes is described by two functions: `node` turns a
node into a pointer to it, and `next` is the pointer stored in the node. `ListSeg node next p l q`
says that following the links from the pointer `p` visits exactly the nodes of `l` and then
arrives at `q`. The end pointer is arbitrary: a null pointer, or any other pointer at which the
traversal has to stop.
-/
namespace JosKernel.Lib

variable {α P : Type*} {node next : α → P} {p q : P} {l : List α} {a : α}

/-- Following `next` from `p` visits the nodes of `l` and arrives at `q`. -/
def ListSeg (node next : α → P) : P → List α → P → Prop
  | p, [], q => p = q
  | p, a :: l, q => p = node a ∧ ListSeg node next (next a) l q

instance ListSeg.decidable [DecidableEq P] (node next : α → P) (q : P) :
    ∀ (p : P) (l : List α), Decidable (ListSeg node next p l q)
  | p, [] => inferInstanceAs (Decidable (p = q))
  | p, a :: l =>
    haveI := ListSeg.decidable node next q (next a) l
    inferInstanceAs (Decidable (p = node a ∧ _))

@[simp] theorem ListSeg.nil_iff : ListSeg node next p [] q ↔ p = q := Iff.rfl

@[simp] theorem ListSeg.cons_iff :
    ListSeg node next p (a :: l) q ↔ p = node a ∧ ListSeg node next (next a) l q := Iff.rfl

/-- Only the links of the visited nodes matter. -/
theorem ListSeg.congr {next' : α → P} (h : ListSeg node next p l q)
    (same : ∀ a ∈ l, next' a = next a) : ListSeg node next' p l q := by
  induction l generalizing p with
  | nil => exact h
  | cons a l ih =>
    refine ⟨h.1, ?_⟩
    rw [same a List.mem_cons_self]
    exact ih h.2 fun b hb => same b (List.mem_cons_of_mem _ hb)

/-- Rewriting the link of a node that is not visited changes nothing. -/
theorem ListSeg.update_of_not_mem [DecidableEq α] (h : ListSeg node next p l q) (ha : a ∉ l)
    (v : P) : ListSeg node (Function.update next a v) p l q :=
  h.congr fun _ hb => Function.update_of_ne (ne_of_mem_of_not_mem hb ha) _ _

/-- Pushing a node that is not yet in the list. -/
theorem ListSeg.push [DecidableEq α] (h : ListSeg node next p l q) (ha : a ∉ l) :
    ListSeg node (Function.update next a p) (node a) (a :: l) q := by
  refine ⟨rfl, ?_⟩
  rw [Function.update_self]
  exact h.update_of_not_mem ha p

/-- A segment that starts at a node contains it as its first element, unless it is empty. -/
theorem ListSeg.of_node (inj : Function.Injective node) (h : ListSeg node next (node a) l q)
    (hq : q ≠ node a) : ∃ l', l = a :: l' ∧ ListSeg node next (next a) l' q := by
  cases l with
  | nil => exact absurd h.symm hq
  | cons b l' =>
    obtain rfl : a = b := inj h.1
    exact ⟨l', rfl, h.2⟩

/-- The visited nodes are determined by the links when no node has the end pointer. -/
theorem ListSeg.unique (inj : Function.Injective node) (hq : ∀ a, q ≠ node a) {l' : List α}
    (h : ListSeg node next p l q) (h' : ListSeg node next p l' q) : l = l' := by
  induction l generalizing p l' with
  | nil =>
    cases l' with
    | nil => rfl
    | cons b l' => exact absurd (h.symm.trans h'.1) (hq b)
  | cons a l ih =>
    obtain ⟨rfl, hl⟩ := h
    obtain ⟨l'', rfl, hl''⟩ := h'.of_node inj (hq a)
    rw [ih hl hl'']

/-- What follows a visited node. -/
theorem ListSeg.after {l₁ l₂ : List α} (h : ListSeg node next p (l₁ ++ a :: l₂) q) :
    ListSeg node next (next a) l₂ q := by
  induction l₁ generalizing p with
  | nil => exact h.2
  | cons b l₁ ih => exact ih h.2

/-- The last node is the one with the end pointer. -/
theorem ListSeg.getLast?_eq_some_iff (hq : ∀ a, q ≠ node a) (h : ListSeg node next p l q) :
    l.getLast? = some a ↔ a ∈ l ∧ next a = q := by
  rw [List.getLast?_eq_some_iff]
  constructor
  · rintro ⟨l', rfl⟩
    exact ⟨by simp, h.after⟩
  · rintro ⟨ha, hnext⟩
    obtain ⟨l₁, l₂, rfl⟩ := List.append_of_mem ha
    have hl₂ : ListSeg node next q l₂ q := hnext ▸ h.after
    cases l₂ with
    | nil => exact ⟨l₁, rfl⟩
    | cons b l' => exact absurd hl₂.1 (hq b)

/-- No node is visited twice when no node has the end pointer. -/
theorem ListSeg.nodup (inj : Function.Injective node) (hq : ∀ a, q ≠ node a)
    (h : ListSeg node next p l q) : l.Nodup := by
  induction l generalizing p with
  | nil => exact List.nodup_nil
  | cons a l ih =>
    refine List.nodup_cons.mpr ⟨fun ha => ?_, ih h.2⟩
    obtain ⟨l₁, l₂, rfl⟩ := List.append_of_mem ha
    have hlen := congrArg List.length (h.2.unique inj hq h.2.after)
    simp at hlen
    omega

/-- An array whose elements are linked in order, the last one to `q`. -/
theorem ListSeg.array {N : ℕ} {node next : Fin N → P} (first : 0 < N)
    (inner : ∀ (i : Fin N) (hi : (i : ℕ) + 1 < N), next i = node ⟨i + 1, hi⟩)
    (last : ∀ i : Fin N, (i : ℕ) + 1 = N → next i = q) :
    ∃ l, l = List.finRange N ∧ ListSeg node next (node ⟨0, first⟩) l q := by
  have seg : ∀ j i, i + j = N →
      ListSeg node next (if hi : i < N then node ⟨i, hi⟩ else q) ((List.finRange N).drop i) q := by
    intro j
    induction j with
    | zero =>
      intro i hi
      rw [dif_neg (by omega), List.drop_eq_nil_of_le (by simp; omega)]
      exact rfl
    | succ j ih =>
      intro i hi
      have hlt : i < N := by omega
      rw [dif_pos hlt, List.drop_eq_getElem_cons (by simpa using hlt)]
      refine ⟨by simp, ?_⟩
      have hseg := ih (i + 1) (by omega)
      by_cases hi' : i + 1 < N
      · rw [inner _ (by simpa using hi')]
        simpa [hi'] using hseg
      · rw [last _ (by simp; omega)]
        simpa [hi'] using hseg
  refine ⟨_, rfl, ?_⟩
  simpa [first] using seg N 0 (by omega)

/-- A segment that starts at its end pointer is empty when no node has that pointer. -/
theorem ListSeg.eq_nil (h : ListSeg node next q l q) (hq : ∀ a, q ≠ node a) : l = [] := by
  cases l with
  | nil => rfl
  | cons b l' => exact absurd h.1 (hq b)

end JosKernel.Lib
