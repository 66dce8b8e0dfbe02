import JosKernel.Pmap.Spec

/-!
# Giving up mappings

What `page_remove` and `env_free` need of memory. Counters and free list agree with the slots, as
under `MemInv`, and no page is a directory or a table in two places; but directories and tables
can be mapped like any other page, and nothing is said about the entries above `UTOP`. Each move
here empties one slot.
-/
namespace JosKernel

open Lib

variable {n : Nat} {ι : Type} [Fintype ι]

structure Accounted (S : Set (Fin n)) (dirs : ι → Option (Fin n)) (x : Fin n → ℕ)
    (h : Set (Fin n)) (m : Mem n) : Prop where
  account : m.Account S (m.target dirs) x h
  distinct : Distinct m dirs
  pdeOk : ∀ e g (d : Fin 1024), dirs e = some g → (d : Nat) < userPdes →
    present (m.entry g d) = true → pgnum (m.entry g d) < n
  pteOk : ∀ e g d t, dirs e = some g → present (m.pte g d t) = true → pgnum (m.pte g d t) < n

theorem MemInv.accounted {S h : Set (Fin n)} {dirs : ι → Option (Fin n)} {x : Fin n → ℕ}
    {m : Mem n} (inv : MemInv S dirs x h m) : Accounted S dirs x h m :=
  ⟨inv.account, inv.excl.distinct, fun e g d he hd hp => (inv.pdeOk e g d he hd hp).1, inv.pteOk⟩

namespace Accounted

variable {S h h' : Set (Fin n)} {dirs : ι → Option (Fin n)} {x x' : Fin n → ℕ} {m m' : Mem n}
  {e : ι} {g p pt : Fin n} {d t : Fin 1024} {va w : Word}

theorem target_mem (inv : Accounted S dirs x h m) {s : Slot ι} (hs : m.target dirs s = some p) :
    p ∈ S := by
  obtain ⟨free, -, c, -⟩ := inv.account
  exact c.target_mem s p hs

/-- Replacing the allocator's data. -/
theorem withAccount (inv : Accounted S dirs x h m) (hf : m'.frame = m.frame)
    (acc : m'.Account S (m.target dirs) x' h') : Accounted S dirs x' h' m' := by
  have ht : m'.target dirs = m.target dirs := Mem.target_congr fun _ p _ _ => by rw [hf]
  have he : m'.entry = m.entry := by funext p i; simp [Mem.entry, hf]
  refine ⟨ht ▸ acc, fun s s' p => by rw [ht]; exact inv.distinct s s' p,
    by rw [he]; exact inv.pdeOk, fun e g d t hg => ?_⟩
  rw [Mem.pte_congr (m := m) (by rw [hf]) fun pt _ => by rw [hf]]
  exact inv.pteOk e g d t hg

theorem pageDecref (inv : Accounted S dirs x h m) (hS : p ∈ S) (hx : 0 < x p) :
    ∃ m', m.pageDecref p = .ok m' ∧ m'.frame = m.frame ∧ m'.kernPgdir = m.kernPgdir ∧
      Accounted S dirs (Function.update x p (x p - 1)) h m' := by
  obtain ⟨m', hok, hf, hk, acc⟩ := inv.account.pageDecref hS hx
  exact ⟨m', hok, hf, hk, inv.withAccount hf acc⟩

section
variable [DecidableEq ι]

/-- Writing a table entry that maps a valid page or none. -/
theorem setPte (inv : Accounted S dirs x h m) (he : dirs e = some g) (ht : m.ptab g d = some pt)
    (hw : present w = true → pgnum w < n)
    (acc : m.Account S (Function.update (m.target dirs) (.pte e d t) (pageOf n w)) x' h') :
    Accounted S dirs x' h' (m.setEntry pt t w) := by
  have htar := inv.distinct.target_setTable (t := t) (w := w) he ht
  refine ⟨htar ▸ acc, ?_, ?_, ?_⟩
  · intro s s' q hs hs' hq hq'
    rw [htar, Function.update_of_ne (by rintro rfl; exact hs)] at hq
    rw [htar, Function.update_of_ne (by rintro rfl; exact hs')] at hq'
    exact inv.distinct s s' q hs hs' hq hq'
  · intro e' g' d' he'
    rw [Mem.entry_setEntry, if_neg fun c => inv.distinct.table_ne_dir he ht he' c.1.symm]
    exact inv.pdeOk e' g' d' he'
  · intro e' g' d' t' he'
    rw [inv.distinct.pte_setTable he ht he']
    split_ifs
    · exact hw
    · exact inv.pteOk e' g' d' t' he'

/-- Clearing a mapping leaves an outside reference to its page. -/
theorem clearPte (inv : Accounted S dirs x h m) (he : dirs e = some g)
    (ht : m.ptab g d = some pt) (hold : pageOf n (m.pte g d t) = some p) :
    Accounted S dirs (Function.update x p (x p + 1)) h (m.setEntry pt t 0) ∧
      (m.setEntry pt t 0).target dirs = Function.update (m.target dirs) (.pte e d t) none := by
  have htar : (m.setEntry pt t 0).target dirs =
      Function.update (m.target dirs) (.pte e d t) none := by
    rw [inv.distinct.target_setTable he ht]
    exact congrArg _ pageOf_zero
  refine ⟨inv.setPte he ht (fun hp => absurd hp (by simp)) ?_, htar⟩
  obtain ⟨free, hfree, c, hlink⟩ := inv.account
  rw [show pageOf n 0 = none from pageOf_zero]
  exact ⟨free, hfree, c.unlink ((Mem.target_pte he).trans hold), hlink⟩

/-- Clearing the directory entry of an empty table leaves an outside reference to the table. -/
theorem clearPde (inv : Accounted S dirs x h m) (he : dirs e = some g)
    (ht : m.ptab g d = some pt) (hempty : ∀ t, m.target dirs (.pte e d t) = none) :
    Accounted S dirs (Function.update x pt (x pt + 1)) h (m.setEntry g d 0) ∧
      (m.setEntry g d 0).target dirs = Function.update (m.target dirs) (.pde e d) none := by
  have hd := Mem.lt_of_ptab ht
  have hnew : (m.setEntry g d 0).ptab g d = none := by
    rw [inv.distinct.ptab_setDir he he hd, if_pos ⟨rfl, rfl⟩]
    exact pageOf_zero
  have htar : (m.setEntry g d 0).target dirs =
      Function.update (m.target dirs) (.pde e d) none := by
    rw [inv.distinct.target_setDir he hd fun t => ?_]
    · exact congrArg _ pageOf_zero
    · rw [Mem.pte_of_no_ptab hnew, ← Mem.target_pte he, hempty t]
      exact pageOf_zero
  have hsub : ∀ s q, (m.setEntry g d 0).target dirs s = some q → m.target dirs s = some q := by
    intro s q hq
    rw [htar, Function.update_apply] at hq
    split_ifs at hq
    exact hq
  refine ⟨⟨?_, ?_, ?_, ?_⟩, htar⟩
  · obtain ⟨free, hfree, c, hlink⟩ := inv.account
    rw [htar]
    exact ⟨free, hfree, c.unlink ((Mem.target_pde he).trans ht), hlink⟩
  · exact fun s s' q hs hs' hq hq' => inv.distinct s s' q hs hs' (hsub s q hq) (hsub s' q hq')
  · intro e' g' d' he' hd'
    rw [Mem.entry_setEntry]
    split_ifs
    · intro hp
      exact absurd hp (by simp)
    · exact inv.pdeOk e' g' d' he' hd'
  · intro e' g' d' t' he' hp
    by_cases hc : e' = e ∧ d' = d
    · obtain ⟨rfl, rfl⟩ := hc
      obtain rfl : g' = g := Option.some.inj (he'.symm.trans he)
      rw [Mem.pte_of_no_ptab hnew] at hp
      exact absurd hp (by simp)
    · rw [inv.distinct.pte_setDir he he' hd hc] at hp ⊢
      exact inv.pteOk e' g' d' t' he' hp

/-- Forgetting a page directory with an empty user half leaves an outside reference to it. -/
theorem dropDir (inv : Accounted S dirs x h m) (he : dirs e = some g)
    (hempty : ∀ d, m.ptab g d = none) :
    Accounted S (Function.update dirs e none) (Function.update x g (x g + 1)) h m ∧
      m.target (Function.update dirs e none) =
        Function.update (m.target dirs) (.dir e) none := by
  have htar : m.target (Function.update dirs e none) =
      Function.update (m.target dirs) (.dir e) none := by
    funext s
    cases s with
    | dir e' => by_cases hc : e' = e <;> simp [hc]
    | pde e' d =>
      by_cases hc : e' = e
      · subst hc; simp [Mem.target, hempty, he]
      · simp [Mem.target, hc]
    | pte e' d t =>
      by_cases hc : e' = e
      · subst hc; simp [Mem.target, Mem.pte_of_no_ptab (hempty d), he]
      · simp [Mem.target, hc]
  have hsub : ∀ e' g', Function.update dirs e none e' = some g' → dirs e' = some g' := by
    intro e' g' he'
    rw [Function.update_apply] at he'
    split_ifs at he' with hc
    exact he'
  refine ⟨⟨?_, ?_, fun e' g' d he' => inv.pdeOk e' g' d (hsub e' g' he'),
    fun e' g' d t he' => inv.pteOk e' g' d t (hsub e' g' he')⟩, htar⟩
  · obtain ⟨free, hfree, c, hlink⟩ := inv.account
    rw [htar]
    exact ⟨free, hfree, c.unlink he, hlink⟩
  · intro s s' q hs hs' hq hq'
    rw [htar, Function.update_apply] at hq hq'
    split_ifs at hq hq'
    exact inv.distinct s s' q hs hs' hq hq'

/-- `page_remove` of a mapped page empties the slot and gives up the reference. -/
theorem pageRemove (inv : Accounted S dirs x h m) (he : dirs e = some g)
    (ht : m.ptab g (pdx va) = some pt) (hold : pageOf n (m.pte g (pdx va) (ptx va)) = some p) :
    ∃ m', m.pageRemove g va = .ok m' ∧ Accounted S dirs x h m' ∧
      m'.target dirs = Function.update (m.target dirs) (.pte e (pdx va) (ptx va)) none ∧
      (∀ q, q ≠ pt → m'.frame q = m.frame q) ∧ m'.kernPgdir = m.kernPgdir := by
  -- clearing the entry first turns the mapping into the reference that is given up
  obtain ⟨inv₁, htar⟩ := inv.clearPte he ht hold
  obtain ⟨m', hok, hf, hk, inv'⟩ := inv₁.pageDecref
    (inv.target_mem ((Mem.target_pte he).trans hold)) (by simp)
  rw [Function.update_self, Nat.add_sub_cancel, Function.update_idem, Function.update_eq_self]
    at inv'
  refine ⟨m', ?_, inv', ?_, fun q hq => ?_, hk⟩
  · have hpte := Mem.pte_of_ptab (t := ptx va) ht
    have hlook : m.pageLookup g va = .ok (some (p, pt, ptx va)) := by
      rw [hpte] at hold
      simp [Mem.pageLookup, MemInv.pgdirWalk_of_ptab ht, (pageOf_eq_some.mp hold).1,
        MemInv.pa2page_pteAddr hold, bind, Except.bind, pure, Except.pure]
    rw [MemInv.pageDecref_setEntry] at hok
    cases hd : m.pageDecref p with
    | error _ => simp [hd, Except.map] at hok
    | ok m'' =>
      simp only [hd, Except.map, Except.ok.injEq] at hok
      subst hok
      simp [Mem.pageRemove, hlook, hd, bind, Except.bind, pure, Except.pure]
  · rw [← htar]
    exact Mem.target_congr fun _ q _ _ => by rw [hf]
  · rw [hf, Mem.frame_setEntry_of_ne hq]

end

end Accounted

end JosKernel
