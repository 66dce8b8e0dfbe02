import JosKernel.Env.Invariant
import JosKernel.Env.UserCheck

/-!
# Functions that cannot panic

Under the invariants the functions behind the system calls return. For `page_insert` this holds
for all permission words and counters, also for those that spoil the invariant.
-/
namespace JosKernel

open Lib

variable {n : Nat}

/-! ## Pages -/

namespace MemInv

variable {ι : Type} [Fintype ι] [DecidableEq ι] {S h : Set (Fin n)} {dirs : ι → Option (Fin n)}
  {x : Fin n → ℕ} {m : Mem n} {e : ι} {g pp p : Fin n} {va : Word}

omit [Fintype ι] [DecidableEq ι] in
/-- A page without a link can lose a reference. -/
theorem pageDecref_of_link (hl : (m.pages p).ppLink = none) : ∃ m', m.pageDecref p = .ok m' := by
  unfold Mem.pageDecref Mem.pageFree
  by_cases h0 : (m.pages p).ppRef - 1#16 = 0#16 <;> simp [Mem.setPage, hl, h0]

omit [DecidableEq ι] in
/-- Mapped pages have no link. -/
theorem link_of_mapped (inv : MemInv S dirs x h m) {s : Slot ι} (hs : m.target dirs s = some p) :
    (m.pages p).ppLink = none := by
  obtain ⟨free, hfree, -, hlink⟩ := inv.account
  exact hlink p (inv.target_mem hs) fun hmem => inv.not_onFreeList hs ⟨free, hfree, hmem⟩

/-- `page_insert` fails for want of a page table only. -/
theorem pageInsert_total (inv : MemInv S dirs x h m) (he : dirs e = some g) (hva : va < utop)
    (pp : Fin n) (perm : Word) :
    m.pageInsert g pp va perm = .ok (-eNoMem, m) ∧ m.ptab g (pdx va) = none ∧
        m.pageFreeList = none ∨
      (∃ m', m.pageInsert g pp va perm = .ok (0, m')) ∧
        (m.ptab g (pdx va) ≠ none ∨ m.pageFreeList ≠ none) := by
  by_cases hroom : m.ptab g (pdx va) = none ∧ m.pageFreeList = none
  · left
    obtain ⟨ht, hl⟩ := hroom
    have hp := inv.not_present_of_ptab he (pdx_lt_userPdes hva) ht
    exact ⟨by simp [Mem.pageInsert, Mem.pgdirWalk, hp, Mem.pageAlloc, hl, bind, Except.bind, pure,
      Except.pure], ht, hl⟩
  · right
    refine ⟨?_, by tauto⟩
    rcases inv.pgdirWalk_true he hva with ⟨ht, hl, -⟩ | ⟨pt, m₁, hwalk, inv₁, ht₁, -, -, -, -⟩
    · exact absurd ⟨ht, hl⟩ hroom
    · simp only [Mem.pageInsert, hwalk, bind, Except.bind, pure, Except.pure, Mem.incRef_entry]
      by_cases hp : present (m₁.entry pt (ptx va)) = true
      · simp only [hp, if_true]
        -- the old mapping is given up
        have hpte : m₁.pte g (pdx va) (ptx va) = m₁.entry pt (ptx va) := Mem.pte_of_ptab ht₁
        obtain ⟨q, hq, -⟩ := inv₁.page_of_present he (hpte ▸ hp)
        have hlook := inv₁.pageLookup he hva
        rw [hq, ht₁, Option.bind_some, Option.map_some] at hlook
        have hlink : ((m₁.incRef pp).pages q).ppLink = none := by
          rw [← inv₁.link_of_mapped ((Mem.target_pte he).trans hq)]
          by_cases hqp : q = pp
          · subst hqp; simp [Mem.incRef, Mem.setPage]
          · simp [Mem.incRef, Mem.setPage, hqp]
        obtain ⟨m₂, hdec⟩ := pageDecref_of_link hlink
        simp only [Mem.pageRemove, incRef_pageLookup, hlook, hdec, bind, Except.bind, pure,
          Except.pure]
        exact ⟨_, rfl⟩
      · simp only [hp]
        exact ⟨_, rfl⟩

end MemInv

/-! ## Environments -/

variable {S : Set (Fin n)} {x : Fin n → ℕ} {k : Kernel n} {c : Cpu} {cur e : EnvIx}

theorem envRun_total {g : Fin n} (hg : k.dirs e = some g) (c : Cpu) :
    ∃ k', envRun k c e = .ok k' := by
  unfold envRun
  by_cases hc : k.curenv c = some e
  · rw [if_pos hc]
    exact ⟨_, rfl⟩
  · have hg' : (k.envs e).envPgdir = some g := hg
    rw [if_neg hc, switchTo_eq, hg']
    exact ⟨_, rfl⟩

/-- The scheduler finds the directory of every environment that it can run. -/
theorem schedYield_total (hlive : ∀ e, k.status e ≠ .free → k.dirs e ≠ none) (c : Cpu) :
    ∃ k', schedYield k c = .ok k' := by
  have hrun : ∀ e, k.status e ≠ .free → ∃ k', envRun k c e = .ok k' := fun e he =>
    let ⟨_, hg⟩ := Option.ne_none_iff_exists'.mp (hlive e he)
    envRun_total hg c
  unfold schedYield
  split
  · rename_i e he
    have hst := List.find?_some he
    simp only [decide_eq_true_eq] at hst
    exact hrun e (by simp [hst])
  · split
    · split_ifs with hst
      · exact hrun _ (by simp [hst])
      · exact ⟨_, rfl⟩
    · exact ⟨_, rfl⟩

/-- A live environment can be freed. -/
theorem KInv.envFree_total (inv : KInv S x k) (hlive : k.status e ≠ .free) (c : Cpu) :
    ∃ k', envFree k c e = .ok k' := by
  obtain ⟨g, hg⟩ := inv.dir_of_live hlive
  obtain ⟨m₁, m, hpdes, hdec, -⟩ := inv.mem.envFreeMem hg
  exact ⟨_, envFree_eq hg hpdes hdec⟩

theorem KInv.live_dirs (inv : KInv S x k) (e : EnvIx) (he : k.status e ≠ .free) :
    k.dirs e ≠ none := fun h => he ((inv.live e).mpr h)

/-- `env_destroy` of a live environment succeeds. -/
theorem KInv.envDestroy_total (inv : KInv S x k) (hlive : k.status e ≠ .free) (c : Cpu) :
    ∃ r k', envDestroy k c e = .ok (r, k') := by
  obtain ⟨k₁, hfree⟩ := inv.envFree_total hlive c
  unfold envDestroy
  split_ifs with hm
  · exact ⟨_, _, rfl⟩
  · simp only [hfree, bind, Except.bind]
    split_ifs with hc
    · obtain ⟨g, m₁, m, -, -, -, rfl⟩ := envFree_ok hfree
      have hdirs : ∀ i, ((freed k c e m).modCpu c fun cpu => { cpu with cpuEnv := none }).status i ≠
          .free →
        ((freed k c e m).modCpu c fun cpu => { cpu with cpuEnv := none }).dirs i ≠ none := by
        intro i hi
        rw [Kernel.status_modCpu, freed_status] at hi
        show (freed k c e m).dirs i ≠ none
        rw [KInv.dirs_freed, Function.update_apply]
        split_ifs at hi ⊢
        · exact absurd rfl hi
        · exact inv.live_dirs i hi
      obtain ⟨k₂, hsched⟩ := schedYield_total hdirs c
      rw [hsched]
      exact ⟨_, _, rfl⟩
    · exact ⟨_, _, rfl⟩

end JosKernel
