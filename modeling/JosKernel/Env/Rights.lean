import JosKernel.Env.CounterWrap

/-!
# Write access

`sys_page_map` asks for `PTE_W` in the entry that it copies when the permission word has it, and
`sys_ipc_try_send` wants all of the word in the sender's entry. So as long as a page stays
allocated, it becomes writable only from an address space where it is writable already.

The environments run on one CPU, so that none is freed while another CPU runs it.

The law needs room in the counters. Without it, an environment maps a page until its counter is
zero again, has it freed while it is mapped, and turns it into a page table that it can write.
-/
namespace JosKernel

open Lib

variable {n : Nat} {S : Set (Fin n)} {x : Fin n → ℕ} {k k' : Kernel n} {c : Cpu}
  {cur e : EnvIx} {p : Fin n}

/-! ## The write bit -/

/-- Some environment has an entry for `p` with `PTE_W`. -/
def Writable (k : Kernel n) (p : Fin n) : Prop :=
  ∃ e d t, pageOf n (k.spaces e d t) = some p ∧ k.spaces e d t &&& pteW ≠ 0

theorem newPte_and_pteW (pp : Fin n) (perm : Word) : newPte pp perm &&& pteW = perm &&& pteW := by
  have hP : pteP &&& pteW = 0#32 := by decide
  rw [newPte, pteAddr_or_and (by decide), BitVec.and_or_distrib_right, hP, BitVec.or_zero]

theorem touched_and_pteW (store : Option Byte) (w : Word) :
    touched store w &&& pteW = w &&& pteW := by
  have hA : pteW &&& pteA = 0#32 := by decide
  have hD : pteW &&& pteD = 0#32 := by decide
  cases store with
  | none => rw [touched, BitVec.and_comm, BitVec.and_or_distrib_left, hA, BitVec.or_zero,
      BitVec.and_comm]
  | some b => rw [touched, BitVec.and_comm, BitVec.and_or_distrib_left, BitVec.and_or_distrib_left,
      hA, hD, BitVec.or_zero, BitVec.or_zero, BitVec.and_comm]

/-- A bit that is in a part of a word is in the word. -/
theorem and_ne_zero_of_subset {u v b : Word} (h : u &&& v = u) (hb : u &&& b ≠ 0) :
    v &&& b ≠ 0 := by
  intro hv
  refine hb ?_
  rw [← h, BitVec.and_assoc, hv]
  exact BitVec.and_zero

/-- The page of a new entry. -/
theorem pageOf_newPte_eq {pp : Fin n} {perm : Word} (inv : KInv S x k) (hperm : perm.toNat < 4096)
    (h : pageOf n (newPte pp perm) = some p) : pp = p :=
  Option.some.inj ((inv.mem.pageOf_newPte hperm pp).symm.trans h)

/-! ## Steps -/

/-- The entry that a call writes gives access to `p` with `PTE_W` only if some entry does. -/
theorem Remaps.writable {s : Sys} {a : Args} {va w : Word} (inv : KInv S x k)
    (ok : MemOk k c cur s a) (hfree : ¬k.mem.OnFreeList p) (h : Remaps k cur s a e va w)
    (hw : pageOf n w = some p) (hW : w &&& pteW ≠ 0) : Writable k p := by
  cases h with
  | alloc he hva hperm hpp =>
    -- a page from the free list is not `p`
    have hlt := ok ⟨rfl, by simp [he], hva, hperm, by simp [hpp]⟩
    exact absurd (pageOf_newPte_eq inv hlt hw ▸ inv.mem.onFreeList_head hpp) hfree
  | map hs hd hsva hva hperm hlook hpp hWW =>
    obtain ⟨hlt, -⟩ := ok _ _ _ ⟨hs, hd, hsva, hva, hlook, hperm, hWW⟩
    obtain rfl := pageOf_newPte_eq inv hlt hw
    rw [newPte_and_pteW] at hW
    exact ⟨_, _, _, hpp, fun h0 => hWW ⟨hW, h0⟩⟩
  | unmap => simp at hw
  | send he hr hs _ hva hlook hpp hperm =>
    have hpage := inv.mem.pageOf_newPte_of_subset hpp hperm
    obtain rfl := Option.some.inj (hpage.symm.trans hw)
    rw [newPte_and_pteW] at hW
    exact ⟨_, _, _, hpp, and_ne_zero_of_subset hperm hW⟩

theorem writable_congr (h : k'.spaces = k.spaces) : Writable k' p ↔ Writable k p := by
  rw [Writable, h]
  rfl

theorem writable_of_clear (h : k'.spaces = Function.update k.spaces e 0) (hw : Writable k' p) :
    Writable k p := by
  obtain ⟨i, d, t, hp, hW⟩ := hw
  rw [h, Function.update_apply] at hp hW
  split_ifs at hp hW
  · simp at hp
  · exact ⟨i, d, t, hp, hW⟩

/-- No step makes an allocated page writable that was not. -/
theorem Moved.writable {a : Action} (inv : KInv S x k) (ok : OnCall MemOk k a) (h : Step k a k')
    (hm : Moved k a k') (hfree : ¬k.mem.OnFreeList p) (hw : Writable k' p) : Writable k p := by
  cases hm with
  | @call cur s args r hc eff hr _ =>
    obtain ⟨c, tf, io, rfl, hcur, hd, hno, hs, rfl, -⟩ := step_call hc h
    cases eff with
    | same hsp _ => exact (writable_congr hsp).mp hw
    | @remap e va w _ hre hsp =>
      obtain ⟨i, d, t, hp, hW⟩ := hw
      rw [hsp, setSpace] at hp hW
      split_ifs at hp hW
      · exact hre.writable inv (ok cur s hcur hd hno hs) hfree hp hW
      · exact ⟨i, d, t, hp, hW⟩
    | clear _ _ _ hsp => exact writable_of_clear hsp hw
  | idle _ hsp _ => exact (writable_congr hsp).mp hw
  | upcall _ _ _ hsp _ => exact (writable_congr hsp).mp hw
  | death _ _ hsp _ => exact writable_of_clear hsp hw
  | @touch c va store e q _ _ hq _ hsp _ =>
    obtain ⟨i, d, t, hp, hW⟩ := hw
    rw [hsp, setSpace] at hp hW
    split_ifs at hp hW with h
    · obtain ⟨rfl, rfl, rfl⟩ := h
      rw [pageOf, present_touched, pgnum_touched] at hp
      rw [touched_and_pteW] at hW
      exact ⟨i, _, _, hp, hW⟩
    · exact ⟨i, d, t, hp, hW⟩

/-- A page that `sys_page_alloc` maps without `PTE_W` is writable nowhere. -/
theorem not_writable_of_alloc {a : Action} {args : Args} (inv : KInv S x k)
    (hp : k.mem.pageFreeList = some p) (hm : Moved k a k')
    (hc : callOf k a = some (cur, .pageAlloc, args)) (hperm : args.a3 &&& pteW = 0) :
    ¬Writable k' p := by
  have hno : ∀ e d t, pageOf n (k.spaces e d t) ≠ some p := fun e d t h =>
    (inv.mem.of_mapped ⟨e, d, t, h⟩).2.1 (inv.mem.onFreeList_head hp)
  have hnow : ¬Writable k p := fun ⟨e, d, t, h, _⟩ => hno e d t h
  intro hw
  cases hm with
  | call hc' eff _ _ =>
    obtain ⟨rfl, rfl, rfl⟩ : cur = _ ∧ Sys.pageAlloc = _ ∧ args = _ := by
      simpa using hc.symm.trans hc'
    cases eff with
    | same hsp _ => exact hnow ((writable_congr hsp).mp hw)
    | remap hre hsp =>
      obtain ⟨i, d, t, hq, hW⟩ := hw
      rw [hsp, setSpace] at hq hW
      split_ifs at hq hW
      · cases hre with
        | alloc =>
          rw [newPte_and_pteW] at hW
          exact hW hperm
      · exact hno i d t hq
    | clear _ _ _ hsp => exact hnow (writable_of_clear hsp hw)
  | idle hc' => cases hc.symm.trans hc'
  | upcall _ hc' => cases hc.symm.trans hc'
  | death hc' => cases hc.symm.trans hc'
  | touch ha =>
    subst ha
    cases hc

/-! ## Runs on one CPU -/

/-- Only CPU `c` has an environment. -/
def Alone (k : Kernel n) (c : Cpu) : Prop := ∀ c', c' ≠ c → k.curenv c' = none

theorem Alone.quiet (h : Alone k c) (e : EnvIx) : Quiet k c e := fun c' hne hc => by
  rw [h c' hne] at hc
  cases hc

theorem Alone.freeOk {a : Action} (h : Alone k a.cpu) : FreeOk k a := by
  cases a with
  | trap c tf io =>
    refine ⟨fun cur s _ _ _ _ => ?_, fun cur _ _ => h.quiet cur⟩
    cases s <;> first | trivial | exact fun e _ => .inl (h.quiet e)
  | wake => exact ⟨trivial, trivial⟩
  | start => exact ⟨trivial, trivial⟩
  | access => exact ⟨trivial, trivial⟩

theorem Alone.step {a : Action} (h : Alone k a.cpu) (hs : Step k a k') : Alone k' a.cpu := by
  intro c' hne
  rcases step_cpus hs with ⟨hstep, -⟩ | ⟨-, hsame⟩
  · rw [Kernel.curenv, hstep.other c' hne]
    exact h c' hne
  · rw [Kernel.curenv, hsame.cpus]
    exact h c' hne

/-- No CPU has an environment at boot. -/
theorem Created.alone (h : Created S k) (c : Cpu) : Alone k c := by
  intro c' _
  induction h with
  | init _ _ _ idle _ => exact idle c'
  | create _ alloc _ _ ih =>
    obtain ⟨g, m, -, -, rfl⟩ := envAlloc_ok alloc
    exact ih

/-- The invariants in a run on one CPU. -/
theorem kInv_of_alone {N : ℕ} {s : ℕ → Kernel n} {a : ℕ → Action} (hb : Boot S (s 0))
    (hrun : IsRun Step N s a) (hcpu : ∀ j < N, (a j).cpu = c)
    (ok : ∀ j < N, OnCall MemOk (s j) (a j)) {j : ℕ} (hj : j ≤ N) :
    (∃ x, KInv S x (s j)) ∧ Alone (s j) c := by
  induction j with
  | zero => exact ⟨⟨0, (boot_kInv hb).1⟩, hb.1.alone c⟩
  | succ j ih =>
    obtain ⟨⟨x, inv⟩, hone⟩ := ih (by omega)
    obtain rfl := hcpu j hj
    exact ⟨(inv.step ⟨ok j hj, hone.freeOk⟩ (hrun j hj)).1.kInv, hone.step (hrun j hj)⟩

/-- In a run on one CPU, a page that is in no address space with `PTE_W` is in none until it is
on the free list. -/
theorem not_writable_of_not_writable {N : ℕ} {s : ℕ → Kernel n} {a : ℕ → Action}
    (hb : Boot S (s 0)) (hrun : IsRun Step N s a) (hcpu : ∀ j < N, (a j).cpu = c)
    (ok : ∀ j < N, OnCall MemOk (s j) (a j)) {i j : ℕ} (hij : i ≤ j) (hj : j ≤ N)
    (hp : ∀ l, i ≤ l → l ≤ j → ¬(s l).mem.OnFreeList p) (hi : ¬Writable (s i) p) :
    ¬Writable (s j) p := by
  induction j, hij using Nat.le_induction with
  | base => exact hi
  | succ j hij ih =>
    have ih := ih (by omega) fun l hl hlj => hp l hl (by omega)
    obtain ⟨⟨x, inv⟩, hone⟩ := kInv_of_alone hb hrun hcpu ok (j := j) (by omega)
    obtain rfl := hcpu j hj
    have hm := (inv.step ⟨ok j hj, hone.freeOk⟩ (hrun j hj)).2
    exact fun hw => ih (hm.writable inv (ok j hj) (hrun j hj) (hp j hij (by omega)) hw)

/-- The environment maps a page read-only, forks, maps the page into the child as well, and is
refused when it asks for write access. -/
def readOnlyRun : List Action :=
  [.start 0, sysTrap 0 4 0 0x800000 5 0 0, sysTrap 0 7 0 0 0 0 0,
    sysTrap 0 5 0 0x800000 0x1001 0x900000 5, sysTrap 0 5 0 0x800000 0x1001 0x900000 7]

theorem not_writable_readOnlyRun :
    pageOf 16 ((stateAt small readOnlyRun 5).spaces 1 (pdx 0x900000) (ptx 0x900000)) = some 2 ∧
      ¬Writable (stateAt small readOnlyRun 5) 2 := by
  have hmapped : ∀ j : Fin 4, pageOf 16 ((stateAt small readOnlyRun (j + 2)).spaces 0
      (pdx 0x800000) (ptx 0x800000)) = some 2 := by decide +kernel
  have hplain : ∀ j : Fin 5, plain (stateAt small readOnlyRun j)
      (actionAt readOnlyRun j) = true := by decide +kernel
  have hok : ∀ j < 5, OnCall MemOk (stateAt small readOnlyRun j) (actionAt readOnlyRun j) :=
    fun j hj => (stepOk_of_plain (hplain ⟨j, hj⟩)).mem
  have hrun : IsRun Step 5 (stateAt small readOnlyRun) (actionAt readOnlyRun) :=
    isRun_stateAt (by decide +kernel)
  have hcpu : ∀ j < 5, (actionAt readOnlyRun j).cpu = 0 := by decide
  refine ⟨by decide +kernel, not_writable_of_not_writable (i := 2) boot_small hrun hcpu hok
    (by omega) le_rfl (fun l hl hl' => ?_) ?_⟩
  · obtain ⟨⟨x, inv⟩, -⟩ := kInv_of_alone boot_small hrun hcpu hok hl'
    obtain ⟨j, rfl⟩ := Nat.exists_eq_add_of_le' hl
    exact (inv.mem.of_mapped ⟨_, _, _, hmapped ⟨j, by omega⟩⟩).2.1
  · obtain ⟨⟨x, inv⟩, hone⟩ := kInv_of_alone boot_small hrun hcpu hok (j := 1) (by omega)
    have hcur : (stateAt small readOnlyRun 1).curenv 0 = some 0 := by decide +kernel
    have hd : (stateAt small readOnlyRun 1).status 0 ≠ .dying := by decide +kernel
    exact not_writable_of_alloc inv (by decide +kernel)
      (inv.step ⟨hok 1 (by omega), (hcpu 1 (by omega) ▸ hone).freeOk⟩ (hrun 1 (by omega))).2
      (callOf_eq_some hcur hd rfl rfl) (by decide)

/-! ## Without the limit on the counter -/

theorem Filled.not_writable {g pp : Fin n} (h : Filled pp p 1 g k.mem) (solo : Solo c e g k)
    (hne : pp ≠ p) : ¬Writable k p := by
  rintro ⟨i, d, t, hp, hW⟩
  obtain ⟨free, hmaps, -⟩ := h.maps
  obtain ⟨rfl, hd, hsp⟩ := solo.spaces hp
  rw [hsp, hmaps.pte d t hd] at hp hW
  unfold filledPte at hp hW
  split_ifs at hp hW
  · exact hne (Option.some.inj ((pageOf_flags h.small (by decide) pp).symm.trans hp))
  · rw [newPte_and_pteW] at hW
    exact hW (by decide)
  · simp at hp

/-- An environment gets write access to a page that stays allocated. It runs on one CPU, its
permission words have twelve bits, and no page ever has more than 65535 mappings. -/
theorem writable_of_wrapRun : ∃ (k k' : Kernel 70) (p : Fin 70),
    Reachable (fun k => Boot {p : Fin 70 | p ≠ 0} k ∧ FewMappings k) (LimitedStep 0) k ∧
      ¬k.mem.OnFreeList p ∧ ¬Writable k p ∧ Reachable (· = k) (KeepingStep 0 p) k' ∧
        Writable k' p := by
  obtain ⟨k, hk, solo, h⟩ := exists_filled_one
  obtain ⟨k', hk', hp, hW⟩ := h.writable solo (by decide) (by decide)
  exact ⟨k, k', 4, hk, h.notFree, h.not_writable solo (by decide), hk', 0, 64, 0, hp, hW⟩

end JosKernel
