import JosKernel.Env.Rights
import JosKernel.Env.Tlb
import JosKernel.Env.UserCheck

/-!
# Stale translations

The machine with its translation look-aside buffers. Beside the steps of the kernel and of user
code there are fills: at any time the buffer of a CPU may load a present entry of the page table
in CR3. `Fresh` says that no CPU in user mode has a translation that differs from the table entry
of its current environment.

A call that changes an entry of the caller drops the old translation. A call that changes an
entry of another environment leaves the buffers as they are: `tlb_invalidate` compares page
directories with the local current environment only. That is harmless unless the other
environment is current on some other CPU.
-/
namespace JosKernel

open Lib

variable {n : Nat} {S : Set (Fin n)} {x : Fin n → ℕ} {k k' : Kernel n} {c : Cpu}
  {cur e : EnvIx} {g pp : Fin n} {va w : Word} {m : Mem n}

/-! ## Changes to the current page table -/

theorem pageLookup_of_pte (h : pageOf n (m.pte g (pdx va) (ptx va)) = some pp) :
    ∃ pt, m.ptab g (pdx va) = some pt ∧ present (m.entry pt (ptx va)) = true ∧
      m.pageLookup g va = .ok (some (pp, pt, ptx va)) := by
  cases ht : m.ptab g (pdx va) with
  | none => simp [Mem.pte_of_no_ptab ht, pageOf] at h
  | some pt =>
    rw [Mem.pte_of_ptab ht] at h
    have ht' := (Mem.ptab_eq_table (Mem.lt_of_ptab ht)).symm.trans ht
    exact ⟨pt, rfl, (pageOf_eq_some.mp h).1, Mem.pageLookup_of_table ht' h⟩

/-- `page_remove` drops the translation of a page of the current environment. -/
theorem pageRemoveTlb_current (hc : k.curenv c = some e) (hg : k.dirs e = some g)
    (h : pageOf n (m.pte g (pdx va) (ptx va)) = some pp) (t : Tlb) :
    pageRemoveTlb k c m g va t (vpn va) = none := by
  obtain ⟨pt, -, -, hlook⟩ := pageLookup_of_pte h
  have hdir : (k.envs e).envPgdir = some g := hg
  simp only [pageRemoveTlb, hlook, tlbInvalidate, hc, if_pos hdir]
  exact Cache.drop_self t _

theorem pageInsertTlb_current (hc : k.curenv c = some e) (hg : k.dirs e = some g)
    (h : pageOf n (m.pte g (pdx va) (ptx va)) = some pp) (qq : Fin n) (t : Tlb) :
    pageInsertTlb k c m g qq va t (vpn va) = none := by
  obtain ⟨pt, ht, hp, -⟩ := pageLookup_of_pte h
  have hp' : present ((m.incRef qq).entry pt (ptx va)) = true := hp
  simp only [pageInsertTlb, MemInv.pgdirWalk_of_ptab ht, if_pos hp']
  exact pageRemoveTlb_current (m := m.incRef qq) hc hg h t

/-- A call that changes a present entry of the current environment drops its translation. -/
theorem Remaps.syscallTlb {s : Sys} {a : Args} {no : Word} (inv : KInv S x k)
    (hc : k.curenv c = some e) (h : Remaps k cur s a e va w) (hs : Sys.ofNat no.toNat = some s)
    (hp : present (k.spaces e (pdx va) (ptx va)) = true) (t : Tlb) :
    JosKernel.syscallTlb k c cur no a.a1 a.a2 a.a3 a.a4 a.a5 t (vpn va) = none := by
  obtain ⟨g, hg⟩ : ∃ g, k.dirs e = some g := by
    cases hg : k.dirs e with
    | none => simp [Kernel.spaces, Mem.spaces, hg] at hp
    | some g => exact ⟨g, rfl⟩
  rw [Kernel.spaces, Mem.spaces_of_dir hg] at hp
  obtain ⟨q, hq, -⟩ := inv.mem.page_of_present hg hp
  simp only [JosKernel.syscallTlb, hs]
  cases h with
  | @alloc a e pp he hva hperm hpp =>
    obtain ⟨m₁, halloc, -, hframe, -⟩ := inv.mem.pageAlloc_some true hpp
    have hfresh := inv.mem.fresh_of_free (inv.mem.onFreeList_head hpp)
    -- the new page is no part of the page table
    have hpte : (m₁.incRef pp).pte g (pdx a.a2) (ptx a.a2) = k.mem.pte g (pdx a.a2) (ptx a.a2) := by
      refine Mem.pte_congr (hframe g ?_) fun pt ht => hframe pt ?_
      · rintro rfl
        exact hfresh (.dir e) hg
      · rintro rfl
        exact hfresh (.pde e (pdx a.a2)) ((Mem.target_pde hg).trans ht)
    simp only [sysPageAllocTlb, he, hva, hperm, halloc, pgdirOf_eq hg, Bool.false_eq_true, if_false]
    exact pageInsertTlb_current hc hg (hpte ▸ hq) pp t
  | @map a srce dste pp hs hd hsva hva hperm hlook hpp hw =>
    obtain ⟨sg, pt, i, hsg, hpl⟩ := lookedUp_some hlook
    have hent := (inv.mem.lookup_some hsg (lt_utop_of_badUserPage hsva) hpl).2
    rw [Kernel.spaces, Mem.spaces_of_dir hsg, ← hent] at hw
    simp only [sysPageMapTlb, hs, hd, hsva, hva, hperm, pgdirOf_eq hsg, hpl, if_neg hw,
      pgdirOf_eq hg, Bool.or_self, Bool.false_eq_true, if_false]
    exact pageInsertTlb_current hc hg hq pp t
  | unmap he hva _ =>
    simp only [sysPageUnmapTlb, he, hva, pgdirOf_eq hg, Bool.false_eq_true, if_false]
    exact pageRemoveTlb_current hc hg hq t
  | @send a e pp he hr hs ha hva hlook hpp hperm =>
    obtain ⟨sg, pt, i, hsg, hpl⟩ := lookedUp_some hlook
    have hent := (inv.mem.lookup_some hsg hs hpl).2
    rw [Kernel.spaces, Mem.spaces_of_dir hsg, ← hent] at hperm
    have hW : ¬(a.a4 &&& pteW ≠ 0 ∧ k.mem.entry pt i &&& pteW = 0) :=
      fun h => and_ne_zero_of_subset hperm h.1 h.2
    simp only [sysIpcTrySendTlb, ipcSendPageTlb, he, hr, if_pos hs, ha, pgdirOf_eq hsg, hpl, hperm,
      if_neg hW, if_pos hva, pgdirOf_eq hg, ne_eq, not_true_eq_false, if_true, if_false]
    exact pageInsertTlb_current hc hg hq pp t

theorem saved_saved (k : Kernel n) (cur : EnvIx) (tf : Trapframe) :
    saved (saved k cur tf) cur (k.envs cur).envTf = k := by
  simp [saved, Kernel.modEnv]

theorem Remaps.saved {s : Sys} {a : Args} (tf : Trapframe) (h : Remaps k cur s a e va w) :
    Remaps (JosKernel.saved k cur tf) cur s a e va w := by
  have h' : Remaps (JosKernel.saved (JosKernel.saved k cur tf) cur (k.envs cur).envTf)
      cur s a e va w := by rwa [saved_saved]
  exact h'.of_saved

/-- The same for the whole kernel entry. -/
theorem Remaps.performTlb {s : Sys} {a : Action} {args : Args} (inv : KInv S x k)
    (hstep : Step k a k') (hcall : callOf k a = some (cur, s, args))
    (hc : k.curenv a.cpu = some e) (h : Remaps k cur s args e va w)
    (hp : present (k.spaces e (pdx va) (ptx va)) = true) (t : Tlb) :
    JosKernel.performTlb k a t (vpn va) = none := by
  obtain ⟨c, tf, io, rfl, hcur, hd, hno, hs, rfl, -⟩ := step_call hcall hstep
  have hexc : Exc.ofTrapno tf.tfTrapno.toNat = none := by rw [hno]; rfl
  have hdisp : trapDispatchTlb (JosKernel.saved k cur tf) c cur tf t (vpn va) = none := by
    simp only [trapDispatchTlb, hexc, if_pos hno, trapSyscallTlb]
    exact (h.saved tf).syscallTlb (inv.save cur tf) hc hs (saved_spaces k cur tf ▸ hp) t
  exact (trapTlb_sub_dispatch hcur hd tf io t).none hdisp

/-! ## The machine with its buffers -/

structure CachedKernel (n : Nat) where
  kernel : Kernel n
  tlb : Cpu → Tlb

inductive TlbAction where
  /-- A step of the kernel or of user code. -/
  | step (a : Action)
  /-- The buffer of CPU `c` loads the entry with indices `d` and `t`. -/
  | fill (c : Cpu) (d t : Fin 1024)

inductive TlbStep : CachedKernel n → TlbAction → CachedKernel n → Prop
  | step {s : CachedKernel n} {a : Action} {k' : Kernel n} (h : Step s.kernel a k') :
      TlbStep s (.step a)
        ⟨k', Function.update s.tlb a.cpu (performTlb s.kernel a (s.tlb a.cpu))⟩
  | fill {s : CachedKernel n} {c : Cpu} {d t : Fin 1024}
      (hp : present (s.kernel.mem.pte (s.kernel.cpus c).cr3 d t) = true) :
      TlbStep s (.fill c d t)
        ⟨s.kernel, Function.update s.tlb c
          ((s.tlb c).fill (d, t) (s.kernel.mem.pte (s.kernel.cpus c).cr3 d t))⟩

/-- Two entries agree in address and permissions. The accessed and dirty bits may differ. -/
def SameTranslation (w w' : Word) : Prop :=
  pteAddr w = pteAddr w' ∧ w &&& accessBits = w' &&& accessBits

instance (w w' : Word) : Decidable (SameTranslation w w') :=
  inferInstanceAs (Decidable (_ ∧ _))

/-- The page table of an environment. -/
def tableOf (k : Kernel n) (e : EnvIx) : Fin 1024 × Fin 1024 → Word := fun p => k.spaces e p.1 p.2

/-- The buffers of the CPUs in user mode are related to the page tables of their environments. -/
def Buffered (R : Word → Word → Prop) (s : CachedKernel n) : Prop :=
  ∀ c e, (s.kernel.cpus c).cpuMode = .user → s.kernel.curenv c = some e →
    (s.tlb c).Agrees R (tableOf s.kernel e)

/-- No CPU in user mode has a stale translation. -/
def Fresh (s : CachedKernel n) : Prop := Buffered SameTranslation s

/-- A present entry that agrees with the current one. -/
def Serves (w w' : Word) : Prop := present w = true ∧ SameTranslation w w'

theorem SameTranslation.trans {u v w : Word} (h : SameTranslation u v) (h' : SameTranslation v w) :
    SameTranslation u w := ⟨h.1.trans h'.1, h.2.trans h'.2⟩

theorem SameTranslation.present {u v : Word} (h : SameTranslation u v)
    (hu : JosKernel.present u = true) : JosKernel.present v = true := by
  have hbit : ∀ w : Word, JosKernel.present (w &&& accessBits) = JosKernel.present w := fun w => by
    simp [present_eq_getLsbD, accessBits, pteP, pteW, pteU]
  rw [← hbit, ← h.2, hbit, hu]

theorem Serves.present {u v : Word} (h : Serves u v) : JosKernel.present v = true :=
  h.2.present h.1

theorem or_and_of_disjoint {b v : Word} (h : b &&& v = 0#32) (w : Word) :
    (w ||| b) &&& v = w &&& v := by
  rw [BitVec.and_comm, BitVec.and_or_distrib_left, BitVec.and_comm v b, h, BitVec.or_zero,
    BitVec.and_comm]

/-- The bits that an access sets are none of address and permissions. -/
theorem sameTranslation_touched (store : Option Byte) (w : Word) :
    SameTranslation w (touched store w) := by
  have haccess : ∀ v : Word, pteA &&& v = 0#32 → pteD &&& v = 0#32 →
      w &&& v = touched store w &&& v := by
    intro v hA hD
    cases store with
    | none => exact (or_and_of_disjoint hA w).symm
    | some _ => rw [touched, or_and_of_disjoint hD, or_and_of_disjoint hA]
  exact ⟨haccess _ (by decide) (by decide), haccess _ (by decide) (by decide)⟩

/-! ## Steps -/

/-- A call changes no present entry of an environment that is current on another CPU. -/
def SparesRunning (k : Kernel n) (a : Action) : Prop :=
  ∀ cur s args e va w c, callOf k a = some (cur, s, args) → Remaps k cur s args e va w →
    c ≠ a.cpu → k.curenv c = some e → present (k.spaces e (pdx va) (ptx va)) = true →
    SameTranslation (k.spaces e (pdx va) (ptx va)) w

theorem tableOf_setSpace (hsp : k'.spaces = setSpace k.spaces e va w) :
    tableOf k' e = Function.update (tableOf k e) (vpn va) w := by
  funext p
  simp only [tableOf, hsp, setSpace, vpn, Function.update_apply, Prod.ext_iff, true_and]

theorem tableOf_setSpace_of_ne {i : EnvIx} (hi : i ≠ e)
    (hsp : k'.spaces = setSpace k.spaces e va w) : tableOf k' i = tableOf k i := by
  funext p
  simp only [tableOf, hsp, setSpace, hi, false_and, if_false]

/-- What the CPUs have cached for `e` survives a step, if a call that changes an entry of `e`
meets no translation of it, or leaves the translation as it is. -/
theorem Moved.agrees {a : Action} {t : Tlb} (inv' : KInv S x k') (hm : Moved k a k')
    (hlive : k'.curenv c = some e) (h : t.Agrees Serves (tableOf k e))
    (hcall : ∀ cur s args va w, callOf k a = some (cur, s, args) → Remaps k cur s args e va w →
      present (k.spaces e (pdx va) (ptx va)) = true →
      t (vpn va) = none ∨ SameTranslation (k.spaces e (pdx va) (ptx va)) w) :
    t.Agrees Serves (tableOf k' e) := by
  have same : k'.spaces e = k.spaces e → t.Agrees Serves (tableOf k' e) := fun hsp => by
    unfold tableOf
    rwa [hsp]
  -- an environment that was freed is not current
  have freed : ∀ {i}, k'.status i = .free → k'.spaces = Function.update k.spaces i 0 →
      t.Agrees Serves (tableOf k' e) := by
    intro i hi hsp
    have hne : e ≠ i := fun hei => inv'.cur c e hlive (hei ▸ hi)
    exact same (by rw [hsp, Function.update_of_ne hne])
  cases hm with
  | @call cur s args r hc eff _ _ =>
    cases eff with
    | same hsp _ => exact same (congrFun hsp e)
    | clear _ _ hfree hsp => exact freed hfree hsp
    | @remap i va w _ hre hsp =>
      by_cases hi : e = i
      · subst hi
        rw [tableOf_setSpace hsp]
        refine h.update fun b hb hserves => ?_
        rcases hcall cur s args va w hc hre hserves.present with hnone | hsame
        · simp [hnone] at hb
        · exact ⟨hserves.1, hserves.2.trans hsame⟩
      · rwa [tableOf_setSpace_of_ne hi hsp]
  | idle _ hsp _ => exact same (congrFun hsp e)
  | upcall _ _ _ hsp _ => exact same (congrFun hsp e)
  | death _ hfree hsp _ => exact freed hfree hsp
  | @touch c va store i p _ _ _ _ hsp _ =>
    by_cases hi : e = i
    · subst hi
      rw [tableOf_setSpace hsp]
      exact h.update fun b _ hserves => ⟨hserves.1, hserves.2.trans (sameTranslation_touched ..)⟩
    · rwa [tableOf_setSpace_of_ne hi hsp]

/-- The condition on a step of the machine with its buffers. -/
def TlbOk (s : CachedKernel n) : TlbAction → Prop
  | .step a => StepOk s.kernel a ∧ SparesRunning s.kernel a
  | .fill _ _ _ => True

theorem Buffered.step {s : CachedKernel n} {a : Action} (hb : Buffered Serves s)
    (inv : KInv S x s.kernel) (hcr : CrInv s.kernel) (ok : StepOk s.kernel a)
    (spares : SparesRunning s.kernel a) (hs : Step s.kernel a k') :
    Buffered Serves
      ⟨k', Function.update s.tlb a.cpu (performTlb s.kernel a (s.tlb a.cpu))⟩ := by
  obtain ⟨hgrown, hm⟩ := inv.step ok hs
  obtain ⟨x', inv'⟩ := hgrown.kInv
  intro c e hmode hcur
  simp only at hmode hcur ⊢
  by_cases hc : c = a.cpu
  · subst hc
    rw [Function.update_self]
    have hsub := performTlb_sub s.kernel (s.tlb a.cpu) a
    rcases switched_perform hs.2 (s.tlb a.cpu) with hsame | hempty
    · -- the CPU goes on with its environment, which was in user mode before
      have hcur₀ : s.kernel.curenv a.cpu = some e := hsame.symm.trans hcur
      have hmode₀ : (s.kernel.cpus a.cpu).cpuMode = .user := by
        rcases step_cpus hs with ⟨-, hl⟩ | ⟨-, hcpus⟩
        · by_contra hn
          rw [hcr.idle _ hn (hl _)] at hcur₀
          cases hcur₀
        · rwa [hcpus.cpus] at hmode
      refine hm.agrees inv' hcur ((hb _ _ hmode₀ hcur₀).sub hsub)
        fun cur s' args va w hcall hre hp => ?_
      exact .inl (hre.performTlb inv hs hcall hcur₀ hp _)
    · rw [hempty]
      exact .empty
  · rw [Function.update_of_ne hc]
    have hcpu : k'.cpus c = s.kernel.cpus c := by
      rcases step_cpus hs with ⟨hstep, -⟩ | ⟨-, hcpus⟩
      · exact hstep.other c hc
      · rw [hcpus.cpus]
    have hcur₀ : s.kernel.curenv c = some e := by rwa [Kernel.curenv, ← hcpu]
    refine hm.agrees inv' hcur (hb _ _ (by rwa [← hcpu]) hcur₀)
      fun cur s' args va w hcall hre hp => ?_
    exact .inr (spares cur s' args e va w c hcall hre hc hcur₀ hp)

theorem Buffered.fill {s : CachedKernel n} {d t : Fin 1024} (hb : Buffered Serves s)
    (inv : KInv S x s.kernel) (hcr : CrInv s.kernel)
    (hp : present (s.kernel.mem.pte (s.kernel.cpus c).cr3 d t) = true) :
    Buffered Serves ⟨s.kernel, Function.update s.tlb c
      ((s.tlb c).fill (d, t) (s.kernel.mem.pte (s.kernel.cpus c).cr3 d t))⟩ := by
  intro c' e hmode hcur
  simp only at hmode hcur ⊢
  by_cases hc : c' = c
  · subst hc
    -- CR3 holds the directory of `e`
    obtain ⟨e', hcur', hdir⟩ := hcr.dir inv hmode
    obtain rfl := Option.some.inj (hcur.symm.trans hcur')
    have hpte : s.kernel.mem.pte (s.kernel.cpus c').cr3 d t = tableOf s.kernel e (d, t) :=
      (Mem.spaces_of_dir hdir d t).symm
    rw [hpte] at hp ⊢
    rw [Function.update_self]
    exact (hb c' e hmode hcur).fill ⟨hp, rfl, rfl⟩
  · rw [Function.update_of_ne hc]
    exact hb c' e hmode hcur

/-- In runs whose calls spare the entries that other CPUs use, no CPU runs user code on a stale
translation. -/
theorem fresh_of_sparesRunning {s : CachedKernel n}
    (h : Reachable (fun s => Boot S s.kernel) (fun s a s' => TlbOk s a ∧ TlbStep s a s') s) :
    Fresh s := by
  suffices hinv : (∃ x, KInv S x s.kernel) ∧ CrInv s.kernel ∧ Buffered Serves s from
    fun c e hmode hcur i w hw => (hinv.2.2 c e hmode hcur i w hw).2
  refine h.invariant (P := fun s => (∃ x, KInv S x s.kernel) ∧ CrInv s.kernel ∧ Buffered Serves s)
    (fun s hb => ⟨⟨0, (boot_kInv hb).1⟩, .created hb.1, fun c e hmode _ => ?_⟩) ?_
  · -- no CPU is in user mode at boot
    exact absurd ((created_kInv hb.1).1 c) ((CrInv.created hb.1).user c hmode)
  · rintro s a s' ⟨⟨x, inv⟩, hcr, hb⟩ ⟨ok, hs⟩
    cases hs with
    | step hs =>
      obtain ⟨x', inv'⟩ := (inv.step ok.1 hs).1.kInv
      exact ⟨⟨x', inv'⟩, hcr.step inv' hs, hb.step inv hcr ok.1 ok.2 hs⟩
    | fill hp => exact ⟨⟨x, inv⟩, hcr, hb.fill inv hcr hp⟩

/-! ## Runs of the small machine -/

/-- The state after an action that is possible and, if it is a step, plain. -/
def tlbNext (s : CachedKernel n) : TlbAction → Option (CachedKernel n)
  | .step a =>
    if plain s.kernel a = true ∧ Enabled s.kernel a then
      match perform s.kernel a with
      | .ok k' => some ⟨k', Function.update s.tlb a.cpu (performTlb s.kernel a (s.tlb a.cpu))⟩
      | .error _ => none
    else none
  | .fill c d t =>
    if present (s.kernel.mem.pte (s.kernel.cpus c).cr3 d t) then
      some ⟨s.kernel, Function.update s.tlb c
        ((s.tlb c).fill (d, t) (s.kernel.mem.pte (s.kernel.cpus c).cr3 d t))⟩
    else none

theorem tlbNext_step {s s' : CachedKernel n} {a : TlbAction} (h : tlbNext s a = some s') :
    TlbStep s a s' ∧ ∀ b, a = .step b → StepOk s.kernel b := by
  cases a with
  | step a =>
    simp only [tlbNext] at h
    split_ifs at h with hen
    split at h
    · rename_i k' hp
      cases h
      exact ⟨.step ⟨hen.2, hp⟩, fun b hb => by cases hb; exact stepOk_of_plain hen.1⟩
    · cases h
  | fill c d t =>
    simp only [tlbNext] at h
    split_ifs at h with hp
    cases h
    exact ⟨.fill hp, fun b hb => by cases hb⟩

/-- Actions that pass a test, one after the other. -/
def runTlb (ok : CachedKernel n → TlbAction → Bool) (s : CachedKernel n) :
    List TlbAction → Option (CachedKernel n)
  | [] => some s
  | a :: as => if ok s a then (tlbNext s a).bind fun s' => runTlb ok s' as else none

theorem reachable_runTlb {init : CachedKernel n → Prop}
    {R : CachedKernel n → TlbAction → CachedKernel n → Prop}
    (ok : CachedKernel n → TlbAction → Bool) {s : CachedKernel n} (hs : Reachable init R s)
    (hR : ∀ s a s', ok s a = true → tlbNext s a = some s' → R s a s') (as : List TlbAction)
    (p : CachedKernel n → Bool) (h : (runTlb ok s as).any p = true) :
    ∃ s', Reachable init R s' ∧ p s' = true := by
  induction as generalizing s with
  | nil => exact ⟨s, hs, by simpa [runTlb] using h⟩
  | cons a as ih =>
    simp only [runTlb] at h
    split_ifs at h with hok
    · cases hn : tlbNext s a with
      | none => simp [hn] at h
      | some s' =>
        rw [hn] at h
        exact ih (hs.step (hR s a s' hok hn)) h
    · simp at h

/-- Only the CPU that makes the step has an environment. -/
def aloneTest (s : CachedKernel n) : TlbAction → Bool
  | .step a => (List.finRange 8).all fun c => c == a.cpu || (s.kernel.curenv c).isNone
  | .fill _ _ _ => true

theorem sparesRunning_of_alone {a : Action} (h : Alone k a.cpu) : SparesRunning k a := by
  intro cur s args e va w c _ _ hc hcur
  rw [h c hc] at hcur
  cases hcur

theorem tlbOk_of_aloneTest {s s' : CachedKernel n} {a : TlbAction} (h : aloneTest s a = true)
    (hn : tlbNext s a = some s') : TlbOk s a ∧ TlbStep s a s' := by
  obtain ⟨hs, hok⟩ := tlbNext_step hn
  refine ⟨?_, hs⟩
  cases a with
  | fill => trivial
  | step a =>
    refine ⟨hok a rfl, sparesRunning_of_alone fun c hc => ?_⟩
    have := List.all_eq_true.mp h c (List.mem_finRange c)
    simpa [hc] using this

/-- A machine with empty buffers. -/
def emptyBuffers (k : Kernel n) : CachedKernel n := ⟨k, fun _ => .empty⟩

/-- The environment maps a page and uses it. -/
theorem fresh_allocOne : ∃ s : CachedKernel 16,
    (s.tlb 0 (vpn 0x800000)).isSome = true ∧ Fresh s := by
  have hinit : Reachable (fun s => Boot {p : Fin 16 | p ≠ 0} s.kernel)
      (fun s a s' => TlbOk s a ∧ TlbStep s a s') (emptyBuffers small) := .init boot_small
  obtain ⟨s, hs, hp⟩ := reachable_runTlb aloneTest hinit (fun _ _ _ => tlbOk_of_aloneTest)
    [.step (.start 0), .step allocOne, .fill 0 2 0]
    (fun s => (s.tlb 0 (vpn 0x800000)).isSome) (by decide +kernel)
  exact ⟨s, hp, fresh_of_sparesRunning hs⟩

/-- A parent gives its child a page and lets it run on the other CPU. The child uses the page;
the parent takes it away. -/
def unmapChildRun : List TlbAction :=
  [.step (.start 0), .step (sysTrap 0 7 0 0 0 0 0), .step (sysTrap 0 4 0x1001 0x800000 7 0 0),
    .step (sysTrap 0 8 0x1001 2 0 0 0), .step (.start 1), .fill 1 2 0,
    .step (sysTrap 0 6 0x1001 0x800000 0 0 0)]

/-- The second CPU runs the child with an entry for the page in its buffer and none in the page
table. -/
def staleTest (s : CachedKernel 16) : Bool :=
  decide ((s.kernel.cpus 1).cpuMode = .user) && decide (s.kernel.curenv 1 = some 1) &&
    (s.tlb 1 (2, 0)).any fun w => !decide (SameTranslation w (tableOf s.kernel 1 (2, 0)))

theorem not_fresh_unmapChildRun : ∃ s : CachedKernel 16,
    Reachable (fun s => Boot {p : Fin 16 | p ≠ 0} s.kernel)
      (fun s a s' => (∀ b, a = .step b → StepOk s.kernel b) ∧ TlbStep s a s') s ∧ ¬Fresh s := by
  have hinit : Reachable (fun s => Boot {p : Fin 16 | p ≠ 0} s.kernel)
      (fun s a s' => (∀ b, a = .step b → StepOk s.kernel b) ∧ TlbStep s a s')
      (emptyBuffers small) := .init boot_small
  obtain ⟨s, hs, hp⟩ := reachable_runTlb (fun _ _ => true) hinit (fun _ _ _ _ hn => 
    ⟨(tlbNext_step hn).2, (tlbNext_step hn).1⟩) unmapChildRun staleTest (by decide +kernel)
  refine ⟨s, hs, fun hfresh => ?_⟩
  simp only [staleTest, Bool.and_eq_true, decide_eq_true_eq] at hp
  obtain ⟨⟨hmode, hcur⟩, hstale⟩ := hp
  obtain ⟨w, hw, hne⟩ := (Option.any_eq_true _ _).mp hstale
  simp only [Bool.not_eq_true', decide_eq_false_iff_not] at hne
  exact hne (hfresh 1 1 hmode hcur _ _ hw)

end JosKernel
