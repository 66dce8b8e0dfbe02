import JosKernel.Env.Entries

/-!
# The invariant at boot

`mem_init` establishes the memory invariant and `env_create` keeps it. `region_alloc` ignores
that `page_insert` fails and loses a page then, but this happens only when memory has run out:
after `i386_init` there is no memory left, or the invariant holds and the only mappings are
those of `region_alloc`.
-/
namespace JosKernel

open Lib

variable {n : Nat} {S : Set (Fin n)}

/-- Present entries are those that `region_alloc` writes. -/
def RegionPtes (n : Nat) {ι : Type} (v : ι → Fin 1024 → Fin 1024 → Word) : Prop :=
  ∀ e d t, present (v e d t) = true → ∃ pp : Fin n, v e d t = newPte pp (pteW ||| pteU)

theorem memInv_init {m : Mem n} (h : MemInit S m) :
    MemInv S (fun _ : EnvIx => none) 0 ∅ m := by
  have htar : ∀ s : Slot EnvIx, m.target (fun _ => none) s = none := by
    intro s
    cases s <;> rfl
  have hcount : ∀ p, count (m.target fun _ : EnvIx => none) p = 0 := fun p =>
    count_eq_zero.mpr fun s => by simp [htar]
  obtain ⟨l, hl, hnd, hmem⟩ := h.free
  refine ⟨h.small, ⟨l, hl, ⟨hnd, fun p => ?_, fun p hp => ?_, fun s p hs => ?_, by simp⟩,
    fun p hp hpl => absurd ((hmem p).mpr hp) hpl⟩, fun s _ p _ hs => ?_, h.kern, h.kernUser,
    h.kernHigh, by simp, by simp, by simp⟩
  · simp [hmem p, hcount]
  · simp [hcount, Mem.ref, h.ref p hp]
  · simp [htar] at hs
  · simp [htar] at hs

/-! ## Regions -/

section
variable {ι : Type} [Fintype ι] [DecidableEq ι] {dirs : ι → Option (Fin n)} {x : Fin n → ℕ}
  {m m' : Mem n} {e : ι} {g : Fin n} {va len : Word}

/-- Without memory, `region_alloc` only gets through an empty region. -/
theorem regionAllocLoop_empty {vas : List Word} (hl : m.pageFreeList = none)
    (h : regionAllocLoop m g vas = .ok m') : m' = m := by
  cases vas with
  | nil => cases h; rfl
  | cons va vas =>
    simp [regionAllocLoop, Mem.pageAlloc, hl, throw, throwThe, MonadExceptOf.throw] at h

/-- Memory has run out, or the invariant holds with the mappings of regions only. -/
def LoadInv (S : Set (Fin n)) (dirs : ι → Option (Fin n)) (kern : Fin n) (m : Mem n) : Prop :=
  m.kernPgdir = kern ∧
    (m.pageFreeList = none ∨ MemInv S dirs 0 ∅ m ∧ RegionPtes n (m.spaces dirs))

theorem regionAllocLoop_loadInv {kern : Fin n} {vas : List Word} (inv : LoadInv S dirs kern m)
    (he : dirs e = some g) (hvas : ∀ va ∈ vas, va < utop)
    (h : regionAllocLoop m g vas = .ok m') : LoadInv S dirs kern m' := by
  induction vas generalizing m with
  | nil => cases h; exact inv
  | cons va vas ih =>
    obtain ⟨hk, hl | ⟨inv, hre⟩⟩ := inv
    · rw [regionAllocLoop_empty hl h]
      exact ⟨hk, .inl hl⟩
    · cases hl : m.pageFreeList with
      | none =>
        rw [regionAllocLoop_empty hl h]
        exact ⟨hk, .inl hl⟩
      | some pp =>
        obtain ⟨m₁, halloc, inv₁, hframe, -, href, hk₁⟩ := inv.pageAlloc_some false hl
        have hfree := inv.onFreeList_head hl
        have hfresh := inv.fresh_of_free hfree
        have hS := (inv.onFreeList_iff.mp hfree).1
        have htar : m₁.target dirs = m.target dirs :=
          Mem.target_congr fun s q _ hq => hframe q fun c => hfresh s (c ▸ hq)
        have hsp₁ : m₁.spaces dirs = m.spaces dirs := by
          refine Mem.spaces_congr (funext fun q => ?_)
          by_cases hq : q = pp
          · simp only [Mem.pageAlloc, hl, Prod.mk.injEq, true_and] at halloc
            rw [← halloc]
            rfl
          · exact hframe q hq
        have hnf : ¬m₁.OnFreeList pp := fun hc =>
          (inv₁.onFreeList_iff.mp hc).2.2 (Set.mem_insert ..)
        have hw : pageOf n (newPte pp (pteW ||| pteU)) = some pp :=
          inv.pageOf_newPte (by decide) pp
        simp only [regionAllocLoop, halloc, bind_ok] at h
        obtain ⟨⟨r, m₂⟩, hins, h⟩ := h
        rcases inv₁.pageInsert he (hvas va List.mem_cons_self) hS hnf
          (fun s _ => htar ▸ hfresh s) (.inl (by rw [href, inv.ref_of_free hfree]; decide)) hw with
          ⟨-, hl₁, hok⟩ | ⟨m₂', hok, inv₂, hsp₂, hev⟩
        · -- the page is lost, but no page is left
          rw [hok] at hins
          cases hins
          rw [regionAllocLoop_empty hl₁ h]
          exact ⟨hk₁.trans hk, .inl hl₁⟩
        · rw [hok] at hins
          cases hins
          rw [Set.insert_sdiff_of_mem _ (Set.mem_singleton pp), Set.empty_sdiff] at inv₂
          refine ih ⟨hev.kern.trans (hk₁.trans hk), .inr ⟨inv₂, fun e' d t hp => ?_⟩⟩
            (fun va' hva' => hvas va' (List.mem_cons_of_mem _ hva')) h
          rw [hsp₂, hsp₁, setSpace] at hp ⊢
          split_ifs at hp ⊢ with hc
          · exact ⟨pp, rfl⟩
          · exact hre e' d t hp

/-- The pages of a region in user memory are in user memory. -/
theorem lt_utop_of_mem_pageRange {a : Word} (h : va.toNat + len.toNat ≤ utop.toNat)
    (ha : a ∈ Mem.pageRange (roundDown va pgsize) (roundUp (va + len) pgsize)) : a < utop := by
  simp only [Mem.pageRange, List.mem_map, List.mem_range] at ha
  obtain ⟨i, hi, rfl⟩ := ha
  rw [toNat_utop] at h
  have hs : (va + len + pgsize - 1).toNat = va.toNat + len.toNat + 4095 := by
    simp only [BitVec.toNat_sub, BitVec.toNat_add, pgsize]
    simp
    omega
  rw [roundUp, toNat_roundDown, toNat_roundDown, hs] at hi
  rw [BitVec.lt_def, BitVec.toNat_add, toNat_roundDown, BitVec.toNat_ofNat, toNat_utop]
  omega

/-- Loading a binary. -/
theorem load_loadInv {kern : Fin n} (inv : LoadInv S dirs kern m) (he : dirs e = some g)
    (h : Load g m m') : LoadInv S dirs kern m' := by
  induction h with
  | done => exact inv
  | region _ user ok ih =>
    exact regionAllocLoop_loadInv ih he (fun _ => lt_utop_of_mem_pageRange user) ok
  | store _ user ok ih =>
    obtain ⟨hk, hl | ⟨inv', hre⟩⟩ := ih
    · obtain ⟨⟨p, o⟩, -, rfl⟩ := Option.map_eq_some_iff.mp ok
      exact ⟨hk, .inl hl⟩
    · obtain ⟨inv'', hsp, hk', -⟩ := inv'.storeByte he user ok
      exact ⟨hk'.trans hk, .inr ⟨inv'', by rwa [hsp]⟩⟩

end

/-! ## Boot -/

theorem envSetupVm_kernPgdir (m : Mem n) : (envSetupVm m).2.kernPgdir = m.kernPgdir := by
  unfold envSetupVm Mem.pageAlloc
  cases m.pageFreeList <;> rfl

theorem created_kInv {k : Kernel n} (h : Created S k) :
    (∀ c, (k.cpus c).cr3 = k.mem.kernPgdir) ∧
      (k.mem.pageFreeList = none ∨ KInv S 0 k ∧ RegionPtes n k.spaces) := by
  have hcur := (created_cpuInv h).2
  induction h with
  | init mem zero mode idle cr3 =>
    obtain rfl := zero.eq
    refine ⟨cr3, .inr ⟨⟨slotInv_init _ _, memInv_init mem, fun e => ?_, fun c e hc => ?_,
      fun c => .inl (cr3 c)⟩, fun e d t hp => ?_⟩⟩
    · simp [Kernel.status, Kernel.dirs, envInit, Env.zero]
    · simp [Kernel.curenv, idle c] at hc
    · simp [Kernel.spaces, Mem.spaces, Kernel.dirs, envInit, Env.zero] at hp
  | @create k k₁ e g m eip hcr alloc hg load ih =>
    obtain ⟨hcr3, hinv⟩ := ih (created_cpuInv hcr).2
    obtain ⟨g', m₁, hfree, hvm, rfl⟩ := envAlloc_ok alloc
    obtain ⟨inv, hre⟩ := hinv.resolve_left fun hl => by
      simp [envSetupVm, Mem.pageAlloc, hl] at hvm
    obtain ⟨inv₁, hsp₁, -, -⟩ := inv.addEnv (allocated k e g' m₁ 0) hfree hvm rfl rfl rfl
      (fun i hi => by simp [allocated, hi]) (by simp [allocated, Kernel.dirs])
      (by simp [allocated, Kernel.status])
    have hkern : m₁.kernPgdir = k.mem.kernPgdir := by
      rw [← envSetupVm_kernPgdir k.mem, hvm]
    rw [← hsp₁] at hre
    have hload : LoadInv S (allocated k e g' m₁ 0).dirs m₁.kernPgdir m :=
      load_loadInv ⟨rfl, .inr ⟨inv₁.mem, hre⟩⟩ hg load
    obtain ⟨hk, hl | ⟨inv₂, hre₂⟩⟩ := hload
    · refine ⟨fun c => ?_, .inl hl⟩
      exact (hcr3 c).trans (hkern.symm.trans hk.symm)
    · refine ⟨fun c => (hcr3 c).trans (hkern.symm.trans hk.symm), .inr ⟨?_, ?_⟩⟩
      · exact (inv₁.withMem inv₂ hk).modEnv _ rfl Iff.rfl rfl
      · rw [Kernel.spaces, entered, Kernel.dirs_modEnv _ rfl]
        exact hre₂

/-- After boot the invariant holds and every mapping is one of `region_alloc`. -/
theorem boot_kInv {k : Kernel n} (h : Boot S k) : KInv S 0 k ∧ RegionPtes n k.spaces :=
  (created_kInv h.1).2.resolve_left h.2

/-- Runs of steps that meet `StepOk` keep the invariant. -/
theorem kInv_of_reachable {k : Kernel n}
    (h : Reachable (Boot S) (fun k a k' => StepOk k a ∧ Step k a k') k) : ∃ x, KInv S x k :=
  h.invariant (P := fun k => ∃ x, KInv S x k) (fun _ hb => ⟨0, (boot_kInv hb).1⟩)
    fun _ _ _ ⟨_, inv⟩ hs => (inv.step hs.1 hs.2).1.kInv

/-! ## Plain actions

A test that is enough for `StepOk`, so that runs can be checked by evaluation. -/

/-- The page at an address, if there is one, can be mapped once more. -/
def lowRef (k : Kernel n) (e : EnvIx) (va : Word) : Bool :=
  (lookedUp k e va).all fun pp => decide (k.mem.ref pp < 65535)

/-- A call that meets `MemOk` and `DestroyOk`, and does not print. -/
def Sys.plain (k : Kernel n) (c : Cpu) (cur : EnvIx) (a : Args) : Sys → Bool
  | .pageAlloc => a.a3.toNat < 4096
  | .pageMap => a.a5.toNat < 4096 && (envid2env k cur a.a1 true).all fun e => lowRef k e a.a2
  | .ipcTrySend => lowRef k cur a.a3
  | .envDestroy => (envid2env k cur a.a1 true).all fun e =>
      decide (Quiet k c e ∨ e ≠ cur ∧ k.status e = .running)
  | .cputs => false
  | _ => true

/-- The action is not a trap, or a plain system call by an environment that is not dying. -/
def plain (k : Kernel n) : Action → Bool
  | .trap c tf _ => tf.tfTrapno == 48 && (k.curenv c).all fun cur => k.status cur != .dying &&
      (Sys.ofNat tf.tfRegs.regEax.toNat).all (Sys.plain k c cur (argsOf tf))
  | _ => true

theorem lowRef_room {k : Kernel n} {e dste : EnvIx} {va dstva : Word} {pp : Fin n}
    (h : lowRef k e va = true) (hpp : lookedUp k e va = some pp) : RoomFor k pp dste dstva := by
  rw [lowRef, hpp] at h
  exact .inl (of_decide_eq_true h)

theorem memOk_of_plain {k : Kernel n} {c : Cpu} {cur : EnvIx} {s : Sys} {a : Args}
    (h : s.plain k c cur a = true) : MemOk k c cur s a := by
  cases s
  case pageAlloc => exact fun _ => by simpa [Sys.plain] using h
  case pageMap =>
    intro srce dste pp hm
    simp only [Sys.plain, hm.src, Option.all_some, Bool.and_eq_true, decide_eq_true_eq] at h
    exact ⟨h.1, lowRef_room h.2 hm.page⟩
  case ipcTrySend => exact fun e pp hs => lowRef_room h hs.page
  all_goals trivial

theorem destroyOk_of_plain {k : Kernel n} {c : Cpu} {cur : EnvIx} {s : Sys} {a : Args}
    (h : s.plain k c cur a = true) : DestroyOk k c cur s a := by
  cases s
  case envDestroy =>
    intro e he
    simpa only [Sys.plain, he, Option.all_some, decide_eq_true_eq] using h
  all_goals trivial

theorem stepOk_of_plain {k : Kernel n} {a : Action} (h : plain k a = true) : StepOk k a := by
  cases a with
  | trap c tf io =>
    simp only [plain, Bool.and_eq_true, beq_iff_eq] at h
    obtain ⟨hno, hall⟩ := h
    have hcur : ∀ cur, k.curenv c = some cur → k.status cur ≠ .dying ∧
        ∀ s, Sys.ofNat tf.tfRegs.regEax.toNat = some s → s.plain k c cur (argsOf tf) = true := by
      intro cur hc
      rw [hc, Option.all_some, Bool.and_eq_true, bne_iff_ne] at hall
      exact ⟨hall.1, fun s hs => by simpa [hs] using hall.2⟩
    refine ⟨fun cur s hc _ _ h => memOk_of_plain ((hcur cur hc).2 s h),
      fun cur s hc _ _ h => destroyOk_of_plain ((hcur cur hc).2 s h), fun cur hc hdies => ?_⟩
    exfalso
    rcases hdies with hd | hd | ⟨-, hcp, -⟩
    · exact (hcur cur hc).1 hd
    · exact hd.ne_syscall hno
    · simpa [Sys.plain] using (hcur cur hc).2 _ hcp
  | wake c no => exact ⟨trivial, trivial, trivial⟩
  | start c => exact ⟨trivial, trivial, trivial⟩
  | access c va store => exact ⟨trivial, trivial, trivial⟩

/-- The state after the given actions, if all of them are plain and possible. -/
def runPlain (k : Kernel n) : List Action → Option (Kernel n) := runWhile plain k

theorem reachable_runPlain {init : Kernel n → Prop} {k : Kernel n}
    (hk : Reachable init (fun k a k' => StepOk k a ∧ Step k a k') k) (as : List Action)
    (p : Kernel n → Bool) (h : (runPlain k as).any p = true) :
    ∃ k', Reachable init (fun k a k' => StepOk k a ∧ Step k a k') k' ∧ p k' = true :=
  reachable_runWhile plain (fun _ _ => stepOk_of_plain) hk as p h

/-- A run of plain actions, state by state. -/
theorem isRun_plain {k : Kernel n} {as : List Action} {N : ℕ}
    (h : ∀ i < N, plain (stateAt k as i) (actionAt as i) = true ∧
      Enabled (stateAt k as i) (actionAt as i) ∧
      (perform (stateAt k as i) (actionAt as i)).isOk = true) :
    IsRun (fun k a k' => StepOk k a ∧ Step k a k') N (stateAt k as) (actionAt as) :=
  fun i hi => ⟨stepOk_of_plain (h i hi).1, step_after (h i hi).2.1 (h i hi).2.2⟩

end JosKernel
