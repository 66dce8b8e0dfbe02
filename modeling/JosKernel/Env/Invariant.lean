import JosKernel.Env.PageCalls
import JosKernel.Env.Running
import JosKernel.Pmap.Access

/-!
# The kernel invariant

`KInv S x k` ties the environment table, the CPUs and memory together: the memory invariant holds
for the directories of the live environments, every current environment is live, and the
directory that a CPU has loaded is the kernel's or that of its current environment. The numbers
`x` are references that page tables no longer account for; `sys_page_alloc` adds one each time.

The invariant needs more than the system calls check. `MemOk` lists what a call must not do:
permission words with address bits, a sixteen-bit counter that wraps around. `FreeOk` says that
an environment is not freed while another CPU runs it.
-/
namespace JosKernel

open Lib

variable {n : Nat}

structure KInv (S : Set (Fin n)) (x : Fin n → ℕ) (k : Kernel n) : Prop where
  slots : SlotInv k
  mem : MemInv S k.dirs x ∅ k.mem
  live : ∀ e, k.status e = .free ↔ k.dirs e = none
  cur : ∀ c e, k.curenv c = some e → k.status e ≠ .free
  cr3 : ∀ c, (k.cpus c).cr3 = k.mem.kernPgdir ∨
    ∃ e, k.curenv c = some e ∧ k.dirs e = some (k.cpus c).cr3

/-! ## Conditions on steps -/

/-- The current environment does not survive the trap. -/
def Dies (k : Kernel n) (cur : EnvIx) (tf : Trapframe) : Prop :=
  k.status cur = .dying ∨ Doomed k cur tf ∨
    (tf.tfTrapno = 48 ∧ Sys.ofNat tf.tfRegs.regEax.toNat = some .cputs ∧ ∃ g va,
      k.dirs cur = some g ∧
      k.mem.userMemCheck g (argsOf tf).a1 (argsOf tf).a2 (0 ||| pteU) = .ok (some va))

/-- The target of `sys_env_destroy` is not current on another CPU, or is running there. -/
def DestroyOk (k : Kernel n) (c : Cpu) (cur : EnvIx) (s : Sys) (a : Args) : Prop :=
  match s with
  | .envDestroy => ∀ e, envid2env k cur a.a1 true = some e →
      Quiet k c e ∨ e ≠ cur ∧ k.status e = .running
  | _ => True

/-- No environment is freed while it is current on another CPU. -/
def FreeOk (k : Kernel n) (a : Action) : Prop :=
  OnCall DestroyOk k a ∧
    match a with
    | .trap c tf _ => ∀ cur, k.curenv c = some cur → Dies k cur tf → Quiet k c cur
    | _ => True

variable {S : Set (Fin n)} {x : Fin n → ℕ} {k k' : Kernel n} {c : Cpu} {cur e : EnvIx}

/-! ## Effects on address spaces -/

/-- A page that some environment maps. -/
def Kernel.Mapped (k : Kernel n) (p : Fin n) : Prop := ∃ e d t, pageOf n (k.spaces e d t) = some p

/-- No mapped page was written. -/
def SameFrames (k k' : Kernel n) : Prop := ∀ p, k.Mapped p → k'.mem.frame p = k.mem.frame p

/-- What a system call by `cur` does to the address spaces. -/
inductive Respaced (k : Kernel n) (cur : EnvIx) (s : Sys) (a : Args) :
    Option Int → Kernel n → Prop
  | same {r : Option Int} {k' : Kernel n} (hsp : k'.spaces = k.spaces)
      (hr : (∀ v, r = some v → BitVec.ofInt 32 v = 0) → intended k cur s a = none) :
      Respaced k cur s a r k'
  | remap {e : EnvIx} {va w : Word} {k' : Kernel n} (h : Remaps k cur s a e va w)
      (hsp : k'.spaces = setSpace k.spaces e va w) : Respaced k cur s a (some 0) k'
  | clear {e : EnvIx} {r : Option Int} {k' : Kernel n} (hs : s.reports = false)
      (he : e = cur ∨ s = .envDestroy ∧ envid2env k cur a.a1 true = some e)
      (hfree : k'.status e = .free) (hsp : k'.spaces = Function.update k.spaces e 0) :
      Respaced k cur s a r k'

theorem Kernel.spaces_congr (hm : k'.mem = k.mem) (hd : k'.dirs = k.dirs) :
    k'.spaces = k.spaces := by
  rw [Kernel.spaces, Kernel.spaces, hm, hd]

theorem Kernel.dirs_modEnv (f : Env n → Env n)
    (hp : (f (k.envs e)).envPgdir = (k.envs e).envPgdir) : (k.modEnv e f).dirs = k.dirs := by
  funext i
  by_cases hi : i = e
  · subst hi; simpa [Kernel.dirs] using hp
  · simp [Kernel.dirs, Kernel.modEnv_of_ne _ _ hi]

theorem Ran.dirs (run : Ran k c e k') : k'.dirs = k.dirs :=
  funext fun i => core_envPgdir (run.core i)

theorem Scheduled.mem_dirs (sched : Scheduled k c k') : k'.mem = k.mem ∧ k'.dirs = k.dirs := by
  cases sched with
  | next _ run => exact ⟨run.mem, run.dirs⟩
  | same _ _ _ run => exact ⟨run.mem, run.dirs⟩
  | halt _ _ =>
    unfold schedHalt
    split_ifs <;> exact ⟨rfl, rfl⟩

theorem Resumed.mem_dirs (h : Resumed k c k') : k'.mem = k.mem ∧ k'.dirs = k.dirs := by
  cases h with
  | run _ _ run => exact ⟨run.mem, run.dirs⟩
  | yield _ sched => exact sched.mem_dirs

/-- A mapped page is in use as data. -/
theorem MemInv.of_mapped (inv : MemInv S k.dirs x ∅ k.mem) {p : Fin n} (hp : k.Mapped p) :
    p ∈ S ∧ ¬k.mem.OnFreeList p ∧ NotStruct k.mem k.dirs p := by
  obtain ⟨e, d, t, hp⟩ := hp
  cases he : k.dirs e with
  | none => simp [Kernel.spaces, Mem.spaces, he] at hp
  | some g =>
    rw [Kernel.spaces, Mem.spaces_of_dir he] at hp
    exact inv.mapped he hp

/-- The invariant holds again, with one more reference to account for if `alloc` is the case. -/
def Grown (S : Set (Fin n)) (x : Fin n → ℕ) (alloc : Prop) (k' : Kernel n) : Prop :=
  (¬alloc ∧ KInv S x k') ∨ ∃ pp ∈ S, alloc ∧ KInv S (Function.update x pp (x pp + 1)) k'

namespace KInv

/-! ## Moves -/

/-- Changing environments without making them free or taking a directory away. -/
theorem congr (inv : KInv S x k) (hslots : SameSlots k k') (hmem : k'.mem = k.mem)
    (hcpus : k'.cpus = k.cpus) (hdirs : k'.dirs = k.dirs) : KInv S x k' := by
  have hcur : k'.curenv = k.curenv := by funext c; simp [Kernel.curenv, hcpus]
  refine ⟨inv.slots.congr hslots, ?_, fun e => ?_, fun c e hc => ?_, fun c => ?_⟩
  · rw [hdirs, hmem]; exact inv.mem
  · rw [hslots.free, hdirs]; exact inv.live e
  · rw [ne_eq, hslots.free]; exact inv.cur c e (hcur ▸ hc)
  · rw [hmem, hcpus, hcur, hdirs]; exact inv.cr3 c

theorem setStatus (inv : KInv S x k) (he : k.status e ≠ .free) {s : EnvStatus}
    (hs : s ≠ .free) : KInv S x (k.setStatus e s) :=
  inv.congr (.setStatus he hs) rfl rfl (Kernel.dirs_modEnv _ rfl)

theorem modEnv (inv : KInv S x k) (f : Env n → Env n)
    (hl : (f (k.envs e)).envLink = (k.envs e).envLink)
    (hs : (f (k.envs e)).envStatus = .free ↔ (k.envs e).envStatus = .free)
    (hp : (f (k.envs e)).envPgdir = (k.envs e).envPgdir) : KInv S x (k.modEnv e f) :=
  inv.congr (.of_modEnv f hl hs) rfl rfl (Kernel.dirs_modEnv f hp)

/-- Replacing memory. -/
theorem withMem (inv : KInv S x k) {x' : Fin n → ℕ} {m : Mem n} (hm : MemInv S k.dirs x' ∅ m)
    (hk : m.kernPgdir = k.mem.kernPgdir) : KInv S x' { k with mem := m } :=
  ⟨inv.slots, hm, inv.live, inv.cur, fun c => by
    show (k.cpus c).cr3 = m.kernPgdir ∨ _
    rw [hk]
    exact inv.cr3 c⟩

theorem dir_of_live (inv : KInv S x k) (he : k.status e ≠ .free) : ∃ g, k.dirs e = some g := by
  cases hg : k.dirs e with
  | none => exact absurd ((inv.live e).mpr hg) he
  | some g => exact ⟨g, rfl⟩

theorem ran (inv : KInv S x k) (he : k.status e ≠ .free) (run : Ran k c e k') : KInv S x k' := by
  have hdirs := run.dirs
  have hs := SameSlots.ran he run
  refine ⟨inv.slots.congr hs, ?_, fun i => ?_, fun c' i hc' => ?_, fun c' => ?_⟩
  · rw [hdirs, run.mem]; exact inv.mem
  · rw [hs.free, hdirs]; exact inv.live i
  · rw [ne_eq, hs.free]
    by_cases hcc : c' = c
    · subst hcc
      rw [run.cur] at hc'
      cases hc'
      exact he
    · simp only [Kernel.curenv, run.other c' hcc] at hc'
      exact inv.cur c' i hc'
  · rw [run.mem, hdirs]
    by_cases hcc : c' = c
    · subst hcc
      rcases run.cr3 with ⟨hc, hcr3⟩ | ⟨-, hcr3⟩
      · rw [hcr3]
        refine (inv.cr3 c').imp_right ?_
        rintro ⟨i, hi, hdir⟩
        exact ⟨e, run.cur, by rw [hc] at hi; cases hi; exact hdir⟩
      · exact .inr ⟨e, run.cur, hcr3⟩
    · simpa only [Kernel.curenv, run.other c' hcc] using inv.cr3 c'

/-- Replacing the state of CPU `c`, with no new environment. -/
theorem modCpu (inv : KInv S x k) (f : CpuInfo n → CpuInfo n)
    (hf : (f (k.cpus c)).cpuEnv = none ∧ (f (k.cpus c)).cr3 = k.mem.kernPgdir ∨
      (f (k.cpus c)).cpuEnv = (k.cpus c).cpuEnv ∧ (f (k.cpus c)).cr3 = (k.cpus c).cr3) :
    KInv S x (k.modCpu c f) := by
  refine ⟨inv.slots, inv.mem, inv.live, fun c' e hc' => ?_, fun c' => ?_⟩
  · by_cases hcc : c' = c
    · subst hcc
      simp only [Kernel.curenv, Kernel.modCpu_self] at hc'
      rcases hf with ⟨h, -⟩ | ⟨h, -⟩
      · simp [h] at hc'
      · exact inv.cur c' e (h.symm.trans hc')
    · simp only [Kernel.curenv, Kernel.modCpu_apply, hcc, if_false] at hc'
      exact inv.cur c' e hc'
  · by_cases hcc : c' = c
    · subst hcc
      simp only [Kernel.curenv, Kernel.modCpu_self]
      rcases hf with ⟨-, h⟩ | ⟨h, h'⟩
      · exact .inl h
      · rw [h, h']
        exact inv.cr3 c'
    · simp only [Kernel.curenv, Kernel.modCpu_apply, hcc, if_false]
      exact inv.cr3 c'

theorem scheduled (inv : KInv S x k) (sched : Scheduled k c k') : KInv S x k' := by
  cases sched with
  | next he run => exact inv.ran (by simp [he]) run
  | same _ he _ run => exact inv.ran (by simp [he]) run
  | halt _ _ =>
    unfold schedHalt
    split_ifs
    · exact inv.modCpu _ (.inl ⟨rfl, rfl⟩)
    · exact inv.modCpu _ (.inr ⟨rfl, rfl⟩)

theorem resumed (inv : KInv S x k) (h : Resumed k c k') : KInv S x k' := by
  cases h with
  | run _ hr run => exact inv.ran (by simp [hr]) run
  | yield _ sched => exact inv.scheduled sched

/-! ## Freeing and creating environments -/

theorem dirs_freed (k : Kernel n) (c : Cpu) (e : EnvIx) (m : Mem n) :
    (freed k c e m).dirs = Function.update k.dirs e none := by
  funext i
  by_cases hi : i = e
  · subst hi; simp [freed, Kernel.dirs]
  · simp [freed, Kernel.dirs, hi]

/-- After `env_free`, nothing refers to the environment once the CPU has given it up. -/
theorem freed_leave (inv : KInv S x k) {k₁ : Kernel n} (hlive : k.status e ≠ .free)
    (hq : Quiet k c e) (free : envFree k c e = .ok k₁) :
    (k.curenv c ≠ some e → KInv S x k₁) ∧
      (k.curenv c = some e → KInv S x (k₁.modCpu c fun cpu => { cpu with cpuEnv := none })) := by
  obtain ⟨g, m₁, m, hg, hpdes, hdec, rfl⟩ := envFree_ok free
  obtain ⟨m₁', m', hpdes', hdec', inv', hsh, -⟩ := inv.mem.envFreeMem (e := e) hg
  rw [hpdes] at hpdes'
  cases hpdes'
  rw [hdec] at hdec'
  cases hdec'
  have hmem : MemInv S (freed k c e m).dirs x ∅ m := by rwa [dirs_freed]
  have hlive' : ∀ i, (freed k c e m).status i = .free ↔ (freed k c e m).dirs i = none := by
    intro i
    rw [freed_status, dirs_freed, Function.update_apply]
    split_ifs
    · simp
    · exact inv.live i
  constructor
  · intro hc
    have haway : ∀ c', k.curenv c' ≠ some e := fun c' => by
      by_cases hcc : c' = c
      · exact hcc ▸ hc
      · exact hq c' hcc
    refine ⟨inv.slots.freed hlive, hmem, hlive', fun c' i hc' => ?_, fun c' => ?_⟩
    · rw [freed_curenv] at hc'
      rw [freed_status, if_neg fun h : i = e => haway c' (h ▸ hc')]
      exact inv.cur c' i hc'
    · have hcpus : (freed k c e m).cpus = k.cpus := if_neg hc
      rw [hcpus, freed_curenv, dirs_freed]
      show (k.cpus c').cr3 = m.kernPgdir ∨ _
      rw [hsh.kern]
      refine (inv.cr3 c').imp_right ?_
      rintro ⟨i, hi, hdir⟩
      have hie : i ≠ e := fun h => haway c' (h ▸ hi)
      exact ⟨i, hi, by simpa [hie] using hdir⟩
  · intro hc
    have hcpus : (freed k c e m).cpus =
        Function.update k.cpus c { k.cpus c with cr3 := k.mem.kernPgdir } := if_pos hc
    refine ⟨inv.slots.freed (m := m) (c := c) hlive, hmem, hlive', fun c' i hc' => ?_,
      fun c' => ?_⟩
    · by_cases hcc : c' = c
      · subst hcc; simp [Kernel.curenv] at hc'
      · have hc'' : k.curenv c' = some i := by
          simpa [Kernel.curenv, Kernel.modCpu_apply, hcpus, hcc] using hc'
        rw [Kernel.status_modCpu, freed_status, if_neg fun h : i = e => hq c' hcc (h ▸ hc'')]
        exact inv.cur c' i hc''
    · by_cases hcc : c' = c
      · subst hcc
        left
        simp only [Kernel.modCpu_self, hcpus, Function.update_self]
        exact hsh.kern.symm
      · have hcpu : ((freed k c e m).modCpu c fun cpu => { cpu with cpuEnv := none }).cpus c' =
            k.cpus c' := by simp [Kernel.modCpu_apply, hcpus, hcc]
        simp only [Kernel.curenv, hcpu]
        show _ = m.kernPgdir ∨ ∃ i, _ ∧ (freed k c e m).dirs i = _
        rw [hsh.kern, dirs_freed]
        refine (inv.cr3 c').imp_right ?_
        rintro ⟨i, hi, hdir⟩
        have hie : i ≠ e := fun h => hq c' hcc (h ▸ hi)
        exact ⟨i, hi, by simpa [hie] using hdir⟩

theorem freeSelf (inv : KInv S x k) {k₁ : Kernel n} (hc : k.curenv c = some e)
    (hq : Quiet k c e) (free : envFree k c e = .ok k₁)
    (sched : Scheduled (k₁.modCpu c fun cpu => { cpu with cpuEnv := none }) c k') :
    KInv S x k' :=
  ((inv.freed_leave (inv.cur c e hc) hq free).2 hc).scheduled sched

theorem destroyed (inv : KInv S x k) {r : Option Unit} (hlive : k.status e ≠ .free)
    (he : Quiet k c e ∨ k.curenv c ≠ some e ∧ k.status e = .running)
    (d : Destroyed k c e r k') : KInv S x k' := by
  cases d with
  | mark => exact inv.setStatus hlive (by simp)
  | other hr hc free =>
    have hq := he.resolve_right fun h => hr h.2
    exact (inv.freed_leave hlive hq free).1 hc
  | self hc free sched => exact inv.freeSelf hc (he.resolve_right fun h => h.1 hc) free sched

/-- `env_free` empties one address space. -/
theorem freed_spaces (inv : KInv S x k) {k₁ : Kernel n} (free : envFree k c e = .ok k₁) :
    k₁.spaces = Function.update k.spaces e 0 ∧ SameFrames k k₁ := by
  obtain ⟨g, m₁, m, hg, hpdes, hdec, rfl⟩ := envFree_ok free
  obtain ⟨m₁', m', hpdes', hdec', -, hsh, hother⟩ := inv.mem.envFreeMem (e := e) hg
  rw [hpdes] at hpdes'
  cases hpdes'
  rw [hdec] at hdec'
  cases hdec'
  refine ⟨?_, fun p hp => hsh.frame p (inv.mem.of_mapped hp).2.2⟩
  funext i d t
  rw [Kernel.spaces, dirs_freed, Function.update_apply]
  by_cases hi : i = e
  · subst hi
    simp only [Mem.spaces, Function.update_self, if_true]
    rfl
  · rw [if_neg hi]
    exact hother i d t hi

theorem envFree_status {k₁ : Kernel n} (free : envFree k c e = .ok k₁) : k₁.status e = .free := by
  obtain ⟨g, m₁, m, -, -, -, rfl⟩ := envFree_ok free
  rw [freed_status, if_pos rfl]

theorem destroyed_spaces (inv : KInv S x k) {r : Option Unit} (d : Destroyed k c e r k') :
    (k'.spaces = k.spaces ∨ k'.status e = .free ∧ k'.spaces = Function.update k.spaces e 0) ∧
      SameFrames k k' := by
  cases d with
  | mark =>
    exact ⟨.inl (Kernel.spaces_congr rfl (Kernel.dirs_modEnv _ rfl)), fun _ _ => rfl⟩
  | other _ _ free =>
    obtain ⟨hsp, hfr⟩ := inv.freed_spaces free
    exact ⟨.inr ⟨envFree_status free, hsp⟩, hfr⟩
  | self _ free sched =>
    obtain ⟨hsp, hfr⟩ := inv.freed_spaces free
    obtain ⟨hm, hd⟩ := sched.mem_dirs
    have hst := (sched.sameSlots.free e).mpr ((Kernel.status_modCpu ..).trans (envFree_status free))
    exact ⟨.inr ⟨hst, (Kernel.spaces_congr hm hd).trans hsp⟩, fun p hp => by
      rw [hm]; exact hfr p hp⟩

/-- `env_alloc` takes a slot and gives it an empty address space. -/
theorem addEnv (inv : KInv S x k) (k' : Kernel n) {g : Fin n} {m : Mem n}
    (free : k.envFreeList = .env e) (vm : envSetupVm k.mem = (some g, m)) (hmem : k'.mem = m)
    (hcpus : k'.cpus = k.cpus)
    (hhead : k'.envFreeList = (k.envs e).envLink) (hother : ∀ i, i ≠ e → k'.envs i = k.envs i)
    (hdir : k'.dirs e = some g) (hs : k'.status e ≠ .free) :
    KInv S x k' ∧ k'.spaces = k.spaces ∧ SameFrames k k' ∧ k.dirs e = none := by
  obtain ⟨hfree, hslots⟩ := inv.slots.pop free hhead hother hs
  have hnone := (inv.live e).mp hfree
  have hl : k.mem.pageFreeList = some g := by
    cases hl : k.mem.pageFreeList with
    | none => simp [envSetupVm, Mem.pageAlloc, hl] at vm
    | some p =>
      obtain ⟨m', hok, -⟩ := inv.mem.envSetupVm hnone hl
      rw [hok] at vm
      cases vm
      rfl
  obtain ⟨m', hok, inv', hsp, hframe, hk⟩ := inv.mem.envSetupVm hnone hl
  rw [vm] at hok
  cases hok
  have hdirs : k'.dirs = Function.update k.dirs e (some g) := by
    funext i
    by_cases hi : i = e
    · subst hi; simpa using hdir
    · simp [Kernel.dirs, hother i hi, hi]
  have hcur : k'.curenv = k.curenv := by funext c; simp [Kernel.curenv, hcpus]
  refine ⟨⟨hslots, ?_, fun i => ?_, fun c i hc => ?_, fun c => ?_⟩, ?_, fun p hp => ?_, hnone⟩
  · rw [hdirs, hmem]
    exact inv'
  · by_cases hi : i = e
    · subst hi; simp [hs, hdir]
    · simpa [hdirs, hi, Kernel.status, hother i hi] using inv.live i
  · by_cases hi : i = e
    · subst hi; exact hs
    · rw [hcur] at hc
      simpa [Kernel.status, hother i hi] using inv.cur c i hc
  · rw [hmem, hcpus, hcur, hk, hdirs]
    refine (inv.cr3 c).imp_right ?_
    rintro ⟨i, hi, hcr3⟩
    have hie : i ≠ e := fun h => by simp [h, hnone] at hcr3
    exact ⟨i, hi, by rwa [Function.update_of_ne hie]⟩
  · rw [Kernel.spaces, hdirs, hmem]
    exact hsp
  · rw [hmem]
    refine hframe p ?_
    rintro rfl
    exact (inv.mem.of_mapped hp).2.1 (inv.mem.onFreeList_head hl)

/-! ## System calls -/

theorem woken (inv : KInv S x k) {v : Int} (hc : k.status cur ≠ .free)
    (wake : Woken k cur v k') : KInv S x k' ∧ k'.mem = k.mem ∧ k'.dirs = k.dirs := by
  have inv₁ : KInv S x (dequeued k cur) := inv.modEnv _ rfl Iff.rfl rfl
  have hd₁ : (dequeued k cur).dirs = k.dirs := Kernel.dirs_modEnv _ rfl
  have hlive : (dequeued k cur).status cur ≠ .free := by
    simpa [dequeued, Kernel.status] using hc
  cases wake with
  | empty _ => exact ⟨inv, rfl, rfl⟩
  | wake _ _ he =>
    exact ⟨inv₁.setStatus (envid2env_live he hlive) (by simp), rfl,
      (Kernel.dirs_modEnv _ rfl).trans hd₁⟩
  | stale _ _ _ => exact ⟨inv₁, rfl, hd₁⟩

/-- A call that leaves memory and directories alone. -/
theorem quietCall {s : Sys} {a : Args} {r : Option Int} (inv : KInv S x k') (hm : k'.mem = k.mem)
    (hd : k'.dirs = k.dirs) (hs : s ≠ .pageAlloc)
    (hr : (∀ v, r = some v → BitVec.ofInt 32 v = 0) → intended k cur s a = none) :
    Grown S x (GetsPage k cur s a) k' ∧ Respaced k cur s a r k' ∧ SameFrames k k' :=
  ⟨.inl ⟨fun h => hs h.1, inv⟩, .same (Kernel.spaces_congr hm hd) hr, fun _ _ => by rw [hm]⟩

/-- A system call that meets `MemOk` and `DestroyOk` keeps the invariant. -/
theorem called (inv : KInv S x k) {s : Sys} {a : Args} {r : Option Int}
    (hc : k.curenv c = some cur) (ok : MemOk k c cur s a) (okd : DestroyOk k c cur s a)
    (okc : s = .cputs → ∀ g va, k.dirs cur = some g →
      k.mem.userMemCheck g a.a1 a.a2 (0 ||| pteU) = .ok (some va) → Quiet k c cur)
    (h : Called k c cur s a r k') :
    Grown S x (GetsPage k cur s a) k' ∧ Respaced k cur s a r k' ∧ SameFrames k k' := by
  have hlive := inv.cur c cur hc
  have other : s ≠ .pageAlloc → KInv S x k' → Grown S x (GetsPage k cur s a) k' :=
    fun hs inv' => .inl ⟨fun h => hs h.1, inv'⟩
  cases h with
  | @memory _ _ v m op =>
    have hdirs : ({ k with mem := m } : Kernel n).dirs = k.dirs := rfl
    obtain ⟨hev, ⟨inv', hp, hsp, hv⟩ | ⟨e, va, w, hre, rfl, hsp, hx⟩⟩ := op.spec inv.mem ok
    · refine ⟨.inl ⟨hp, inv.withMem inv' hev.kern⟩, .same hsp fun h => hv (h _ rfl),
        fun p hp => ?_⟩
      obtain ⟨-, hnf, hns⟩ := inv.mem.of_mapped hp
      exact hev.frame p hnf hns
    · refine ⟨?_, .remap hre hsp, fun p hp => ?_⟩
      · rcases hx with ⟨hp, inv'⟩ | ⟨pp, hS, hp, -, inv', -⟩
        · exact .inl ⟨hp, inv.withMem inv' hev.kern⟩
        · exact .inr ⟨pp, hS, hp, inv.withMem inv' hev.kern⟩
      · obtain ⟨-, hnf, hns⟩ := inv.mem.of_mapped hp
        exact hev.frame p hnf hns
  | cputs hg bad d =>
    have hq := okc rfl _ _ hg bad
    obtain ⟨hsp, hfr⟩ := inv.destroyed_spaces d
    refine ⟨other (by simp) (inv.destroyed hlive (.inl hq) d), ?_, hfr⟩
    rcases hsp with hsp | ⟨hf, hsp⟩
    · exact .same hsp fun _ => rfl
    · exact .clear rfl (.inl rfl) hf hsp
  | destroy he d =>
    have hq : Quiet k c _ ∨ k.curenv c ≠ some _ ∧ k.status _ = .running :=
      (okd _ he).imp_right fun h => ⟨fun hce => h.1 (Option.some.inj (hce.symm.trans hc)), h.2⟩
    obtain ⟨hsp, hfr⟩ := inv.destroyed_spaces d
    refine ⟨other (by simp) (inv.destroyed (envid2env_live he hlive) hq d), ?_, hfr⟩
    rcases hsp with hsp | ⟨hf, hsp⟩
    · exact .same hsp fun _ => rfl
    · exact .clear rfl (.inr ⟨rfl, he⟩) hf hsp
  | yield sched =>
    obtain ⟨hm, hd⟩ := sched.mem_dirs
    exact (inv.scheduled sched).quietCall hm hd (by simp) fun _ => rfl
  | @fork _ e g m free vm =>
    obtain ⟨inv', hsp, hfr, -⟩ := inv.addEnv (forked k cur e g m) free vm rfl rfl rfl
      (fun i hi => by simp [forked, hi]) (by simp [forked, Kernel.dirs, forkedEnv])
      (by simp [forked, Kernel.status, forkedEnv])
    exact ⟨other (by simp) inv', .same hsp fun _ => rfl, hfr⟩
  | setStatus he hs =>
    refine (inv.setStatus (envid2env_live he hlive) ?_).quietCall rfl (Kernel.dirs_modEnv _ rfl)
      (by simp) fun _ => rfl
    split_ifs <;> simp
  | setUpcall he =>
    exact (inv.modEnv _ rfl Iff.rfl rfl).quietCall rfl (Kernel.dirs_modEnv _ rfl) (by simp)
      fun _ => rfl
  | enqueue he hr room hi =>
    refine KInv.quietCall (x := x) ?_ rfl ?_ (by simp) fun h => absurd (h _ rfl) (by decide)
    · exact (inv.setStatus hlive (by simp)).modEnv _ rfl Iff.rfl rfl
    · exact (Kernel.dirs_modEnv _ rfl).trans (Kernel.dirs_modEnv _ rfl)
  | full => exact inv.quietCall rfl rfl (by simp) fun h => absurd (h _ rfl) (by decide)
  | @deliver _ e k₁ r' he hr page hpos =>
    obtain ⟨hev, inv', hsp⟩ := page.spec inv.mem ok he hr
    have hr0 := page.result hpos
    obtain ⟨m, p, rfl⟩ := page.state
    have hd : (delivered (Kernel.modEnv { k with mem := m } e
        fun env => { env with envIpcPerm := p }) cur e a.a2).dirs = k.dirs :=
      (Kernel.dirs_modEnv _ rfl).trans (Kernel.dirs_modEnv _ rfl)
    refine ⟨other (by simp) ?_, ?_, fun q hq => ?_⟩
    · refine ((inv.withMem inv' hev.kern).modEnv (e := e) _ rfl Iff.rfl rfl).modEnv (e := e) _
        rfl ?_ rfl
      simpa [Kernel.status] using envid2env_live he hlive
    · rcases hsp with ⟨hsp, hi⟩ | ⟨w, hre, rfl, hsp⟩
      · exact .same (by rw [Kernel.spaces, hd]; exact hsp) fun _ => hi (by rw [hr0]; rfl)
      · exact .remap hre (by rw [Kernel.spaces, hd]; exact hsp)
    · obtain ⟨-, hnf, hns⟩ := inv.mem.of_mapped hq
      exact hev.frame q hnf hns
  | @refuse _ e k₁ r' he hr page hneg =>
    obtain ⟨hev, inv', hsp⟩ := page.spec inv.mem ok he hr
    obtain ⟨m, p, rfl⟩ := page.state
    refine ⟨other (by simp) ((inv.withMem inv' hev.kern).modEnv _ rfl Iff.rfl rfl), ?_,
      fun q hq => ?_⟩
    · rcases hsp with ⟨hsp, hi⟩ | ⟨w, -, rfl, -⟩
      · refine .same ?_ fun h => hi (h _ rfl)
        rw [Kernel.spaces, Kernel.dirs_modEnv _ rfl]
        exact hsp
      · exact absurd hneg (by decide)
    · obtain ⟨-, hnf, hns⟩ := inv.mem.of_mapped hq
      exact hev.frame q hnf hns
  | recv hva wake sched =>
    have inv₁ : KInv S x (receiving k cur a.a1) :=
      inv.modEnv _ rfl ⟨fun h => absurd h (by simp), fun h => absurd h hlive⟩ rfl
    obtain ⟨inv₂, hm₂, hd₂⟩ := inv₁.woken (by simp [receiving, Kernel.status]) wake
    obtain ⟨hm, hd⟩ := sched.mem_dirs
    exact (inv₂.scheduled sched).quietCall (hm.trans hm₂)
      ((hd.trans hd₂).trans (Kernel.dirs_modEnv _ rfl)) (by simp) fun _ => rfl
  | recvStale hva wake =>
    have inv₁ : KInv S x (receiving k cur a.a1) :=
      inv.modEnv _ rfl ⟨fun h => absurd h (by simp), fun h => absurd h hlive⟩ rfl
    obtain ⟨inv₂, hm₂, hd₂⟩ := inv₁.woken (by simp [receiving, Kernel.status]) wake
    exact inv₂.quietCall hm₂ (hd₂.trans (Kernel.dirs_modEnv _ rfl)) (by simp) fun _ => rfl

end KInv

end JosKernel
