import JosKernel.Env.Boot
import JosKernel.Env.Cases
import JosKernel.Lib.Both

/-!
# Recycled slots

`env_alloc` does not write all fields of a slot. `env_cpunum` is left over too, and programs can
read it at `UENVS`, but the kernel never reads it: kernels that differ in it only go through the
same steps. The other fields that `env_alloc` leaves alone are those of IPC; they are what a new
environment takes over from the last one in its slot.
-/
namespace JosKernel

open Lib

variable {n : Nat}

namespace Kernel

/-- The kernel with other values of `env_cpunum`. -/
def stamped (k : Kernel n) (ν : EnvIx → Cpu) : Kernel n :=
  { k with envs := fun i => { k.envs i with envCpunum := ν i } }

variable {k : Kernel n} {ν : EnvIx → Cpu} {e : EnvIx} {c : Cpu}

@[simp] theorem stamped_mem : (k.stamped ν).mem = k.mem := rfl
@[simp] theorem stamped_cpus : (k.stamped ν).cpus = k.cpus := rfl
@[simp] theorem stamped_envFreeList : (k.stamped ν).envFreeList = k.envFreeList := rfl
@[simp] theorem stamped_status : (k.stamped ν).status = k.status := rfl
@[simp] theorem stamped_curenv : (k.stamped ν).curenv = k.curenv := rfl
@[simp] theorem stamped_envs : (k.stamped ν).envs e = { k.envs e with envCpunum := ν e } := rfl

theorem stamped_modEnv (f : Env n → Env n)
    (hf : ∀ env c, f { env with envCpunum := c } = { f env with envCpunum := c }) :
    (k.stamped ν).modEnv e f = (k.modEnv e f).stamped ν := by
  unfold modEnv stamped
  congr 1
  funext i
  by_cases hi : i = e
  · subst hi
    simp only [Function.update_self]
    exact hf _ _
  · simp only [Function.update_of_ne hi]

theorem stamped_cpunum : (k.stamped ν).modEnv e (fun env => { env with envCpunum := c }) =
    (k.modEnv e fun env => { env with envCpunum := c }).stamped (Function.update ν e c) := by
  unfold modEnv stamped
  congr 1
  funext i
  by_cases hi : i = e
  · subst hi
    simp
  · simp [hi]

end Kernel

theorem envid2env_stamped (k : Kernel n) (ν : EnvIx → Cpu) :
    envid2env (k.stamped ν) = envid2env k := rfl

/-- The kernels differ in `env_cpunum` only. -/
def Alike (k k' : Kernel n) : Prop := ∃ ν, k' = k.stamped ν

/-- The same value, and kernels that are alike. -/
inductive SameResult {α : Type} : α × Kernel n → α × Kernel n → Prop
  | same {a : α} {k k' : Kernel n} (h : Alike k k') : SameResult (a, k) (a, k')

variable {k k' : Kernel n} {c : Cpu} {cur e : EnvIx}

namespace Alike

theorem refl (k : Kernel n) : Alike k k := ⟨fun i => (k.envs i).envCpunum, rfl⟩

theorem mem (h : Alike k k') : k'.mem = k.mem := by
  obtain ⟨ν, rfl⟩ := h
  rfl

theorem withMem (h : Alike k k') (m : Mem n) : Alike { k with mem := m } { k' with mem := m } := by
  obtain ⟨ν, rfl⟩ := h
  exact ⟨ν, rfl⟩

theorem modEnv (h : Alike k k') (e : EnvIx) {f : Env n → Env n}
    (hf : ∀ env c, f { env with envCpunum := c } = { f env with envCpunum := c }) :
    Alike (k.modEnv e f) (k'.modEnv e f) := by
  obtain ⟨ν, rfl⟩ := h
  exact ⟨ν, Kernel.stamped_modEnv f hf⟩

theorem setStatus (h : Alike k k') (e : EnvIx) (s : EnvStatus) :
    Alike (k.setStatus e s) (k'.setStatus e s) := h.modEnv e fun _ _ => rfl

theorem modCpu (h : Alike k k') (c : Cpu) (f : CpuInfo n → CpuInfo n) :
    Alike (k.modCpu c f) (k'.modCpu c f) := by
  obtain ⟨ν, rfl⟩ := h
  exact ⟨ν, rfl⟩

theorem freeList (h : Alike k k') (p : EnvPtr) :
    Alike { k with envFreeList := p } { k' with envFreeList := p } := by
  obtain ⟨ν, rfl⟩ := h
  exact ⟨ν, rfl⟩

theorem envAlloc (h : Alike k k') (parentId : Word) :
    Both SameResult (envAlloc k parentId) (envAlloc k' parentId) := by
  obtain ⟨ν, rfl⟩ := h
  unfold JosKernel.envAlloc
  simp only [Kernel.stamped_mem, Kernel.stamped_envFreeList, Kernel.modEnv_self]
  split
  · exact .ok (.same ⟨ν, rfl⟩)
  · split
    · exact .ok (.same (withMem ⟨ν, rfl⟩ _))
    · exact .error _
  · split
    · exact .ok (.same ⟨ν, rfl⟩)
    · exact .ok (.same (((withMem ⟨ν, rfl⟩ _).modEnv _ fun _ _ => rfl).freeList _))

theorem envFree (h : Alike k k') (c : Cpu) (e : EnvIx) :
    Both Alike (envFree k c e) (envFree k' c e) := by
  have hcr3 : Alike (if k.curenv c = some e then
      k.modCpu c fun cpu => { cpu with cr3 := k.mem.kernPgdir } else k)
      (if k'.curenv c = some e then
      k'.modCpu c fun cpu => { cpu with cr3 := k'.mem.kernPgdir } else k') := by
    obtain ⟨ν, rfl⟩ := h
    rw [Kernel.stamped_curenv, Kernel.stamped_mem]
    by_cases hc : k.curenv c = some e
    · rw [if_pos hc, if_pos hc]
      exact ⟨ν, rfl⟩
    · rw [if_neg hc, if_neg hc]
      exact ⟨ν, rfl⟩
  unfold JosKernel.envFree
  dsimp only
  obtain ⟨ν, hν⟩ := hcr3
  rw [hν]
  generalize (if k.curenv c = some e then
      k.modCpu c fun cpu => { cpu with cr3 := k.mem.kernPgdir } else k) = k₁
  simp only [Kernel.stamped_mem, Kernel.stamped_envFreeList, Kernel.stamped_envs]
  split
  · exact .error _
  · refine Both.bind_same fun m => Both.bind_same fun m => .ok ?_
    exact ((withMem ⟨ν, rfl⟩ m).modEnv e fun _ _ => rfl).freeList _

theorem parkCurrent (h : Alike k k') (c : Cpu) : Alike (parkCurrent k c) (parkCurrent k' c) := by
  obtain ⟨ν, rfl⟩ := h
  unfold JosKernel.parkCurrent
  rw [Kernel.stamped_curenv, Kernel.stamped_status]
  cases k.curenv c with
  | none => exact ⟨ν, rfl⟩
  | some cur =>
    dsimp only
    split
    · exact setStatus ⟨ν, rfl⟩ cur _
    · exact ⟨ν, rfl⟩

theorem switchTo (h : Alike k k') (c : Cpu) (e : EnvIx) :
    Both Alike (switchTo k c e) (switchTo k' c e) := by
  have hpgdir : (k'.envs e).envPgdir = (k.envs e).envPgdir := by
    obtain ⟨ν, rfl⟩ := h
    rfl
  rw [switchTo_eq, switchTo_eq, hpgdir]
  cases (k.envs e).envPgdir with
  | none => exact .error _
  | some g => exact .ok ((((h.parkCurrent c).modCpu c _).modEnv e fun _ _ => rfl).modCpu c _)

theorem envRun (h : Alike k k') (c : Cpu) (e : EnvIx) :
    Both Alike (envRun k c e) (envRun k' c e) := by
  have hend : ∀ {k k' : Kernel n}, Alike k k' →
      Alike ((k.modEnv e fun env => { env with envCpunum := c }).modCpu c
        fun cpu => { cpu with cpuMode := .user })
      ((k'.modEnv e fun env => { env with envCpunum := c }).modCpu c
        fun cpu => { cpu with cpuMode := .user }) := by
    rintro k k' ⟨ν, rfl⟩
    rw [Kernel.stamped_cpunum]
    exact ⟨_, rfl⟩
  have hcur : k'.curenv c = k.curenv c := by
    obtain ⟨ν, rfl⟩ := h
    rfl
  unfold JosKernel.envRun
  rw [hcur]
  by_cases hc : k.curenv c = some e
  · rw [if_pos hc, if_pos hc]
    exact .ok (hend h)
  · rw [if_neg hc, if_neg hc]
    exact (h.switchTo c e).bind fun _ _ h => .ok (hend h)

theorem schedHalt (h : Alike k k') (c : Cpu) : Alike (schedHalt k c) (schedHalt k' c) := by
  obtain ⟨ν, rfl⟩ := h
  unfold JosKernel.schedHalt
  rw [Kernel.stamped_status]
  split
  · exact modCpu ⟨ν, rfl⟩ c _
  · exact modCpu ⟨ν, rfl⟩ c _

theorem schedYield (h : Alike k k') (c : Cpu) :
    Both Alike (schedYield k c) (schedYield k' c) := by
  obtain ⟨ν, rfl⟩ := h
  have hk : Alike k (k.stamped ν) := ⟨ν, rfl⟩
  unfold JosKernel.schedYield
  have hoff : schedOffset (k.stamped ν) c = schedOffset k c := by
    unfold schedOffset
    rw [Kernel.stamped_curenv]
    cases k.curenv c <;> rfl
  rw [hoff, Kernel.stamped_status, Kernel.stamped_curenv]
  split
  · exact hk.envRun c _
  · split
    · split_ifs
      · exact hk.envRun c _
      · exact .ok (hk.schedHalt c)
    · exact .ok (hk.schedHalt c)

theorem envDestroy (h : Alike k k') (c : Cpu) (e : EnvIx) :
    Both SameResult (envDestroy k c e) (envDestroy k' c e) := by
  obtain ⟨ν, rfl⟩ := h
  have hk : Alike k (k.stamped ν) := ⟨ν, rfl⟩
  unfold JosKernel.envDestroy
  rw [Kernel.stamped_status, Kernel.stamped_curenv]
  split_ifs
  · exact .ok (.same (hk.setStatus e _))
  · refine (hk.envFree c e).bind fun k₁ k₂ h => ?_
    obtain ⟨ν, rfl⟩ := h
    rw [Kernel.stamped_curenv]
    split_ifs
    · refine ((modCpu ⟨ν, rfl⟩ c _).schedYield c).bind fun _ _ h => .ok (.same h)
    · exact .ok (.same ⟨ν, rfl⟩)

/-! ### System calls -/

theorem userMemAssert (h : Alike k k') (c : Cpu) (e : EnvIx) (va len perm : Word) :
    Both SameResult (userMemAssert k c e va len perm) (userMemAssert k' c e va len perm) := by
  obtain ⟨ν, rfl⟩ := h
  unfold JosKernel.userMemAssert
  refine Both.bind_same fun pgdir => Both.bind_same fun r => ?_
  cases r with
  | none => exact .ok (.same ⟨ν, rfl⟩)
  | some a => exact envDestroy ⟨ν, rfl⟩ c e

theorem sysCputs (h : Alike k k') (c : Cpu) (cur : EnvIx) (s len : Word) :
    Both SameResult (sysCputs k c cur s len) (sysCputs k' c cur s len) := by
  unfold JosKernel.sysCputs
  refine (h.userMemAssert c cur s len 0).bind fun r r' hr => ?_
  cases hr with
  | @same o k₁ k₂ hk =>
    cases o with
    | none => exact .ok (.same hk)
    | some u =>
      obtain ⟨ν, rfl⟩ := hk
      have hprint : cprintf (k₁.stamped ν) c "%.*s" [len, s] = cprintf k₁ c "%.*s" [len, s] := rfl
      simp only [hprint]
      cases (cprintf k₁ c "%.*s" [len, s]).result with
      | none => exact .error _
      | some u => exact .ok (.same ⟨ν, rfl⟩)

theorem sysEnvDestroy (h : Alike k k') (c : Cpu) (cur : EnvIx) (envid : Word) :
    Both SameResult (sysEnvDestroy k c cur envid) (sysEnvDestroy k' c cur envid) := by
  obtain ⟨ν, rfl⟩ := h
  unfold JosKernel.sysEnvDestroy
  rw [envid2env_stamped]
  split
  · exact .ok (.same ⟨ν, rfl⟩)
  · refine (envDestroy ⟨ν, rfl⟩ c _).bind fun r r' hr => ?_
    cases hr with
    | @same o k₁ k₂ hk =>
      cases o with
      | none => exact .ok (.same hk)
      | some u => exact .ok (.same hk)

theorem sysExofork (h : Alike k k') (cur : EnvIx) :
    Both SameResult (sysExofork k cur) (sysExofork k' cur) := by
  have hid : (k'.envs cur).envId = (k.envs cur).envId := by
    obtain ⟨ν, rfl⟩ := h
    rfl
  unfold JosKernel.sysExofork
  rw [hid]
  refine (h.envAlloc _).bind fun r r' hr => ?_
  cases hr with
  | @same o k₁ k₂ hk =>
    cases o with
    | error r => exact .ok (.same hk)
    | ok e =>
      obtain ⟨ν, rfl⟩ := hk
      simp only [Kernel.modEnv_self, Kernel.stamped_envs]
      exact .ok (.same (modEnv ⟨ν, rfl⟩ e fun _ _ => rfl))

theorem sysEnvSetStatus (h : Alike k k') (cur : EnvIx) (envid status : Word) :
    SameResult (sysEnvSetStatus k cur envid status) (sysEnvSetStatus k' cur envid status) := by
  obtain ⟨ν, rfl⟩ := h
  unfold JosKernel.sysEnvSetStatus
  rw [envid2env_stamped]
  split
  · split
    · exact .same ⟨ν, rfl⟩
    · exact .same (setStatus ⟨ν, rfl⟩ _ _)
  · exact .same ⟨ν, rfl⟩

theorem sysEnvSetUpcall (h : Alike k k') (exc : Exc) (cur : EnvIx) (envid func : Word) :
    SameResult (sysEnvSetUpcall exc k cur envid func) (sysEnvSetUpcall exc k' cur envid func) := by
  obtain ⟨ν, rfl⟩ := h
  unfold JosKernel.sysEnvSetUpcall
  rw [envid2env_stamped]
  split
  · exact .same ⟨ν, rfl⟩
  · exact .same (modEnv ⟨ν, rfl⟩ _ fun _ _ => rfl)

theorem sysPageAlloc (h : Alike k k') (cur : EnvIx) (envid va perm : Word) :
    Both SameResult (sysPageAlloc k cur envid va perm) (sysPageAlloc k' cur envid va perm) := by
  obtain ⟨ν, rfl⟩ := h
  unfold JosKernel.sysPageAlloc
  simp only [envid2env_stamped, Kernel.stamped_mem]
  split
  · exact .ok (.same ⟨ν, rfl⟩)
  · split_ifs
    · exact .ok (.same ⟨ν, rfl⟩)
    · exact .ok (.same ⟨ν, rfl⟩)
    · split
      · exact .ok (.same ⟨ν, rfl⟩)
      · refine Both.bind_same fun pgdir => Both.bind_same fun r => ?_
        split_ifs
        · exact Both.bind_same fun m => .ok (.same ⟨ν, rfl⟩)
        · exact .ok (.same ⟨ν, rfl⟩)

theorem sysPageMap (h : Alike k k') (cur : EnvIx) (srcenvid srcva dstenvid dstva perm : Word) :
    Both SameResult (sysPageMap k cur srcenvid srcva dstenvid dstva perm)
      (sysPageMap k' cur srcenvid srcva dstenvid dstva perm) := by
  obtain ⟨ν, rfl⟩ := h
  unfold JosKernel.sysPageMap
  simp only [envid2env_stamped, Kernel.stamped_mem]
  split
  · exact .ok (.same ⟨ν, rfl⟩)
  · split
    · exact .ok (.same ⟨ν, rfl⟩)
    · split
      · exact .ok (.same ⟨ν, rfl⟩)
      · refine Both.bind_same fun pgdir => Both.bind_same fun r => ?_
        split
        · exact .ok (.same ⟨ν, rfl⟩)
        · rename_i pp pt i
          refine Both.test (fun _ => .ok (.same ⟨ν, rfl⟩)) fun _ => ?_
          refine Both.test (fun _ => .ok (.same ⟨ν, rfl⟩)) fun _ => ?_
          refine Both.bind_same fun pgdir => Both.bind_same fun r => ?_
          exact .ok (.same ⟨ν, rfl⟩)

theorem sysPageUnmap (h : Alike k k') (cur : EnvIx) (envid va : Word) :
    Both SameResult (sysPageUnmap k cur envid va) (sysPageUnmap k' cur envid va) := by
  obtain ⟨ν, rfl⟩ := h
  unfold JosKernel.sysPageUnmap
  simp only [envid2env_stamped, Kernel.stamped_mem]
  split
  · exact .ok (.same ⟨ν, rfl⟩)
  · split_ifs
    · exact .ok (.same ⟨ν, rfl⟩)
    · refine Both.bind_same fun pgdir => Both.bind_same fun m => ?_
      exact .ok (.same ⟨ν, rfl⟩)

theorem ipcEnqueue (h : Alike k k') (cur e : EnvIx) :
    Both SameResult (ipcEnqueue k cur e) (ipcEnqueue k' cur e) := by
  have hk := h
  obtain ⟨ν, rfl⟩ := h
  unfold JosKernel.ipcEnqueue
  simp only [Kernel.stamped_envs]
  refine Both.test (fun _ => Both.bind_same fun i => ?_) fun _ => .ok (.same hk)
  have hid : (((k.stamped ν).setStatus cur .notRunnable).envs cur).envId =
      ((k.setStatus cur .notRunnable).envs cur).envId := by
    simp only [Kernel.setStatus, Kernel.modEnv_self, Kernel.stamped_envs]
  rw [hid]
  exact .ok (.same ((hk.setStatus cur _).modEnv e fun _ _ => rfl))

theorem ipcSendPage (h : Alike k k') (cur e : EnvIx) (srcva perm : Word) :
    Both SameResult (ipcSendPage k cur e srcva perm) (ipcSendPage k' cur e srcva perm) := by
  have hk := h
  obtain ⟨ν, rfl⟩ := h
  unfold JosKernel.ipcSendPage
  simp only [Kernel.stamped_envs, Kernel.stamped_mem]
  split
  · split
    · exact .ok (.same hk)
    · refine Both.bind_same fun pgdir => Both.bind_same fun r => ?_
      cases r with
      | none => exact .ok (.same hk)
      | some x =>
        obtain ⟨pp, pt, i⟩ := x
        dsimp only
        refine Both.test (fun _ => .ok (.same hk)) fun _ => ?_
        refine Both.test (fun _ => .ok (.same hk)) fun _ => ?_
        refine Both.test (fun _ => ?_) fun _ => .ok (.same hk)
        refine Both.bind_same fun pgdir => Both.bind_same fun r => ?_
        refine Both.test (fun _ => .ok (.same (hk.withMem _))) fun _ => ?_
        exact .ok (.same ((hk.withMem _).modEnv e fun _ _ => rfl))
  · exact .ok (.same (hk.modEnv e fun _ _ => rfl))

theorem sysIpcTrySend (h : Alike k k') (cur : EnvIx) (envid value srcva perm : Word) :
    Both SameResult (sysIpcTrySend k cur envid value srcva perm)
      (sysIpcTrySend k' cur envid value srcva perm) := by
  have hk := h
  obtain ⟨ν, rfl⟩ := h
  unfold JosKernel.sysIpcTrySend
  rw [envid2env_stamped]
  split
  · exact .ok (.same hk)
  · simp only [Kernel.stamped_envs]
    split
    · refine (hk.ipcSendPage cur _ srcva perm).bind fun r r' hr => ?_
      cases hr with
      | @same r k₁ k₂ h₁ =>
        refine Both.test (fun _ => .ok (.same h₁)) fun _ => ?_
        obtain ⟨ν, rfl⟩ := h₁
        exact .ok (.same (modEnv ⟨ν, rfl⟩ _ fun _ _ => rfl))
    · exact hk.ipcEnqueue cur _

theorem ipcWakeup (h : Alike k k') (cur : EnvIx) :
    Both SameResult (ipcWakeup k cur) (ipcWakeup k' cur) := by
  have hk := h
  obtain ⟨ν, rfl⟩ := h
  unfold JosKernel.ipcWakeup
  simp only [Kernel.stamped_envs]
  refine Both.test (fun _ => Both.bind_same fun i => ?_) fun _ => .ok (.same hk)
  obtain ⟨ν', hν⟩ := hk.modEnv cur
    (f := fun env => { env with
      envIpcWaitingHead := ((k.envs cur).envIpcWaitingHead + 1) % maxIpcWaiting }) fun _ _ => rfl
  rw [hν, envid2env_stamped]
  split
  · exact .ok (.same ⟨ν', rfl⟩)
  · exact .ok (.same (setStatus ⟨ν', rfl⟩ _ _))

theorem sysIpcRecv (h : Alike k k') (c : Cpu) (cur : EnvIx) (dstva : Word) :
    Both SameResult (sysIpcRecv k c cur dstva) (sysIpcRecv k' c cur dstva) := by
  unfold JosKernel.sysIpcRecv
  split
  · exact .ok (.same h)
  · refine ((h.modEnv cur fun _ _ => rfl).ipcWakeup cur).bind fun r r' hr => ?_
    cases hr with
    | @same r k₁ k₂ h₁ =>
      refine Both.test (fun _ => .ok (.same h₁)) fun _ => ?_
      exact (h₁.schedYield c).bind fun _ _ h₂ => .ok (.same h₂)

/-! ### Traps -/

/-- A handler that always returns. -/
theorem returning {r r' : Except Panic (Int × Kernel n)} (h : Both SameResult r r') :
    Both SameResult (returning r) (returning r') := by
  cases h with
  | error e => exact .error e
  | ok h =>
    cases h with
    | same hk => exact .ok (.same hk)

theorem returning_ok {r r' : Int × Kernel n} (h : SameResult r r') :
    Both SameResult (JosKernel.returning (pure r)) (JosKernel.returning (pure r')) :=
  returning (.ok h)

theorem syscall (h : Alike k k') (c : Cpu) (cur : EnvIx) (io : Inputs)
    (no a1 a2 a3 a4 a5 : Word) :
    Both SameResult (syscall k c cur io no a1 a2 a3 a4 a5)
      (syscall k' c cur io no a1 a2 a3 a4 a5) := by
  unfold JosKernel.syscall
  cases Sys.ofNat no.toNat with
  | none => exact .ok (.same h)
  | some s =>
    cases s with
    | cputs => exact h.sysCputs c cur a1 a2
    | cgetc => exact .ok (.same h)
    | getenvid =>
      obtain ⟨ν, rfl⟩ := h
      exact .ok (.same ⟨ν, rfl⟩)
    | envDestroy =>
      refine (h.sysEnvDestroy c cur a1).bind fun r r' hr => ?_
      cases hr with
      | same hk => exact .ok (.same hk)
    | yield => exact (h.schedYield c).bind fun _ _ hk => .ok (.same hk)
    | exofork => exact returning (h.sysExofork cur)
    | envSetStatus => exact returning_ok (h.sysEnvSetStatus cur a1 a2)
    | pageAlloc => exact returning (h.sysPageAlloc cur a1 a2 a3)
    | pageMap => exact returning (h.sysPageMap cur a1 a2 a3 a4 a5)
    | pageUnmap => exact returning (h.sysPageUnmap cur a1 a2)
    | ipcRecv => exact h.sysIpcRecv c cur a1
    | ipcTrySend => exact returning (h.sysIpcTrySend cur a1 a2 a3 a4)
    | envSetUpcall exc =>
      simp only [dispatchSetUpcall_eq]
      exact returning_ok (h.sysEnvSetUpcall exc cur a1 a2)

theorem excHandler (h : Alike k k') (exc : Exc) (c : Cpu) (cur : EnvIx) (tf : Trapframe)
    (faultVa : Word) :
    Both SameResult (excHandler exc k c cur tf faultVa) (excHandler exc k' c cur tf faultVa) := by
  have hk := h
  obtain ⟨ν, rfl⟩ := h
  unfold JosKernel.excHandler
  simp only [Kernel.stamped_envs]
  refine Both.test (fun _ => .error _) fun _ => ?_
  refine Both.test (fun _ => ?_) fun _ => hk.envDestroy c cur
  refine (hk.userMemAssert c cur _ 1 pteW).bind fun r r' hr => ?_
  cases hr with
  | @same r k₁ k₂ h₁ =>
    cases r with
    | none => exact .ok (.same h₁)
    | some u =>
      obtain ⟨ν₁, rfl⟩ := h₁
      simp only [Kernel.stamped_mem, Kernel.stamped_cpus]
      split
      · exact .error _
      · refine (((withMem ⟨ν₁, rfl⟩ _).modEnv cur fun _ _ => rfl).envRun c cur).bind ?_
        exact fun _ _ h₂ => .ok (.same h₂)

theorem trapSyscall (h : Alike k k') (c : Cpu) (cur : EnvIx) (tf : Trapframe) (io : Inputs) :
    Both SameResult (trapSyscall k c cur tf io) (trapSyscall k' c cur tf io) := by
  unfold JosKernel.trapSyscall
  refine (h.syscall c cur io _ _ _ _ _ _).bind fun r r' hr => ?_
  cases hr with
  | @same r k₁ k₂ hk =>
    cases r with
    | none => exact .ok (.same hk)
    | some v => exact .ok (.same (hk.modEnv cur fun _ _ => rfl))

theorem trapDispatch (h : Alike k k') (c : Cpu) (cur : EnvIx) (tf : Trapframe) (io : Inputs) :
    Both SameResult (trapDispatch k c cur tf io) (trapDispatch k' c cur tf io) := by
  unfold JosKernel.trapDispatch
  split
  · rw [handler_eq, handler_eq]
    exact h.excHandler _ c cur tf io.cr2
  · split_ifs
    · exact h.trapSyscall c cur tf io
    · exact .ok (.same h)
    · exact (h.schedYield c).bind fun _ _ hk => .ok (.same hk)
    · exact h.envDestroy c cur

theorem trapReturn (h : Alike k k') (c : Cpu) :
    Both Alike (trapReturn k c) (trapReturn k' c) := by
  have hk := h
  obtain ⟨ν, rfl⟩ := h
  unfold JosKernel.trapReturn
  rw [Kernel.stamped_curenv, Kernel.stamped_status]
  split
  · split
    · exact hk.envRun c _
    · exact hk.schedYield c
  · exact hk.schedYield c

theorem trap (h : Alike k k') (c : Cpu) (tf : Trapframe) (io : Inputs) :
    Both Alike (trap k c tf io) (trap k' c tf io) := by
  have hk := h
  obtain ⟨ν, rfl⟩ := h
  unfold JosKernel.trap
  rw [Kernel.stamped_curenv, Kernel.stamped_status]
  split
  · exact .error _
  · split
    · exact (hk.envFree c _).bind fun _ _ h => (h.modCpu c _).schedYield c
    · refine ((hk.modEnv _ fun _ _ => rfl).trapDispatch c _ tf io).bind fun r r' hr => ?_
      cases hr with
      | @same r k₁ k₂ h₁ =>
        cases r with
        | none => exact .ok h₁
        | some u => exact h₁.trapReturn c

theorem trapHalted (h : Alike k k') (c : Cpu) (trapno : Word) :
    Both Alike (trapHalted k c trapno) (trapHalted k' c trapno) := by
  unfold JosKernel.trapHalted
  split_ifs
  · exact h.schedYield c
  · exact h.trapReturn c
  · exact .error _

theorem perform (h : Alike k k') (a : Action) : Both Alike (perform k a) (perform k' a) := by
  cases a with
  | trap c tf io => exact h.trap c tf io
  | wake c no => exact h.trapHalted c no
  | start c => exact h.schedYield c
  | access c va store =>
    obtain ⟨ν, rfl⟩ := h
    refine .ok ?_
    simp only [Kernel.stamped_mem, Kernel.stamped_cpus]
    split
    · exact ⟨ν, rfl⟩
    · exact ⟨ν, rfl⟩

/-- Runs of kernels that are alike. -/
theorem runActions (h : Alike k k') (as : List Action) :
    Option.Rel Alike (runActions k as) (runActions k' as) := by
  induction as generalizing k k' with
  | nil => exact .some h
  | cons a as ih =>
    have hen : Enabled k' a ↔ Enabled k a := by
      obtain ⟨ν, rfl⟩ := h
      cases a <;> exact Iff.rfl
    have hrun := h.perform a
    by_cases ha : Enabled k a
    · rw [JosKernel.runActions, JosKernel.runActions, if_pos ha, if_pos (hen.mpr ha)]
      generalize JosKernel.perform k a = r at hrun ⊢
      generalize JosKernel.perform k' a = r' at hrun ⊢
      cases hrun with
      | ok h₁ => exact ih h₁
      | error e => exact .none
    · rw [JosKernel.runActions, JosKernel.runActions, if_neg ha, if_neg (hen.not.mpr ha)]
      exact .none

end Alike

/-! ## A slot with a past -/

/-- The message fields and the waiting queue are the same. -/
structure SameMessages (env env' : Env n) : Prop where
  dstva : env'.envIpcDstva = env.envIpcDstva
  value : env'.envIpcValue = env.envIpcValue
  sender : env'.envIpcFrom = env.envIpcFrom
  perm : env'.envIpcPerm = env.envIpcPerm
  head : env'.envIpcWaitingHead = env.envIpcWaitingHead
  tail : env'.envIpcWaitingTail = env.envIpcWaitingTail
  waiting : env'.envIpcWaiting = env.envIpcWaiting

/-- Slot `e` is free in both kernels, and only what was left in its record differs. -/
structure Recycles (e : EnvIx) (k k' : Kernel n) : Prop where
  mem : k'.mem = k.mem
  cpus : k'.cpus = k.cpus
  list : k'.envFreeList = k.envFreeList
  others : ∀ i, i ≠ e → k'.envs i = k.envs i
  free : k.status e = .free ∧ k'.status e = .free
  id : (k'.envs e).envId = (k.envs e).envId
  link : (k'.envs e).envLink = (k.envs e).envLink

/-- The kernels go through the same states in all runs, `env_cpunum` apart. -/
def BehavesAlike (k k' : Kernel n) : Prop :=
  ∀ as, Option.Rel Alike (runActions k as) (runActions k' as)

theorem Alike.sameMessages (h : Alike k k') (i : EnvIx) :
    SameMessages (k.envs i) (k'.envs i) := by
  obtain ⟨ν, rfl⟩ := h
  exact ⟨rfl, rfl, rfl, rfl, rfl, rfl, rfl⟩

/-- The register in which system calls return, after any run. -/
theorem BehavesAlike.eax (h : BehavesAlike k k') (as : List Action) (i : EnvIx) :
    ((runActions k' as).map fun k => (k.envs i).envTf.tfRegs.regEax) =
      (runActions k as).map fun k => (k.envs i).envTf.tfRegs.regEax := by
  have hrel := h as
  generalize runActions k as = r at hrel ⊢
  generalize runActions k' as = r' at hrel ⊢
  cases hrel with
  | none => rfl
  | some hr =>
    obtain ⟨ν, rfl⟩ := hr
    rfl

theorem envAlloc_eq {g : Fin n} {m : Mem n} (hfree : k.envFreeList = .env e)
    (hvm : envSetupVm k.mem = (some g, m)) (parentId : Word) :
    envAlloc k parentId = .ok (.ok e, allocated k e g m parentId) := by
  simp [envAlloc, hfree, hvm, allocated, Kernel.modEnv, pure, Except.pure]

variable {k₁ : Kernel n} {parentId : Word}

/-- The new environment behaves as if its slot had another past exactly if that left the same in
the fields of IPC. -/
theorem behavesAlike_envAlloc_iff (h : Recycles e k k')
    (alloc : envAlloc k parentId = .ok (.ok e, k₁)) :
    ∃ k₂, envAlloc k' parentId = .ok (.ok e, k₂) ∧
      (BehavesAlike k₁ k₂ ↔ SameMessages (k.envs e) (k'.envs e)) := by
  obtain ⟨g, m, hfree, hvm, rfl⟩ := envAlloc_ok alloc
  refine ⟨_, envAlloc_eq (h.list.trans hfree) (by rw [h.mem, hvm]) parentId, fun hb => ?_,
    fun hs => ?_⟩
  · -- the fields can be read at once
    cases hb [] with
    | some hr =>
      have hm := hr.sameMessages e
      simp only [allocated, Function.update_self] at hm
      exact ⟨hm.dstva, hm.value, hm.sender, hm.perm, hm.head, hm.tail, hm.waiting⟩
  · refine Alike.runActions ⟨fun i => ((allocated k' e g m parentId).envs i).envCpunum, ?_⟩
    have henvs : (allocated k' e g m parentId).envs = ((allocated k e g m parentId).stamped
        fun i => ((allocated k' e g m parentId).envs i).envCpunum).envs := by
      funext i
      by_cases hi : i = e
      · subst hi
        simp only [allocated, Kernel.stamped, Function.update_self, h.id, h.link, hs.dstva,
          hs.value, hs.sender, hs.perm, hs.head, hs.tail, hs.waiting]
      · simp only [allocated, Kernel.stamped, Function.update_of_ne hi, h.others i hi]
    rw [Kernel.mk.injEq]
    exact ⟨rfl, henvs, h.link, h.cpus⟩

/-! ### An id in the queue -/

/-- The machine before its first environment, with a sender that was left in the queue of slot 0. -/
def staleInit : Kernel 16 := smallInit.modEnv 0 fun env =>
  { env with envIpcWaitingTail := 1, envIpcWaiting := fun _ => 0x1001 }

theorem recycles_staleInit : Recycles 0 smallInit staleInit where
  mem := rfl
  cpus := rfl
  list := rfl
  others _ hi := Kernel.modEnv_of_ne _ _ hi
  free := ⟨rfl, rfl⟩
  id := rfl
  link := rfl

theorem behavesAlike_envAlloc_iff_stale : ∃ k₂, envAlloc staleInit 0 = .ok (.ok 0, k₂) ∧
    (BehavesAlike (allocated smallInit 0 1 (envSetupVm smallMem).2 0) k₂ ↔
      SameMessages (smallInit.envs 0) (staleInit.envs 0)) :=
  behavesAlike_envAlloc_iff recycles_staleInit rfl

/-- The first `sys_ipc_recv` of the new environment blocks, or it fails. -/
theorem not_behavesAlike_stale : Recycles 0 smallInit staleInit ∧
    ∃ k₁ k₂, envAlloc smallInit 0 = .ok (.ok 0, k₁) ∧ envAlloc staleInit 0 = .ok (.ok 0, k₂) ∧
      ¬BehavesAlike k₁ k₂ := by
  refine ⟨recycles_staleInit, allocated smallInit 0 1 (envSetupVm smallMem).2 0,
    allocated staleInit 0 1 (envSetupVm smallMem).2 0, rfl, rfl, fun hb => ?_⟩
  have hsame := hb.eax [.start 0, sysTrap 0 12 0 0 0 0 0] 0
  have hblocks : ((runActions (allocated smallInit 0 1 (envSetupVm smallMem).2 0)
      [.start 0, sysTrap 0 12 0 0 0 0 0]).map fun k =>
        (k.envs 0).envTf.tfRegs.regEax) = some 12 := by decide +kernel
  have hfails : ((runActions (allocated staleInit 0 1 (envSetupVm smallMem).2 0)
      [.start 0, sysTrap 0 12 0 0 0 0 0]).map fun k =>
        (k.envs 0).envTf.tfRegs.regEax) = some (BitVec.ofInt 32 (-2)) := by decide +kernel
  have habsurd := hfails.symm.trans (hsame.trans hblocks)
  exact absurd habsurd (by decide)

end JosKernel
