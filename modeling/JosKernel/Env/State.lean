import JosKernel.Pmap.Basic

/-!
# Kernel state

The environment table of `inc/env.h`, trap frames of `inc/trap.h` and the per-CPU state of
`kern/cpu.h`. A `struct Env *` that points into `envs[]` is an `EnvIx`; the links of the free
list are `EnvPtr`s, because `env_init` also stores the pointer one past the end of the array.

The tables `envs[]` and `pages[]` are kept apart from the contents of pages. In the source a page
table entry that leads to their memory would let an environment write them; `StepOk` excludes the
system calls that make such an entry.

A CPU is described by where it is: not present, not yet scheduled, in user mode, halted, or in
the kernel monitor, which it never leaves and in which it keeps the kernel lock.
-/
namespace JosKernel

/-- General registers in the order in which `pushal` stores them. -/
structure PushRegs where
  regEdi : Word
  regEsi : Word
  regEbp : Word
  regOesp : Word
  regEbx : Word
  regEdx : Word
  regEcx : Word
  regEax : Word
  deriving DecidableEq, Repr

structure Trapframe where
  tfRegs : PushRegs
  tfEs : BitVec 16
  tfDs : BitVec 16
  tfTrapno : Word
  tfErr : Word
  tfEip : Word
  tfCs : BitVec 16
  tfEflags : Word
  tfEsp : Word
  tfSs : BitVec 16
  deriving DecidableEq, Repr

/-- All registers zero. -/
def PushRegs.zero : PushRegs := ⟨0, 0, 0, 0, 0, 0, 0, 0⟩

def Trapframe.zero : Trapframe := ⟨.zero, 0, 0, 0, 0, 0, 0, 0, 0, 0⟩

def Trapframe.setEax (tf : Trapframe) (v : Word) : Trapframe :=
  { tf with tfRegs := { tf.tfRegs with regEax := v } }

inductive EnvStatus where
  | free | dying | runnable | running | notRunnable
  deriving DecidableEq, Repr

/-- The exceptions for which an environment can register an upcall. -/
inductive Exc where
  | pgfault | divzero | debug | nmskint | bpoint | oflow | bdschk | illopcd | dvcntavl | dbfault
  | ivldtss | segntprst | stkexception | gpfault | fperror | algchk | mchchk | simdfperror
  deriving DecidableEq, Repr

/-- An index into `envs[]`. -/
abbrev EnvIx := Fin 1024

/-- An index into `cpus[]`. -/
abbrev Cpu := Fin 8

inductive EnvPtr where
  | null
  | env (i : EnvIx)
  /-- `&envs[NENV]`. -/
  | pastEnd
  deriving DecidableEq, Repr

/-- `MAXIPCWAITING`. -/
def maxIpcWaiting : Word := 10

structure Env (n : Nat) where
  envTf : Trapframe
  envLink : EnvPtr
  envId : Word
  envParentId : Word
  envStatus : EnvStatus
  envRuns : Word
  envCpunum : Cpu
  envPgdir : Option (Fin n)
  envUpcall : Exc → Word
  envIpcRecving : Bool
  envIpcDstva : Word
  envIpcValue : Word
  envIpcFrom : Word
  envIpcPerm : Word
  envIpcWaitingHead : Word
  envIpcWaitingTail : Word
  envIpcWaiting : Fin 10 → Word

inductive CpuMode where
  | off | boot | user | halted | monitor
  deriving DecidableEq, Repr

structure CpuInfo (n : Nat) where
  cpuMode : CpuMode
  cpuEnv : Option EnvIx
  cr3 : Fin n

structure Kernel (n : Nat) where
  mem : Mem n
  envs : EnvIx → Env n
  envFreeList : EnvPtr
  cpus : Cpu → CpuInfo n

variable {n : Nat}

namespace Kernel

def modEnv (k : Kernel n) (e : EnvIx) (f : Env n → Env n) : Kernel n :=
  { k with envs := Function.update k.envs e (f (k.envs e)) }

def modCpu (k : Kernel n) (c : Cpu) (f : CpuInfo n → CpuInfo n) : Kernel n :=
  { k with cpus := Function.update k.cpus c (f (k.cpus c)) }

def setStatus (k : Kernel n) (e : EnvIx) (s : EnvStatus) : Kernel n :=
  k.modEnv e fun env => { env with envStatus := s }

/-- `curenv` on CPU `c`. -/
def curenv (k : Kernel n) (c : Cpu) : Option EnvIx := (k.cpus c).cpuEnv

def status (k : Kernel n) (e : EnvIx) : EnvStatus := (k.envs e).envStatus

@[simp] theorem modEnv_mem (k : Kernel n) (e : EnvIx) (f : Env n → Env n) :
    (k.modEnv e f).mem = k.mem := rfl
@[simp] theorem modEnv_cpus (k : Kernel n) (e : EnvIx) (f : Env n → Env n) :
    (k.modEnv e f).cpus = k.cpus := rfl
@[simp] theorem modEnv_envFreeList (k : Kernel n) (e : EnvIx) (f : Env n → Env n) :
    (k.modEnv e f).envFreeList = k.envFreeList := rfl
@[simp] theorem modEnv_self (k : Kernel n) (e : EnvIx) (f : Env n → Env n) :
    (k.modEnv e f).envs e = f (k.envs e) := Function.update_self ..
theorem modEnv_of_ne (k : Kernel n) {e i : EnvIx} (f : Env n → Env n) (h : i ≠ e) :
    (k.modEnv e f).envs i = k.envs i := Function.update_of_ne h ..
theorem modEnv_apply (k : Kernel n) (e i : EnvIx) (f : Env n → Env n) :
    (k.modEnv e f).envs i = if i = e then f (k.envs e) else k.envs i :=
  Function.update_apply ..

@[simp] theorem modCpu_mem (k : Kernel n) (c : Cpu) (f : CpuInfo n → CpuInfo n) :
    (k.modCpu c f).mem = k.mem := rfl
@[simp] theorem modCpu_envs (k : Kernel n) (c : Cpu) (f : CpuInfo n → CpuInfo n) :
    (k.modCpu c f).envs = k.envs := rfl
@[simp] theorem modCpu_envFreeList (k : Kernel n) (c : Cpu) (f : CpuInfo n → CpuInfo n) :
    (k.modCpu c f).envFreeList = k.envFreeList := rfl
@[simp] theorem modCpu_self (k : Kernel n) (c : Cpu) (f : CpuInfo n → CpuInfo n) :
    (k.modCpu c f).cpus c = f (k.cpus c) := Function.update_self ..
theorem modCpu_apply (k : Kernel n) (c i : Cpu) (f : CpuInfo n → CpuInfo n) :
    (k.modCpu c f).cpus i = if i = c then f (k.cpus c) else k.cpus i :=
  Function.update_apply ..

@[simp] theorem setStatus_mem (k : Kernel n) (e : EnvIx) (s : EnvStatus) :
    (k.setStatus e s).mem = k.mem := rfl
@[simp] theorem setStatus_cpus (k : Kernel n) (e : EnvIx) (s : EnvStatus) :
    (k.setStatus e s).cpus = k.cpus := rfl
@[simp] theorem setStatus_envFreeList (k : Kernel n) (e : EnvIx) (s : EnvStatus) :
    (k.setStatus e s).envFreeList = k.envFreeList := rfl
theorem setStatus_status (k : Kernel n) (e i : EnvIx) (s : EnvStatus) :
    (k.setStatus e s).status i = if i = e then s else k.status i := by
  by_cases h : i = e
  · subst h; simp [setStatus, status]
  · simp [setStatus, status, modEnv_of_ne _ _ h, h]

@[simp] theorem curenv_modEnv (k : Kernel n) (e : EnvIx) (f : Env n → Env n) (c : Cpu) :
    (k.modEnv e f).curenv c = k.curenv c := rfl
@[simp] theorem curenv_setStatus (k : Kernel n) (e : EnvIx) (s : EnvStatus) (c : Cpu) :
    (k.setStatus e s).curenv c = k.curenv c := rfl
@[simp] theorem status_modCpu (k : Kernel n) (c : Cpu) (f : CpuInfo n → CpuInfo n) (e : EnvIx) :
    (k.modCpu c f).status e = k.status e := rfl

end Kernel

/-! ## Environment ids -/

/-- `ENVX`: the index part of an id. -/
def envx (envid : Word) : EnvIx := ⟨envid.toNat % 1024, by omega⟩

/-- `envid2env`. The only error is `-E_BAD_ENV`. -/
def envid2env (k : Kernel n) (cur : EnvIx) (envid : Word) (checkperm : Bool) : Option EnvIx :=
  if envid = 0 then some cur
  else if k.status (envx envid) = .free ∨ (k.envs (envx envid)).envId ≠ envid then none
  else if checkperm ∧ envx envid ≠ cur ∧
      (k.envs (envx envid)).envParentId ≠ (k.envs cur).envId then none
  else some (envx envid)

end JosKernel
