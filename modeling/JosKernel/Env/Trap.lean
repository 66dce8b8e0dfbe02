import JosKernel.Env.Syscall

/-!
# Kernel entries

`trap` and `trap_dispatch` of `kern/trap.c`, for a trap frame as the entry stubs deliver it. One
call of `trap` runs from the entry, with the kernel lock taken, to the point where the CPU is
back in user mode, halted, or in the monitor.

The machine as a whole is a transition system. Its steps are kernel entries of any CPU, the first
scheduling of a CPU at boot, and memory accesses in user mode, which also set the accessed and
dirty bits. A CPU in the monitor keeps the lock, so no CPU can enter the kernel any more.
-/
namespace JosKernel

variable {n : Nat}

/-! ## Exceptions -/

/-- A word store at `va` by the kernel, byte by byte. -/
def kstoreWord (m : Mem n) (cr3 : Fin n) (va w : Word) : Option (Mem n) := do
  let m ← m.storeByte cr3 va (w.extractLsb' 0 8) false
  let m ← m.storeByte cr3 (va + 1) (w.extractLsb' 8 8) false
  let m ← m.storeByte cr3 (va + 2) (w.extractLsb' 16 8) false
  m.storeByte cr3 (va + 3) (w.extractLsb' 24 8) false

def kstoreWords (m : Mem n) (cr3 : Fin n) (va : Word) : List Word → Option (Mem n)
  | [] => some m
  | w :: ws => do kstoreWords (← kstoreWord m cr3 va w) cr3 (va + 4) ws

/-- The words of the `struct UTrapframe` for a trap, lowest address first. -/
def utrapframe (faultVa : Word) (tf : Trapframe) : List Word :=
  [faultVa, tf.tfErr,
   tf.tfRegs.regEdi, tf.tfRegs.regEsi, tf.tfRegs.regEbp, tf.tfRegs.regOesp,
   tf.tfRegs.regEbx, tf.tfRegs.regEdx, tf.tfRegs.regEcx, tf.tfRegs.regEax,
   tf.tfEip, tf.tfEflags, tf.tfEsp]

/-- Where the frame goes: below the current top of the exception stack, leaving one word, or at
the top of an exception stack that is not in use. -/
def utfAddr (esp : Word) : Word :=
  if uxstacktop - pgsize ≤ esp ∧ esp < uxstacktop then esp - 52 - 4 else uxstacktop - 52

/-- All eighteen exception handlers have this form. -/
def excHandler (exc : Exc) (k : Kernel n) (c : Cpu) (cur : EnvIx) (tf : Trapframe)
    (faultVa : Word) : Except Panic (Option Unit × Kernel n) := do
  if tf.tfCs &&& 3 = 0 then throw .kernelException
  let upcall := (k.envs cur).envUpcall exc
  if upcall ≠ 0 then
    let utf := utfAddr tf.tfEsp
    match ← userMemAssert k c cur utf 1 pteW with
    | (none, k) => pure (none, k)
    | (some _, k) =>
      match kstoreWords k.mem (k.cpus c).cr3 utf (utrapframe faultVa tf) with
      | none => throw .kernelPageFault
      | some m =>
        let k := { k with mem := m }
        let k := k.modEnv cur fun env =>
          { env with envTf := { env.envTf with tfEip := upcall, tfEsp := utf } }
        let k ← envRun k c cur
        pure (none, k)
  else envDestroy k c cur

/-- The exception of a trap number. -/
def Exc.ofTrapno : Nat → Option Exc
  | 0 => some .divzero
  | 1 => some .debug
  | 2 => some .nmskint
  | 3 => some .bpoint
  | 4 => some .oflow
  | 5 => some .bdschk
  | 6 => some .illopcd
  | 7 => some .dvcntavl
  | 8 => some .dbfault
  | 10 => some .ivldtss
  | 11 => some .segntprst
  | 12 => some .stkexception
  | 13 => some .gpfault
  | 14 => some .pgfault
  | 16 => some .fperror
  | 17 => some .algchk
  | 18 => some .mchchk
  | 19 => some .simdfperror
  | _ => none

/-! The handlers differ in the upcall that they look at. -/

def pageFaultHandler (k : Kernel n) := excHandler .pgfault k
def divideZeroHandler (k : Kernel n) := excHandler .divzero k
def debugExceptionHandler (k : Kernel n) := excHandler .debug k
def nonMaskableInterruptHandler (k : Kernel n) := excHandler .nmskint k
def breakpointHandler (k : Kernel n) := excHandler .bpoint k
def overflowHandler (k : Kernel n) := excHandler .oflow k
def boundsCheckHandler (k : Kernel n) := excHandler .bdschk k
def illegalOpcodeHandler (k : Kernel n) := excHandler .illopcd k
def deviceNotAvailableHandler (k : Kernel n) := excHandler .dvcntavl k
def doubleFaultHandler (k : Kernel n) := excHandler .dbfault k
def invalidTaskSwitchSegmentHandler (k : Kernel n) := excHandler .ivldtss k
def segmentNotPresentHandler (k : Kernel n) := excHandler .segntprst k
def stackExceptionHandler (k : Kernel n) := excHandler .stkexception k
def generalProtectionFaultHandler (k : Kernel n) := excHandler .gpfault k
def floatingPointErrorHandler (k : Kernel n) := excHandler .fperror k
def aligmentCheckHandler (k : Kernel n) := excHandler .algchk k
def machineCheckHandler (k : Kernel n) := excHandler .mchchk k
def simdFloatingPointErrorHandler (k : Kernel n) := excHandler .simdfperror k

/-- The handler that `trap_dispatch` calls for each kind. -/
def handler (exc : Exc) (k : Kernel n) :
    Cpu → EnvIx → Trapframe → Word → Except Panic (Option Unit × Kernel n) :=
  match exc with
  | .pgfault => pageFaultHandler k
  | .divzero => divideZeroHandler k
  | .debug => debugExceptionHandler k
  | .nmskint => nonMaskableInterruptHandler k
  | .bpoint => breakpointHandler k
  | .oflow => overflowHandler k
  | .bdschk => boundsCheckHandler k
  | .illopcd => illegalOpcodeHandler k
  | .dvcntavl => deviceNotAvailableHandler k
  | .dbfault => doubleFaultHandler k
  | .ivldtss => invalidTaskSwitchSegmentHandler k
  | .segntprst => segmentNotPresentHandler k
  | .stkexception => stackExceptionHandler k
  | .gpfault => generalProtectionFaultHandler k
  | .fperror => floatingPointErrorHandler k
  | .algchk => aligmentCheckHandler k
  | .mchchk => machineCheckHandler k
  | .simdfperror => simdFloatingPointErrorHandler k

theorem handler_eq (exc : Exc) (k : Kernel n) : handler exc k = excHandler exc k := by
  cases exc <;> rfl

/-! ## Traps -/

/-- The `T_SYSCALL` case: arguments from the registers, result into `eax`. -/
def trapSyscall (k : Kernel n) (c : Cpu) (cur : EnvIx) (tf : Trapframe) (io : Inputs) :
    Except Panic (Option Unit × Kernel n) := do
  match ← syscall k c cur io tf.tfRegs.regEax tf.tfRegs.regEdx tf.tfRegs.regEcx
      tf.tfRegs.regEbx tf.tfRegs.regEdi tf.tfRegs.regEsi with
  | (none, k) => pure (none, k)
  | (some r, k) => pure (some (), k.modEnv cur fun env =>
      { env with envTf := env.envTf.setEax (BitVec.ofInt 32 r) })

/-- `trap_dispatch` for a trap from user mode, with `tf` already saved in `cur`. -/
def trapDispatch (k : Kernel n) (c : Cpu) (cur : EnvIx) (tf : Trapframe) (io : Inputs) :
    Except Panic (Option Unit × Kernel n) :=
  match Exc.ofTrapno tf.tfTrapno.toNat with
  | some exc => handler exc k c cur tf io.cr2
  | none =>
    if tf.tfTrapno = 48 then trapSyscall k c cur tf io
    else if tf.tfTrapno = 39 then pure (some (), k)
    else if tf.tfTrapno = 32 then do
      let k ← schedYield k c
      pure (none, k)
    else envDestroy k c cur

/-- The end of `trap`: back to the current environment if it is still running. -/
def trapReturn (k : Kernel n) (c : Cpu) : Except Panic (Kernel n) :=
  match k.curenv c with
  | some cur => if k.status cur = .running then envRun k c cur else schedYield k c
  | none => schedYield k c

/-- `trap` for a trap from user mode. -/
def trap (k : Kernel n) (c : Cpu) (tf : Trapframe) (io : Inputs) : Except Panic (Kernel n) :=
  match k.curenv c with
  | none => throw .assertion
  | some cur =>
    if k.status cur = .dying then do
      let k ← envFree k c cur
      schedYield (k.modCpu c fun cpu => { cpu with cpuEnv := none }) c
    else do
      let k := k.modEnv cur fun env => { env with envTf := tf }
      match ← trapDispatch k c cur tf io with
      | (none, k) => pure k
      | (some _, k) => trapReturn k c

/-- `trap` for an interrupt that wakes a halted CPU. -/
def trapHalted (k : Kernel n) (c : Cpu) (trapno : Word) : Except Panic (Kernel n) :=
  if trapno = 32 then schedYield k c
  else if trapno = 39 then trapReturn k c
  else throw .unhandledTrap

/-! ## The machine -/

inductive Action where
  /-- CPU `c` traps from user mode. -/
  | trap (c : Cpu) (tf : Trapframe) (io : Inputs)
  /-- An interrupt arrives at the halted CPU `c`. -/
  | wake (c : Cpu) (trapno : Word)
  /-- CPU `c` enters the scheduler for the first time. -/
  | start (c : Cpu)
  /-- User code on CPU `c` loads or stores a byte. -/
  | access (c : Cpu) (va : Word) (store : Option Byte)

/-- No CPU keeps the kernel lock. -/
def LockFree (k : Kernel n) : Prop := ∀ c, (k.cpus c).cpuMode ≠ .monitor

def Enabled (k : Kernel n) : Action → Prop
  | .trap c tf _ => (k.cpus c).cpuMode = .user ∧ tf.tfCs &&& 3 = 3 ∧ LockFree k
  | .wake c _ => (k.cpus c).cpuMode = .halted ∧ LockFree k
  | .start c => (k.cpus c).cpuMode = .boot ∧ LockFree k
  | .access c va _ => (k.cpus c).cpuMode = .user ∧ va < utop

def perform (k : Kernel n) : Action → Except Panic (Kernel n)
  | .trap c tf io => trap k c tf io
  | .wake c trapno => trapHalted k c trapno
  | .start c => schedYield k c
  | .access c va store =>
    -- an access that is not allowed has no effect here: it is a page fault, a trap of its own
    .ok (match k.mem.userAccess (k.cpus c).cr3 va store with
      | none => k
      | some m => { k with mem := m })

/-- One step of the machine. A panic has no successor. Neither has a `sys_exofork` that finds no
free slot but a free page, where the source goes on with the memory behind `envs[]`. -/
def Step (k : Kernel n) (a : Action) (k' : Kernel n) : Prop :=
  Enabled k a ∧ perform k a = .ok k'

instance (k : Kernel n) : Decidable (LockFree k) :=
  inferInstanceAs (Decidable (∀ c, (k.cpus c).cpuMode ≠ .monitor))

instance (k : Kernel n) : ∀ a, Decidable (Enabled k a)
  | .trap c tf _ =>
    inferInstanceAs (Decidable ((k.cpus c).cpuMode = .user ∧ tf.tfCs &&& 3 = 3 ∧ LockFree k))
  | .wake c _ => inferInstanceAs (Decidable ((k.cpus c).cpuMode = .halted ∧ LockFree k))
  | .start c => inferInstanceAs (Decidable ((k.cpus c).cpuMode = .boot ∧ LockFree k))
  | .access c va _ => inferInstanceAs (Decidable ((k.cpus c).cpuMode = .user ∧ va < utop))

/-- The state after the given actions, if all of them are possible and none panics. -/
def runActions (k : Kernel n) : List Action → Option (Kernel n)
  | [] => some k
  | a :: as =>
    if Enabled k a then
      match perform k a with
      | .ok k' => runActions k' as
      | .error _ => none
    else none

end JosKernel
