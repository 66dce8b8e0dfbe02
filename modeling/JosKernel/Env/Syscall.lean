import JosKernel.Console.Printfmt
import JosKernel.Env.Basic

/-!
# System calls

The handlers of `kern/syscall.c` and their dispatcher. `c` is the CPU that executes the call and
`cur` its `curenv`. A handler that always returns yields its return value; one that may switch
to another environment yields an `Option`, with `none` for "does not return".

Console output is not part of the state, but the kernel can fault when it reads what it prints.
The value of `cons_getc` is an input.
-/
namespace JosKernel

variable {n : Nat}

/-- What the kernel reads from the hardware during one entry. -/
structure Inputs where
  cr2 : Word
  consGetc : Word

/-- `env->env_pgdir`, about to be dereferenced. -/
def pgdirOf (k : Kernel n) (e : EnvIx) : Except Panic (Fin n) :=
  match (k.envs e).envPgdir with
  | none => .error .nullPgdir
  | some pgdir => .ok pgdir

/-- `user_mem_assert`. -/
def userMemAssert (k : Kernel n) (c : Cpu) (e : EnvIx) (va len perm : Word) :
    Except Panic (Option Unit × Kernel n) := do
  let pgdir ← pgdirOf k e
  match ← k.mem.userMemCheck pgdir va len (perm ||| pteU) with
  | none => pure (some (), k)
  | some _ => envDestroy k c e

/-! ## Console and environment calls -/

/-- What `cprintf` prints on CPU `c`. -/
def cprintf (k : Kernel n) (c : Cpu) (fmt : String) (ap : List Word) : Print Unit :=
  vprintfmt (fun a => k.mem.loadByte (k.cpus c).cr3 a false) (str fmt) ap

def sysCputs (k : Kernel n) (c : Cpu) (cur : EnvIx) (s len : Word) :
    Except Panic (Option Int × Kernel n) := do
  match ← userMemAssert k c cur s len 0 with
  | (none, k) => pure (none, k)
  | (some _, k) =>
    match (cprintf k c "%.*s" [len, s]).result with
    | none => throw .kernelPageFault
    | some _ => pure (some 0, k)

def sysGetenvid (k : Kernel n) (cur : EnvIx) : Int := (k.envs cur).envId.toInt

def sysEnvDestroy (k : Kernel n) (c : Cpu) (cur : EnvIx) (envid : Word) :
    Except Panic (Option Int × Kernel n) :=
  match envid2env k cur envid true with
  | none => pure (some (-eBadEnv), k)
  | some e => do
    match ← envDestroy k c e with
    | (none, k) => pure (none, k)
    | (some _, k) => pure (some 0, k)

def sysYield (k : Kernel n) (c : Cpu) : Except Panic (Kernel n) := schedYield k c

def sysExofork (k : Kernel n) (cur : EnvIx) : Except Panic (Int × Kernel n) := do
  match ← envAlloc k (k.envs cur).envId with
  | (.error r, k) => pure (r, k)
  | (.ok e, k) =>
    let k := k.modEnv e fun env =>
      { env with envStatus := .notRunnable, envTf := (k.envs cur).envTf.setEax 0 }
    pure ((k.envs e).envId.toInt, k)

def sysEnvSetStatus (k : Kernel n) (cur : EnvIx) (envid status : Word) : Int × Kernel n :=
  if status = 2 ∨ status = 4 then
    match envid2env k cur envid true with
    | none => (-eBadEnv, k)
    | some e => (0, k.setStatus e (if status = 2 then .runnable else .notRunnable))
  else (-eInval, k)

/-! ## Upcalls -/

/-- All eighteen calls `sys_env_set_*_upcall` have this form. -/
def sysEnvSetUpcall (exc : Exc) (k : Kernel n) (cur : EnvIx) (envid func : Word) :
    Int × Kernel n :=
  match envid2env k cur envid true with
  | none => (-eBadEnv, k)
  | some e => (0, k.modEnv e fun env =>
      { env with envUpcall := Function.update env.envUpcall exc func })

def sysEnvSetPgfaultUpcall (k : Kernel n) := sysEnvSetUpcall .pgfault k
def sysEnvSetDivzeroUpcall (k : Kernel n) := sysEnvSetUpcall .divzero k
def sysEnvSetDebugUpcall (k : Kernel n) := sysEnvSetUpcall .debug k
def sysEnvSetNmskintUpcall (k : Kernel n) := sysEnvSetUpcall .nmskint k
def sysEnvSetBpointUpcall (k : Kernel n) := sysEnvSetUpcall .bpoint k
def sysEnvSetOflowUpcall (k : Kernel n) := sysEnvSetUpcall .oflow k
def sysEnvSetBdschkUpcall (k : Kernel n) := sysEnvSetUpcall .bdschk k
def sysEnvSetIllopcdUpcall (k : Kernel n) := sysEnvSetUpcall .illopcd k
def sysEnvSetDvcntavlUpcall (k : Kernel n) := sysEnvSetUpcall .dvcntavl k
def sysEnvSetDbfaultUpcall (k : Kernel n) := sysEnvSetUpcall .dbfault k
def sysEnvSetIvldtssUpcall (k : Kernel n) := sysEnvSetUpcall .ivldtss k
def sysEnvSetSegntprstUpcall (k : Kernel n) := sysEnvSetUpcall .segntprst k
def sysEnvSetStkexceptionUpcall (k : Kernel n) := sysEnvSetUpcall .stkexception k
def sysEnvSetGpfaultUpcall (k : Kernel n) := sysEnvSetUpcall .gpfault k
def sysEnvSetFperrorUpcall (k : Kernel n) := sysEnvSetUpcall .fperror k
def sysEnvSetAlgchkUpcall (k : Kernel n) := sysEnvSetUpcall .algchk k
def sysEnvSetMchchkUpcall (k : Kernel n) := sysEnvSetUpcall .mchchk k
def sysEnvSetSIMDfperrorUpcall (k : Kernel n) := sysEnvSetUpcall .simdfperror k

/-! ## Page calls -/

/-- The test `(uintptr_t)va >= UTOP || ROUNDUP(va, PGSIZE) != va` for a refused address. -/
def badUserPage (va : Word) : Bool := utop ≤ va || roundUp va pgsize != va

/-- The only test of `perm` in `sys_page_alloc` and `sys_page_map`. -/
def lacksUP (perm : Word) : Bool := perm &&& (pteU ||| pteP) != (pteU ||| pteP)

/-- The page is counted here and once more by `page_insert`; without memory the result is the
positive `E_NO_MEM`. -/
def sysPageAlloc (k : Kernel n) (cur : EnvIx) (envid va perm : Word) :
    Except Panic (Int × Kernel n) :=
  match envid2env k cur envid true with
  | none => pure (-eBadEnv, k)
  | some e =>
    if badUserPage va then pure (-eInval, k)
    else if lacksUP perm then pure (-eInval, k)
    else match k.mem.pageAlloc true with
      | (none, m) => pure (eNoMem, { k with mem := m })
      | (some pp, m) => do
        let m := m.incRef pp
        let pgdir ← pgdirOf k e
        let (r, m) ← m.pageInsert pgdir pp va perm
        if r < 0 then
          let m ← m.pageFree pp
          pure (r, { k with mem := m })
        else pure (0, { k with mem := m })

def sysPageMap (k : Kernel n) (cur : EnvIx) (srcenvid srcva dstenvid dstva perm : Word) :
    Except Panic (Int × Kernel n) :=
  match envid2env k cur srcenvid true with
  | none => pure (-eBadEnv, k)
  | some srce =>
    match envid2env k cur dstenvid true with
    | none => pure (-eBadEnv, k)
    | some dste =>
      if badUserPage srcva || badUserPage dstva then pure (-eInval, k)
      else do
        match ← k.mem.pageLookup (← pgdirOf k srce) srcva with
        | none => pure (-eInval, k)
        | some (pp, pt, i) =>
          if lacksUP perm then pure (-eInval, k)
          else if perm &&& pteW ≠ 0 ∧ k.mem.entry pt i &&& pteW = 0 then pure (-eInval, k)
          else do
            let (r, m) ← k.mem.pageInsert (← pgdirOf k dste) pp dstva perm
            pure (r, { k with mem := m })

/-- The id is translated without a permission check. -/
def sysPageUnmap (k : Kernel n) (cur : EnvIx) (envid va : Word) : Except Panic (Int × Kernel n) :=
  match envid2env k cur envid false with
  | none => pure (-eBadEnv, k)
  | some e =>
    if badUserPage va then pure (-eInval, k)
    else do
      let m ← k.mem.pageRemove (← pgdirOf k e) va
      pure (0, { k with mem := m })

/-! ## IPC -/

/-- An index into `env_ipc_waiting[]`. -/
def waitingIx (i : Word) : Except Panic (Fin 10) :=
  if h : i.toNat < 10 then .ok ⟨i.toNat, h⟩ else .error .outOfBounds

/-- The branch of `sys_ipc_try_send` for a target that is not receiving: unless the queue is
full, the caller blocks in it. -/
def ipcEnqueue (k : Kernel n) (cur e : EnvIx) : Except Panic (Int × Kernel n) := do
  let tail := (k.envs e).envIpcWaitingTail
  if (tail + 1) % maxIpcWaiting ≠ (k.envs e).envIpcWaitingHead then
    let k := k.setStatus cur .notRunnable
    let i ← waitingIx tail
    let k := k.modEnv e fun env =>
      { env with
        envIpcWaiting := Function.update env.envIpcWaiting i (k.envs cur).envId
        envIpcWaitingTail := (tail + 1) % maxIpcWaiting }
    pure (-eIpcNotRecv, k)
  else pure (-eIpcNotRecv, k)

/-- The page transfer of `sys_ipc_try_send`: a negative result, or the state in which the
message fields of the receiver are to be written. -/
def ipcSendPage (k : Kernel n) (cur e : EnvIx) (srcva perm : Word) :
    Except Panic (Int × Kernel n) := do
  if srcva < utop then
    if roundUp srcva pgsize ≠ srcva then pure (-eInval, k)
    else
      match ← k.mem.pageLookup (← pgdirOf k cur) srcva with
      | none => pure (-eInval, k)
      | some (pp, pt, i) =>
        let pte := k.mem.entry pt i
        if perm &&& pte ≠ perm then pure (-eInval, k)
        else if perm &&& pteW ≠ 0 ∧ pte &&& pteW = 0 then pure (-eInval, k)
        else if (k.envs e).envIpcDstva < utop then
          let (r, m) ← k.mem.pageInsert (← pgdirOf k e) pp (k.envs e).envIpcDstva perm
          let k := { k with mem := m }
          if r < 0 then pure (r, k)
          else pure (0, k.modEnv e fun env => { env with envIpcPerm := perm })
        else pure (0, k)
  else pure (0, k.modEnv e fun env => { env with envIpcPerm := 0 })

def sysIpcTrySend (k : Kernel n) (cur : EnvIx) (envid value srcva perm : Word) :
    Except Panic (Int × Kernel n) :=
  match envid2env k cur envid false with
  | none => pure (-eBadEnv, k)
  | some e =>
    if (k.envs e).envIpcRecving then do
      let (r, k) ← ipcSendPage k cur e srcva perm
      if r < 0 then pure (r, k)
      else
        let from' := (k.envs cur).envId
        pure (0, k.modEnv e fun env =>
          { env with
            envIpcRecving := false
            envIpcFrom := from'
            envIpcValue := value
            envStatus := .runnable
            envTf := env.envTf.setEax 0 })
    else ipcEnqueue k cur e

/-- The wake-up in `sys_ipc_recv`: takes one id off the queue and makes its environment
runnable. The result is negative when the id is stale. -/
def ipcWakeup (k : Kernel n) (cur : EnvIx) : Except Panic (Int × Kernel n) := do
  let head := (k.envs cur).envIpcWaitingHead
  if head ≠ (k.envs cur).envIpcWaitingTail then
    let i ← waitingIx head
    let envid := (k.envs cur).envIpcWaiting i
    let k := k.modEnv cur fun env =>
      { env with envIpcWaitingHead := (head + 1) % maxIpcWaiting }
    match envid2env k cur envid false with
    | none => pure (-eBadEnv, k)
    | some e => pure (0, k.setStatus e .runnable)
  else pure (0, k)

def sysIpcRecv (k : Kernel n) (c : Cpu) (cur : EnvIx) (dstva : Word) :
    Except Panic (Option Int × Kernel n) :=
  if dstva < utop ∧ roundUp dstva pgsize ≠ dstva then pure (some (-eInval), k)
  else do
    let k := k.modEnv cur fun env =>
      { env with envIpcRecving := true, envIpcDstva := dstva, envStatus := .notRunnable }
    let (r, k) ← ipcWakeup k cur
    if r < 0 then pure (some r, k)
    else
      let k ← sysYield k c
      pure (none, k)

/-! ## Dispatch -/

/-- The system calls, numbered in `inc/syscall.h`. -/
inductive Sys where
  | cputs | cgetc | getenvid | envDestroy | pageAlloc | pageMap | pageUnmap | exofork
  | envSetStatus | yield | ipcTrySend | ipcRecv
  | envSetUpcall (exc : Exc)
  deriving DecidableEq, Repr

def Sys.ofNat : Nat → Option Sys
  | 0 => some .cputs
  | 1 => some .cgetc
  | 2 => some .getenvid
  | 3 => some .envDestroy
  | 4 => some .pageAlloc
  | 5 => some .pageMap
  | 6 => some .pageUnmap
  | 7 => some .exofork
  | 8 => some .envSetStatus
  | 9 => some (.envSetUpcall .pgfault)
  | 10 => some .yield
  | 11 => some .ipcTrySend
  | 12 => some .ipcRecv
  | 13 => some (.envSetUpcall .divzero)
  | 14 => some (.envSetUpcall .debug)
  | 15 => some (.envSetUpcall .nmskint)
  | 16 => some (.envSetUpcall .bpoint)
  | 17 => some (.envSetUpcall .oflow)
  | 18 => some (.envSetUpcall .bdschk)
  | 19 => some (.envSetUpcall .illopcd)
  | 20 => some (.envSetUpcall .dvcntavl)
  | 21 => some (.envSetUpcall .dbfault)
  | 22 => some (.envSetUpcall .ivldtss)
  | 23 => some (.envSetUpcall .segntprst)
  | 24 => some (.envSetUpcall .stkexception)
  | 25 => some (.envSetUpcall .gpfault)
  | 26 => some (.envSetUpcall .fperror)
  | 27 => some (.envSetUpcall .algchk)
  | 28 => some (.envSetUpcall .mchchk)
  | 29 => some (.envSetUpcall .simdfperror)
  | _ => none

/-- The call of `sys_env_set_*_upcall` that the dispatcher makes for each kind. -/
def dispatchSetUpcall (exc : Exc) (k : Kernel n) : EnvIx → Word → Word → Int × Kernel n :=
  match exc with
  | .pgfault => sysEnvSetPgfaultUpcall k
  | .divzero => sysEnvSetDivzeroUpcall k
  | .debug => sysEnvSetDebugUpcall k
  | .nmskint => sysEnvSetNmskintUpcall k
  | .bpoint => sysEnvSetBpointUpcall k
  | .oflow => sysEnvSetOflowUpcall k
  | .bdschk => sysEnvSetBdschkUpcall k
  | .illopcd => sysEnvSetIllopcdUpcall k
  | .dvcntavl => sysEnvSetDvcntavlUpcall k
  | .dbfault => sysEnvSetDbfaultUpcall k
  | .ivldtss => sysEnvSetIvldtssUpcall k
  | .segntprst => sysEnvSetSegntprstUpcall k
  | .stkexception => sysEnvSetStkexceptionUpcall k
  | .gpfault => sysEnvSetGpfaultUpcall k
  | .fperror => sysEnvSetFperrorUpcall k
  | .algchk => sysEnvSetAlgchkUpcall k
  | .mchchk => sysEnvSetMchchkUpcall k
  | .simdfperror => sysEnvSetSIMDfperrorUpcall k

theorem dispatchSetUpcall_eq (exc : Exc) (k : Kernel n) :
    dispatchSetUpcall exc k = sysEnvSetUpcall exc k := by
  cases exc <;> rfl

/-- A handler that always returns. -/
def returning (r : Except Panic (Int × Kernel n)) : Except Panic (Option Int × Kernel n) :=
  r.map fun (v, k) => (some v, k)

/-- `syscall`. The result of `sys_env_destroy` is replaced by `0`. -/
def syscall (k : Kernel n) (c : Cpu) (cur : EnvIx) (io : Inputs)
    (syscallno a1 a2 a3 a4 a5 : Word) : Except Panic (Option Int × Kernel n) :=
  match Sys.ofNat syscallno.toNat with
  | none => pure (some (-eNoSys), k)
  | some .cputs => sysCputs k c cur a1 a2
  | some .cgetc => pure (some io.consGetc.toInt, k)
  | some .getenvid => pure (some (sysGetenvid k cur), k)
  | some .envDestroy => do
    let (r, k) ← sysEnvDestroy k c cur a1
    pure (r.map fun _ => 0, k)
  | some .yield => do
    let k ← sysYield k c
    pure (none, k)
  | some .exofork => returning (sysExofork k cur)
  | some .envSetStatus => returning (pure (sysEnvSetStatus k cur a1 a2))
  | some .pageAlloc => returning (sysPageAlloc k cur a1 a2 a3)
  | some .pageMap => returning (sysPageMap k cur a1 a2 a3 a4 a5)
  | some .pageUnmap => returning (sysPageUnmap k cur a1 a2)
  | some .ipcRecv => sysIpcRecv k c cur a1
  | some .ipcTrySend => returning (sysIpcTrySend k cur a1 a2 a3 a4)
  | some (.envSetUpcall exc) => returning (pure (dispatchSetUpcall exc k cur a1 a2))

end JosKernel
