import JosKernel.Env.Counts

/-!
# System call stubs

The user's side of a system call: the functions of `lib/syscall.c` and `sys_exofork` of
`inc/lib.h`, each of which loads registers and executes `int $T_SYSCALL`. The kernel's side is
`trap_dispatch`, which takes the arguments from the registers and stores the result in `eax`,
and the dispatcher `syscall`.

Together they should act as a call of the kernel function that has the name of the stub.
-/
namespace JosKernel

variable {n : Nat}

/-- The numbers of `inc/syscall.h`. -/
def sysNo : Sys → Word
  | .cputs => 0
  | .cgetc => 1
  | .getenvid => 2
  | .envDestroy => 3
  | .pageAlloc => 4
  | .pageMap => 5
  | .pageUnmap => 6
  | .exofork => 7
  | .envSetStatus => 8
  | .envSetUpcall .pgfault => 9
  | .yield => 10
  | .ipcTrySend => 11
  | .ipcRecv => 12
  | .envSetUpcall .divzero => 13
  | .envSetUpcall .debug => 14
  | .envSetUpcall .nmskint => 15
  | .envSetUpcall .bpoint => 16
  | .envSetUpcall .oflow => 17
  | .envSetUpcall .bdschk => 18
  | .envSetUpcall .illopcd => 19
  | .envSetUpcall .dvcntavl => 20
  | .envSetUpcall .dbfault => 21
  | .envSetUpcall .ivldtss => 22
  | .envSetUpcall .segntprst => 23
  | .envSetUpcall .stkexception => 24
  | .envSetUpcall .gpfault => 25
  | .envSetUpcall .fperror => 26
  | .envSetUpcall .algchk => 27
  | .envSetUpcall .mchchk => 28
  | .envSetUpcall .simdfperror => 29

/-- The stubs, with the arguments of their callers. The eighteen `sys_env_set_*_upcall` differ in
the kind of exception only. The last one is `int $T_SYSCALL` with a number outside the table. -/
inductive Stub where
  | sysCputs (s len : Word)
  | sysCgetc
  | sysEnvDestroy (envid : Word)
  | sysGetenvid
  | sysYield
  | sysPageAlloc (envid va perm : Word)
  | sysPageMap (srcenv srcva dstenv dstva perm : Word)
  | sysPageUnmap (envid va : Word)
  | sysExofork
  | sysEnvSetStatus (envid status : Word)
  | sysEnvSetUpcall (exc : Exc) (envid upcall : Word)
  | sysIpcTrySend (envid value srcva perm : Word)
  | sysIpcRecv (dstva : Word)
  | unknown (num a1 a2 a3 a4 a5 : Word)

/-- The registers at the `int` instruction in the function `syscall` of the library. -/
def libSyscall (num a1 a2 a3 a4 a5 : Word) (regs : PushRegs) : Prop :=
  regs.regEax = num ∧ regs.regEdx = a1 ∧ regs.regEcx = a2 ∧ regs.regEbx = a3 ∧
    regs.regEdi = a4 ∧ regs.regEsi = a5

namespace Stub

/-- The registers with which a stub enters the kernel; `sys_exofork` loads `eax` only. -/
def Loads : Stub → PushRegs → Prop
  | .sysCputs s len => libSyscall (sysNo .cputs) s len 0 0 0
  | .sysCgetc => libSyscall (sysNo .cgetc) 0 0 0 0 0
  | .sysEnvDestroy envid => libSyscall (sysNo .envDestroy) envid 0 0 0 0
  | .sysGetenvid => libSyscall (sysNo .getenvid) 0 0 0 0 0
  | .sysYield => libSyscall (sysNo .yield) 0 0 0 0 0
  | .sysPageAlloc envid va perm => libSyscall (sysNo .pageAlloc) envid va perm 0 0
  | .sysPageMap srcenv srcva dstenv dstva perm =>
    libSyscall (sysNo .pageMap) srcenv srcva dstenv dstva perm
  | .sysPageUnmap envid va => libSyscall (sysNo .pageUnmap) envid va 0 0 0
  | .sysExofork => fun regs => regs.regEax = sysNo .exofork
  | .sysEnvSetStatus envid status => libSyscall (sysNo .envSetStatus) envid status 0 0 0
  | .sysEnvSetUpcall exc envid upcall => libSyscall (sysNo (.envSetUpcall exc)) envid upcall 0 0 0
  | .sysIpcTrySend envid value srcva perm =>
    libSyscall (sysNo .ipcTrySend) envid value srcva perm 0
  | .sysIpcRecv dstva => libSyscall (sysNo .ipcRecv) dstva 0 0 0 0
  | .unknown num a1 a2 a3 a4 a5 => fun regs =>
    30 ≤ num.toNat ∧ libSyscall num a1 a2 a3 a4 a5 regs

/-- The call of the kernel function with the same name. A function without a result counts as
returning `0`. -/
def handler (k : Kernel n) (c : Cpu) (cur : EnvIx) (io : Inputs) :
    Stub → Except Panic (Option Int × Kernel n)
  | .sysCputs s len => JosKernel.sysCputs k c cur s len
  | .sysCgetc => pure (some io.consGetc.toInt, k)
  | .sysEnvDestroy envid => JosKernel.sysEnvDestroy k c cur envid
  | .sysGetenvid => pure (some (JosKernel.sysGetenvid k cur), k)
  | .sysYield => do pure (none, ← JosKernel.sysYield k c)
  | .sysPageAlloc envid va perm => returning (JosKernel.sysPageAlloc k cur envid va perm)
  | .sysPageMap srcenv srcva dstenv dstva perm =>
    returning (JosKernel.sysPageMap k cur srcenv srcva dstenv dstva perm)
  | .sysPageUnmap envid va => returning (JosKernel.sysPageUnmap k cur envid va)
  | .sysExofork => returning (JosKernel.sysExofork k cur)
  | .sysEnvSetStatus envid status => returning (pure (JosKernel.sysEnvSetStatus k cur envid status))
  | .sysEnvSetUpcall exc envid upcall =>
    returning (pure (JosKernel.sysEnvSetUpcall exc k cur envid upcall))
  | .sysIpcTrySend envid value srcva perm =>
    returning (JosKernel.sysIpcTrySend k cur envid value srcva perm)
  | .sysIpcRecv dstva => JosKernel.sysIpcRecv k c cur dstva
  | .unknown .. => pure (some (-eNoSys), k)

end Stub

/-- What should become of the result of a handler: a function that returns leaves its value in
the caller's `eax`. -/
def reported (cur : EnvIx) (res : Except Panic (Option Int × Kernel n)) :
    Except Panic (Option Unit × Kernel n) :=
  res.map fun (r, k) => match r with
    | none => (none, k)
    | some v => (some (), setResult k cur v)

/-- The system call by the environment `cur` acts as a call of the handler. -/
structure Reports (k : Kernel n) (c : Cpu) (cur : EnvIx) (tf : Trapframe) (io : Inputs)
    (call : Stub) : Prop where
  /-- The handler is called with the arguments of the stub, and its result is reported. An
  environment that another one has destroyed does not get as far. -/
  dispatched : k.status cur ≠ .dying → trapDispatch (saved k cur tf) c cur tf io =
    reported cur (call.handler (saved k cur tf) c cur io)
  /-- At the end of the trap the value is still in the caller's `eax`. -/
  eax : k.status cur ≠ .dying → ∀ v k₁ k',
    call.handler (saved k cur tf) c cur io = .ok (some v, k₁) → trap k c tf io = .ok k' →
      (k'.envs cur).envTf.tfRegs.regEax = BitVec.ofInt 32 v

/-- `sys_env_destroy` fails: the dispatcher ignores its result. -/
def DropsResult (k : Kernel n) (cur : EnvIx) (call : Stub) : Prop :=
  k.status cur ≠ .dying ∧
    ∃ envid, call = .sysEnvDestroy envid ∧ envid2env k cur envid true = none

/-! ## Dispatch -/

variable {k k' : Kernel n} {c : Cpu} {cur : EnvIx} {tf : Trapframe} {io : Inputs} {call : Stub}

theorem ofNat_sysNo (s : Sys) : Sys.ofNat (sysNo s).toNat = some s := by
  cases s with
  | envSetUpcall exc => cases exc <;> rfl
  | _ => rfl

theorem ofNat_of_le {i : Nat} (h : 30 ≤ i) : Sys.ofNat i = none := by
  unfold Sys.ofNat
  split <;> first | omega | rfl

theorem trapDispatch_of_syscall (hno : tf.tfTrapno = 48) :
    trapDispatch k c cur tf io = reported cur (syscall k c cur io tf.tfRegs.regEax
      tf.tfRegs.regEdx tf.tfRegs.regEcx tf.tfRegs.regEbx tf.tfRegs.regEdi tf.tfRegs.regEsi) := by
  have hexc : Exc.ofTrapno tf.tfTrapno.toNat = none := by
    rw [hno]
    rfl
  unfold trapDispatch
  rw [hexc]
  simp only [if_pos hno]
  unfold trapSyscall
  cases syscall k c cur io tf.tfRegs.regEax tf.tfRegs.regEdx tf.tfRegs.regEcx
      tf.tfRegs.regEbx tf.tfRegs.regEdi tf.tfRegs.regEsi with
  | error p => rfl
  | ok res =>
    obtain ⟨r, k₁⟩ := res
    cases r <;> rfl

/-- The dispatcher calls the handler and returns its result, with one exception. -/
theorem syscall_of_loads (h : call.Loads tf.tfRegs) (hne : ∀ envid, call ≠ .sysEnvDestroy envid) :
    syscall k c cur io tf.tfRegs.regEax tf.tfRegs.regEdx tf.tfRegs.regEcx tf.tfRegs.regEbx
      tf.tfRegs.regEdi tf.tfRegs.regEsi = call.handler k c cur io := by
  cases call with
  | sysEnvDestroy envid => exact absurd rfl (hne envid)
  | sysExofork =>
    have h0 : tf.tfRegs.regEax = sysNo .exofork := h
    unfold syscall
    rw [h0, ofNat_sysNo]
    rfl
  | sysEnvSetUpcall exc envid upcall =>
    obtain ⟨h0, h1, h2, -⟩ := h
    unfold syscall
    rw [h0, ofNat_sysNo, h1, h2]
    show returning (pure (dispatchSetUpcall exc k cur envid upcall)) = _
    rw [dispatchSetUpcall_eq]
    rfl
  | unknown num a1 a2 a3 a4 a5 =>
    obtain ⟨hnum, h0, -⟩ := h
    unfold syscall
    rw [h0, ofNat_of_le hnum]
    rfl
  | _ =>
    obtain ⟨h0, h1, h2, h3, h4, h5⟩ := h
    unfold syscall
    rw [h0, ofNat_sysNo, h1, h2, h3, h4, h5]
    rfl

theorem syscall_envDestroy {envid : Word} (h : (Stub.sysEnvDestroy envid).Loads tf.tfRegs) :
    syscall k c cur io tf.tfRegs.regEax tf.tfRegs.regEdx tf.tfRegs.regEcx tf.tfRegs.regEbx
        tf.tfRegs.regEdi tf.tfRegs.regEsi =
      (sysEnvDestroy k c cur envid).map fun (r, k) => (r.map fun _ => 0, k) := by
  obtain ⟨h0, h1, -⟩ := h
  unfold syscall
  rw [h0, ofNat_sysNo, h1]
  simp only []
  cases sysEnvDestroy k c cur envid <;> rfl

/-- A call that succeeds returns `0`. -/
theorem sysEnvDestroy_result {envid : Word} {e : EnvIx} (he : envid2env k cur envid true = some e) :
    (sysEnvDestroy k c cur envid).map (fun (r, k) => (r.map fun _ => 0, k)) =
      sysEnvDestroy k c cur envid := by
  unfold sysEnvDestroy
  simp only [he]
  cases envDestroy k c e with
  | error p => rfl
  | ok res =>
    obtain ⟨r, k₁⟩ := res
    cases r <;> rfl

theorem sysEnvDestroy_fails {envid : Word} (he : envid2env k cur envid true = none) :
    sysEnvDestroy k c cur envid = .ok (some (-eBadEnv), k) := by
  unfold sysEnvDestroy
  rw [he]
  rfl

/-- The calls whose result is kept. -/
theorem trapDispatch_of_not_dropsResult (c : Cpu) (io : Inputs) (hno : tf.tfTrapno = 48)
    (h : call.Loads tf.tfRegs) (hd : k.status cur ≠ .dying) (hkeep : ¬DropsResult k cur call) :
    trapDispatch (saved k cur tf) c cur tf io =
      reported cur (call.handler (saved k cur tf) c cur io) := by
  rw [trapDispatch_of_syscall hno]
  by_cases hcall : ∃ envid, call = .sysEnvDestroy envid
  · obtain ⟨envid, rfl⟩ := hcall
    rw [syscall_envDestroy h]
    cases he : envid2env k cur envid true with
    | none => exact absurd ⟨hd, envid, rfl, he⟩ hkeep
    | some e =>
      rw [← envid2env_saved k cur tf] at he
      rw [sysEnvDestroy_result he]
      rfl
  · rw [syscall_of_loads h (not_exists.mp hcall)]

/-- The call whose result is dropped. -/
theorem trapDispatch_of_dropsResult (c : Cpu) (io : Inputs) (hno : tf.tfTrapno = 48)
    (h : call.Loads tf.tfRegs) (hdrop : DropsResult k cur call) :
    trapDispatch (saved k cur tf) c cur tf io =
        .ok (some (), setResult (saved k cur tf) cur 0) ∧
      reported cur (call.handler (saved k cur tf) c cur io) =
        .ok (some (), setResult (saved k cur tf) cur (-eBadEnv)) := by
  obtain ⟨-, envid, rfl, he⟩ := hdrop
  rw [← envid2env_saved k cur tf] at he
  have hfails := sysEnvDestroy_fails (c := c) he
  refine ⟨?_, congrArg (reported cur) hfails⟩
  rw [trapDispatch_of_syscall hno, syscall_envDestroy h, hfails]
  rfl

/-! ## The end of the trap -/

theorem envTf_of_ran {e : EnvIx} (h : Ran k c e k') (i : EnvIx) :
    (k'.envs i).envTf = (k.envs i).envTf := by
  show (k'.envs i).core.envTf = (k.envs i).core.envTf
  rw [h.core]

theorem envTf_of_scheduled (h : Scheduled k c k') (i : EnvIx) :
    (k'.envs i).envTf = (k.envs i).envTf := by
  cases h with
  | next _ run => exact envTf_of_ran run i
  | same _ _ _ run => exact envTf_of_ran run i
  | halt _ _ =>
    unfold schedHalt
    split_ifs <;> rfl

/-- Going back to user mode changes no saved registers. -/
theorem envTf_trapReturn (h : trapReturn k c = .ok k') (i : EnvIx) :
    (k'.envs i).envTf = (k.envs i).envTf := by
  cases trapReturn_resumed h with
  | run _ _ run => exact envTf_of_ran run i
  | yield _ sched => exact envTf_of_scheduled sched i

theorem regEax_setResult (k : Kernel n) (cur : EnvIx) (v : Int) :
    ((setResult k cur v).envs cur).envTf.tfRegs.regEax = BitVec.ofInt 32 v := by
  simp [setResult, Trapframe.setEax]

theorem not_reports_of_dropsResult (hno : tf.tfTrapno = 48) (h : call.Loads tf.tfRegs)
    (hdrop : DropsResult k cur call) : ¬Reports k c cur tf io call := by
  intro hrep
  obtain ⟨hgot, hwant⟩ := trapDispatch_of_dropsResult c io hno h hdrop
  have heq := hrep.dispatched hdrop.1
  rw [hgot, hwant] at heq
  have hstate := (Prod.mk.inj (Except.ok.inj heq)).2
  have heax := congrArg (fun k : Kernel n => (k.envs cur).envTf.tfRegs.regEax) hstate
  simp only [regEax_setResult] at heax
  exact absurd heax (by decide)

/-- A system call reports the result of the handler exactly when it is not `sys_env_destroy` with
an id that the caller has no permission for. -/
theorem reports_iff (hcur : k.curenv c = some cur) (hno : tf.tfTrapno = 48)
    (h : call.Loads tf.tfRegs) : Reports k c cur tf io call ↔ ¬DropsResult k cur call := by
  constructor
  · exact fun hrep hdrop => not_reports_of_dropsResult hno h hdrop hrep
  · intro hkeep
    refine ⟨fun hd => trapDispatch_of_not_dropsResult c io hno h hd hkeep,
      fun hd v k₁ k' hv htrap => ?_⟩
    have hdispatch := trapDispatch_of_not_dropsResult c io hno h hd hkeep
    rw [hv] at hdispatch
    unfold trap at htrap
    rw [hcur] at htrap
    simp only [if_neg hd] at htrap
    obtain ⟨⟨r, k₂⟩, hdisp, hret⟩ := bind_ok.mp htrap
    obtain ⟨rfl, rfl⟩ := Prod.mk.inj (Except.ok.inj (hdisp.symm.trans hdispatch))
    rw [envTf_trapReturn hret, regEax_setResult]

/-- The first environment asks for its id. -/
theorem reports_getenvid :
    smallRunning.curenv 0 = some 0 ∧
      Reports smallRunning 0 0
        { freshTf with tfTrapno := 48, tfRegs := ⟨0, 0, 0, 0, 0, 0, 0, 2⟩ } ⟨0, 0⟩
        .sysGetenvid := by
  have hcur : smallRunning.curenv 0 = some 0 := by decide +kernel
  have hloads : Stub.sysGetenvid.Loads ⟨0, 0, 0, 0, 0, 0, 0, 2⟩ := ⟨rfl, rfl, rfl, rfl, rfl, rfl⟩
  refine ⟨hcur, (reports_iff hcur rfl hloads).mpr ?_⟩
  rintro ⟨-, envid, hcall, -⟩
  cases hcall

/-- The first environment tries to destroy an environment that does not exist. -/
theorem not_reports_badEnv :
    ¬Reports smallRunning 0 0
      { freshTf with tfTrapno := 48, tfRegs := ⟨0, 0, 0, 0, 0, 0x1001, 0, 3⟩ } ⟨0, 0⟩
      (.sysEnvDestroy 0x1001) := by
  have hloads : (Stub.sysEnvDestroy 0x1001).Loads ⟨0, 0, 0, 0, 0, 0x1001, 0, 3⟩ :=
    ⟨rfl, rfl, rfl, rfl, rfl, rfl⟩
  exact not_reports_of_dropsResult rfl hloads
    ⟨by decide +kernel, _, rfl, by decide +kernel⟩

end JosKernel
