import JosKernel.Env.Cpus
import JosKernel.Lib.Cache

/-!
# Translation look-aside buffers

What the kernel does to the TLB of the CPU on which it runs. A function `fTlb` takes the
arguments of the kernel function `f` and the buffer on its entry and gives the buffer on its
exit: `lcr3` empties it and `invlpg` drops the entry of one page. Nothing that the kernel does
fills a buffer; the hardware does that, on its own, from the page table in CR3.

Two facts carry what follows. A kernel entry only forgets translations, and when it changes the
environment of its CPU it forgets all of them.
-/
namespace JosKernel

open Lib

/-- Entries for pages of user memory, by directory and table index. -/
abbrev Tlb := Cache (Fin 1024 × Fin 1024) Word

/-- The page of an address. -/
def vpn (va : Word) : Fin 1024 × Fin 1024 := (pdx va, ptx va)

variable {n : Nat}

/-! ## Pages -/

/-- `tlb_invalidate`: `invlpg` if there is no current environment or `pgdir` is its own. -/
def tlbInvalidate (k : Kernel n) (c : Cpu) (pgdir : Fin n) (va : Word) (t : Tlb) : Tlb :=
  match k.curenv c with
  | none => t.drop (vpn va)
  | some cur => if (k.envs cur).envPgdir = some pgdir then t.drop (vpn va) else t

def pageRemoveTlb (k : Kernel n) (c : Cpu) (m : Mem n) (pgdir : Fin n) (va : Word) (t : Tlb) :
    Tlb :=
  match m.pageLookup pgdir va with
  | .ok (some _) => tlbInvalidate k c pgdir va t
  | _ => t

/-- `page_insert` calls `page_remove` when something is mapped already. -/
def pageInsertTlb (k : Kernel n) (c : Cpu) (m : Mem n) (pgdir pp : Fin n) (va : Word) (t : Tlb) :
    Tlb :=
  match m.pgdirWalk pgdir va true with
  | .ok (some (pt, i), m) =>
    if present ((m.incRef pp).entry pt i) then pageRemoveTlb k c (m.incRef pp) pgdir va t else t
  | _ => t

/-! ## Environments -/

def envFreePtesTlb (k : Kernel n) (c : Cpu) (m : Mem n) (pgdir pt : Fin n) (d : Fin 1024) :
    List (Fin 1024) → Tlb → Tlb
  | [], t => t
  | i :: is, t =>
    if present (m.entry pt i) then
      match m.pageRemove pgdir (pgaddr d i 0) with
      | .ok m' => envFreePtesTlb k c m' pgdir pt d is (pageRemoveTlb k c m pgdir (pgaddr d i 0) t)
      | .error _ => t
    else envFreePtesTlb k c m pgdir pt d is t

def envFreePdeTlb (k : Kernel n) (c : Cpu) (m : Mem n) (pgdir : Fin n) (d : Fin 1024) (t : Tlb) :
    Tlb :=
  if present (m.entry pgdir d) then
    match kaddr n (pteAddr (m.entry pgdir d)) with
    | .ok pt => envFreePtesTlb k c m pgdir pt d (List.finRange 1024) t
    | .error _ => t
  else t

def envFreePdesTlb (k : Kernel n) (c : Cpu) (m : Mem n) (pgdir : Fin n) :
    List (Fin 1024) → Tlb → Tlb
  | [], t => t
  | d :: ds, t =>
    match envFreePde m pgdir d with
    | .ok m' => envFreePdesTlb k c m' pgdir ds (envFreePdeTlb k c m pgdir d t)
    | .error _ => t

/-- `env_free` loads `kern_pgdir` if it frees the current environment. -/
def envFreeTlb (k : Kernel n) (c : Cpu) (e : EnvIx) (t : Tlb) : Tlb :=
  let t := if k.curenv c = some e then .empty else t
  match (k.envs e).envPgdir with
  | none => t
  | some pgdir => envFreePdesTlb k c k.mem pgdir userPdxs t

/-- `env_run` loads CR3 only on a context switch. -/
def envRunTlb (k : Kernel n) (c : Cpu) (e : EnvIx) (t : Tlb) : Tlb :=
  if k.curenv c = some e then t else .empty

def schedHaltTlb (k : Kernel n) (t : Tlb) : Tlb :=
  if ∃ e, k.status e = .runnable ∨ k.status e = .running ∨ k.status e = .dying then .empty else t

def schedYieldTlb (k : Kernel n) (c : Cpu) (t : Tlb) : Tlb :=
  match (schedOrder (schedOffset k c)).find? fun e => k.status e = .runnable with
  | some e => envRunTlb k c e t
  | none =>
    match k.curenv c with
    | some cur => if k.status cur = .running then envRunTlb k c cur t else schedHaltTlb k t
    | none => schedHaltTlb k t

def envDestroyTlb (k : Kernel n) (c : Cpu) (e : EnvIx) (t : Tlb) : Tlb :=
  if k.status e = .running ∧ k.curenv c ≠ some e then t
  else
    match envFree k c e with
    | .error _ => t
    | .ok k' =>
      if k'.curenv c = some e then
        schedYieldTlb (k'.modCpu c fun cpu => { cpu with cpuEnv := none }) c (envFreeTlb k c e t)
      else envFreeTlb k c e t

def userMemAssertTlb (k : Kernel n) (c : Cpu) (e : EnvIx) (va len perm : Word) (t : Tlb) : Tlb :=
  match pgdirOf k e with
  | .error _ => t
  | .ok pgdir =>
    match k.mem.userMemCheck pgdir va len (perm ||| pteU) with
    | .ok (some _) => envDestroyTlb k c e t
    | _ => t

/-! ## System calls -/

def sysEnvDestroyTlb (k : Kernel n) (c : Cpu) (cur : EnvIx) (envid : Word) (t : Tlb) : Tlb :=
  match envid2env k cur envid true with
  | none => t
  | some e => envDestroyTlb k c e t

def sysPageAllocTlb (k : Kernel n) (c : Cpu) (cur : EnvIx) (envid va perm : Word) (t : Tlb) :
    Tlb :=
  match envid2env k cur envid true with
  | none => t
  | some e =>
    if badUserPage va then t
    else if lacksUP perm then t
    else match k.mem.pageAlloc true with
      | (none, _) => t
      | (some pp, m) =>
        match pgdirOf k e with
        | .error _ => t
        | .ok pgdir => pageInsertTlb k c (m.incRef pp) pgdir pp va t

def sysPageMapTlb (k : Kernel n) (c : Cpu) (cur : EnvIx)
    (srcenvid srcva dstenvid dstva perm : Word) (t : Tlb) : Tlb :=
  match envid2env k cur srcenvid true with
  | none => t
  | some srce =>
    match envid2env k cur dstenvid true with
    | none => t
    | some dste =>
      if badUserPage srcva || badUserPage dstva then t
      else
        match pgdirOf k srce with
        | .error _ => t
        | .ok srcdir =>
          match k.mem.pageLookup srcdir srcva with
          | .ok (some (pp, pt, i)) =>
            if lacksUP perm then t
            else if perm &&& pteW ≠ 0 ∧ k.mem.entry pt i &&& pteW = 0 then t
            else
              match pgdirOf k dste with
              | .error _ => t
              | .ok dstdir => pageInsertTlb k c k.mem dstdir pp dstva t
          | _ => t

def sysPageUnmapTlb (k : Kernel n) (c : Cpu) (cur : EnvIx) (envid va : Word) (t : Tlb) : Tlb :=
  match envid2env k cur envid false with
  | none => t
  | some e =>
    if badUserPage va then t
    else
      match pgdirOf k e with
      | .error _ => t
      | .ok pgdir => pageRemoveTlb k c k.mem pgdir va t

def ipcSendPageTlb (k : Kernel n) (c : Cpu) (cur e : EnvIx) (srcva perm : Word) (t : Tlb) : Tlb :=
  if srcva < utop then
    if roundUp srcva pgsize ≠ srcva then t
    else
      match pgdirOf k cur with
      | .error _ => t
      | .ok srcdir =>
        match k.mem.pageLookup srcdir srcva with
        | .ok (some (pp, pt, i)) =>
          if perm &&& k.mem.entry pt i ≠ perm then t
          else if perm &&& pteW ≠ 0 ∧ k.mem.entry pt i &&& pteW = 0 then t
          else if (k.envs e).envIpcDstva < utop then
            match pgdirOf k e with
            | .error _ => t
            | .ok dstdir => pageInsertTlb k c k.mem dstdir pp (k.envs e).envIpcDstva t
          else t
        | _ => t
  else t

def sysIpcTrySendTlb (k : Kernel n) (c : Cpu) (cur : EnvIx) (envid srcva perm : Word) (t : Tlb) :
    Tlb :=
  match envid2env k cur envid false with
  | none => t
  | some e => if (k.envs e).envIpcRecving then ipcSendPageTlb k c cur e srcva perm t else t

def sysIpcRecvTlb (k : Kernel n) (c : Cpu) (cur : EnvIx) (dstva : Word) (t : Tlb) : Tlb :=
  if dstva < utop ∧ roundUp dstva pgsize ≠ dstva then t
  else
    let k := k.modEnv cur fun env =>
      { env with envIpcRecving := true, envIpcDstva := dstva, envStatus := .notRunnable }
    match ipcWakeup k cur with
    | .error _ => t
    | .ok (r, k) => if r < 0 then t else schedYieldTlb k c t

def syscallTlb (k : Kernel n) (c : Cpu) (cur : EnvIx) (syscallno a1 a2 a3 a4 a5 : Word)
    (t : Tlb) : Tlb :=
  match Sys.ofNat syscallno.toNat with
  | some .cputs => userMemAssertTlb k c cur a1 a2 0 t
  | some .envDestroy => sysEnvDestroyTlb k c cur a1 t
  | some .yield => schedYieldTlb k c t
  | some .pageAlloc => sysPageAllocTlb k c cur a1 a2 a3 t
  | some .pageMap => sysPageMapTlb k c cur a1 a2 a3 a4 a5 t
  | some .pageUnmap => sysPageUnmapTlb k c cur a1 a2 t
  | some .ipcRecv => sysIpcRecvTlb k c cur a1 t
  | some .ipcTrySend => sysIpcTrySendTlb k c cur a1 a3 a4 t
  | _ => t

/-! ## Traps -/

def excHandlerTlb (exc : Exc) (k : Kernel n) (c : Cpu) (cur : EnvIx) (tf : Trapframe) (t : Tlb) :
    Tlb :=
  if (k.envs cur).envUpcall exc ≠ 0 then
    let t := userMemAssertTlb k c cur (utfAddr tf.tfEsp) 1 pteW t
    match userMemAssert k c cur (utfAddr tf.tfEsp) 1 pteW with
    | .ok (some _, k) => envRunTlb k c cur t
    | _ => t
  else envDestroyTlb k c cur t

def trapSyscallTlb (k : Kernel n) (c : Cpu) (cur : EnvIx) (tf : Trapframe) (t : Tlb) : Tlb :=
  syscallTlb k c cur tf.tfRegs.regEax tf.tfRegs.regEdx tf.tfRegs.regEcx tf.tfRegs.regEbx
    tf.tfRegs.regEdi tf.tfRegs.regEsi t

def trapDispatchTlb (k : Kernel n) (c : Cpu) (cur : EnvIx) (tf : Trapframe) (t : Tlb) : Tlb :=
  match Exc.ofTrapno tf.tfTrapno.toNat with
  | some exc => excHandlerTlb exc k c cur tf t
  | none =>
    if tf.tfTrapno = 48 then trapSyscallTlb k c cur tf t
    else if tf.tfTrapno = 39 then t
    else if tf.tfTrapno = 32 then schedYieldTlb k c t
    else envDestroyTlb k c cur t

def trapReturnTlb (k : Kernel n) (c : Cpu) (t : Tlb) : Tlb :=
  match k.curenv c with
  | some cur => if k.status cur = .running then envRunTlb k c cur t else schedYieldTlb k c t
  | none => schedYieldTlb k c t

def trapTlb (k : Kernel n) (c : Cpu) (tf : Trapframe) (io : Inputs) (t : Tlb) : Tlb :=
  match k.curenv c with
  | none => t
  | some cur =>
    if k.status cur = .dying then
      match envFree k c cur with
      | .error _ => t
      | .ok k' => schedYieldTlb (k'.modCpu c fun cpu => { cpu with cpuEnv := none }) c
          (envFreeTlb k c cur t)
    else
      let k := k.modEnv cur fun env => { env with envTf := tf }
      match trapDispatch k c cur tf io with
      | .ok (some _, k') => trapReturnTlb k' c (trapDispatchTlb k c cur tf t)
      | _ => trapDispatchTlb k c cur tf t

def trapHaltedTlb (k : Kernel n) (c : Cpu) (trapno : Word) (t : Tlb) : Tlb :=
  if trapno = 32 then schedYieldTlb k c t
  else if trapno = 39 then trapReturnTlb k c t
  else t

/-- The buffer of the CPU that makes the step. -/
def performTlb (k : Kernel n) : Action → Tlb → Tlb
  | .trap c tf io, t => trapTlb k c tf io t
  | .wake c trapno, t => trapHaltedTlb k c trapno t
  | .start c, t => schedYieldTlb k c t
  | .access _ _ _, t => t

/-! ## The kernel only forgets -/

section
variable (k : Kernel n) (c : Cpu) (m : Mem n) (pgdir pt : Fin n) (d : Fin 1024) (cur e : EnvIx)
  (va : Word) (t : Tlb)

theorem tlbInvalidate_sub : (tlbInvalidate k c pgdir va t).Sub t := by
  unfold tlbInvalidate
  split
  · exact t.drop_sub _
  · split_ifs
    · exact t.drop_sub _
    · exact .refl t

theorem pageRemoveTlb_sub : (pageRemoveTlb k c m pgdir va t).Sub t := by
  unfold pageRemoveTlb
  split
  · exact tlbInvalidate_sub ..
  · exact .refl t

theorem pageInsertTlb_sub (pp : Fin n) : (pageInsertTlb k c m pgdir pp va t).Sub t := by
  unfold pageInsertTlb
  split
  · split_ifs
    · exact pageRemoveTlb_sub ..
    · exact .refl t
  · exact .refl t

theorem envFreePtesTlb_sub (is : List (Fin 1024)) :
    (envFreePtesTlb k c m pgdir pt d is t).Sub t := by
  induction is generalizing m t with
  | nil => exact .refl t
  | cons i is ih =>
    unfold envFreePtesTlb
    split_ifs
    · split
      · exact (ih ..).trans (pageRemoveTlb_sub ..)
      · exact .refl t
    · exact ih ..

theorem envFreePdeTlb_sub : (envFreePdeTlb k c m pgdir d t).Sub t := by
  unfold envFreePdeTlb
  split_ifs
  · split
    · exact envFreePtesTlb_sub ..
    · exact .refl t
  · exact .refl t

theorem envFreePdesTlb_sub (ds : List (Fin 1024)) :
    (envFreePdesTlb k c m pgdir ds t).Sub t := by
  induction ds generalizing m t with
  | nil => exact .refl t
  | cons d ds ih =>
    unfold envFreePdesTlb
    split
    · exact (ih ..).trans (envFreePdeTlb_sub ..)
    · exact .refl t

theorem envFreeTlb_sub_ite :
    (envFreeTlb k c e t).Sub (if k.curenv c = some e then .empty else t) := by
  unfold envFreeTlb
  simp only
  split
  · exact .refl _
  · exact envFreePdesTlb_sub ..

theorem envFreeTlb_sub : (envFreeTlb k c e t).Sub t := by
  refine (envFreeTlb_sub_ite ..).trans ?_
  split_ifs
  · exact Cache.empty_sub t
  · exact .refl t

/-- Nothing is left of the translations of a current environment that is freed. -/
theorem envFreeTlb_self {k : Kernel n} {c : Cpu} {e : EnvIx} (hc : k.curenv c = some e) (t : Tlb) :
    envFreeTlb k c e t = .empty := by
  have h := envFreeTlb_sub_ite k c e t
  rw [if_pos hc] at h
  exact h.eq_empty

theorem envRunTlb_sub : (envRunTlb k c e t).Sub t := by
  unfold envRunTlb
  split_ifs
  · exact .refl t
  · exact Cache.empty_sub t

theorem schedHaltTlb_sub : (schedHaltTlb k t).Sub t := by
  unfold schedHaltTlb
  split_ifs
  · exact Cache.empty_sub t
  · exact .refl t

theorem schedYieldTlb_sub : (schedYieldTlb k c t).Sub t := by
  unfold schedYieldTlb
  split
  · exact envRunTlb_sub ..
  · split
    · split_ifs
      · exact envRunTlb_sub ..
      · exact schedHaltTlb_sub ..
    · exact schedHaltTlb_sub ..

theorem envDestroyTlb_sub : (envDestroyTlb k c e t).Sub t := by
  unfold envDestroyTlb
  split_ifs
  · exact .refl t
  · split
    · exact .refl t
    · split_ifs
      · exact (schedYieldTlb_sub ..).trans (envFreeTlb_sub ..)
      · exact envFreeTlb_sub ..

theorem userMemAssertTlb_sub (len perm : Word) :
    (userMemAssertTlb k c e va len perm t).Sub t := by
  unfold userMemAssertTlb
  split
  · exact .refl t
  · split
    · exact envDestroyTlb_sub ..
    · exact .refl t

theorem sysPageAllocTlb_sub (envid perm : Word) :
    (sysPageAllocTlb k c cur envid va perm t).Sub t := by
  unfold sysPageAllocTlb
  split
  · exact .refl t
  · split_ifs
    · exact .refl t
    · exact .refl t
    · split
      · exact .refl t
      · split
        · exact .refl t
        · exact pageInsertTlb_sub ..

theorem sysPageMapTlb_sub (srcenvid srcva dstenvid dstva perm : Word) :
    (sysPageMapTlb k c cur srcenvid srcva dstenvid dstva perm t).Sub t := by
  unfold sysPageMapTlb
  repeat' split
  all_goals first | exact .refl t | exact pageInsertTlb_sub ..

theorem sysPageUnmapTlb_sub (envid : Word) : (sysPageUnmapTlb k c cur envid va t).Sub t := by
  unfold sysPageUnmapTlb
  repeat' split
  all_goals first | exact .refl t | exact pageRemoveTlb_sub ..

theorem ipcSendPageTlb_sub (srcva perm : Word) :
    (ipcSendPageTlb k c cur e srcva perm t).Sub t := by
  unfold ipcSendPageTlb
  repeat' split
  all_goals first | exact .refl t | exact pageInsertTlb_sub ..

theorem syscallTlb_sub (no a1 a2 a3 a4 a5 : Word) :
    (syscallTlb k c cur no a1 a2 a3 a4 a5 t).Sub t := by
  unfold syscallTlb
  split
  · exact userMemAssertTlb_sub ..
  · unfold sysEnvDestroyTlb
    split
    · exact .refl t
    · exact envDestroyTlb_sub ..
  · exact schedYieldTlb_sub ..
  · exact sysPageAllocTlb_sub ..
  · exact sysPageMapTlb_sub ..
  · exact sysPageUnmapTlb_sub ..
  · unfold sysIpcRecvTlb
    split_ifs
    · exact .refl t
    · simp only
      split
      · exact .refl t
      · split_ifs
        · exact .refl t
        · exact schedYieldTlb_sub ..
  · unfold sysIpcTrySendTlb
    split
    · exact .refl t
    · split_ifs
      · exact ipcSendPageTlb_sub ..
      · exact .refl t
  · exact .refl t

theorem excHandlerTlb_sub (exc : Exc) (tf : Trapframe) :
    (excHandlerTlb exc k c cur tf t).Sub t := by
  unfold excHandlerTlb
  split_ifs
  · simp only
    split
    · exact (envRunTlb_sub ..).trans (userMemAssertTlb_sub ..)
    · exact userMemAssertTlb_sub ..
  · exact envDestroyTlb_sub ..

theorem trapDispatchTlb_sub (tf : Trapframe) : (trapDispatchTlb k c cur tf t).Sub t := by
  unfold trapDispatchTlb
  split
  · exact excHandlerTlb_sub ..
  · split_ifs
    · exact syscallTlb_sub ..
    · exact .refl t
    · exact schedYieldTlb_sub ..
    · exact envDestroyTlb_sub ..

theorem trapReturnTlb_sub : (trapReturnTlb k c t).Sub t := by
  unfold trapReturnTlb
  split
  · split_ifs
    · exact envRunTlb_sub ..
    · exact schedYieldTlb_sub ..
  · exact schedYieldTlb_sub ..

theorem trapTlb_sub (tf : Trapframe) (io : Inputs) : (trapTlb k c tf io t).Sub t := by
  unfold trapTlb
  split
  · exact .refl t
  · split_ifs
    · split
      · exact .refl t
      · exact (schedYieldTlb_sub ..).trans (envFreeTlb_sub ..)
    · simp only
      split
      · exact (trapReturnTlb_sub ..).trans (trapDispatchTlb_sub ..)
      · exact trapDispatchTlb_sub ..

/-- A system call or exception, up to the end of its handler. -/
theorem trapTlb_sub_dispatch {k : Kernel n} {c : Cpu} {cur : EnvIx} (hc : k.curenv c = some cur)
    (hd : k.status cur ≠ .dying) (tf : Trapframe) (io : Inputs) (t : Tlb) :
    (trapTlb k c tf io t).Sub (trapDispatchTlb (saved k cur tf) c cur tf t) := by
  unfold trapTlb
  simp only [hc, if_neg hd]
  split
  · exact trapReturnTlb_sub ..
  · exact .refl _

theorem performTlb_sub (a : Action) : (performTlb k a t).Sub t := by
  cases a with
  | trap c tf io => exact trapTlb_sub ..
  | wake c trapno =>
    simp only [performTlb, trapHaltedTlb]
    split_ifs
    · exact schedYieldTlb_sub ..
    · exact trapReturnTlb_sub ..
    · exact .refl t
  | start c =>
    rw [performTlb]
    exact schedYieldTlb_sub ..
  | access c va store =>
    rw [performTlb]
    exact .refl t

end

/-! ## A switch empties the buffer -/

variable {k k' k₁ : Kernel n} {c : Cpu} {cur e : EnvIx}

/-- The CPU goes on with its environment, or with an empty buffer. -/
def Switched (k k' : Kernel n) (c : Cpu) (t : Tlb) : Prop :=
  k'.curenv c = k.curenv c ∨ t = .empty

theorem switched_envRun (h : envRun k c e = .ok k') (t : Tlb) :
    Switched k k' c (envRunTlb k c e t) := by
  by_cases hc : k.curenv c = some e
  · exact .inl ((envRun_ran h).cur.trans hc.symm)
  · exact .inr (if_neg hc)

theorem switched_schedHalt (k : Kernel n) (c : Cpu) (t : Tlb) :
    Switched k (schedHalt k c) c (schedHaltTlb k t) := by
  unfold schedHalt schedHaltTlb
  split_ifs
  · exact .inr rfl
  · exact .inl (by simp [Kernel.curenv])

theorem switched_schedYield (h : schedYield k c = .ok k') (t : Tlb) :
    Switched k k' c (schedYieldTlb k c t) := by
  unfold schedYield at h
  unfold schedYieldTlb
  cases he : (schedOrder (schedOffset k c)).find? fun e => k.status e = .runnable with
  | some e =>
    simp only [he] at h ⊢
    exact switched_envRun h t
  | none =>
    simp only [he] at h ⊢
    cases hc : k.curenv c with
    | some cur =>
      simp only [hc] at h ⊢
      split_ifs at h ⊢
      · exact switched_envRun h t
      · obtain rfl := Except.ok.inj h
        exact switched_schedHalt k c t
    | none =>
      simp only [hc] at h ⊢
      obtain rfl := Except.ok.inj h
      exact switched_schedHalt k c t

/-- Without the current environment, whose translations are gone. -/
theorem schedYieldTlb_freed (k' : Kernel n) (hc : k.curenv c = some e) (t : Tlb) :
    schedYieldTlb k' c (envFreeTlb k c e t) = .empty := by
  rw [envFreeTlb_self hc]
  exact (schedYieldTlb_sub k' c .empty).eq_empty

/-- `env_destroy` does not return when it destroys the current environment. -/
theorem envDestroyTlb_none (h : envDestroy k c e = .ok (none, k')) (t : Tlb) :
    envDestroyTlb k c e t = .empty := by
  unfold envDestroy at h
  unfold envDestroyTlb
  split_ifs at h ⊢
  · cases h
  · obtain ⟨k₁, free, h⟩ := bind_ok.mp h
    rw [free]
    simp only
    split_ifs at h ⊢ with hc
    · refine schedYieldTlb_freed _ ?_ t
      -- `env_free` changes no current environment
      obtain ⟨g, m₁, m, -, -, -, rfl⟩ := envFree_ok free
      simpa [freed_curenv] using hc
    · cases h

theorem userMemAssertTlb_none {va len perm : Word}
    (h : userMemAssert k c e va len perm = .ok (none, k')) (t : Tlb) :
    userMemAssertTlb k c e va len perm t = .empty := by
  unfold userMemAssert at h
  obtain ⟨g, hg, h⟩ := bind_ok.mp h
  obtain ⟨o, ho, h⟩ := bind_ok.mp h
  unfold userMemAssertTlb
  rw [hg]
  simp only [ho]
  cases o with
  | none => cases h
  | some a => exact envDestroyTlb_none h t

theorem not_returning {r : Except Panic (Int × Kernel n)} : returning r ≠ .ok (none, k') := by
  cases r with
  | error _ => intro h; cases h
  | ok v => intro h; cases h

theorem switched_sysIpcRecv {dstva : Word} (h : sysIpcRecv k c cur dstva = .ok (none, k'))
    (t : Tlb) : Switched k k' c (sysIpcRecvTlb k c cur dstva t) := by
  unfold sysIpcRecv at h
  unfold sysIpcRecvTlb
  split_ifs at h ⊢
  · cases h
  · obtain ⟨⟨r, k₁⟩, hwake, h⟩ := bind_ok.mp h
    simp only [hwake]
    simp only at h
    split_ifs at h ⊢
    · cases h
    · obtain ⟨k₂, hsched, h⟩ := bind_ok.mp h
      cases h
      have hcpus := (ipcWakeup_woken hwake).sameCpus.cpus
      refine (switched_schedYield hsched t).imp_left fun hc => hc.trans ?_
      rw [Kernel.curenv, hcpus]
      rfl

/-- A system call that does not return. -/
theorem switched_syscall {io : Inputs} {no a1 a2 a3 a4 a5 : Word}
    (h : syscall k c cur io no a1 a2 a3 a4 a5 = .ok (none, k')) (t : Tlb) :
    Switched k k' c (syscallTlb k c cur no a1 a2 a3 a4 a5 t) := by
  unfold syscall at h
  unfold syscallTlb
  cases hs : Sys.ofNat no.toNat with
  | none =>
    simp only [hs] at h
    cases h
  | some s =>
    simp only [hs] at h ⊢
    cases s with
    | cputs =>
      obtain ⟨⟨r, k₁⟩, hassert, h⟩ := bind_ok.mp h
      cases r with
      | some _ =>
        cases hp : (cprintf k₁ c "%.*s" [a2, a1]).result with
        | none => simp only [hp] at h; cases h
        | some _ => simp only [hp] at h; cases h
      | none => exact .inr (userMemAssertTlb_none hassert t)
    | envDestroy =>
      obtain ⟨⟨r, k₁⟩, hdestroy, h⟩ := bind_ok.mp h
      cases r with
      | some _ => cases h
      | none =>
        unfold sysEnvDestroy at hdestroy
        cases he : envid2env k cur a1 true with
        | none =>
          simp only [he] at hdestroy
          cases hdestroy
        | some e =>
          simp only [he] at hdestroy
          obtain ⟨⟨r, k₂⟩, hd, hr⟩ := bind_ok.mp hdestroy
          simp only [sysEnvDestroyTlb, he]
          cases r with
          | some _ => cases hr
          | none => exact .inr (envDestroyTlb_none hd t)
    | yield =>
      obtain ⟨k₁, hsched, h⟩ := bind_ok.mp h
      cases h
      exact switched_schedYield hsched t
    | ipcRecv => exact switched_sysIpcRecv h t
    | cgetc => cases h
    | getenvid => cases h
    | exofork => exact absurd h not_returning
    | envSetStatus => exact absurd h not_returning
    | pageAlloc => exact absurd h not_returning
    | pageMap => exact absurd h not_returning
    | pageUnmap => exact absurd h not_returning
    | ipcTrySend => exact absurd h not_returning
    | envSetUpcall exc => exact absurd h not_returning

theorem switched_excHandler {exc : Exc} {tf : Trapframe} {va : Word} (hc : k.curenv c = some cur)
    (h : excHandler exc k c cur tf va = .ok (none, k')) (t : Tlb) :
    Switched k k' c (excHandlerTlb exc k c cur tf t) := by
  unfold excHandler at h
  unfold excHandlerTlb
  simp only at h
  split_ifs at h with _ hup hup
  · cases h
  · cases h
  · obtain ⟨⟨r, k₁⟩, hassert, h⟩ := bind_ok.mp h
    simp only [if_pos hup, hassert]
    cases r with
    | none => exact .inr (userMemAssertTlb_none hassert t)
    | some _ =>
      simp only at h
      split at h
      · cases h
      · obtain ⟨k₂, hrun, h⟩ := bind_ok.mp h
        cases h
        exact .inl ((envRun_ran hrun).cur.trans hc.symm)
  · rw [if_neg hup]
    exact .inr (envDestroyTlb_none h t)

theorem switched_trapDispatch {tf : Trapframe} {io : Inputs} (hc : k.curenv c = some cur)
    (h : trapDispatch k c cur tf io = .ok (none, k')) (t : Tlb) :
    Switched k k' c (trapDispatchTlb k c cur tf t) := by
  unfold trapDispatch at h
  unfold trapDispatchTlb
  cases hexc : Exc.ofTrapno tf.tfTrapno.toNat with
  | some exc =>
    simp only [hexc, handler_eq] at h ⊢
    exact switched_excHandler hc h t
  | none =>
    simp only [hexc] at h ⊢
    split_ifs at h ⊢
    · obtain ⟨⟨r, k₁⟩, hcall, h⟩ := bind_ok.mp h
      cases r with
      | some _ => cases h
      | none => cases h; exact switched_syscall hcall t
    · cases h
    · obtain ⟨k₁, hsched, h⟩ := bind_ok.mp h
      cases h
      exact switched_schedYield hsched t
    · exact .inr (envDestroyTlb_none h t)

theorem switched_trapReturn (h : trapReturn k c = .ok k') (t : Tlb) :
    Switched k k' c (trapReturnTlb k c t) := by
  unfold trapReturn at h
  unfold trapReturnTlb
  cases hc : k.curenv c with
  | some cur =>
    simp only [hc] at h ⊢
    split_ifs at h ⊢
    · exact switched_envRun h t
    · exact switched_schedYield h t
  | none =>
    simp only [hc] at h ⊢
    exact switched_schedYield h t

/-- A trap is dispatched to a handler that returns. -/
theorem curenv_trapDispatch {tf : Trapframe} {io : Inputs} (hc : k.curenv c = some cur)
    (h : trapDispatch k c cur tf io = .ok (some (), k')) : k'.curenv c = k.curenv c := by
  unfold trapDispatch at h
  split at h
  · rw [handler_eq] at h
    unfold excHandler at h
    simp only at h
    split_ifs at h
    · cases h
    · cases h
    · obtain ⟨⟨r, k₁⟩, -, h⟩ := bind_ok.mp h
      cases r with
      | none => cases h
      | some _ =>
        simp only at h
        split at h
        · cases h
        · obtain ⟨k₂, -, h⟩ := bind_ok.mp h
          cases h
    · cases (envDestroy_self hc h).1
  · split_ifs at h
    · obtain ⟨⟨r, k₁⟩, hcall, h⟩ := bind_ok.mp h
      cases r with
      | none => cases h
      | some v =>
        cases h
        rcases syscall_called (a := argsOf tf) hcall with ⟨-, -, rfl⟩ | ⟨s, -, called⟩
        · rfl
        · obtain ⟨h, -⟩ | ⟨-, h⟩ := called.cpus
          · cases h
          · rw [Kernel.curenv_modEnv, Kernel.curenv, h.cpus]
            rfl
    · cases h
      rfl
    · obtain ⟨k₁, -, h⟩ := bind_ok.mp h
      cases h
    · cases (envDestroy_self hc h).1

/-- A kernel entry that changes the environment of its CPU empties the buffer. -/
theorem switched_perform {a : Action} (h : perform k a = .ok k') (t : Tlb) :
    Switched k k' a.cpu (performTlb k a t) := by
  cases a with
  | trap c tf io =>
    simp only [perform, trap] at h
    simp only [performTlb, trapTlb, Action.cpu]
    cases hc : k.curenv c with
    | none =>
      simp only [hc] at h
      cases h
    | some cur =>
      simp only [hc] at h ⊢
      split_ifs at h ⊢
      · obtain ⟨k₁, free, h⟩ := bind_ok.mp h
        rw [free]
        exact .inr (schedYieldTlb_freed _ hc t)
      · obtain ⟨⟨r, k₁⟩, hdisp, h⟩ := bind_ok.mp h
        simp only [hdisp]
        cases r with
        | none =>
          cases h
          exact switched_trapDispatch (k := saved k cur tf) hc hdisp t
        | some _ =>
          refine (switched_trapReturn h _).imp_left fun hk => hk.trans ?_
          exact curenv_trapDispatch (k := saved k cur tf) hc hdisp
  | wake c trapno =>
    simp only [perform, trapHalted] at h
    simp only [performTlb, trapHaltedTlb, Action.cpu]
    split_ifs at h ⊢
    · exact switched_schedYield h t
    · exact switched_trapReturn h t
  | start c =>
    simp only [perform] at h
    simp only [performTlb, Action.cpu]
    exact switched_schedYield h t
  | access c va store =>
    simp only [perform] at h
    obtain rfl := Except.ok.inj h
    refine .inl ?_
    split <;> rfl

end JosKernel
