import JosKernel.Env.Trap

/-!
# What a kernel entry can do

Inversion lemmas: from the result of a function to the branch that was taken and the state that
it left. Invariants are proved from these and never unfold the functions again.

A function that runs an environment changes the status, the run count and the CPU number of
environments only; `Env.core` is the rest of an `Env`.
-/
namespace JosKernel

variable {n : Nat}

/-- An environment with its scheduling data blanked out. -/
def Env.core (env : Env n) : Env n :=
  { env with envStatus := .free, envRuns := 0, envCpunum := 0 }

variable {k k' : Kernel n} {c : Cpu} {cur e : EnvIx}

/-! ## Running -/

/-- The statuses after `env_run`. -/
def ranStatus (k : Kernel n) (c : Cpu) (e i : EnvIx) : EnvStatus :=
  if k.curenv c = some e then k.status i
  else if i = e then .running
  else if k.curenv c = some i ∧ k.status i = .running then .runnable
  else k.status i

/-- What `env_run` does: it switches the CPU to `e` and to user mode. -/
structure Ran (k : Kernel n) (c : Cpu) (e : EnvIx) (k' : Kernel n) : Prop where
  mem : k'.mem = k.mem
  freeList : k'.envFreeList = k.envFreeList
  core : ∀ i, (k'.envs i).core = (k.envs i).core
  status : ∀ i, k'.status i = ranStatus k c e i
  other : ∀ c', c' ≠ c → k'.cpus c' = k.cpus c'
  mode : (k'.cpus c).cpuMode = .user
  cur : k'.curenv c = some e
  cr3 : k.curenv c = some e ∧ (k'.cpus c).cr3 = (k.cpus c).cr3 ∨
    k.curenv c ≠ some e ∧ (k.envs e).envPgdir = some (k'.cpus c).cr3

theorem core_envPgdir {env env' : Env n} (h : env.core = env'.core) :
    env.envPgdir = env'.envPgdir := by
  show env.core.envPgdir = env'.core.envPgdir
  rw [h]

/-- The first part of the context switch. -/
def parkCurrent (k : Kernel n) (c : Cpu) : Kernel n :=
  match k.curenv c with
  | some cur => if k.status cur = .running then k.setStatus cur .runnable else k
  | none => k

theorem parkCurrent_status (k : Kernel n) (c : Cpu) (i : EnvIx) :
    (parkCurrent k c).status i =
      if k.curenv c = some i ∧ k.status i = .running then .runnable else k.status i := by
  unfold parkCurrent
  cases hc : k.curenv c with
  | none => simp
  | some cur =>
    by_cases hi : i = cur
    · subst hi
      by_cases hr : k.status i = .running
      · simp [hr, Kernel.setStatus_status]
      · simp [hr]
    · have hi' : cur ≠ i := Ne.symm hi
      by_cases hr : k.status cur = .running
      · simp [hr, hi, hi', Kernel.setStatus_status]
      · simp [hr, hi']

theorem parkCurrent_rest (k : Kernel n) (c : Cpu) :
    (parkCurrent k c).mem = k.mem ∧ (parkCurrent k c).cpus = k.cpus ∧
      (parkCurrent k c).envFreeList = k.envFreeList ∧
      ∀ i, ((parkCurrent k c).envs i).core = (k.envs i).core := by
  unfold parkCurrent
  cases k.curenv c with
  | none => simp
  | some cur =>
    by_cases hr : k.status cur = .running
    · refine ⟨by simp [hr, Kernel.setStatus], by simp [hr, Kernel.setStatus],
        by simp [hr, Kernel.setStatus], fun i => ?_⟩
      by_cases hi : i = cur
      · subst hi; simp [hr, Kernel.setStatus, Env.core]
      · simp [hr, Kernel.setStatus, Kernel.modEnv_of_ne _ _ hi]
    · simp [hr]

theorem core_envLink {env env' : Env n} (h : env.core = env'.core) :
    env.envLink = env'.envLink := by
  show env.core.envLink = env'.core.envLink
  rw [h]

/-- The kernel after the context switch to an environment with directory `g`. -/
def switched (k : Kernel n) (c : Cpu) (e : EnvIx) (g : Fin n) : Kernel n :=
  (((parkCurrent k c).modCpu c fun cpu => { cpu with cpuEnv := some e }).modEnv e fun env =>
    { env with envStatus := .running, envRuns := env.envRuns + 1 }).modCpu c fun cpu =>
    { cpu with cr3 := g }

/-- `switchTo` needs the directory of the environment only. -/
theorem switchTo_eq (k : Kernel n) (c : Cpu) (e : EnvIx) :
    switchTo k c e = (k.envs e).envPgdir.elim (.error .paddr) fun g => .ok (switched k c e g) := by
  have hpgdir : (((parkCurrent k c).modEnv e fun env =>
      { env with envStatus := .running, envRuns := env.envRuns + 1 }).envs e).envPgdir =
      (k.envs e).envPgdir := by
    rw [Kernel.modEnv_self]
    exact core_envPgdir ((parkCurrent_rest k c).2.2.2 e)
  unfold switchTo
  dsimp only
  split
  · rename_i hnone
    rw [hpgdir.symm.trans hnone]
    rfl
  · rename_i g hg
    rw [hpgdir.symm.trans hg]
    rfl

theorem envRun_ran (h : envRun k c e = .ok k') : Ran k c e k' := by
  unfold envRun at h
  by_cases hc : k.curenv c = some e
  · simp only [hc, if_true, pure, Except.pure, bind, Except.bind, Except.ok.injEq] at h
    subst h
    refine ⟨rfl, rfl, fun i => ?_, fun i => ?_, fun c' hne => ?_, ?_, ?_, .inl ⟨hc, ?_⟩⟩
    · by_cases hi : i = e
      · subst hi; simp [Env.core]
      · simp [Kernel.modEnv_of_ne _ _ hi]
    · by_cases hi : i = e
      · subst hi; simp [ranStatus, hc, Kernel.status]
      · simp [ranStatus, hc, Kernel.status, Kernel.modEnv_of_ne _ _ hi]
    · simp [Kernel.modCpu_apply, hne]
    · simp
    · simpa [Kernel.curenv] using hc
    · simp
  · obtain ⟨hm, hcpus, hfl, hcore⟩ := parkCurrent_rest k c
    rw [if_neg hc, bind_ok] at h
    obtain ⟨k₁, hsw, hk'⟩ := h
    rw [switchTo_eq] at hsw
    cases hg : (k.envs e).envPgdir with
    | none =>
      rw [hg] at hsw
      cases hsw
    | some g =>
      simp only [hg, Option.elim, Except.ok.injEq, switched] at hsw
      simp only [pure, Except.pure, Except.ok.injEq] at hk'
      subst hsw hk'
      refine ⟨hm, hfl, fun i => ?_, fun i => ?_, fun c' hne => ?_, ?_, ?_, .inr ⟨hc, ?_⟩⟩
      · rw [← hcore i]
        by_cases hi : i = e
        · subst hi; simp [Env.core]
        · simp [Kernel.modEnv_of_ne _ _ hi]
      · unfold ranStatus
        rw [if_neg hc, ← parkCurrent_status]
        by_cases hi : i = e
        · subst hi; simp [Kernel.status]
        · simp [Kernel.status, Kernel.modEnv_of_ne _ _ hi, hi]
      · simp [Kernel.modCpu_apply, hne, hcpus]
      · simp
      · simp [Kernel.curenv]
      · simp [hg]

/-! ## Scheduling -/

/-- What `sched_yield` does: it runs a runnable environment, or else goes on with the current
one, or else halts. -/
inductive Scheduled (k : Kernel n) (c : Cpu) : Kernel n → Prop
  | next {e : EnvIx} {k' : Kernel n} (he : k.status e = .runnable) (run : Ran k c e k') :
      Scheduled k c k'
  | same {e : EnvIx} {k' : Kernel n} (hc : k.curenv c = some e) (he : k.status e = .running)
      (idle : ∀ i, k.status i ≠ .runnable) (run : Ran k c e k') : Scheduled k c k'
  | halt (idle : ∀ i, k.status i ≠ .runnable)
      (hc : ∀ e, k.curenv c = some e → k.status e ≠ .running) : Scheduled k c (schedHalt k c)

theorem mem_schedOrder (offset i : EnvIx) : i ∈ schedOrder offset := by
  simp only [schedOrder, List.mem_map]
  exact ⟨i - offset, List.mem_finRange _, by simp⟩

theorem schedYield_scheduled (h : schedYield k c = .ok k') : Scheduled k c k' := by
  unfold schedYield at h
  split at h
  · rename_i e hfind
    have he := List.find?_some hfind
    exact .next (by simpa using he) (envRun_ran h)
  · rename_i hfind
    have idle : ∀ i, k.status i ≠ .runnable := fun i => by
      simpa using List.find?_eq_none.mp hfind i (mem_schedOrder _ i)
    split at h
    · rename_i cur hc
      split_ifs at h with hr
      · exact .same hc hr idle (envRun_ran h)
      · simp only [pure, Except.pure, Except.ok.injEq] at h
        subst h
        exact .halt idle fun e he => by rw [hc] at he; cases he; exact hr
    · rename_i hc
      simp only [pure, Except.pure, Except.ok.injEq] at h
      subst h
      exact .halt idle fun e he => by simp [hc] at he

/-! ## Destroying -/

/-- The state after `env_free`, with the memory `m` that the loops left. -/
def freed (k : Kernel n) (c : Cpu) (e : EnvIx) (m : Mem n) : Kernel n :=
  { mem := m
    envs := Function.update k.envs e
      { k.envs e with envPgdir := none, envStatus := .free, envLink := k.envFreeList }
    envFreeList := .env e
    cpus := if k.curenv c = some e then
        Function.update k.cpus c { k.cpus c with cr3 := k.mem.kernPgdir }
      else k.cpus }

@[simp] theorem freed_curenv (k : Kernel n) (c c' : Cpu) (e : EnvIx) (m : Mem n) :
    (freed k c e m).curenv c' = k.curenv c' := by
  by_cases hc : k.curenv c = some e
  · by_cases hc' : c' = c
    · subst hc'; simp only [freed, Kernel.curenv] at hc ⊢; simp [hc]
    · simp only [freed, Kernel.curenv] at hc ⊢; simp [hc, hc']
  · simp only [freed, Kernel.curenv] at hc ⊢
    simp [hc]

theorem freed_status (k : Kernel n) (c : Cpu) (e i : EnvIx) (m : Mem n) :
    (freed k c e m).status i = if i = e then .free else k.status i := by
  by_cases h : i = e
  · subst h; simp [freed, Kernel.status]
  · simp [freed, Kernel.status, h]

/-- `env_free` empties the address space and returns the slot. -/
theorem envFree_ok (h : envFree k c e = .ok k') :
    ∃ g m₁ m, (k.envs e).envPgdir = some g ∧ envFreePdes k.mem g userPdxs = .ok m₁ ∧
      m₁.pageDecref g = .ok m ∧ k' = freed k c e m := by
  unfold envFree at h
  cases hg : (k.envs e).envPgdir with
  | none =>
    by_cases hc : k.curenv c = some e <;> simp [hc, hg, throw, throwThe, MonadExceptOf.throw] at h
  | some g =>
    by_cases hc : k.curenv c = some e
    · simp only [hc, if_true, Kernel.modCpu_envs, hg, bind_ok, Kernel.modCpu_mem] at h
      obtain ⟨m₁, h₁, m, h₂, h₃⟩ := h
      refine ⟨g, m₁, m, rfl, h₁, h₂, ?_⟩
      cases h₃
      simp [freed, hc, Kernel.modEnv, Kernel.modCpu]
    · simp only [hc, if_false, hg, bind_ok] at h
      obtain ⟨m₁, h₁, m, h₂, h₃⟩ := h
      refine ⟨g, m₁, m, rfl, h₁, h₂, ?_⟩
      cases h₃
      simp [freed, hc, Kernel.modEnv]

theorem envFree_eq {g : Fin n} {m₁ m : Mem n} (hg : (k.envs e).envPgdir = some g)
    (hpdes : envFreePdes k.mem g userPdxs = .ok m₁) (hdec : m₁.pageDecref g = .ok m) :
    envFree k c e = .ok (freed k c e m) := by
  unfold envFree
  by_cases hc : k.curenv c = some e
  · simp only [hc, if_true, Kernel.modCpu_envs, hg, Kernel.modCpu_mem, hpdes, hdec, bind,
      Except.bind, pure, Except.pure]
    simp [freed, hc, Kernel.modEnv, Kernel.modCpu]
  · simp only [hc, if_false, hg, hpdes, hdec, bind, Except.bind, pure, Except.pure]
    simp [freed, hc, Kernel.modEnv]

/-- What `env_destroy` does: it marks an environment that runs elsewhere, frees another one, or
frees the current one and enters the scheduler. -/
inductive Destroyed (k : Kernel n) (c : Cpu) (e : EnvIx) : Option Unit → Kernel n → Prop
  | mark (hr : k.status e = .running) (hc : k.curenv c ≠ some e) :
      Destroyed k c e (some ()) (k.setStatus e .dying)
  | other {k' : Kernel n} (hr : k.status e ≠ .running) (hc : k.curenv c ≠ some e)
      (free : envFree k c e = .ok k') : Destroyed k c e (some ()) k'
  | self {k₁ k' : Kernel n} (hc : k.curenv c = some e) (free : envFree k c e = .ok k₁)
      (sched : Scheduled (k₁.modCpu c fun cpu => { cpu with cpuEnv := none }) c k') :
      Destroyed k c e none k'

theorem envDestroy_destroyed {r : Option Unit} (h : envDestroy k c e = .ok (r, k')) :
    Destroyed k c e r k' := by
  unfold envDestroy at h
  split_ifs at h with hc
  · cases h
    exact .mark hc.1 hc.2
  · rw [bind_ok] at h
    obtain ⟨k₁, hfree, h⟩ := h
    obtain ⟨g, m₁, m, -, -, -, rfl⟩ := envFree_ok hfree
    rw [freed_curenv] at h
    split_ifs at h with hself
    · rw [bind_ok] at h
      obtain ⟨k₂, hsched, h⟩ := h
      cases h
      exact .self hself hfree (schedYield_scheduled hsched)
    · cases h
      exact .other (fun hr => hc ⟨hr, hself⟩) hself hfree

/-! ## Ids -/

/-- An id leads to a live environment when the caller is live. -/
theorem envid2env_live {id : Word} {b : Bool} (h : envid2env k cur id b = some e)
    (hc : k.status cur ≠ .free) : k.status e ≠ .free := by
  unfold envid2env at h
  split_ifs at h with h1 h2 h3
  · cases h; exact hc
  · cases h; exact fun hf => h2 (.inl hf)

/-- With the permission check, an id leads to the caller or to one of its children. -/
theorem envid2env_perm {id : Word} (h : envid2env k cur id true = some e) :
    e = cur ∨ (k.envs e).envParentId = (k.envs cur).envId := by
  unfold envid2env at h
  split_ifs at h with h1 h2 h3
  · cases h; exact .inl rfl
  · cases h
    simp only [true_and, not_and, not_not] at h3
    exact (em _).imp_right h3

/-- The translation of ids reads ids, parents and whether an environment is free. -/
theorem envid2env_congr {id : Word} {b : Bool} (hid : ∀ i, (k'.envs i).envId = (k.envs i).envId)
    (hp : ∀ i, (k'.envs i).envParentId = (k.envs i).envParentId)
    (hf : ∀ i, k'.status i = .free ↔ k.status i = .free) :
    envid2env k' cur id b = envid2env k cur id b := by
  simp only [envid2env, hid, hp, hf]

/-! ## System calls -/

/-- The arguments of a system call. -/
structure Args where
  a1 : Word
  a2 : Word
  a3 : Word
  a4 : Word
  a5 : Word

/-- The state after a successful `env_alloc`. -/
def allocated (k : Kernel n) (e : EnvIx) (g : Fin n) (m : Mem n) (parentId : Word) : Kernel n :=
  { k with
    mem := m
    envs := Function.update k.envs e
      { k.envs e with
        envPgdir := some g
        envId := nextEnvId (k.envs e).envId e
        envParentId := parentId
        envStatus := .runnable
        envRuns := 0
        envTf := freshTf
        envUpcall := fun _ => 0
        envIpcRecving := false }
    envFreeList := (k.envs e).envLink }

theorem envAlloc_ok {parentId : Word} (h : envAlloc k parentId = .ok (.ok e, k')) :
    ∃ g m, k.envFreeList = .env e ∧ envSetupVm k.mem = (some g, m) ∧
      k' = allocated k e g m parentId := by
  unfold envAlloc at h
  cases hfl : k.envFreeList with
  | null => simp [hfl, pure, Except.pure] at h
  | pastEnd =>
    simp only [hfl, pure, Except.pure, throw, throwThe, MonadExceptOf.throw] at h
    split at h <;> simp at h
  | env e' =>
    rw [hfl] at h
    cases hvm : envSetupVm k.mem with
    | mk g m =>
      cases g with
      | none => simp [hvm, pure, Except.pure] at h
      | some g =>
        simp only [hvm, pure, Except.pure, Except.ok.injEq, Prod.mk.injEq] at h
        obtain ⟨rfl, rfl⟩ := h
        exact ⟨g, m, rfl, rfl, by simp [allocated, Kernel.modEnv]⟩

/-- Without memory `env_setup_vm` fails and changes nothing. -/
theorem envSetupVm_of_none {m : Mem n} (hl : m.pageFreeList = none) :
    envSetupVm m = (none, m) := by
  simp [envSetupVm, Mem.pageAlloc, hl]

theorem envSetupVm_some {m : Mem n} (h : m.pageFreeList ≠ none) :
    ∃ g m', envSetupVm m = (some g, m') := by
  unfold envSetupVm Mem.pageAlloc
  cases hl : m.pageFreeList with
  | none => exact absurd hl h
  | some p => exact ⟨_, _, rfl⟩

/-- `env_setup_vm` fails only for want of memory. -/
theorem envSetupVm_none {m m' : Mem n} (h : envSetupVm m = (none, m')) :
    m' = m ∧ m.pageFreeList = none := by
  by_cases hl : m.pageFreeList = none
  · rw [envSetupVm_of_none hl] at h
    exact ⟨(Prod.mk.inj h).2.symm, hl⟩
  · obtain ⟨g, m₁, hvm⟩ := envSetupVm_some hl
    rw [hvm] at h
    cases h

/-- A failed `env_alloc` leaves the environments alone. -/
theorem envAlloc_refused {parentId : Word} {r : Int}
    (h : envAlloc k parentId = .ok (.error r, k')) :
    r < 0 ∧ k'.envs = k.envs ∧ k'.envFreeList = k.envFreeList := by
  unfold envAlloc at h
  cases hfl : k.envFreeList with
  | null =>
    simp only [hfl, pure, Except.pure, Except.ok.injEq, Prod.mk.injEq, Except.error.injEq] at h
    obtain ⟨rfl, rfl⟩ := h
    exact ⟨by decide, rfl, hfl⟩
  | pastEnd =>
    cases hvm : envSetupVm k.mem with
    | mk g m =>
      cases g with
      | none =>
        simp only [hfl, hvm, pure, Except.pure, Except.ok.injEq, Prod.mk.injEq,
          Except.error.injEq] at h
        obtain ⟨rfl, rfl⟩ := h
        exact ⟨by decide, rfl, rfl⟩
      | some g => simp [hfl, hvm, throw, throwThe, MonadExceptOf.throw] at h
  | env e =>
    cases hvm : envSetupVm k.mem with
    | mk g m =>
      cases g with
      | none =>
        simp only [hfl, hvm, pure, Except.pure, Except.ok.injEq, Prod.mk.injEq,
          Except.error.injEq] at h
        obtain ⟨rfl, rfl⟩ := h
        exact ⟨by decide, rfl, rfl⟩
      | some g => simp [hfl, hvm, pure, Except.pure] at h

/-- The environment that `sys_exofork` adds in slot `e`. -/
def forkedEnv (k : Kernel n) (cur e : EnvIx) (g : Fin n) : Env n :=
  { k.envs e with
    envPgdir := some g
    envId := nextEnvId (k.envs e).envId e
    envParentId := (k.envs cur).envId
    envStatus := .notRunnable
    envRuns := 0
    envTf := (if e = cur then freshTf else (k.envs cur).envTf).setEax 0
    envUpcall := fun _ => 0
    envIpcRecving := false }

def forked (k : Kernel n) (cur e : EnvIx) (g : Fin n) (m : Mem n) : Kernel n :=
  { k with
    mem := m
    envs := Function.update k.envs e (forkedEnv k cur e g)
    envFreeList := (k.envs e).envLink }

/-- The caller has entered the waiting queue of `e` at place `i`. -/
def enqueued (k : Kernel n) (cur e : EnvIx) (i : Fin 10) : Kernel n :=
  (k.setStatus cur .notRunnable).modEnv e fun env =>
    { env with
      envIpcWaiting := Function.update env.envIpcWaiting i (k.envs cur).envId
      envIpcWaitingTail := ((k.envs e).envIpcWaitingTail + 1) % maxIpcWaiting }

/-- The message fields are written and the receiver is made runnable. -/
def delivered (k : Kernel n) (cur e : EnvIx) (value : Word) : Kernel n :=
  k.modEnv e fun env =>
    { env with
      envIpcRecving := false
      envIpcFrom := (k.envs cur).envId
      envIpcValue := value
      envStatus := .runnable
      envTf := env.envTf.setEax 0 }

/-- The caller waits for a message. -/
def receiving (k : Kernel n) (cur : EnvIx) (dstva : Word) : Kernel n :=
  k.modEnv cur fun env =>
    { env with envIpcRecving := true, envIpcDstva := dstva, envStatus := .notRunnable }

/-- The first place of the waiting queue of `cur` has been given up. -/
def dequeued (k : Kernel n) (cur : EnvIx) : Kernel n :=
  k.modEnv cur fun env =>
    { env with envIpcWaitingHead := (env.envIpcWaitingHead + 1) % maxIpcWaiting }

/-- What the wake-up of `sys_ipc_recv` does. -/
inductive Woken (k : Kernel n) (cur : EnvIx) : Int → Kernel n → Prop
  | empty (h : (k.envs cur).envIpcWaitingHead = (k.envs cur).envIpcWaitingTail) :
      Woken k cur 0 k
  | wake {i : Fin 10} {e : EnvIx}
      (h : (k.envs cur).envIpcWaitingHead ≠ (k.envs cur).envIpcWaitingTail)
      (hi : (k.envs cur).envIpcWaitingHead.toNat = i)
      (he : envid2env (dequeued k cur) cur ((k.envs cur).envIpcWaiting i) false = some e) :
      Woken k cur 0 ((dequeued k cur).setStatus e .runnable)
  | stale {i : Fin 10}
      (h : (k.envs cur).envIpcWaitingHead ≠ (k.envs cur).envIpcWaitingTail)
      (hi : (k.envs cur).envIpcWaitingHead.toNat = i)
      (he : envid2env (dequeued k cur) cur ((k.envs cur).envIpcWaiting i) false = none) :
      Woken k cur (-eBadEnv) (dequeued k cur)

/-- What the page transfer of `sys_ipc_try_send` does. -/
inductive Sent (k : Kernel n) (cur e : EnvIx) (srcva perm : Word) : Int → Kernel n → Prop
  | refused : Sent k cur e srcva perm (-eInval) k
  | noMem {g g' pp pt : Fin n} {i : Fin 1024} {m : Mem n} {r : Int} (hs : srcva < utop)
      (ha : roundUp srcva pgsize = srcva) (hd : (k.envs e).envIpcDstva < utop)
      (hg : (k.envs cur).envPgdir = some g) (hg' : (k.envs e).envPgdir = some g')
      (hlook : k.mem.pageLookup g srcva = .ok (some (pp, pt, i)))
      (hperm : perm &&& k.mem.entry pt i = perm)
      (hins : k.mem.pageInsert g' pp (k.envs e).envIpcDstva perm = .ok (r, m)) (hr : r < 0) :
      Sent k cur e srcva perm r { k with mem := m }
  | page {g g' pp pt : Fin n} {i : Fin 1024} {m : Mem n} {r : Int} (hs : srcva < utop)
      (ha : roundUp srcva pgsize = srcva) (hd : (k.envs e).envIpcDstva < utop)
      (hg : (k.envs cur).envPgdir = some g) (hg' : (k.envs e).envPgdir = some g')
      (hlook : k.mem.pageLookup g srcva = .ok (some (pp, pt, i)))
      (hperm : perm &&& k.mem.entry pt i = perm)
      (hins : k.mem.pageInsert g' pp (k.envs e).envIpcDstva perm = .ok (r, m)) (hr : ¬r < 0) :
      Sent k cur e srcva perm 0
        ({ k with mem := m }.modEnv e fun env => { env with envIpcPerm := perm })
  | unwanted (hs : srcva < utop) (hd : ¬(k.envs e).envIpcDstva < utop) :
      Sent k cur e srcva perm 0 k
  | word (hs : ¬srcva < utop) :
      Sent k cur e srcva perm 0 (k.modEnv e fun env => { env with envIpcPerm := 0 })

/-- The page transfer changes memory and the receiver's `env_ipc_perm` only. -/
theorem Sent.state {srcva perm : Word} {r : Int} (h : Sent k cur e srcva perm r k') :
    ∃ m p, k' = { k with mem := m }.modEnv e fun env => { env with envIpcPerm := p } := by
  have same : ∀ m, ∃ m' p, { k with mem := m } =
      { k with mem := m' }.modEnv e fun env => { env with envIpcPerm := p } := fun m =>
    ⟨m, (k.envs e).envIpcPerm, by simp [Kernel.modEnv]⟩
  cases h with
  | refused => exact same k.mem
  | noMem => exact same _
  | page => exact ⟨_, _, rfl⟩
  | unwanted => exact same k.mem
  | word => exact ⟨k.mem, 0, rfl⟩

/-- The page transfer succeeds with zero. -/
theorem Sent.result {srcva perm : Word} {r : Int} (h : Sent k cur e srcva perm r k')
    (hr : ¬r < 0) : r = 0 := by
  cases h with
  | refused => exact absurd (by decide) hr
  | noMem _ _ _ _ _ _ _ _ hneg => exact absurd hneg hr
  | page => rfl
  | unwanted => rfl
  | word => rfl

/-- The calls that leave zero in `eax` only when they had an effect. -/
def Sys.reports : Sys → Bool
  | .cputs | .cgetc | .getenvid | .envDestroy => false
  | _ => true

/-- The call is a `sys_page_alloc` that passes its checks and finds a free page. -/
def GetsPage (k : Kernel n) (cur : EnvIx) (s : Sys) (a : Args) : Prop :=
  s = .pageAlloc ∧ envid2env k cur a.a1 true ≠ none ∧ badUserPage a.a2 = false ∧
    lacksUP a.a3 = false ∧ k.mem.pageFreeList ≠ none

/-- What the page calls do to memory. -/
inductive MemEffect (k : Kernel n) (cur : EnvIx) : Sys → Args → Int → Mem n → Prop
  | same {s : Sys} {a : Args} {v : Int} (hv : s.reports = true → BitVec.ofInt 32 v ≠ 0)
      (hp : ¬GetsPage k cur s a) : MemEffect k cur s a v k.mem
  | alloc {a : Args} {e : EnvIx} {pp g : Fin n} {m₁ m : Mem n} {r : Int}
      (he : envid2env k cur a.a1 true = some e) (hva : badUserPage a.a2 = false)
      (hperm : lacksUP a.a3 = false) (halloc : k.mem.pageAlloc true = (some pp, m₁))
      (hg : (k.envs e).envPgdir = some g)
      (hins : (m₁.incRef pp).pageInsert g pp a.a2 a.a3 = .ok (r, m)) (hr : ¬r < 0) :
      MemEffect k cur .pageAlloc a 0 m
  | allocFail {a : Args} {e : EnvIx} {pp g : Fin n} {m₁ m₂ m : Mem n} {r : Int}
      (he : envid2env k cur a.a1 true = some e) (hva : badUserPage a.a2 = false)
      (hperm : lacksUP a.a3 = false) (halloc : k.mem.pageAlloc true = (some pp, m₁))
      (hg : (k.envs e).envPgdir = some g)
      (hins : (m₁.incRef pp).pageInsert g pp a.a2 a.a3 = .ok (r, m₂)) (hr : r < 0)
      (hfree : m₂.pageFree pp = .ok m) : MemEffect k cur .pageAlloc a r m
  | map {a : Args} {srce dste : EnvIx} {gs gd pp pt : Fin n} {i : Fin 1024} {m : Mem n} {r : Int}
      (hs : envid2env k cur a.a1 true = some srce) (hd : envid2env k cur a.a3 true = some dste)
      (hsva : badUserPage a.a2 = false) (hdva : badUserPage a.a4 = false)
      (hgs : (k.envs srce).envPgdir = some gs) (hgd : (k.envs dste).envPgdir = some gd)
      (hlook : k.mem.pageLookup gs a.a2 = .ok (some (pp, pt, i)))
      (hperm : lacksUP a.a5 = false)
      (hw : ¬(a.a5 &&& pteW ≠ 0 ∧ k.mem.entry pt i &&& pteW = 0))
      (hins : k.mem.pageInsert gd pp a.a4 a.a5 = .ok (r, m)) : MemEffect k cur .pageMap a r m
  | unmap {a : Args} {e : EnvIx} {g : Fin n} {m : Mem n}
      (he : envid2env k cur a.a1 false = some e) (hva : badUserPage a.a2 = false)
      (hg : (k.envs e).envPgdir = some g) (hrem : k.mem.pageRemove g a.a2 = .ok m) :
      MemEffect k cur .pageUnmap a 0 m

/-- What a system call does. -/
inductive Called (k : Kernel n) (c : Cpu) (cur : EnvIx) : Sys → Args → Option Int → Kernel n → Prop
  | memory {s : Sys} {a : Args} {v : Int} {m : Mem n} (op : MemEffect k cur s a v m) :
      Called k c cur s a (some v) { k with mem := m }
  | cputs {a : Args} {r : Option Unit} {k' : Kernel n} {g : Fin n} {va : Word}
      (hg : (k.envs cur).envPgdir = some g)
      (bad : k.mem.userMemCheck g a.a1 a.a2 (0 ||| pteU) = .ok (some va))
      (d : Destroyed k c cur r k') : Called k c cur .cputs a (r.map fun _ => 0) k'
  | destroy {a : Args} {e : EnvIx} {r : Option Unit} {k' : Kernel n}
      (he : envid2env k cur a.a1 true = some e) (d : Destroyed k c e r k') :
      Called k c cur .envDestroy a (r.map fun _ => 0) k'
  | yield {a : Args} {k' : Kernel n} (sched : Scheduled k c k') : Called k c cur .yield a none k'
  | fork {a : Args} {e : EnvIx} {g : Fin n} {m : Mem n} (free : k.envFreeList = .env e)
      (vm : envSetupVm k.mem = (some g, m)) :
      Called k c cur .exofork a (some (forkedEnv k cur e g).envId.toInt) (forked k cur e g m)
  | setStatus {a : Args} {e : EnvIx} (he : envid2env k cur a.a1 true = some e)
      (hs : a.a2 = 2 ∨ a.a2 = 4) :
      Called k c cur .envSetStatus a (some 0)
        (k.setStatus e (if a.a2 = 2 then .runnable else .notRunnable))
  | setUpcall {exc : Exc} {a : Args} {e : EnvIx} (he : envid2env k cur a.a1 true = some e) :
      Called k c cur (.envSetUpcall exc) a (some 0) (k.modEnv e fun env =>
        { env with envUpcall := Function.update env.envUpcall exc a.a2 })
  | enqueue {a : Args} {e : EnvIx} {i : Fin 10} (he : envid2env k cur a.a1 false = some e)
      (hr : (k.envs e).envIpcRecving = false)
      (room : ((k.envs e).envIpcWaitingTail + 1) % maxIpcWaiting ≠ (k.envs e).envIpcWaitingHead)
      (hi : (k.envs e).envIpcWaitingTail.toNat = i) :
      Called k c cur .ipcTrySend a (some (-eIpcNotRecv)) (enqueued k cur e i)
  | full {a : Args} {e : EnvIx} (he : envid2env k cur a.a1 false = some e)
      (hr : (k.envs e).envIpcRecving = false)
      (room : ((k.envs e).envIpcWaitingTail + 1) % maxIpcWaiting = (k.envs e).envIpcWaitingHead) :
      Called k c cur .ipcTrySend a (some (-eIpcNotRecv)) k
  | deliver {a : Args} {e : EnvIx} {k₁ : Kernel n} {r : Int}
      (he : envid2env k cur a.a1 false = some e) (hr : (k.envs e).envIpcRecving = true)
      (page : Sent k cur e a.a3 a.a4 r k₁) (hpos : ¬r < 0) :
      Called k c cur .ipcTrySend a (some 0) (delivered k₁ cur e a.a2)
  | refuse {a : Args} {e : EnvIx} {k₁ : Kernel n} {r : Int}
      (he : envid2env k cur a.a1 false = some e) (hr : (k.envs e).envIpcRecving = true)
      (page : Sent k cur e a.a3 a.a4 r k₁) (hneg : r < 0) :
      Called k c cur .ipcTrySend a (some r) k₁
  | recv {a : Args} {k₁ k' : Kernel n}
      (hva : ¬(a.a1 < utop ∧ roundUp a.a1 pgsize ≠ a.a1))
      (wake : Woken (receiving k cur a.a1) cur 0 k₁) (sched : Scheduled k₁ c k') :
      Called k c cur .ipcRecv a none k'
  | recvStale {a : Args} {k₁ : Kernel n}
      (hva : ¬(a.a1 < utop ∧ roundUp a.a1 pgsize ≠ a.a1))
      (wake : Woken (receiving k cur a.a1) cur (-eBadEnv) k₁) :
      Called k c cur .ipcRecv a (some (-eBadEnv)) k₁

theorem pgdirOf_ok {g : Fin n} (h : pgdirOf k e = .ok g) : (k.envs e).envPgdir = some g := by
  unfold pgdirOf at h
  split at h
  · cases h
  · rename_i g' hg; cases h; exact hg

theorem sysPageAlloc_memEffect {a : Args} {v : Int}
    (h : sysPageAlloc k cur a.a1 a.a2 a.a3 = .ok (v, k')) :
    ∃ m, k' = { k with mem := m } ∧ MemEffect k cur .pageAlloc a v m := by
  unfold sysPageAlloc at h
  split at h
  · rename_i he
    cases h
    exact ⟨_, rfl, .same (fun _ => by decide) fun hp => hp.2.1 he⟩
  · rename_i e he
    split_ifs at h with hva hperm
    · cases h
      exact ⟨_, rfl, .same (fun _ => by decide) fun hp => by simp [hp.2.2.1] at hva⟩
    · cases h
      exact ⟨_, rfl, .same (fun _ => by decide) fun hp => by simp [hp.2.2.2.1] at hperm⟩
    · split at h
      · rename_i m halloc
        cases h
        obtain ⟨rfl, hl⟩ : m = k.mem ∧ k.mem.pageFreeList = none := by
          unfold Mem.pageAlloc at halloc
          split at halloc
          · rename_i hl; cases halloc; exact ⟨rfl, hl⟩
          · simp at halloc
        exact ⟨_, rfl, .same (fun _ => by decide) fun hp => hp.2.2.2.2 hl⟩
      · rename_i pp m₁ halloc
        simp only [bind_ok] at h
        obtain ⟨g, hg, ⟨r, m₂⟩, hins, h⟩ := h
        have hva' : badUserPage a.a2 = false := by simpa using hva
        have hperm' : lacksUP a.a3 = false := by simpa using hperm
        split_ifs at h with hr
        · rw [bind_ok] at h
          obtain ⟨m, hfree, h⟩ := h
          cases h
          exact ⟨_, rfl, .allocFail he hva' hperm' halloc (pgdirOf_ok hg) hins hr hfree⟩
        · cases h
          exact ⟨_, rfl, .alloc he hva' hperm' halloc (pgdirOf_ok hg) hins hr⟩

theorem sysPageMap_memEffect {a : Args} {v : Int}
    (h : sysPageMap k cur a.a1 a.a2 a.a3 a.a4 a.a5 = .ok (v, k')) :
    ∃ m, k' = { k with mem := m } ∧ MemEffect k cur .pageMap a v m := by
  unfold sysPageMap at h
  split at h
  · cases h; exact ⟨_, rfl, .same (fun _ => by decide) fun hp => by cases hp.1⟩
  · rename_i srce hs
    split at h
    · cases h; exact ⟨_, rfl, .same (fun _ => by decide) fun hp => by cases hp.1⟩
    · rename_i dste hd
      by_cases hva : (badUserPage a.a2 || badUserPage a.a4) = true
      · rw [if_pos hva] at h
        cases h
        exact ⟨_, rfl, .same (fun _ => by decide) fun hp => by cases hp.1⟩
      · rw [if_neg hva] at h
        simp only [bind_ok] at h
        obtain ⟨gs, hgs, look, hlook, h⟩ := h
        rw [Bool.or_eq_true, not_or, Bool.not_eq_true, Bool.not_eq_true] at hva
        split at h
        · cases h; exact ⟨_, rfl, .same (fun _ => by decide) fun hp => by cases hp.1⟩
        · rename_i pp pt i
          split_ifs at h with hperm hw
          · cases h; exact ⟨_, rfl, .same (fun _ => by decide) fun hp => by cases hp.1⟩
          · cases h; exact ⟨_, rfl, .same (fun _ => by decide) fun hp => by cases hp.1⟩
          · simp only [bind_ok] at h
            obtain ⟨gd, hgd, ⟨r, m⟩, hins, h⟩ := h
            cases h
            exact ⟨_, rfl, .map hs hd hva.1 hva.2 (pgdirOf_ok hgs) (pgdirOf_ok hgd) hlook
              (by simpa using hperm) hw hins⟩

theorem sysPageUnmap_memEffect {a : Args} {v : Int}
    (h : sysPageUnmap k cur a.a1 a.a2 = .ok (v, k')) :
    ∃ m, k' = { k with mem := m } ∧ MemEffect k cur .pageUnmap a v m := by
  unfold sysPageUnmap at h
  split at h
  · cases h; exact ⟨_, rfl, .same (fun _ => by decide) fun hp => by cases hp.1⟩
  · rename_i e he
    split_ifs at h with hva
    · cases h; exact ⟨_, rfl, .same (fun _ => by decide) fun hp => by cases hp.1⟩
    · simp only [bind_ok] at h
      obtain ⟨g, hg, m, hrem, h⟩ := h
      cases h
      exact ⟨_, rfl, .unmap he (by simpa using hva) (pgdirOf_ok hg) hrem⟩

theorem sysExofork_called {a : Args} {v : Int} (h : sysExofork k cur = .ok (v, k')) :
    Called k c cur .exofork a (some v) k' := by
  unfold sysExofork envAlloc at h
  cases hfl : k.envFreeList with
  | null =>
    simp only [hfl, pure, Except.pure, bind, Except.bind, Except.ok.injEq, Prod.mk.injEq] at h
    obtain ⟨rfl, rfl⟩ := h
    exact .memory (m := k.mem) (.same (fun _ => by decide) fun hp => by cases hp.1)
  | pastEnd =>
    simp only [hfl, pure, Except.pure, bind, Except.bind] at h
    cases hvm : envSetupVm k.mem with
    | mk g m =>
      cases g with
      | none =>
        obtain rfl := (envSetupVm_none hvm).1
        simp only [hvm, Except.ok.injEq, Prod.mk.injEq] at h
        obtain ⟨rfl, rfl⟩ := h
        rw [← hfl]
        exact .memory (.same (fun _ => by decide) fun hp => by cases hp.1)
      | some g => simp [hvm, throw, throwThe, MonadExceptOf.throw] at h
  | env e =>
    simp only [hfl, pure, Except.pure, bind, Except.bind] at h
    cases hvm : envSetupVm k.mem with
    | mk g m =>
      cases g with
      | none =>
        obtain rfl := (envSetupVm_none hvm).1
        simp only [hvm, Except.ok.injEq, Prod.mk.injEq] at h
        obtain ⟨rfl, rfl⟩ := h
        rw [← hfl]
        exact .memory (.same (fun _ => by decide) fun hp => by cases hp.1)
      | some g =>
        simp only [hvm, Except.ok.injEq, Prod.mk.injEq] at h
        obtain ⟨rfl, rfl⟩ := h
        by_cases hc : e = cur
        · subst hc
          convert Called.fork (c := c) (a := a) hfl hvm using 2
          · simp [forkedEnv]
          · simp [forked, forkedEnv, Kernel.modEnv]
        · convert Called.fork (c := c) (a := a) hfl hvm using 2
          · simp [forkedEnv]
          · simp [forked, forkedEnv, Kernel.modEnv, hc, Ne.symm hc]

theorem ipcSendPage_sent {srcva perm : Word} {r : Int}
    (h : ipcSendPage k cur e srcva perm = .ok (r, k')) : Sent k cur e srcva perm r k' := by
  unfold ipcSendPage at h
  by_cases hs : srcva < utop
  · rw [if_pos hs] at h
    by_cases ha : roundUp srcva pgsize = srcva
    · rw [if_neg (not_not.mpr ha)] at h
      simp only [bind_ok] at h
      obtain ⟨g, hg, look, hlook, h⟩ := h
      cases look with
      | none => cases h; exact .refused
      | some look =>
        obtain ⟨pp, pt, i⟩ := look
        dsimp only at h
        by_cases hperm : perm &&& k.mem.entry pt i = perm
        · rw [if_neg (by simpa using hperm)] at h
          by_cases hw : perm &&& pteW ≠ 0 ∧ k.mem.entry pt i &&& pteW = 0
          · rw [if_pos hw] at h; cases h; exact .refused
          · rw [if_neg hw] at h
            by_cases hd : (k.envs e).envIpcDstva < utop
            · rw [if_pos hd] at h
              simp only [bind_ok] at h
              obtain ⟨g', hg', ⟨r', m⟩, hins, h⟩ := h
              by_cases hr : r' < 0
              · simp only [hr, if_true] at h
                cases h
                exact .noMem hs ha hd (pgdirOf_ok hg) (pgdirOf_ok hg') hlook hperm hins hr
              · simp only [hr, if_false] at h
                cases h
                exact .page hs ha hd (pgdirOf_ok hg) (pgdirOf_ok hg') hlook hperm hins hr
            · rw [if_neg hd] at h; cases h; exact .unwanted hs hd
        · rw [if_pos hperm] at h; cases h; exact .refused
    · rw [if_pos ha] at h; cases h; exact .refused
  · rw [if_neg hs] at h; cases h; exact .word hs

theorem sysIpcTrySend_called {a : Args} {v : Int}
    (h : sysIpcTrySend k cur a.a1 a.a2 a.a3 a.a4 = .ok (v, k')) :
    Called k c cur .ipcTrySend a (some v) k' := by
  unfold sysIpcTrySend at h
  split at h
  · cases h; exact .memory (m := k.mem) (.same (fun _ => by decide) fun hp => by cases hp.1)
  · rename_i e he
    cases hr : (k.envs e).envIpcRecving with
    | true =>
      rw [if_pos hr, bind_ok] at h
      obtain ⟨⟨r, k₁⟩, page, h⟩ := h
      by_cases hneg : r < 0
      · simp only [hneg, if_true] at h
        cases h
        exact .refuse he hr (ipcSendPage_sent page) hneg
      · simp only [hneg, if_false] at h
        cases h
        exact .deliver he hr (ipcSendPage_sent page) hneg
    | false =>
      rw [if_neg (by simp [hr])] at h
      unfold ipcEnqueue at h
      by_cases room :
          ((k.envs e).envIpcWaitingTail + 1) % maxIpcWaiting = (k.envs e).envIpcWaitingHead
      · simp only [ne_eq, room, not_true_eq_false, if_false] at h
        cases h
        exact .full he hr room
      · simp only [ne_eq, room, not_false_eq_true, if_true, waitingIx] at h
        split_ifs at h with hi
        · simp only [bind, Except.bind, pure, Except.pure, Except.ok.injEq, Prod.mk.injEq] at h
          obtain ⟨rfl, rfl⟩ := h
          have hid : ((k.setStatus cur .notRunnable).envs cur).envId = (k.envs cur).envId := by
            simp [Kernel.setStatus]
          rw [hid]
          exact .enqueue he hr room (i := ⟨_, hi⟩) rfl
        · simp [bind, Except.bind] at h

theorem ipcWakeup_woken {v : Int} (h : ipcWakeup k cur = .ok (v, k')) : Woken k cur v k' := by
  unfold ipcWakeup at h
  by_cases hq : (k.envs cur).envIpcWaitingHead = (k.envs cur).envIpcWaitingTail
  · simp only [ne_eq, hq, not_true_eq_false, if_false] at h
    cases h
    exact .empty hq
  · simp only [ne_eq, hq, not_false_eq_true, if_true, waitingIx] at h
    split_ifs at h with hi
    · simp only [bind, Except.bind] at h
      split at h
      · rename_i he
        cases h
        exact .stale hq rfl he
      · rename_i e he
        cases h
        exact .wake hq rfl he
    · simp [bind, Except.bind] at h

/-- The wake-up does what `Woken` allows. -/
theorem Woken.ipcWakeup {v : Int} (h : Woken k cur v k') :
    JosKernel.ipcWakeup k cur = .ok (v, k') := by
  have first : ∀ {i : Fin 10}, (k.envs cur).envIpcWaitingHead.toNat = i →
      waitingIx (k.envs cur).envIpcWaitingHead = .ok i := by
    intro i hi
    simp only [waitingIx, hi, i.isLt, dif_pos]
  have hdeq : dequeued k cur = k.modEnv cur fun env =>
      { env with envIpcWaitingHead := ((k.envs cur).envIpcWaitingHead + 1) % maxIpcWaiting } := rfl
  cases h with
  | empty h => simp only [JosKernel.ipcWakeup, h, ne_eq, not_true_eq_false, if_false]; rfl
  | wake h hi he =>
    rw [hdeq] at he ⊢
    simp only [JosKernel.ipcWakeup, if_pos h, first hi, bind, Except.bind, he]
    rfl
  | stale h hi he =>
    rw [hdeq] at he ⊢
    simp only [JosKernel.ipcWakeup, if_pos h, first hi, bind, Except.bind, he]
    rfl

theorem Woken.result {v : Int} (h : Woken k cur v k') : v = 0 ∨ v = -eBadEnv := by
  cases h with
  | empty => exact .inl rfl
  | wake => exact .inl rfl
  | stale => exact .inr rfl

theorem sysIpcRecv_called {a : Args} {r : Option Int}
    (h : sysIpcRecv k c cur a.a1 = .ok (r, k')) : Called k c cur .ipcRecv a r k' := by
  unfold sysIpcRecv at h
  split_ifs at h with hva
  · cases h; exact .memory (m := k.mem) (.same (fun _ => by decide) fun hp => by cases hp.1)
  · rw [bind_ok] at h
    obtain ⟨⟨v, k₁⟩, wake, h⟩ := h
    have wake' := ipcWakeup_woken wake
    rcases wake'.result with rfl | rfl
    · simp only [Int.lt_irrefl, if_false, bind_ok] at h
      obtain ⟨k₂, sched, h⟩ := h
      cases h
      exact .recv hva wake' (schedYield_scheduled sched)
    · have hneg : -eBadEnv < 0 := by decide
      simp only [hneg, if_true] at h
      cases h
      exact .recvStale hva wake'

theorem sysCputs_called {a : Args} {r : Option Int}
    (h : sysCputs k c cur a.a1 a.a2 = .ok (r, k')) : Called k c cur .cputs a r k' := by
  unfold sysCputs userMemAssert at h
  simp only [bind_ok] at h
  obtain ⟨⟨o, k₁⟩, ⟨g, hg, res, hcheck, hres⟩, h⟩ := h
  cases res with
  | none =>
    cases hres
    dsimp only at h
    split at h
    · cases h
    · cases h
      exact .memory (m := k.mem) (.same (by simp [Sys.reports]) fun hp => by cases hp.1)
  | some va =>
    have d := envDestroy_destroyed hres
    have := Called.cputs (a := a) (pgdirOf_ok hg) hcheck d
    cases o with
    | none => cases h; exact this
    | some u =>
      dsimp only at h
      split at h <;> cases h
      exact this

theorem sysEnvDestroy_called {a : Args} {r : Option Int}
    (h : sysEnvDestroy k c cur a.a1 = .ok (r, k')) :
    Called k c cur .envDestroy a (r.map fun _ => 0) k' := by
  unfold sysEnvDestroy at h
  split at h
  · cases h; exact .memory (m := k.mem) (.same (by simp [Sys.reports]) fun hp => by cases hp.1)
  · rename_i e he
    rw [bind_ok] at h
    obtain ⟨⟨o, k₁⟩, hd, h⟩ := h
    have := Called.destroy (a := a) he (envDestroy_destroyed hd)
    cases o with
    | none => cases h; exact this
    | some u => cases h; exact this

/-- Every system call does one of the things of `Called`, and an unknown one does nothing. -/
theorem syscall_called {io : Inputs} {no : Word} {a : Args} {r : Option Int}
    (h : syscall k c cur io no a.a1 a.a2 a.a3 a.a4 a.a5 = .ok (r, k')) :
    (Sys.ofNat no.toNat = none ∧ r = some (-eNoSys) ∧ k' = k) ∨
      ∃ s, Sys.ofNat no.toNat = some s ∧ Called k c cur s a r k' := by
  unfold syscall at h
  cases hs : Sys.ofNat no.toNat with
  | none => simp only [hs] at h; cases h; exact .inl ⟨rfl, rfl, rfl⟩
  | some s =>
    refine .inr ⟨s, rfl, ?_⟩
    rw [hs] at h
    -- a handler that always returns
    have ret : ∀ {x : Except Panic (Int × Kernel n)}, returning x = .ok (r, k') →
        ∃ v, x = .ok (v, k') ∧ r = some v := by
      intro x hx
      cases x with
      | error _ => simp [returning, Except.map] at hx
      | ok p => cases hx; exact ⟨p.1, rfl, rfl⟩
    cases s with
    | cputs => exact sysCputs_called h
    | cgetc =>
      cases h
      exact .memory (m := k.mem) (.same (by simp [Sys.reports]) fun hp => by cases hp.1)
    | getenvid =>
      cases h
      exact .memory (m := k.mem) (.same (by simp [Sys.reports]) fun hp => by cases hp.1)
    | envDestroy =>
      rw [bind_ok] at h
      obtain ⟨⟨r', k₁⟩, hd, h⟩ := h
      cases h
      exact sysEnvDestroy_called hd
    | pageAlloc =>
      obtain ⟨v, hv, rfl⟩ := ret h
      obtain ⟨m, rfl, op⟩ := sysPageAlloc_memEffect hv
      exact .memory op
    | pageMap =>
      obtain ⟨v, hv, rfl⟩ := ret h
      obtain ⟨m, rfl, op⟩ := sysPageMap_memEffect hv
      exact .memory op
    | pageUnmap =>
      obtain ⟨v, hv, rfl⟩ := ret h
      obtain ⟨m, rfl, op⟩ := sysPageUnmap_memEffect hv
      exact .memory op
    | exofork =>
      obtain ⟨v, hv, rfl⟩ := ret h
      exact sysExofork_called hv
    | envSetStatus =>
      obtain ⟨v, hv, rfl⟩ := ret h
      unfold sysEnvSetStatus at hv
      by_cases hst : a.a2 = 2 ∨ a.a2 = 4
      · rw [if_pos hst] at hv
        split at hv
        · cases hv; exact .memory (m := k.mem) (.same (fun _ => by decide) fun hp => by cases hp.1)
        · cases hv; exact .setStatus (by assumption) hst
      · rw [if_neg hst] at hv
        cases hv
        exact .memory (m := k.mem) (.same (fun _ => by decide) fun hp => by cases hp.1)
    | yield =>
      rw [bind_ok] at h
      obtain ⟨k₁, hsched, h⟩ := h
      cases h
      exact .yield (schedYield_scheduled hsched)
    | ipcTrySend =>
      obtain ⟨v, hv, rfl⟩ := ret h
      exact sysIpcTrySend_called hv
    | ipcRecv => exact sysIpcRecv_called h
    | envSetUpcall exc =>
      obtain ⟨v, hv, rfl⟩ := ret h
      rw [dispatchSetUpcall_eq] at hv
      unfold sysEnvSetUpcall at hv
      split at hv
      · cases hv; exact .memory (m := k.mem) (.same (fun _ => by decide) fun hp => by cases hp.1)
      · cases hv; exact .setUpcall (by assumption)

/-! ## Traps -/

/-- The trap frame is saved in the current environment. -/
def saved (k : Kernel n) (cur : EnvIx) (tf : Trapframe) : Kernel n :=
  k.modEnv cur fun env => { env with envTf := tf }

/-- The result of a system call is stored in the saved frame. -/
def setResult (k : Kernel n) (cur : EnvIx) (v : Int) : Kernel n :=
  k.modEnv cur fun env => { env with envTf := env.envTf.setEax (BitVec.ofInt 32 v) }

/-- The arguments that a trap frame passes to a system call. -/
def argsOf (tf : Trapframe) : Args :=
  ⟨tf.tfRegs.regEdx, tf.tfRegs.regEcx, tf.tfRegs.regEbx, tf.tfRegs.regEdi, tf.tfRegs.regEsi⟩

/-- The state in which an upcall is started, with the user trap frame stored in `m`. -/
def upcalled (k : Kernel n) (cur : EnvIx) (tf : Trapframe) (exc : Exc) (m : Mem n) : Kernel n :=
  { saved k cur tf with mem := m }.modEnv cur fun env =>
    { env with envTf := { env.envTf with
        tfEip := (k.envs cur).envUpcall exc, tfEsp := utfAddr tf.tfEsp } }

/-- What the end of `trap` does. -/
inductive Resumed (k : Kernel n) (c : Cpu) : Kernel n → Prop
  | run {e : EnvIx} {k' : Kernel n} (hc : k.curenv c = some e) (hr : k.status e = .running)
      (run : Ran k c e k') : Resumed k c k'
  | yield {k' : Kernel n} (hc : ∀ e, k.curenv c = some e → k.status e ≠ .running)
      (sched : Scheduled k c k') : Resumed k c k'

/-- Traps that destroy the environment that caused them. -/
inductive Doomed (k : Kernel n) (cur : EnvIx) (tf : Trapframe) : Prop
  | noUpcall {exc : Exc} (hexc : Exc.ofTrapno tf.tfTrapno.toNat = some exc)
      (hup : (k.envs cur).envUpcall exc = 0)
  | badStack {exc : Exc} {g : Fin n} {va : Word}
      (hexc : Exc.ofTrapno tf.tfTrapno.toNat = some exc) (hup : (k.envs cur).envUpcall exc ≠ 0)
      (hg : (k.envs cur).envPgdir = some g)
      (bad : k.mem.userMemCheck g (utfAddr tf.tfEsp) 1 (pteW ||| pteU) = .ok (some va))
  | unexpected (hexc : Exc.ofTrapno tf.tfTrapno.toNat = none)
      (hno : tf.tfTrapno ≠ 48 ∧ tf.tfTrapno ≠ 39 ∧ tf.tfTrapno ≠ 32)

/-- What a trap from user mode does, by the environment `cur` on CPU `c`. -/
inductive Trapped (k : Kernel n) (c : Cpu) (cur : EnvIx) (tf : Trapframe) (io : Inputs) :
    Kernel n → Prop
  | zombie {k₁ k' : Kernel n} (hd : k.status cur = .dying) (free : envFree k c cur = .ok k₁)
      (sched : Scheduled (k₁.modCpu c fun cpu => { cpu with cpuEnv := none }) c k') :
      Trapped k c cur tf io k'
  | destroy {k₁ k' : Kernel n} (hd : k.status cur ≠ .dying) (why : Doomed k cur tf)
      (free : envFree (saved k cur tf) c cur = .ok k₁)
      (sched : Scheduled (k₁.modCpu c fun cpu => { cpu with cpuEnv := none }) c k') :
      Trapped k c cur tf io k'
  | upcall {exc : Exc} {g : Fin n} {m : Mem n} {k' : Kernel n} (hd : k.status cur ≠ .dying)
      (hexc : Exc.ofTrapno tf.tfTrapno.toNat = some exc) (hup : (k.envs cur).envUpcall exc ≠ 0)
      (hg : (k.envs cur).envPgdir = some g)
      (ok : k.mem.userMemCheck g (utfAddr tf.tfEsp) 1 (pteW ||| pteU) = .ok none)
      (store : kstoreWords k.mem (k.cpus c).cr3 (utfAddr tf.tfEsp) (utrapframe io.cr2 tf) = some m)
      (run : Ran (upcalled k cur tf exc m) c cur k') : Trapped k c cur tf io k'
  | nosys {k' : Kernel n} (hd : k.status cur ≠ .dying) (hno : tf.tfTrapno = 48)
      (hs : Sys.ofNat tf.tfRegs.regEax.toNat = none)
      (ret : Resumed (setResult (saved k cur tf) cur (-eNoSys)) c k') : Trapped k c cur tf io k'
  | call {s : Sys} {v : Int} {k₁ k' : Kernel n} (hd : k.status cur ≠ .dying)
      (hno : tf.tfTrapno = 48) (hs : Sys.ofNat tf.tfRegs.regEax.toNat = some s)
      (called : Called (saved k cur tf) c cur s (argsOf tf) (some v) k₁)
      (ret : Resumed (setResult k₁ cur v) c k') : Trapped k c cur tf io k'
  | leave {s : Sys} {k' : Kernel n} (hd : k.status cur ≠ .dying) (hno : tf.tfTrapno = 48)
      (hs : Sys.ofNat tf.tfRegs.regEax.toNat = some s)
      (called : Called (saved k cur tf) c cur s (argsOf tf) none k') : Trapped k c cur tf io k'
  | spurious {k' : Kernel n} (hd : k.status cur ≠ .dying) (hno : tf.tfTrapno = 39)
      (ret : Resumed (saved k cur tf) c k') : Trapped k c cur tf io k'
  | timer {k' : Kernel n} (hd : k.status cur ≠ .dying) (hno : tf.tfTrapno = 32)
      (sched : Scheduled (saved k cur tf) c k') : Trapped k c cur tf io k'

theorem trapReturn_resumed (h : trapReturn k c = .ok k') : Resumed k c k' := by
  unfold trapReturn at h
  split at h
  · rename_i e hc
    split_ifs at h with hr
    · exact .run hc hr (envRun_ran h)
    · exact .yield (fun e' he => by rw [hc] at he; cases he; exact hr) (schedYield_scheduled h)
  · rename_i hc
    exact .yield (fun e' he => by simp [hc] at he) (schedYield_scheduled h)

/-- `env_destroy` of the current environment does not return. -/
theorem envDestroy_self {r : Option Unit} (hc : k.curenv c = some e)
    (h : envDestroy k c e = .ok (r, k')) :
    r = none ∧ ∃ k₁, envFree k c e = .ok k₁ ∧
      Scheduled (k₁.modCpu c fun cpu => { cpu with cpuEnv := none }) c k' := by
  cases envDestroy_destroyed h with
  | mark _ hne => exact absurd hc hne
  | other _ hne _ => exact absurd hc hne
  | self _ free sched => exact ⟨rfl, _, free, sched⟩

theorem trapDispatch_trapped {tf : Trapframe} {io : Inputs} {r : Option Unit} {k₁ : Kernel n}
    (hc : k.curenv c = some cur) (hcs : tf.tfCs &&& 3 = 3) (hd : k.status cur ≠ .dying)
    (h : trapDispatch (saved k cur tf) c cur tf io = .ok (r, k₁))
    (hnone : r = none → k' = k₁) (hsome : r = some () → trapReturn k₁ c = .ok k') :
    Trapped k c cur tf io k' := by
  have hc' : (saved k cur tf).curenv c = some cur := hc
  have hdestroy : Doomed k cur tf → envDestroy (saved k cur tf) c cur = .ok (r, k₁) →
      Trapped k c cur tf io k' := by
    intro why h
    obtain ⟨rfl, k₂, free, sched⟩ := envDestroy_self hc' h
    obtain rfl := hnone rfl
    exact .destroy hd why free sched
  unfold trapDispatch at h
  cases hexc : Exc.ofTrapno tf.tfTrapno.toNat with
  | some exc =>
    simp only [hexc, handler_eq] at h
    unfold excHandler userMemAssert at h
    have hup' : ((saved k cur tf).envs cur).envUpcall exc = (k.envs cur).envUpcall exc := by
      simp [saved]
    have hpg' : pgdirOf (saved k cur tf) cur = pgdirOf k cur := by simp [pgdirOf, saved]
    have hcs' : ¬tf.tfCs &&& 3 = 0 := by rw [hcs]; decide
    by_cases hup : (k.envs cur).envUpcall exc = 0
    · simp only [hcs', if_false, hup', hup, ne_eq, not_true_eq_false, pure, Except.pure, bind,
        Except.bind] at h
      exact hdestroy (.noUpcall hexc hup) h
    · simp only [hcs', if_false, hup', hup, ne_eq, not_false_eq_true, if_true, hpg', bind_ok] at h
      obtain ⟨⟨o, k₂⟩, ⟨g, hg, res, hcheck, hres⟩, h⟩ := h
      cases res with
      | some va =>
        obtain ⟨rfl, k₃, free, sched⟩ := envDestroy_self hc' hres
        cases h
        obtain rfl := hnone rfl
        exact .destroy hd (.badStack hexc hup (pgdirOf_ok hg) hcheck) free sched
      | none =>
        cases hres
        cases hst : kstoreWords (saved k cur tf).mem ((saved k cur tf).cpus c).cr3
            (utfAddr tf.tfEsp) (utrapframe io.cr2 tf) with
        | none => simp [hst, throw, throwThe, MonadExceptOf.throw] at h
        | some m =>
          simp only [hst, bind_ok] at h
          obtain ⟨k₃, hrun, h⟩ := h
          cases h
          obtain rfl := hnone rfl
          exact .upcall hd hexc hup (pgdirOf_ok hg) hcheck hst (envRun_ran hrun)
  | none =>
    rw [hexc] at h
    by_cases hno : tf.tfTrapno = 48
    · rw [if_pos hno, trapSyscall, bind_ok] at h
      obtain ⟨⟨v, k₂⟩, hsys, h⟩ := h
      rcases syscall_called (a := argsOf tf) hsys with ⟨hs, rfl, rfl⟩ | ⟨s, hs, called⟩
      · cases h
        exact .nosys hd hno hs (trapReturn_resumed (hsome rfl))
      · cases v with
        | none =>
          cases h
          obtain rfl := hnone rfl
          exact .leave hd hno hs called
        | some v =>
          cases h
          exact .call hd hno hs called (trapReturn_resumed (hsome rfl))
    · rw [if_neg hno] at h
      by_cases hsp : tf.tfTrapno = 39
      · rw [if_pos hsp] at h
        cases h
        exact .spurious hd hsp (trapReturn_resumed (hsome rfl))
      · rw [if_neg hsp] at h
        by_cases htm : tf.tfTrapno = 32
        · rw [if_pos htm, bind_ok] at h
          obtain ⟨k₂, sched, h⟩ := h
          cases h
          obtain rfl := hnone rfl
          exact .timer hd htm (schedYield_scheduled sched)
        · rw [if_neg htm] at h
          exact hdestroy (.unexpected hexc ⟨hno, hsp, htm⟩) h

theorem trap_trapped {tf : Trapframe} {io : Inputs} (hcs : tf.tfCs &&& 3 = 3)
    (h : trap k c tf io = .ok k') : ∃ cur, k.curenv c = some cur ∧ Trapped k c cur tf io k' := by
  unfold trap at h
  cases hc : k.curenv c with
  | none => simp [hc, throw, throwThe, MonadExceptOf.throw] at h
  | some cur =>
    refine ⟨cur, rfl, ?_⟩
    simp only [hc] at h
    by_cases hd : k.status cur = .dying
    · rw [if_pos hd, bind_ok] at h
      obtain ⟨k₁, free, sched⟩ := h
      exact .zombie hd free (schedYield_scheduled sched)
    · rw [if_neg hd, bind_ok] at h
      obtain ⟨⟨r, k₁⟩, hdisp, h⟩ := h
      cases r with
      | none => cases h; exact trapDispatch_trapped hc hcs hd hdisp (fun _ => rfl) (by simp)
      | some _ => exact trapDispatch_trapped hc hcs hd hdisp (by simp) fun _ => h

/-! ## Steps of the machine -/

theorem step_trap {tf : Trapframe} {io : Inputs} (h : Step k (.trap c tf io) k') :
    (k.cpus c).cpuMode = .user ∧ LockFree k ∧
      ∃ cur, k.curenv c = some cur ∧ Trapped k c cur tf io k' := by
  obtain ⟨⟨hm, hcs, hl⟩, hk'⟩ := h
  exact ⟨hm, hl, trap_trapped hcs hk'⟩

theorem step_wake {no : Word} (h : Step k (.wake c no) k') :
    (k.cpus c).cpuMode = .halted ∧ LockFree k ∧ (Scheduled k c k' ∨ Resumed k c k') := by
  obtain ⟨⟨hm, hl⟩, hk'⟩ := h
  refine ⟨hm, hl, ?_⟩
  simp only [perform, trapHalted] at hk'
  split_ifs at hk'
  · exact .inl (schedYield_scheduled hk')
  · exact .inr (trapReturn_resumed hk')

theorem step_start (h : Step k (.start c) k') :
    (k.cpus c).cpuMode = .boot ∧ LockFree k ∧ Scheduled k c k' :=
  ⟨h.1.1, h.1.2, schedYield_scheduled h.2⟩

theorem step_access {va : Word} {store : Option Byte} (h : Step k (.access c va store) k') :
    (k.cpus c).cpuMode = .user ∧ va < utop ∧ (k' = k ∨
      ∃ m, k.mem.userAccess (k.cpus c).cr3 va store = some m ∧ k' = { k with mem := m }) := by
  obtain ⟨⟨hm, hva⟩, hk'⟩ := h
  refine ⟨hm, hva, ?_⟩
  simp only [perform, Except.ok.injEq] at hk'
  split at hk'
  · exact .inl hk'.symm
  · rename_i m hacc
    exact .inr ⟨m, hacc, hk'.symm⟩

end JosKernel
