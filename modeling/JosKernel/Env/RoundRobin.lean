import JosKernel.Env.Total
import JosKernel.Lib.Ring

/-!
# Round-robin scheduling

`sched_yield` should look at the slots in circular order, starting just after that of the current
environment. It starts at the current environment itself. This is the same thing as long as the
current environment is not `ENV_RUNNABLE`, as one that was running is not; but an environment can
give itself this status. Then it is resumed at once, and `env_run` leaves its status alone.

With no environment left at all, `sched_halt` does not halt either: it stays in the monitor.
-/
namespace JosKernel

open Lib

variable {n : Nat} {k k' : Kernel n} {c : Cpu} {cur e : EnvIx}

/-- The slot from which a fair scheduler searches. -/
def turn (k : Kernel n) (c : Cpu) : EnvIx :=
  match k.curenv c with
  | some cur => cur + 1
  | none => 0

def Runnable (k : Kernel n) (e : EnvIx) : Prop := k.status e = .runnable

/-- CPU `c` is in user mode, in environment `e`. -/
structure Started (k : Kernel n) (c : Cpu) (e : EnvIx) : Prop where
  cur : k.curenv c = some e
  mode : (k.cpus c).cpuMode = .user
  status : k.status e = .running

/-- CPU `c` waits for an interrupt, on the kernel's page directory. -/
structure Halted (k : Kernel n) (c : Cpu) : Prop where
  cur : k.curenv c = none
  mode : (k.cpus c).cpuMode = .halted
  cr3 : (k.cpus c).cr3 = k.mem.kernPgdir

/-- There is an environment that is runnable, running or to be destroyed. -/
def SomeLeft (k : Kernel n) : Prop :=
  ∃ e, k.status e = .runnable ∨ k.status e = .running ∨ k.status e = .dying

/-- What the scheduler should do. -/
structure RoundRobin (k : Kernel n) (c : Cpu) (k' : Kernel n) : Prop where
  next : ∀ e, FirstFrom (Runnable k) (turn k c) e → Started k' c e
  resume : (∀ e, ¬Runnable k e) → ∀ cur, k.curenv c = some cur → k.status cur = .running →
    Started k' c cur
  halt : (∀ e, ¬Runnable k e) → (∀ cur, k.curenv c = some cur → k.status cur ≠ .running) →
    Halted k' c

/-- The current environment is in the slot that its id names. -/
def CurSlot (k : Kernel n) (c : Cpu) : Prop :=
  ∀ cur, k.curenv c = some cur → envx (k.envs cur).envId = cur

/-- The first slot with a runnable environment, from `schedOffset` on. -/
theorem find?_schedOrder : (schedOrder (schedOffset k c)).find? (fun e => k.status e = .runnable) =
    some e ↔ FirstFrom (Runnable k) (schedOffset k c) e := by
  rw [schedOrder, find?_eq_some_iff_firstFrom]
  simp only [decide_eq_true_eq]
  rfl

theorem find?_schedOrder_eq_none {offset : EnvIx} :
    (schedOrder offset).find? (fun e => k.status e = .runnable) = none ↔ ∀ e, ¬Runnable k e := by
  rw [List.find?_eq_none]
  simp only [decide_eq_true_eq, Runnable]
  exact ⟨fun h e => h e (mem_schedOrder offset e), fun h e _ => h e⟩

/-- Starting at a slot that is not runnable. -/
theorem firstFrom_turn_iff (hid : CurSlot k c)
    (hcur : ∀ cur, k.curenv c = some cur → k.status cur ≠ .runnable) :
    FirstFrom (Runnable k) (turn k c) e ↔ FirstFrom (Runnable k) (schedOffset k c) e := by
  unfold turn schedOffset
  cases hc : k.curenv c with
  | none => rfl
  | some cur =>
    simp only [hid cur hc]
    exact firstFrom_succ_iff (hcur cur hc)

theorem Ran.started (run : Ran k c e k') (h : k.curenv c = some e → k.status e = .running) :
    Started k' c e := by
  refine ⟨run.cur, run.mode, ?_⟩
  rw [run.status, ranStatus]
  by_cases hc : k.curenv c = some e
  · rw [if_pos hc, h hc]
  · rw [if_neg hc, if_pos rfl]

theorem halted_schedHalt (h : SomeLeft k) : Halted (schedHalt k c) c := by
  have hhalt : schedHalt k c = k.modCpu c fun _ =>
      { cpuMode := .halted, cpuEnv := none, cr3 := k.mem.kernPgdir } := if_pos h
  rw [hhalt]
  constructor <;> simp [Kernel.curenv]

/-- In the monitor the CPU does not wait for interrupts. -/
theorem not_halted_schedHalt (h : ¬SomeLeft k) : ¬Halted (schedHalt k c) c := by
  intro halted
  have hhalt : schedHalt k c = k.modCpu c fun cpu => { cpu with cpuMode := .monitor } := if_neg h
  have hmode := halted.mode
  rw [hhalt, Kernel.modCpu_self] at hmode
  cases hmode

/-- With no slot to choose and nothing to resume, the scheduler ends in `sched_halt`. -/
theorem schedYield_idle (idle : ∀ e, ¬Runnable k e)
    (hstop : ∀ cur, k.curenv c = some cur → k.status cur ≠ .running) :
    schedYield k c = .ok (schedHalt k c) := by
  unfold schedYield
  rw [find?_schedOrder_eq_none.mpr idle]
  cases hc : k.curenv c with
  | none => rfl
  | some cur => exact if_neg (hstop cur hc)

theorem roundRobin_of_not_runnable (hid : CurSlot k c)
    (hcur : ∀ cur, k.curenv c = some cur → k.status cur ≠ .runnable) (hleft : SomeLeft k)
    (h : schedYield k c = .ok k') : RoundRobin k c k' := by
  unfold schedYield at h
  cases hfind : (schedOrder (schedOffset k c)).find? fun e => k.status e = .runnable with
  | some e =>
    rw [hfind] at h
    have hfirst := find?_schedOrder.mp hfind
    have run := envRun_ran h
    have hother : k.curenv c = some e → k.status e = .running :=
      fun hc => absurd hfirst.1 (hcur e hc)
    refine ⟨fun e' he' => ?_, fun idle => absurd hfirst.1 (idle e),
      fun idle => absurd hfirst.1 (idle e)⟩
    rw [((firstFrom_turn_iff hid hcur).mp he').unique hfirst]
    exact run.started hother
  | none =>
    have idle := find?_schedOrder_eq_none.mp hfind
    simp only [hfind] at h
    refine ⟨fun e he => absurd he.1 (idle e), fun _ cur hc hr => ?_, fun _ hstop => ?_⟩
    · simp only [hc, hr, if_true] at h
      exact (envRun_ran h).started fun _ => hr
    · have hyield : schedYield k c = .ok k' := by
        unfold schedYield
        rw [hfind]
        exact h
      obtain rfl := Except.ok.inj ((schedYield_idle idle hstop).symm.trans hyield)
      exact halted_schedHalt hleft

/-- The current environment goes on when it is runnable, and stays runnable. -/
theorem not_roundRobin_of_runnable (hid : CurSlot k c) (hc : k.curenv c = some cur)
    (hr : k.status cur = .runnable) (h : schedYield k c = .ok k') : ¬RoundRobin k c k' := by
  have hoffset : schedOffset k c = cur := by
    unfold schedOffset
    rw [hc]
    exact hid cur hc
  have hfind := find?_schedOrder (k := k) (c := c) (e := cur).mpr
    ⟨hr, fun j hj => by
      rw [hoffset, sub_self] at hj
      exact absurd hj (Fin.not_lt_zero _)⟩
  unfold schedYield at h
  rw [hfind] at h
  have run := envRun_ran h
  intro rr
  obtain ⟨e, he⟩ : ∃ e, FirstFrom (Runnable k) (turn k c) e := by
    have hsome : ((schedOrder (turn k c)).find? fun e => k.status e = .runnable) ≠ none :=
      fun hnone => find?_schedOrder_eq_none.mp hnone cur hr
    obtain ⟨e, he⟩ := Option.ne_none_iff_exists'.mp hsome
    rw [schedOrder, find?_eq_some_iff_firstFrom] at he
    simp only [decide_eq_true_eq] at he
    exact ⟨e, he⟩
  have started := rr.next e he
  obtain rfl : e = cur := Option.some.inj (started.cur.symm.trans run.cur)
  have hst := started.status
  rw [run.status, ranStatus, if_pos hc, hr] at hst
  cases hst

/-- With nothing left the CPU should halt, and does not. -/
theorem not_roundRobin_of_not_left (hleft : ¬SomeLeft k) (h : schedYield k c = .ok k') :
    ¬RoundRobin k c k' := by
  intro rr
  have idle : ∀ e, ¬Runnable k e := fun e he => hleft ⟨e, .inl he⟩
  have hstop : ∀ cur, k.curenv c = some cur → k.status cur ≠ .running := fun cur _ hr =>
    hleft ⟨cur, .inr (.inl hr)⟩
  obtain rfl := Except.ok.inj ((schedYield_idle idle hstop).symm.trans h)
  exact not_halted_schedHalt hleft (rr.halt idle hstop)

/-- The scheduler is fair unless the current environment is `ENV_RUNNABLE`, and it halts the CPU
unless no environment is left. -/
theorem roundRobin_iff (hid : CurSlot k c) (hlive : ∀ e, k.status e ≠ .free → k.dirs e ≠ none) :
    ∃ k', schedYield k c = .ok k' ∧
      (RoundRobin k c k' ↔
        (∀ cur, k.curenv c = some cur → k.status cur ≠ .runnable) ∧ SomeLeft k) := by
  obtain ⟨k', hok⟩ := schedYield_total hlive c
  refine ⟨k', hok, fun rr => ⟨fun cur hc hr => not_roundRobin_of_runnable hid hc hr hok rr, ?_⟩,
    fun ⟨hcur, hleft⟩ => roundRobin_of_not_runnable hid hcur hleft hok⟩
  by_contra hleft
  exact not_roundRobin_of_not_left hleft hok rr

theorem roundRobin_iff_small : ∃ k : Kernel 16, runActions small [.start 0] = some k ∧
    ∃ k', schedYield k 0 = .ok k' ∧
      (RoundRobin k 0 k' ↔
        (∀ cur, k.curenv 0 = some cur → k.status cur ≠ .runnable) ∧ SomeLeft k) := by
  have h : (runActions small [.start 0]).any (fun k => decide (k.curenv 0 = some 0 ∧
      envx (k.envs 0).envId = 0 ∧ ∀ e, k.status e ≠ .free → k.dirs e ≠ none)) = true := by
    decide +kernel
  obtain ⟨k, hk, hp⟩ := (Option.any_eq_true _ _).mp h
  obtain ⟨hc, hid, hlive⟩ := of_decide_eq_true hp
  refine ⟨k, hk, roundRobin_iff (fun cur hcur => ?_) hlive⟩
  obtain rfl := Option.some.inj (hc.symm.trans hcur)
  exact hid

/-- An environment makes itself runnable with `sys_env_set_status`. -/
theorem not_roundRobin_setStatus : ∃ k₁ : Kernel 16, runActions small [.start 0] = some k₁ ∧
    ∃ k k', sysEnvSetStatus k₁ 0 0 2 = (0, k) ∧ schedYield k 0 = .ok k' ∧
      ¬RoundRobin k 0 k' := by
  have h : (runActions small [.start 0]).any (fun k₁ => decide ((sysEnvSetStatus k₁ 0 0 2).1 = 0 ∧
      (sysEnvSetStatus k₁ 0 0 2).2.curenv 0 = some 0 ∧
      (sysEnvSetStatus k₁ 0 0 2).2.status 0 = .runnable ∧
      envx ((sysEnvSetStatus k₁ 0 0 2).2.envs 0).envId = 0 ∧
      (schedYield (sysEnvSetStatus k₁ 0 0 2).2 0).isOk = true)) = true := by
    decide +kernel
  obtain ⟨k₁, hk, hp⟩ := (Option.any_eq_true _ _).mp h
  obtain ⟨h0, hc, hr, hid, hok⟩ := of_decide_eq_true hp
  cases hy : schedYield (sysEnvSetStatus k₁ 0 0 2).2 0 with
  | error _ =>
    rw [hy] at hok
    cases hok
  | ok k' =>
    refine ⟨k₁, hk, _, k', Prod.ext h0 rfl, hy,
      not_roundRobin_of_runnable (fun cur hcur => ?_) hc hr hy⟩
    obtain rfl := Option.some.inj (hc.symm.trans hcur)
    exact hid

end JosKernel
