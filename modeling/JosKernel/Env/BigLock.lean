import JosKernel.Lib.Runs
import JosKernel.Lib.SpinLock

/-!
# The big kernel lock

The control flow of `i386_init`, `mp_main`, `trap`, `sched_halt`, `env_run` and of the functions of
`kern/spinlock.c`, on any number of CPUs. A step of a CPU is one access to what CPUs share: the
lock, a `cpu_status`, or `panicstr`. What a CPU does while it holds the lock is left open but for
the ways out: it runs an environment, halts, panics, or faults in the kernel. Trap frames tell
where a trap came from, interrupts are taken in user mode and in the loop of `sched_halt` only,
and `thiscpu` is the CPU itself.
-/
namespace JosKernel.BigLock

open Lib

inductive CpuStatus where
  | unused | started | halted
  deriving DecidableEq

/-- Where a trap comes from. The code sees the mode in `tf_cs` only. -/
inductive From where
  | user
  | hlt
  | kernel
  deriving DecidableEq

/-- What follows a call of `lock_kernel`. -/
inductive Locking where
  | boot
  | ap
  /-- In `trap`, since the CPU was halted. -/
  | status (f : From)
  /-- In `trap`, since it came from user mode. -/
  | user
  deriving DecidableEq

/-- What follows a call of `unlock_kernel`. -/
inductive Unlocking where
  | run
  | halt
  deriving DecidableEq

/-- Where a CPU is. -/
inductive Pc (C : Type) where
  | off
  /-- `i386_init` before it takes the lock. -/
  | init
  /-- The loop of `boot_aps`, with the rest of `cpus[]`. -/
  | bootAps (rest : List C)
  | waitAp (c : C) (rest : List C)
  | mpMain
  | lockTest (k : Locking)
  | lockOwner (k : Locking)
  | lockXchg (k : Locking)
  | lockRecord (k : Locking)
  /-- Anywhere in the kernel, with the lock. -/
  | kernel
  | trapEntry (f : From)
  | trapStatus (f : From)
  | trapAssert (f : From)
  /-- `sched_halt` before it sets the status. -/
  | schedHalt
  | unlockTest (k : Unlocking)
  | unlockOwner (k : Unlocking)
  | unlockClear (k : Unlocking)
  | unlockXchg (k : Unlocking)
  | envPopTf
  | user
  | hlt
  /-- Panicked, or stopped in `trap`: with the lock where `f` is `.kernel`. -/
  | dead (f : From)
  /-- The panic of `spin_lock`. -/
  | alreadyHolding
  /-- The panic of `spin_unlock`. -/
  | notHolding

def Locking.resume {C : Type} (cpus : List C) : Locking → Pc C
  | .boot => .bootAps cpus
  | .ap => .kernel
  | .status f => .trapAssert f
  | .user => .kernel

def Unlocking.resume {C : Type} : Unlocking → Pc C
  | .run => .envPopTf
  | .halt => .hlt

structure Machine (C : Type) where
  pc : C → Pc C
  status : C → CpuStatus
  lock : SpinLock C
  panicstr : Bool

variable {C : Type} [DecidableEq C]

namespace Machine

def goto (s : Machine C) (i : C) (pc : Pc C) : Machine C :=
  { s with pc := Function.update s.pc i pc }

def setStatus (s : Machine C) (i : C) (st : CpuStatus) : Machine C :=
  { s with status := Function.update s.status i st }

end Machine

/-- A step of CPU `i`. `cpus` is the array `cpus[]`. -/
inductive Step (cpus : List C) (s : Machine C) (i : C) : Machine C → Prop
  -- start-up
  | init : s.pc i = .init → Step cpus s i (s.goto i (.lockTest .boot))
  | bootDone : s.pc i = .bootAps [] → Step cpus s i (s.goto i .kernel)
  | bootSelf {rest : List C} : s.pc i = .bootAps (i :: rest) →
      Step cpus s i (s.goto i (.bootAps rest))
  | bootStart {c : C} {rest : List C} : s.pc i = .bootAps (c :: rest) → c ≠ i →
      Step cpus s i ((s.goto c .mpMain).goto i (.waitAp c rest))
  | bootWait {c : C} {rest : List C} : s.pc i = .waitAp c rest → s.status c = .started →
      Step cpus s i (s.goto i (.bootAps rest))
  | mpMain : s.pc i = .mpMain →
      Step cpus s i ((s.setStatus i .started).goto i (.lockTest .ap))
  -- `spin_lock`
  | lockFree {k : Locking} : s.pc i = .lockTest k → s.lock.locked = false →
      Step cpus s i (s.goto i (.lockXchg k))
  | lockBusy {k : Locking} : s.pc i = .lockTest k → s.lock.locked = true →
      Step cpus s i (s.goto i (.lockOwner k))
  | lockMine {k : Locking} : s.pc i = .lockOwner k → s.lock.owner = some i →
      Step cpus s i (s.goto i .alreadyHolding)
  | lockOther {k : Locking} : s.pc i = .lockOwner k → s.lock.owner ≠ some i →
      Step cpus s i (s.goto i (.lockXchg k))
  | lockTaken {k : Locking} : s.pc i = .lockXchg k → s.lock.locked = false →
      Step cpus s i ({ s with lock := { s.lock with locked := true } }.goto i (.lockRecord k))
  | lockSpin {k : Locking} : s.pc i = .lockXchg k → s.lock.locked = true →
      Step cpus s i { s with lock := { s.lock with locked := true } }
  | lockRecord {k : Locking} : s.pc i = .lockRecord k →
      Step cpus s i ({ s with lock := { s.lock with owner := some i } }.goto i (k.resume cpus))
  -- with the lock
  | kernel : s.pc i = .kernel → Step cpus s i s
  | panic : s.pc i = .kernel → Step cpus s i ({ s with panicstr := true }.goto i (.dead .kernel))
  | fault : s.pc i = .kernel → Step cpus s i (s.goto i (.trapEntry .kernel))
  | envRun : s.pc i = .kernel → Step cpus s i (s.goto i (.unlockTest .run))
  | schedHalt : s.pc i = .kernel → Step cpus s i (s.goto i .schedHalt)
  | halt : s.pc i = .schedHalt →
      Step cpus s i ((s.setStatus i .halted).goto i (.unlockTest .halt))
  -- `spin_unlock`
  | unlockFree {k : Unlocking} : s.pc i = .unlockTest k → s.lock.locked = false →
      Step cpus s i (s.goto i .notHolding)
  | unlockBusy {k : Unlocking} : s.pc i = .unlockTest k → s.lock.locked = true →
      Step cpus s i (s.goto i (.unlockOwner k))
  | unlockOther {k : Unlocking} : s.pc i = .unlockOwner k → s.lock.owner ≠ some i →
      Step cpus s i (s.goto i .notHolding)
  | unlockMine {k : Unlocking} : s.pc i = .unlockOwner k → s.lock.owner = some i →
      Step cpus s i (s.goto i (.unlockClear k))
  | unlockClear {k : Unlocking} : s.pc i = .unlockClear k →
      Step cpus s i ({ s with lock := { s.lock with owner := none } }.goto i (.unlockXchg k))
  | unlockXchg {k : Unlocking} : s.pc i = .unlockXchg k →
      Step cpus s i ({ s with lock := { s.lock with locked := false } }.goto i k.resume)
  -- without the lock
  | envPopTf : s.pc i = .envPopTf → Step cpus s i (s.goto i .user)
  | user : s.pc i = .user → Step cpus s i s
  | trap : s.pc i = .user → Step cpus s i (s.goto i (.trapEntry .user))
  | interrupt : s.pc i = .hlt → Step cpus s i (s.goto i (.trapEntry .hlt))
  -- `trap`
  | trapDead {f : From} : s.pc i = .trapEntry f → s.panicstr = true →
      Step cpus s i (s.goto i (.dead f))
  | trapAlive {f : From} : s.pc i = .trapEntry f → s.panicstr = false →
      Step cpus s i (s.goto i (.trapStatus f))
  | trapHalted {f : From} : s.pc i = .trapStatus f → s.status i = .halted →
      Step cpus s i ((s.setStatus i .started).goto i (.lockTest (.status f)))
  | trapStarted {f : From} : s.pc i = .trapStatus f → s.status i ≠ .halted →
      Step cpus s i ((s.setStatus i .started).goto i (.trapAssert f))
  -- `assert(curenv)` fails
  | trapNoEnv : s.pc i = .trapAssert .user →
      Step cpus s i ({ s with panicstr := true }.goto i (.dead .user))
  | trapUser : s.pc i = .trapAssert .user → Step cpus s i (s.goto i (.lockTest .user))
  | trapKernel {f : From} : s.pc i = .trapAssert f → f ≠ .user → Step cpus s i (s.goto i .kernel)

/-- Power-on: the boot CPU is in `i386_init` and has not been halted. -/
structure Init (bsp : C) (s : Machine C) : Prop where
  pc : s.pc = fun i => if i = bsp then .init else .off
  status : ∀ i, s.status i ≠ .halted
  lock : s.lock = ⟨false, none⟩

/-! ## What the lock is for -/

/-- From the exchange in `lock_kernel` to that in `unlock_kernel`. -/
def Pc.locked : Pc C → Bool
  | .lockRecord _ | .bootAps _ | .waitAp _ _ | .kernel | .schedHalt => true
  | .trapEntry f | .trapStatus f | .dead f => f == .kernel
  | .trapAssert f => f != .user
  | .unlockTest _ | .unlockOwner _ | .unlockClear _ | .unlockXchg _ => true
  | _ => false

structure Disciplined (s : Machine C) : Prop where
  excl : ∀ i j, (s.pc i).locked = true → (s.pc j).locked = true → i = j
  noPanic : ∀ i, s.pc i ≠ .alreadyHolding ∧ s.pc i ≠ .notHolding
  outside : ∀ i, s.pc i = .user ∨ s.pc i = .hlt → ¬s.lock.Holding i

/-! ## The invariant -/

/-- How far a CPU has come with the lock, by the place it is at. -/
def Pc.phase : Pc C → Phase
  | .lockRecord _ => .taken
  | .bootAps _ | .waitAp _ _ | .kernel | .schedHalt => .held
  | .trapEntry f | .trapStatus f | .dead f => if f = .kernel then .held else .out
  | .trapAssert f => if f = .user then .out else .held
  | .unlockTest _ | .unlockOwner _ | .unlockClear _ => .held
  | .unlockXchg _ => .leaving
  | _ => .out

/-- The status of a CPU, by the place it is at. A CPU is marked as halted from `sched_halt` on
until the interrupt that ends the halt, so that `trap` takes the lock for it and for no other. -/
def Pc.Fits (st : CpuStatus) : Pc C → Prop
  | .lockTest k | .lockOwner k | .lockXchg k | .lockRecord k =>
    st ≠ .halted ∧ ∀ f, k = .status f → f = .hlt
  | .trapEntry f | .trapStatus f => f = .hlt ↔ st = .halted
  | .unlockTest k | .unlockOwner k | .unlockClear k | .unlockXchg k => k = .halt ↔ st = .halted
  | .hlt => st = .halted
  | .off | .mpMain | .dead _ => True
  | .alreadyHolding | .notHolding => False
  | _ => st ≠ .halted

/-- The CPUs that `boot_aps` has still to go through. -/
def Pc.pending (cpus : List C) : Pc C → Option (List C)
  | .init => some cpus
  | .lockTest k | .lockOwner k | .lockXchg k | .lockRecord k =>
    if k = .boot then some cpus else none
  | .bootAps rest | .waitAp _ rest => some rest
  | _ => none

variable {cpus : List C} {bsp i j : C} {s s' : Machine C} {p q : Pc C}

structure Inv (cpus : List C) (bsp : C) (s : Machine C) : Prop where
  guards : Guards s.lock (Pc.phase ∘ s.pc)
  fits : ∀ i, (s.pc i).Fits (s.status i)
  /-- Only the boot CPU is in `boot_aps`, and a CPU it has not come to is off. -/
  boot : ∀ i rest, (s.pc i).pending cpus = some rest →
    i = bsp ∧ rest.Nodup ∧ ∀ c ∈ rest, c ≠ i → s.pc c = .off

/-- A running CPU may pass from one place to another: it is not put back in `boot_aps`. -/
def Pc.Passes (cpus : List C) (p q : Pc C) : Prop :=
  p ≠ .off ∧ ∀ rest, q.pending cpus = some rest →
    ∃ rest', p.pending cpus = some rest' ∧ rest.Sublist rest'

omit [DecidableEq C] in
theorem Pc.passes_of_none (hp : p ≠ .off) (hq : q.pending cpus = none) : p.Passes cpus q := by
  refine ⟨hp, fun rest h => ?_⟩
  rw [hq] at h
  cases h

omit [DecidableEq C] in
theorem Pc.passes_of_eq (hp : p ≠ .off) (hq : q.pending cpus = p.pending cpus) :
    p.Passes cpus q :=
  ⟨hp, fun rest h => ⟨rest, hq ▸ h, List.Sublist.refl rest⟩⟩

omit [DecidableEq C] in
theorem locked_iff : p.locked = true ↔ p.phase ≠ .out := by
  cases p with
  | trapEntry f | trapStatus f | trapAssert f | dead f => cases f <;> simp [Pc.locked, Pc.phase]
  | _ => simp [Pc.locked, Pc.phase]

namespace Inv

omit [DecidableEq C] in
theorem disciplined (h : Inv cpus bsp s) : Disciplined s := by
  have hne : ∀ i, s.pc i ≠ .alreadyHolding ∧ s.pc i ≠ .notHolding := by
    intro i
    have hfit := h.fits i
    constructor
    · intro hp
      rwa [hp] at hfit
    · intro hp
      rwa [hp] at hfit
  refine ⟨fun i j hi hj => ?_, hne, fun i hi hh => ?_⟩
  · exact h.guards.excl i j (locked_iff.mp hi) (locked_iff.mp hj)
  · have hheld : (s.pc i).phase = .held := h.guards.holding_iff.mp hh
    rcases hi with hi | hi <;> simp [hi, Pc.phase] at hheld

theorem init (hc : cpus.Nodup) (h : Init bsp s) : Inv cpus bsp s where
  guards := by
    have hout : Pc.phase ∘ s.pc = fun _ => .out := by
      funext i
      rw [Function.comp_apply, h.pc]
      dsimp only
      split_ifs <;> rfl
    rw [h.lock, hout]
    exact Guards.free
  fits i := by
    have hst := h.status i
    rw [h.pc]
    dsimp only
    split_ifs
    · exact hst
    · trivial
  boot i rest hr := by
    rw [h.pc] at hr ⊢
    by_cases hi : i = bsp
    · simp only [hi, if_true, Pc.pending, Option.some.injEq] at hr ⊢
      exact ⟨trivial, hr ▸ hc, fun c _ hne => if_neg hne⟩
    · simp [hi, Pc.pending] at hr

/-- What a step of CPU `i` has to keep: the lock and the status of `i`. -/
theorem move (h : Inv cpus bsp s) (hpass : (s.pc i).Passes cpus q)
    (hpc : s'.pc = Function.update s.pc i q) (hst : ∀ j, j ≠ i → s'.status j = s.status j)
    (hg : Guards s'.lock (Function.update (Pc.phase ∘ s.pc) i q.phase))
    (hfit : q.Fits (s'.status i)) : Inv cpus bsp s' where
  guards := by
    rw [hpc, Function.comp_update]
    exact hg
  fits j := by
    rw [hpc]
    by_cases hji : j = i
    · subst hji
      rwa [Function.update_self]
    · rw [Function.update_of_ne hji, hst j hji]
      exact h.fits j
  boot j rest hr := by
    rw [hpc] at hr ⊢
    by_cases hji : j = i
    · subst hji
      rw [Function.update_self] at hr
      obtain ⟨rest', hr', hsub⟩ := hpass.2 rest hr
      obtain ⟨hj, hnodup, hoff⟩ := h.boot j rest' hr'
      refine ⟨hj, hnodup.sublist hsub, fun c hc hne => ?_⟩
      rw [Function.update_of_ne hne]
      exact hoff c (hsub.subset hc) hne
    · rw [Function.update_of_ne hji] at hr
      obtain ⟨hj, hnodup, hoff⟩ := h.boot j rest hr
      refine ⟨hj, hnodup, fun c hc hne => ?_⟩
      have hci : c ≠ i := by
        rintro rfl
        exact hpass.1 (hoff c hc hne)
      rw [Function.update_of_ne hci]
      exact hoff c hc hne

/-- A step within one phase. -/
theorem goto (h : Inv cpus bsp s) (hp : s.pc i = p) (hpass : p.Passes cpus q)
    (hphase : q.phase = p.phase) (hfit : p.Fits (s.status i) → q.Fits (s.status i)) :
    Inv cpus bsp (s.goto i q) := by
  subst hp
  refine h.move hpass rfl (fun _ _ => rfl) ?_ (hfit (h.fits i))
  rw [hphase, ← Function.comp_apply (f := Pc.phase), Function.update_eq_self]
  exact h.guards

/-- A step within one phase that sets the status. -/
theorem gotoStatus {st : CpuStatus} (h : Inv cpus bsp s) (hp : s.pc i = p)
    (hpass : p.Passes cpus q) (hphase : q.phase = p.phase) (hfit : q.Fits st) :
    Inv cpus bsp ((s.setStatus i st).goto i q) := by
  subst hp
  refine h.move hpass rfl (fun j hj => Function.update_of_ne hj ..) ?_ ?_
  · rw [hphase, ← Function.comp_apply (f := Pc.phase), Function.update_eq_self]
    exact h.guards
  · simpa [Machine.goto, Machine.setStatus] using hfit

/-- A step that changes the lock. -/
theorem gotoLock {lk : SpinLock C} (h : Inv cpus bsp s) (hp : s.pc i = p)
    (hpass : p.Passes cpus q)
    (hg : Guards lk (Function.update (Pc.phase ∘ s.pc) i q.phase))
    (hfit : p.Fits (s.status i) → q.Fits (s.status i)) :
    Inv cpus bsp ({ s with lock := lk }.goto i q) := by
  subst hp
  exact h.move hpass rfl (fun _ _ => rfl) hg (hfit (h.fits i))

omit [DecidableEq C] in
theorem panic (h : Inv cpus bsp s) : Inv cpus bsp { s with panicstr := true } :=
  ⟨h.guards, h.fits, h.boot⟩

/-- A CPU that is off comes up, when `boot_aps` has no more to do with it. -/
theorem powerOn {c : C} (h : Inv cpus bsp s) (hc : s.pc c = .off)
    (hrest : ∀ j rest, (s.pc j).pending cpus = some rest → c ∉ rest) :
    Inv cpus bsp (s.goto c .mpMain) where
  guards := by
    have hsame : Pc.phase ∘ Function.update s.pc c .mpMain = Pc.phase ∘ s.pc := by
      rw [Function.comp_update, Function.update_eq_iff]
      exact ⟨by simp [hc, Pc.phase], fun _ _ => rfl⟩
    exact hsame ▸ h.guards
  fits j := by
    simp only [Machine.goto]
    by_cases hj : j = c
    · subst hj
      rw [Function.update_self]
      trivial
    · rw [Function.update_of_ne hj]
      exact h.fits j
  boot j rest hr := by
    simp only [Machine.goto] at hr ⊢
    by_cases hj : j = c
    · subst hj
      rw [Function.update_self] at hr
      cases hr
    · rw [Function.update_of_ne hj] at hr
      obtain ⟨hi, hnodup, hoff⟩ := h.boot j rest hr
      refine ⟨hi, hnodup, fun d hd hne => ?_⟩
      have hdc : d ≠ c := fun he => hrest j rest hr (he ▸ hd)
      rw [Function.update_of_ne hdc]
      exact hoff d hd hne

/-- The boot CPU starts `c`, which it finds off. -/
theorem start {c : C} {rest : List C} (h : Inv cpus bsp s) (hp : s.pc i = .bootAps (c :: rest))
    (hne : c ≠ i) : Inv cpus bsp ((s.goto c .mpMain).goto i (.waitAp c rest)) := by
  obtain ⟨rfl, hnodup, hoff⟩ := h.boot i (c :: rest) (by rw [hp]; rfl)
  have hwait : Inv cpus i (s.goto i (.waitAp c rest)) := by
    refine h.goto hp ⟨by simp, fun rest' hr => ⟨_, rfl, ?_⟩⟩ rfl id
    cases hr
    exact List.sublist_cons_self ..
  have hcomm : (s.goto c .mpMain).goto i (.waitAp c rest)
      = (s.goto i (.waitAp c rest)).goto c .mpMain := by
    simp only [Machine.goto, Function.update_comm hne]
  rw [hcomm]
  apply hwait.powerOn
  · simpa [Machine.goto, Function.update_of_ne hne] using hoff c (.head _) hne
  · intro j rest' hr
    obtain rfl := (hwait.boot j rest' hr).1
    simp only [Machine.goto, Function.update_self, Pc.pending, Option.some.injEq] at hr
    exact hr ▸ (List.nodup_cons.mp hnodup).1

theorem step (h : Inv cpus bsp s) (hs : Step cpus s i s') : Inv cpus bsp s' := by
  cases hs with
  | init hp => exact h.goto hp (Pc.passes_of_eq (by simp) rfl) rfl (by simp [Pc.Fits])
  | bootDone hp => exact h.goto hp (Pc.passes_of_none (by simp) rfl) rfl id
  | bootSelf hp =>
    refine h.goto hp ⟨by simp, fun rest hr => ⟨_, rfl, ?_⟩⟩ rfl id
    cases hr
    exact List.sublist_cons_self ..
  | bootStart hp hne => exact h.start hp hne
  | bootWait hp _ => exact h.goto hp (Pc.passes_of_eq (by simp) rfl) rfl id
  | mpMain hp =>
    exact h.gotoStatus hp (Pc.passes_of_none (by simp) rfl) rfl (by simp [Pc.Fits])
  | lockFree hp _ | lockBusy hp _ | lockOther hp _ =>
    exact h.goto hp (Pc.passes_of_eq (by simp) rfl) rfl id
  | lockMine hp hown =>
    have hheld := (h.guards.owner i).mp hown
    simp [hp, Pc.phase] at hheld
  | lockTaken hp hfree =>
    exact h.gotoLock hp (Pc.passes_of_eq (by simp) rfl) (h.guards.take hfree) id
  | lockSpin hp hbusy =>
    have hsame : { s with lock := { s.lock with locked := true } } = s := by
      rw [← hbusy]
    rw [hsame]
    exact h
  | @lockRecord k hp =>
    have hg := h.guards.record (i := i) (by simp [hp, Pc.phase])
    cases k with
    | boot => exact h.gotoLock hp (Pc.passes_of_eq (by simp) rfl) hg And.left
    | ap | user => exact h.gotoLock hp (Pc.passes_of_none (by simp) rfl) hg And.left
    | status f =>
      -- only a halted CPU came here, so `trap` is not going to take the lock again
      obtain rfl := (hp ▸ h.fits i : (Pc.lockRecord (.status f)).Fits (s.status i)).2 f rfl
      exact h.gotoLock hp (Pc.passes_of_none (by simp) rfl) hg And.left
  | kernel _ | user _ => exact h
  | panic hp => exact h.panic.goto hp (Pc.passes_of_none (by simp) rfl) rfl (by simp [Pc.Fits])
  | fault hp => exact h.goto hp (Pc.passes_of_none (by simp) rfl) rfl (by simp [Pc.Fits])
  | envRun hp => exact h.goto hp (Pc.passes_of_none (by simp) rfl) rfl (by simp [Pc.Fits])
  | schedHalt hp => exact h.goto hp (Pc.passes_of_none (by simp) rfl) rfl id
  | halt hp => exact h.gotoStatus hp (Pc.passes_of_none (by simp) rfl) rfl (by simp [Pc.Fits])
  | unlockFree hp hfree =>
    have hlocked := h.guards.locked.mpr ⟨i, by simp [hp, Pc.phase]⟩
    simp [hfree] at hlocked
  | unlockBusy hp _ | unlockMine hp _ => exact h.goto hp (Pc.passes_of_none (by simp) rfl) rfl id
  | unlockOther hp hown => exact absurd ((h.guards.owner i).mpr (by simp [hp, Pc.phase])) hown
  | unlockClear hp =>
    exact h.gotoLock hp (Pc.passes_of_none (by simp) rfl)
      (h.guards.clear (by simp [hp, Pc.phase])) id
  | @unlockXchg k hp =>
    have hg := h.guards.release (i := i) (by simp [hp, Pc.phase])
    cases k with
    | run | halt =>
      exact h.gotoLock hp (Pc.passes_of_none (by simp) rfl) hg
        (by simp [Pc.Fits, Unlocking.resume])
  | envPopTf hp => exact h.goto hp (Pc.passes_of_none (by simp) rfl) rfl id
  | trap hp => exact h.goto hp (Pc.passes_of_none (by simp) rfl) rfl (by simp [Pc.Fits])
  | interrupt hp => exact h.goto hp (Pc.passes_of_none (by simp) rfl) rfl (by simp [Pc.Fits])
  | trapDead hp _ => exact h.goto hp (Pc.passes_of_none (by simp) rfl) rfl (by simp [Pc.Fits])
  | trapAlive hp _ => exact h.goto hp (Pc.passes_of_none (by simp) rfl) rfl id
  | @trapHalted f hp hst =>
    have hfit := h.fits i
    rw [hp] at hfit
    obtain rfl := hfit.mpr hst
    exact h.gotoStatus hp (Pc.passes_of_none (by simp) rfl) rfl (by simp [Pc.Fits])
  | @trapStarted f hp hst =>
    have hfit := h.fits i
    rw [hp] at hfit
    have hf : f ≠ .hlt := fun he => hst (hfit.mp he)
    refine h.gotoStatus hp (Pc.passes_of_none (by simp) rfl) ?_ (by simp [Pc.Fits])
    cases f with
    | hlt => exact absurd rfl hf
    | user | kernel => rfl
  | trapNoEnv hp =>
    exact h.panic.goto hp (Pc.passes_of_none (by simp) rfl) rfl (by simp [Pc.Fits])
  | trapUser hp => exact h.goto hp (Pc.passes_of_none (by simp) rfl) rfl (by simp [Pc.Fits])
  | @trapKernel f hp hf =>
    exact h.goto hp (Pc.passes_of_none (by simp) rfl) (by simp [Pc.phase, hf]) id

end Inv

/-- The big kernel lock, on any number of CPUs and in any interleaving of their steps. -/
theorem disciplined_of_reachable (hc : cpus.Nodup)
    (h : Reachable (Init bsp) (fun s i s' => Step cpus s i s') s) : Disciplined s := by
  have hinv : Inv cpus bsp s := by
    apply h.invariant
    · exact fun s hs => Inv.init hc hs
    · exact fun s i s' hs => hs.step
  exact hinv.disciplined

/-- Two CPUs at power-on, of which the first is the boot CPU. -/
def twoCpus : Machine (Fin 2) where
  pc i := if i = 0 then .init else .off
  status _ := .unused
  lock := ⟨false, none⟩
  panicstr := false

theorem disciplined_twoCpus :
    ∃ s : Machine (Fin 2), s.pc 0 = .bootAps [0, 1] ∧ s.lock.Holding 0 ∧ Disciplined s := by
  have hinit : Reachable (Init 0) (fun s i s' => Step [0, 1] s i s') twoCpus :=
    .init ⟨rfl, fun _ => by simp [twoCpus], rfl⟩
  have htest := hinit.step (Step.init (i := 0) rfl)
  have hfree := htest.step (Step.lockFree (i := 0) (k := .boot) rfl rfl)
  have htaken := hfree.step (Step.lockTaken (i := 0) (k := .boot) rfl rfl)
  have hrecord := htaken.step (Step.lockRecord (i := 0) (k := .boot) rfl)
  exact ⟨_, rfl, ⟨rfl, rfl⟩, disciplined_of_reachable (by decide) hrecord⟩

end JosKernel.BigLock
