import JosKernel.Ipc.Waiting

/-!
# First in, first out

As long as no environment is destroyed and `sys_env_set_status` leaves blocked and current
environments alone, the waiting queue of an environment lists exactly the environments that are
blocked by a send to it, in the order in which they blocked.

The invariant relates the queue in state `j` of a run to the steps before `j`: its entries are
pairs of an environment and the step in which it blocked.
-/
namespace JosKernel

open Lib

variable {n : Nat} {S : Set (Fin n)} {k k' : Kernel n} {a : Action} {cur e R : EnvIx}

/-! ## What a step does to one environment -/

/-- Runnable and running are the two sides of scheduling. -/
def Ready (s : EnvStatus) : Prop := s = .runnable ∨ s = .running

/-- What a step does to the status and the request to receive of `e`. -/
inductive Moves (k : Kernel n) (a : Action) (e : EnvIx) (k' : Kernel n) : Prop
  | same (hs : k'.status e = k.status e ∨ Ready (k.status e) ∧ Ready (k'.status e))
      (hr : (k'.envs e).envIpcRecving = (k.envs e).envIpcRecving)
  | freed (h : Frees k a e)
  | marked (h : Marks k a e)
  | forked (hf : k.status e = .free) (hr : (k'.envs e).envIpcRecving = false)
  | set {cur : EnvIx} {args : Args} (hc : callOf k a = some (cur, .envSetStatus, args))
      (hv : args.a2 = 2 ∨ args.a2 = 4) (he : envid2env k cur args.a1 true = some e)
      (hr : (k'.envs e).envIpcRecving = (k.envs e).envIpcRecving)
  | blocked {args : Args} (hc : callOf k a = some (e, .ipcTrySend, args))
      (hs : k'.status e = .notRunnable)
      (hr : (k'.envs e).envIpcRecving = (k.envs e).envIpcRecving)
  | delivered (old : (k.envs e).envIpcRecving = true) (hr : (k'.envs e).envIpcRecving = false)
  | receives {args : Args} (hc : callOf k a = some (e, .ipcRecv, args))
      (hs : k'.status e = .notRunnable ∨ ∃ w q, k.waitingQueue e = w :: q ∧
        envid2env k e w false = some e)
  | woken {cur : EnvIx} {args : Args} {w : Word} {q : List Word} (hne : e ≠ cur)
      (hc : callOf k a = some (cur, .ipcRecv, args)) (hq : k.waitingQueue cur = w :: q)
      (hq' : k'.waitingQueue cur = q) (hw : envid2env k cur w false = some e)
      (hr : (k'.envs e).envIpcRecving = (k.envs e).envIpcRecving)

theorem View.Settled.recving {v v' : View} {c : Cpu} (h : View.Settled v c v') (e : EnvIx) :
    (v'.env e).recving = (v.env e).recving := by
  show (v'.env e).core.recving = (v.env e).core.recving
  rw [h.core]

theorem View.Settled.ready {v v' : View} {c : Cpu} (h : View.Settled v c v') (e : EnvIx) :
    (v'.env e).status = (v.env e).status ∨ Ready (v.env e).status ∧ Ready (v'.env e).status := by
  rcases h.status e with h | ⟨h, h'⟩ | ⟨h, h'⟩
  · exact .inl h
  · exact .inr ⟨.inl h, .inr h'⟩
  · exact .inr ⟨.inr h, .inl h'⟩

theorem Step.moves (inv : TableInv k) (ok : k.view.QueueOk) (h : Step k a k') (e : EnvIx) :
    Moves k a e k' := by
  have hfrees : k.status e ≠ .free → k'.status e = .free → Moves k a e k' := fun he he' =>
    .freed ((step_slots inv.live.cur h).frees he he')
  cases (h.view inv.slots).kinds with
  | idle _ s => exact .same (s.ready e) (s.recving e)
  | @reap c tf io cur ha hcur hd s =>
    by_cases hi : e = cur
    · subst hi
      exact hfrees (inv.live.cur c e hcur) ((s.free e).mpr (by simp [View.setStatus]))
    · refine .same ?_ ((s.recving e).trans ?_)
      · have := s.ready e
        simp only [View.leave_env, View.setStatus, View.modEnv_of_ne _ _ hi] at this
        exact this
      · simp [View.setStatus, View.modEnv_of_ne _ _ hi, Env.view]
  | @act c tf io cur v₁ ha hcur hd act s =>
    subst ha
    have hlive := inv.live.cur c cur hcur
    cases act.touched ok hcur hlive e with
    | same hs hr =>
      refine .same ?_ ((s.recving e).trans hr)
      have := s.ready e
      rw [hs] at this
      exact this
    | freed hs _ why =>
      refine hfrees ?_ ((s.free e).mpr hs)
      rcases why with rfl | ⟨args, -, he⟩
      · exact hlive
      · exact View.envid2env_live he hlive
    | marked hcall hne he old _ _ =>
      exact .marked ⟨cur, _, callOf_of_call hcur hd hcall, he, old, hne⟩
    | forked hf _ hr => exact .forked hf ((s.recving e).trans hr)
    | set hcall hv he _ hr =>
      exact .set (callOf_of_call hcur hd hcall) hv he ((s.recving e).trans hr)
    | blocked he hcall hs hr =>
      subst he
      exact .blocked (callOf_of_call hcur hd hcall) (s.notRunnable hs) ((s.recving e).trans hr)
    | delivered _ _ old _ hr => exact .delivered old ((s.recving e).trans hr)
    | receives he hcall _ hs =>
      subst he
      exact .receives (callOf_of_call hcur hd hcall) (hs.imp_left s.notRunnable)
    | woken hne hcall hq hq' hw _ hr =>
      exact .woken hne (callOf_of_call hcur hd hcall) hq ((s.queue cur).trans hq') hw
        ((s.recving e).trans hr)

/-- `sys_ipc_recv` starts a wait, or ends one of the environment that waits longest. -/
theorem Step.recv_queue {args : Args} (ok : k.view.QueueOk) (h : Step k a k')
    (hc : callOf k a = some (R, .ipcRecv, args))
    (hva : ¬(args.a1 < utop ∧ roundUp args.a1 pgsize ≠ args.a1)) :
    k'.waitingQueue R = (k.waitingQueue R).tail := by
  obtain ⟨c, tf, io, r, k₁, rfl, hcur, hs, hsys, hend⟩ := step_result hc h
  unfold syscall at hsys
  simp only [hs, sysIpcRecv, if_neg hva] at hsys
  rw [bind_ok] at hsys
  obtain ⟨⟨v, k₂⟩, wake, hsys⟩ := hsys
  have hw : ((k.view.setEax R tf.tfRegs.regEax).receiving R args.a1).Woken R v k₂.view := by
    rw [← view_saved, ← view_receiving]
    exact (ipcWakeup_woken wake).view
  have hq : k₂.waitingQueue R = (k.waitingQueue R).tail := by
    refine (hw.queue (by simpa using ok R)).trans (congrArg List.tail ?_)
    exact View.queue_congr (by simp) (by simp) (by simp)
  rw [← hq]
  split_ifs at hsys with hv
  · cases hsys
    obtain ⟨h, -⟩ | ⟨v', h, hret⟩ := hend
    · cases h
    · refine (hret.view.settled.queue R).trans ?_
      rw [view_setResult]
      exact View.queue_congr (by simp) (by simp) (by simp)
  · rw [bind_ok] at hsys
    obtain ⟨k₃, sched, hsys⟩ := hsys
    cases hsys
    obtain ⟨-, rfl⟩ | ⟨v', h, -⟩ := hend
    · exact (schedYield_scheduled sched).view.settled.queue R
    · cases h

/-! ## Undisturbed runs -/

/-- Step `j` destroys no environment and leaves the status of blocked ones alone. -/
structure Undisturbed (s : ℕ → Kernel n) (a : ℕ → Action) (j : ℕ) : Prop where
  spares : ∀ e, ¬Frees (s j) (a j) e ∧ ¬Marks (s j) (a j) e
  calm : ∀ cur args e, callOf (s j) (a j) = some (cur, .envSetStatus, args) →
    args.a2 = 2 ∨ args.a2 = 4 → envid2env (s j) cur args.a1 true = some e →
    ((s j).envs e).envIpcRecving = false ∧ ∀ i R, ¬BlockedSince s a i j e R

/-- `sys_env_set_status` leaves environments alone that are current on a CPU, but the caller may
stop itself. -/
def StatusQuiet (k : Kernel n) (c : Cpu) (cur : EnvIx) (s : Sys) (a : Args) : Prop :=
  match s with
  | .envSetStatus => a.a2 = 2 ∨ a.a2 = 4 → ∀ e, envid2env k cur a.a1 true = some e →
      Quiet k c e ∧ (e = cur → a.a2 ≠ 2)
  | _ => True

/-- `L` lists the environments blocked by a send to `R`, with the steps in which they blocked. -/
structure Lists (s : ℕ → Kernel n) (a : ℕ → Action) (j : ℕ) (R : EnvIx) (L : List (EnvIx × ℕ)) :
    Prop where
  ids : (s j).waitingQueue R = L.map fun p => ((s j).envs p.1).envId
  order : L.Pairwise fun p q => p.2 < q.2
  blocked : ∀ e i, (e, i) ∈ L ↔ BlockedSince s a i j e R

/-- The state `j` of an undisturbed run. -/
structure FifoInv (s : ℕ → Kernel n) (a : ℕ → Action) (j : ℕ) : Prop where
  table : TableInv (s j)
  queues : (s j).view.QueueOk
  cpu : CpuInv (s j)
  recv : ∀ e, ((s j).envs e).envIpcRecving = true → (s j).status e = .notRunnable
  deaf : ∀ e i R, BlockedSince s a i j e R → ((s j).envs e).envIpcRecving = false
  once : ∀ e i R i' R', BlockedSince s a i j e R → BlockedSince s a i' j e R' → i = i' ∧ R = R'
  lists : ∀ R, ∃ L, Lists s a j R L

/-- User code makes system calls in running environments only. -/
theorem CpuInv.caller {s : Sys} {args : Args} (cpu : CpuInv k) (h : Step k a k')
    (hc : callOf k a = some (cur, s, args)) : k.status cur = .running := by
  obtain ⟨c, tf, io, rfl, hcur, hd, -⟩ := step_call hc h
  obtain ⟨e, he, hb⟩ := cpu.user c h.1.1
  obtain rfl := Option.some.inj (hcur.symm.trans he)
  exact hb.resolve_right hd

theorem CpuInv.away (cpu : CpuInv k) (hl : LockFree k) (he : k.status e = .notRunnable) :
    Away k e := by
  intro c hc
  by_cases hu : (k.cpus c).cpuMode = .user
  · obtain ⟨e', he', hb⟩ := cpu.user c hu
    obtain rfl := Option.some.inj (hc.symm.trans he')
    rcases hb with hb | hb <;> simp [he] at hb
  · simp [cpu.idle c hu (hl c)] at hc

theorem step_lockFree {s : Sys} {args : Args} (h : Step k a k')
    (hc : callOf k a = some (cur, s, args)) : LockFree k := by
  obtain ⟨c, tf, io, rfl, -⟩ := step_call hc h
  exact h.1.2.2

/-- A step that destroys nothing makes no `sys_env_destroy` that would. -/
theorem no_destroy {args : Args} (spares : ∀ e, ¬Frees k a e ∧ ¬Marks k a e)
    (hc : callOf k a = some (cur, .envDestroy, args)) (h : Step k a k') :
    envid2env k cur args.a1 true = none := by
  obtain ⟨c, tf, io, rfl, hcur, hd, hno, hs, rfl, -⟩ := step_call hc h
  by_contra he
  obtain ⟨e, he⟩ := Option.ne_none_iff_exists'.mp he
  have hfrees : k.curenv c = some e ∨ k.status e ≠ .running → False := fun hf =>
    (spares e).1 ⟨cur, hcur, .inr ⟨hd, hno, _, hs, he, hf⟩⟩
  by_cases hr : k.status e = .running
  · refine (spares e).2 ⟨cur, _, hc, he, hr, ?_⟩
    rintro rfl
    exact hfrees (.inl hcur)
  · exact hfrees (.inr hr)

theorem freeOk_of_spares (cpu : CpuInv k) (h : Step k a k')
    (spares : ∀ e, ¬Frees k a e ∧ ¬Marks k a e) : FreeOk k a := by
  cases a with
  | trap c tf io =>
    refine ⟨fun cur s hcur hd hno hs => ?_, fun cur hcur _ c' hne hcur' => ?_⟩
    · cases s with
      | envDestroy =>
        intro e he
        have hnone := no_destroy spares (callOf_eq_some hcur hd hno hs) h
        cases he.symm.trans hnone
      | _ => trivial
    · exact hne (cpu.unique c c' cur hcur hcur')
  | _ => exact ⟨trivial, trivial⟩

namespace FifoInv

variable {s : ℕ → Kernel n} {act : ℕ → Action} {i j : ℕ} {w : Word} {q : List Word}

theorem notRunnable (hb : BlockedSince s act i j e R) : (s j).status e = .notRunnable :=
  hb.2.2 j hb.1 le_rfl

/-- The environment that the first id of a queue leads to is blocked. -/
theorem head_blocked (inv : FifoInv s act j) (hq : (s j).waitingQueue R = w :: q)
    (hw : envid2env (s j) cur w false = some e) :
    ∃ i, BlockedSince s act i j e R ∧ w = ((s j).envs e).envId := by
  obtain ⟨L, hL⟩ := inv.lists R
  have hids := hq.symm.trans hL.ids
  cases L with
  | nil => cases hids
  | cons p L =>
    obtain ⟨e₀, i⟩ := p
    rw [List.map_cons, List.cons.injEq] at hids
    have hb := (hL.blocked e₀ i).mp List.mem_cons_self
    have he₀ : envid2env (s j) cur ((s j).envs e₀).envId false = some e₀ :=
      inv.table.envid2env_id (by simp [notRunnable hb])
    rw [← hids.1, hw] at he₀
    obtain rfl := Option.some.inj he₀
    exact ⟨i, hb, hids.1⟩

theorem disciplined (inv : FifoInv s act j) (h : Step (s j) (act j) (s (j + 1)))
    (spares : ∀ e, ¬Frees (s j) (act j) e ∧ ¬Marks (s j) (act j) e)
    (quiet : OnCall StatusQuiet (s j) (act j)) : Disciplined (s j) (act j) := by
  have hcall : ∀ {c tf io} cur sys, act j = .trap c tf io → (s j).curenv c = some cur →
      (s j).status cur ≠ .dying → tf.tfTrapno = 48 →
      Sys.ofNat tf.tfRegs.regEax.toNat = some sys →
      StatusQuiet (s j) c cur sys (argsOf tf) → StatusOk (s j) c cur sys (argsOf tf) := by
    intro c tf io cur sys ha hcur hd hno hs hquiet
    rw [ha] at h spares
    have hc : callOf (s j) (.trap c tf io) = _ := callOf_eq_some hcur hd hno hs
    have hl : LockFree (s j) := h.1.2.2
    cases sys with
    | envSetStatus => exact hquiet
    | envDestroy =>
      intro e he
      cases he.symm.trans (no_destroy spares hc h)
    | ipcTrySend => exact fun e _ hr => inv.cpu.away hl (inv.recv e hr)
    | ipcRecv =>
      intro hne i e hi he
      have hq := View.dequeued_queue (v := (s j).view) (inv.queues cur) hne hi
      obtain ⟨i', hb, -⟩ := inv.head_blocked hq he
      exact inv.cpu.away hl (notRunnable hb)
    | _ => trivial
  unfold Disciplined OnCall at *
  cases ha : act j with
  | trap c tf io =>
    intro cur sys hcur hd hno hs
    rw [ha] at quiet
    exact hcall cur sys ha hcur hd hno hs (quiet cur sys hcur hd hno hs)
  | _ => trivial

/-- A blocked environment stays blocked, or is the one that its target wakes up. -/
theorem stays (inv : FifoInv s act j) (h : Step (s j) (act j) (s (j + 1)))
    (ok : Undisturbed s act j) (hb : BlockedSince s act i j e R) :
    (s (j + 1)).status e = .notRunnable ∨
      ∃ args q, callOf (s j) (act j) = some (R, .ipcRecv, args) ∧
        (s j).waitingQueue R = ((s j).envs e).envId :: q ∧ (s (j + 1)).waitingQueue R = q := by
  have he := notRunnable hb
  have hnr : ∀ {sys args}, callOf (s j) (act j) = some (e, sys, args) → False := fun hc => by
    simpa [he] using inv.cpu.caller h hc
  cases h.moves inv.table inv.queues e with
  | same hs _ =>
    rcases hs with hs | ⟨hs, -⟩
    · exact .inl (hs.trans he)
    · rcases hs with hs | hs <;> simp [he] at hs
  | freed hf => exact absurd hf (ok.spares e).1
  | marked hm => exact absurd hm (ok.spares e).2
  | forked hf _ => simp [he] at hf
  | set hc hv hid _ => exact absurd hb ((ok.calm _ _ e hc hv hid).2 i R)
  | blocked hc _ _ => exact (hnr hc).elim
  | delivered old _ => simp [inv.deaf e i R hb] at old
  | receives hc _ => exact (hnr hc).elim
  | woken hne hc hq hq' hw _ =>
    obtain ⟨i', hb', rfl⟩ := inv.head_blocked hq hw
    obtain ⟨rfl, rfl⟩ := inv.once e i R i' _ hb hb'
    exact .inr ⟨_, _, hc, hq, hq'⟩

theorem blockedSince_succ : BlockedSince s act i (j + 1) e R ↔
    (s (j + 1)).status e = .notRunnable ∧
      (i = j ∧ Blocks (s j) (act j) e R ∨ BlockedSince s act i j e R) := by
  constructor
  · rintro ⟨hij, hb, hst⟩
    refine ⟨hst (j + 1) hij le_rfl, ?_⟩
    rcases Nat.lt_succ_iff_lt_or_eq.mp hij with h | rfl
    · exact .inr ⟨h, hb, fun l hl hlj => hst l hl (by omega)⟩
    · exact .inl ⟨rfl, hb⟩
  · rintro ⟨hs, ⟨rfl, hb⟩ | ⟨hij, hb, hst⟩⟩
    · exact ⟨by omega, hb, fun l hl hlj => by obtain rfl : l = i + 1 := by omega
                                              exact hs⟩
    · refine ⟨by omega, hb, fun l hl hlj => ?_⟩
      rcases Nat.lt_succ_iff_lt_or_eq.mp (Nat.lt_succ_of_le hlj) with h | rfl
      · exact hst l hl (by omega)
      · exact hs

/-- Only `sys_ipc_recv` makes an environment receive. -/
theorem recving_succ (inv : FifoInv s act j) (h : Step (s j) (act j) (s (j + 1)))
    (ok : Undisturbed s act j) (hr : ((s (j + 1)).envs e).envIpcRecving = true) :
    ((s j).envs e).envIpcRecving = true ∨
      ∃ args, callOf (s j) (act j) = some (e, .ipcRecv, args) := by
  cases h.moves inv.table inv.queues e with
  | same _ h => exact .inl (h ▸ hr)
  | freed hf => exact absurd hf (ok.spares e).1
  | marked hm => exact absurd hm (ok.spares e).2
  | forked _ h => simp [h] at hr
  | set _ _ _ h => exact .inl (h ▸ hr)
  | blocked _ _ h => exact .inl (h ▸ hr)
  | delivered _ h => simp [h] at hr
  | receives hc _ => exact .inr ⟨_, hc⟩
  | woken _ _ _ _ _ h => exact .inl (h ▸ hr)

theorem recv_succ (inv : FifoInv s act j) (h : Step (s j) (act j) (s (j + 1)))
    (ok : Undisturbed s act j) (hr : ((s (j + 1)).envs e).envIpcRecving = true) :
    (s (j + 1)).status e = .notRunnable := by
  have old : ((s (j + 1)).envs e).envIpcRecving = ((s j).envs e).envIpcRecving →
      ((s j).envs e).envIpcRecving = true := fun h => h ▸ hr
  cases h.moves inv.table inv.queues e with
  | same hs h =>
    have he := inv.recv e (old h)
    rcases hs with hs | ⟨hs, -⟩
    · exact hs.trans he
    · rcases hs with hs | hs <;> simp [he] at hs
  | freed hf => exact absurd hf (ok.spares e).1
  | marked hm => exact absurd hm (ok.spares e).2
  | forked _ h => simp [h] at hr
  | set hc hv hid h => simp [(ok.calm _ _ e hc hv hid).1] at h; simp [h] at hr
  | blocked _ hs _ => exact hs
  | delivered _ h => simp [h] at hr
  | receives hc hs =>
    rcases hs with hs | ⟨w, q, hq, hw⟩
    · exact hs
    · obtain ⟨i, hb, -⟩ := inv.head_blocked hq hw
      have hrun := inv.cpu.caller h hc
      simp [notRunnable hb] at hrun
  | woken _ _ hq _ hw h =>
    obtain ⟨i, hb, -⟩ := inv.head_blocked hq hw
    simp [inv.deaf e i _ hb] at h
    simp [h] at hr

theorem deaf_succ (inv : FifoInv s act j) (h : Step (s j) (act j) (s (j + 1)))
    (ok : Undisturbed s act j) (hb : BlockedSince s act i (j + 1) e R) :
    ((s (j + 1)).envs e).envIpcRecving = false := by
  obtain ⟨-, hb⟩ := blockedSince_succ.mp hb
  by_contra hr
  rw [Bool.not_eq_false] at hr
  rcases hb with ⟨rfl, args, hc, -⟩ | hb
  · -- a sender is running, so it does not wait for a message
    rcases inv.recving_succ h ok hr with hr | ⟨args', hc'⟩
    · have hrun := inv.cpu.caller h hc
      simp [inv.recv e hr] at hrun
    · cases hc.symm.trans hc'
  · rcases inv.recving_succ h ok hr with hr | ⟨args', hc'⟩
    · simp [inv.deaf e i R hb] at hr
    · have hrun := inv.cpu.caller h hc'
      simp [notRunnable hb] at hrun

theorem once_succ (inv : FifoInv s act j) (h : Step (s j) (act j) (s (j + 1))) {i' : ℕ}
    {R' : EnvIx} (hb : BlockedSince s act i (j + 1) e R)
    (hb' : BlockedSince s act i' (j + 1) e R') : i = i' ∧ R = R' := by
  have hnow : ∀ {i R R'}, Blocks (s j) (act j) e R → ¬BlockedSince s act i j e R' := by
    rintro i R R' ⟨args, hc, -⟩ hb
    have hrun := inv.cpu.caller h hc
    simp [notRunnable hb] at hrun
  obtain ⟨-, ⟨rfl, hb⟩ | hb⟩ := blockedSince_succ.mp hb
  · obtain ⟨-, ⟨rfl, hb'⟩ | hb'⟩ := blockedSince_succ.mp hb'
    · obtain ⟨args, hc, he, -⟩ := hb
      obtain ⟨args', hc', he', -⟩ := hb'
      cases hc.symm.trans hc'
      exact ⟨rfl, Option.some.inj (he.symm.trans he')⟩
    · exact absurd hb' (hnow hb)
  · obtain ⟨-, ⟨rfl, hb'⟩ | hb'⟩ := blockedSince_succ.mp hb'
    · exact absurd hb (hnow hb')
    · exact inv.once e i R i' R' hb hb'

theorem lists_succ (inv : FifoInv s act j) (h : Step (s j) (act j) (s (j + 1)))
    (ok : Undisturbed s act j) (R : EnvIx) : ∃ L, Lists s act (j + 1) R L := by
  obtain ⟨L, hL⟩ := inv.lists R
  have hids : L.map (fun p => ((s (j + 1)).envs p.1).envId) =
      L.map fun p => ((s j).envs p.1).envId := by
    refine List.map_congr_left fun p hp => h.id inv.table ?_
    simp [notRunnable ((hL.blocked p.1 p.2).mp hp)]
  -- an entry whose environment is not the one that `R` wakes up stays an entry
  have keep : (∀ args, callOf (s j) (act j) ≠ some (R, .ipcRecv, args)) → ∀ e i, (e, i) ∈ L →
      BlockedSince s act i (j + 1) e R := fun hno e i hp => by
    have hb := (hL.blocked e i).mp hp
    rcases inv.stays h ok hb with hs | ⟨args, q, hc, -⟩
    · exact blockedSince_succ.mpr ⟨hs, .inr hb⟩
    · exact absurd hc (hno args)
  have old : ∀ {e i}, (s (j + 1)).status e = .notRunnable → BlockedSince s act i j e R →
      (e, i) ∈ L := fun _ hb => (hL.blocked _ _).mpr hb
  cases h.queue inv.table inv.queues R with
  | same hq =>
    refine ⟨L, hq.trans (hL.ids.trans hids.symm), hL.order, fun e i => ⟨fun hp => ?_, fun hb => ?_⟩⟩
    · have hb := (hL.blocked e i).mp hp
      rcases inv.stays h ok hb with hs | ⟨args, q, hc, hq₀, hq₁⟩
      · exact blockedSince_succ.mpr ⟨hs, .inr hb⟩
      · rw [hq, hq₀] at hq₁
        simpa using congrArg List.length hq₁
    · obtain ⟨hs, ⟨rfl, hb⟩ | hb⟩ := blockedSince_succ.mp hb
      · have hq' := (hb.queued inv.queues h).2
        rw [hq] at hq'
        simpa using congrArg List.length hq'
      · exact old hs hb
  | @push cur args hc he hr room hq hs =>
    have hno : ∀ args', callOf (s j) (act j) ≠ some (R, .ipcRecv, args') := fun args' hc' => by
      cases hc.symm.trans hc'
    refine ⟨L ++ [(cur, j)], ?_, ?_, fun e i => ?_⟩
    · rw [hq, hL.ids, List.map_append, hids, List.map_singleton]
      have hlive : (s j).status cur ≠ .free := by simp [inv.cpu.caller h hc]
      rw [h.id inv.table hlive]
    · refine List.pairwise_append.mpr ⟨hL.order, List.pairwise_singleton .., fun p hp q hq' => ?_⟩
      obtain rfl := List.mem_singleton.mp hq'
      exact ((hL.blocked p.1 p.2).mp hp).1
    · rw [List.mem_append, List.mem_singleton, blockedSince_succ]
      constructor
      · rintro (hp | hp)
        · exact blockedSince_succ.mp (keep hno e i hp)
        · cases hp
          exact ⟨hs, .inl ⟨rfl, args, hc, he, hr, room⟩⟩
      · rintro ⟨hs', ⟨rfl, args', hc', -⟩ | hb⟩
        · cases hc.symm.trans hc'
          exact .inr rfl
        · exact .inl (old hs' hb)
  | @pop args w hc hq hw =>
    obtain _ | ⟨⟨e₀, i₀⟩, L'⟩ := L
    · cases hq.symm.trans hL.ids
    have hcons := hq.symm.trans hL.ids
    rw [List.map_cons, List.cons.injEq] at hcons
    rw [List.map_cons, List.map_cons, List.cons.injEq] at hids
    obtain ⟨hfirst, hrest⟩ := List.pairwise_cons.mp hL.order
    have hb₀ := (hL.blocked e₀ i₀).mp List.mem_cons_self
    refine ⟨L', hcons.2.trans hids.2.symm, hrest, fun e i => ⟨fun hp => ?_, fun hb => ?_⟩⟩
    · have hb := (hL.blocked e i).mp (List.mem_cons_of_mem _ hp)
      rcases inv.stays h ok hb with hs | ⟨args', q, -, hq₀, -⟩
      · exact blockedSince_succ.mpr ⟨hs, .inr hb⟩
      · -- the first entry is the only one of its environment
        have hid := (List.cons.inj (hq₀.symm.trans hq)).1.trans hcons.1
        have he : envid2env (s j) R ((s j).envs e).envId false = some e :=
          inv.table.envid2env_id (by simp [notRunnable hb])
        have he₀ : envid2env (s j) R ((s j).envs e₀).envId false = some e₀ :=
          inv.table.envid2env_id (by simp [notRunnable hb₀])
        rw [hid, he₀] at he
        obtain rfl := Option.some.inj he
        obtain ⟨rfl, -⟩ := inv.once _ _ _ _ _ hb hb₀
        exact absurd (hfirst _ hp) (lt_irrefl _)
    · obtain ⟨hs, ⟨rfl, args', hc', -⟩ | hb⟩ := blockedSince_succ.mp hb
      · cases hc.symm.trans hc'
      · rcases List.mem_cons.mp (old hs hb) with hp | hp
        · cases hp
          have hid : envid2env (s j) R w false = some e₀ := by
            rw [hcons.1]
            exact inv.table.envid2env_id (by simp [notRunnable hb₀])
          have he₀ := hw e₀ hid
          simp [hs] at he₀
        · exact hp

theorem step (inv : FifoInv s act j) (h : Step (s j) (act j) (s (j + 1)))
    (ok : Undisturbed s act j) (quiet : OnCall StatusQuiet (s j) (act j)) :
    FifoInv s act (j + 1) where
  table := inv.table.step (freeOk_of_spares inv.cpu h ok.spares) h
  queues := (h.view inv.table.slots).queueOk inv.queues
  cpu := step_cpuInv inv.cpu (inv.disciplined h ok.spares quiet) h
  recv _ hr := inv.recv_succ h ok hr
  deaf _ _ _ hb := inv.deaf_succ h ok hb
  once _ _ _ _ _ hb hb' := inv.once_succ h hb hb'
  lists R := inv.lists_succ h ok R

end FifoInv

/-! ## The queues of a whole run -/

/-- What `L` says about the queue of `R` in state `j`: it lists without repetition, in the order in
which they blocked, the environments that are blocked by a send to `R`. -/
structure Fifo (s : ℕ → Kernel n) (a : ℕ → Action) (j : ℕ) (R : EnvIx) (L : List (EnvIx × ℕ)) :
    Prop extends Lists s a j R L where
  nodup : (L.map Prod.fst).Nodup
  nodupIds : ((s j).waitingQueue R).Nodup
  length : L.length ≤ 9
  bounds : ((s j).envs R).envIpcWaitingHead < maxIpcWaiting ∧
    ((s j).envs R).envIpcWaitingTail < maxIpcWaiting

/-- Waiting queues are FIFO queues of blocked senders, from which `sys_ipc_recv` wakes the first
one. -/
structure FifoQueues (s : ℕ → Kernel n) (a : ℕ → Action) (N : ℕ) : Prop where
  queue : ∀ j ≤ N, ∀ R, ∃ L, Fifo s a j R L
  once : ∀ j ≤ N, ∀ e i R i' R', BlockedSince s a i j e R → BlockedSince s a i' j e R' →
    i = i' ∧ R = R'
  wakes : ∀ j < N, ∀ R args, callOf (s j) (a j) = some (R, .ipcRecv, args) →
    ¬(args.a1 < utop ∧ roundUp args.a1 pgsize ≠ args.a1) →
    (s (j + 1)).waitingQueue R = ((s j).waitingQueue R).tail ∧
      ∀ w ∈ ((s j).waitingQueue R).head?, ∃ e, ((s j).envs e).envId = w ∧
        (s j).status e = .notRunnable ∧ Ready ((s (j + 1)).status e)
  keeps : ∀ j < N, ∀ R, (∀ args, callOf (s j) (a j) ≠ some (R, .ipcRecv, args)) →
    (s j).waitingQueue R <+: (s (j + 1)).waitingQueue R

namespace FifoInv

variable {s : ℕ → Kernel n} {act : ℕ → Action} {i j : ℕ}

theorem boot (h : Boot S (s 0)) : FifoInv s act 0 where
  table := tableInv_boot h
  queues := queueOk_boot h
  cpu := (created_cpuInv h.1).1
  recv e hr := by simp [(created_ipc h.1 e).1] at hr
  deaf _ i _ hb := absurd hb.1 (by omega)
  once _ i _ _ _ hb _ := absurd hb.1 (by omega)
  lists R := by
    obtain ⟨-, hh, ht⟩ := created_ipc h.1 R
    refine ⟨[], ?_, .nil, fun e i => ⟨fun h => by simp at h, fun h => absurd h.1 (by omega)⟩⟩
    have hv : ((s 0).view.env R).headIx = ((s 0).view.env R).tailIx := by
      simp only [EnvView.headIx, EnvView.tailIx, view_env, Env.view, hh, ht]
    rw [Kernel.waitingQueue, EnvView.queue, hv, ring_self]
    rfl

theorem fifo (inv : FifoInv s act j) (R : EnvIx) : ∃ L, Fifo s act j R L := by
  obtain ⟨L, hL⟩ := inv.lists R
  have hnodup : (L.map Prod.fst).Nodup := by
    refine List.pairwise_map.mpr (hL.order.imp_of_mem fun {p q} hp hq hlt heq => ?_)
    have hbp := (hL.blocked p.1 p.2).mp hp
    have hbq := (hL.blocked q.1 q.2).mp hq
    rw [heq] at hbp
    exact absurd (inv.once _ _ _ _ _ hbp hbq).1 (by omega)
  refine ⟨L, hL, hnodup, ?_, ?_, ?_⟩
  · rw [hL.ids]
    refine List.Nodup.map_on (fun p hp q hq heq => ?_) (List.Nodup.of_map _ hnodup)
    have hbp := (hL.blocked p.1 p.2).mp hp
    have hbq := (hL.blocked q.1 q.2).mp hq
    have hidp : envid2env (s j) R ((s j).envs p.1).envId false = some p.1 :=
      inv.table.envid2env_id (by simp [notRunnable hbp])
    have hidq : envid2env (s j) R ((s j).envs q.1).envId false = some q.1 :=
      inv.table.envid2env_id (by simp [notRunnable hbq])
    rw [heq, hidq] at hidp
    have hpq := Option.some.inj hidp
    rw [← hpq] at hbp
    exact Prod.ext hpq.symm (inv.once _ _ _ _ _ hbp hbq).1
  · have hlen := congrArg List.length hL.ids
    rw [List.length_map] at hlen
    have hlt : ((s j).waitingQueue R).length < 10 := length_ring_lt
    omega
  · obtain ⟨hh, ht⟩ := inv.queues R
    exact ⟨BitVec.lt_def.mpr hh, BitVec.lt_def.mpr ht⟩

end FifoInv

/-- In a run that destroys no environment and leaves the status of blocked and of current ones
alone, the waiting queues are FIFO queues of blocked senders. -/
theorem fifoQueues_of_undisturbed {N : ℕ} {s : ℕ → Kernel n} {a : ℕ → Action}
    (boot : Boot S (s 0)) (run : IsRun Step N s a)
    (ok : ∀ j < N, Undisturbed s a j ∧ OnCall StatusQuiet (s j) (a j)) : FifoQueues s a N := by
  have inv : ∀ j ≤ N, FifoInv s a j := by
    intro j
    induction j with
    | zero => exact fun _ => .boot boot
    | succ j ih => exact fun hj => (ih (by omega)).step (run j hj) (ok j hj).1 (ok j hj).2
  refine ⟨fun j hj R => (inv j hj).fifo R, fun j hj => (inv j hj).once, ?_, ?_⟩
  · intro j hj R args hc hva
    have hinv := inv j (by omega)
    have htail := (run j hj).recv_queue hinv.queues hc hva
    refine ⟨htail, fun w hw => ?_⟩
    obtain ⟨L, hL⟩ := hinv.lists R
    obtain _ | ⟨⟨e, i⟩, L'⟩ := L
    · simp [hL.ids] at hw
    have hb := (hL.blocked e i).mp List.mem_cons_self
    have he : ((s j).envs e).envId = w := by simpa [hL.ids] using hw
    refine ⟨e, he, FifoInv.notRunnable hb, ?_⟩
    cases (run j hj).queue hinv.table hinv.queues R with
    | same h =>
      rw [htail, hL.ids, List.map_cons, List.tail_cons] at h
      simpa using congrArg List.length h
    | push hc' _ _ _ _ _ => cases hc.symm.trans hc'
    | pop _ hq hwake =>
      refine hwake e ?_
      rw [hL.ids, List.map_cons, List.cons.injEq] at hq
      rw [← hq.1]
      exact hinv.table.envid2env_id (by simp [FifoInv.notRunnable hb])
  · intro j hj R hno
    have hinv := inv j (by omega)
    cases (run j hj).queue hinv.table hinv.queues R with
    | same h => rw [h]
    | push _ _ _ _ h _ => exact h ▸ List.prefix_append ..
    | pop hc _ _ => exact absurd hc (hno _)

/-! ### Two runs -/

section
variable {s : ℕ → Kernel n} {act : ℕ → Action} {j : ℕ} {c : Cpu}

theorem undisturbed_start (ha : act j = .start c) : Undisturbed s act j where
  spares e := by
    rw [ha]
    exact ⟨fun h => h, fun ⟨_, _, hc, _⟩ => by cases hc⟩
  calm _ _ _ hc := by
    rw [ha] at hc
    cases hc

/-- What has to be checked for a system call that destroys nothing. -/
theorem undisturbed_sysTrap {sys : Sys} {no a1 a2 a3 a4 a5 : Word}
    (ha : act j = sysTrap c no a1 a2 a3 a4 a5) (hcur : (s j).curenv c = some cur)
    (hd : (s j).status cur ≠ .dying) (hs : Sys.ofNat no.toNat = some sys)
    (hsys : sys ≠ .envDestroy ∧ sys ≠ .cputs)
    (calm : sys = .envSetStatus → ∀ e, envid2env (s j) cur a1 true = some e →
      ((s j).envs e).envIpcRecving = false ∧ ∀ i R, ¬BlockedSince s act i j e R) :
    Undisturbed s act j where
  spares e := by
    rw [ha]
    have hcall : callOf (s j) (sysTrap c no a1 a2 a3 a4 a5) =
        some (cur, sys, ⟨a1, a2, a3, a4, a5⟩) :=
      callOf_eq_some hcur hd rfl hs
    constructor
    · rintro ⟨cur', hcur', ⟨-, hdies⟩ | ⟨-, -, sys', hs', hf⟩⟩
      · obtain rfl := Option.some.inj (hcur.symm.trans hcur')
        rcases hdies with h | h
        · exact hd h
        · exact h.ne_syscall rfl
      · obtain rfl := Option.some.inj (hs.symm.trans hs')
        cases sys <;> simp_all [CallFrees]
    · rintro ⟨cur', args, hc, -⟩
      cases hcall.symm.trans hc
      exact hsys.1 rfl
  calm cur' args e hc _ he := by
    rw [ha, show callOf (s j) (sysTrap c no a1 a2 a3 a4 a5) = _ from
      callOf_eq_some hcur hd rfl hs] at hc
    cases hc
    exact calm rfl e he

end

/-- Two children run on the second CPU and send to their parent, one after the other, and the parent
then receives from the first of them. -/
def twoSendersRun : List Action :=
  [.start 0, sysTrap 0 7 0 0 0 0 0, sysTrap 0 7 0 0 0 0 0, sysTrap 0 8 0x1001 2 0 0 0,
    sysTrap 0 8 0x1002 2 0 0 0, .start 1, sysTrap 1 11 0x1000 0 0xEEC00000 0 0,
    sysTrap 1 11 0x1000 0 0xEEC00000 0 0, sysTrap 0 12 0xEEC00000 0 0 0 0]

theorem fifoQueues_twoSendersRun :
    (stateAt small twoSendersRun 8).waitingQueue 0 = [0x1001, 0x1002] ∧
      FifoQueues (stateAt small twoSendersRun) (actionAt twoSendersRun) 9 := by
  have hpar : ∀ i : Fin 9, 0 < i → (stateAt small twoSendersRun i).curenv 0 = some 0 ∧
      (stateAt small twoSendersRun i).status 0 ≠ .dying := by decide +kernel
  have hchild₁ : (stateAt small twoSendersRun 6).curenv 1 = some 1 ∧
      (stateAt small twoSendersRun 6).status 1 ≠ .dying := by decide +kernel
  have hchild₂ : (stateAt small twoSendersRun 7).curenv 1 = some 2 ∧
      (stateAt small twoSendersRun 7).status 2 ≠ .dying := by decide +kernel
  have hset₁ : envid2env (stateAt small twoSendersRun 3) 0 0x1001 true = some 1 ∧
      Quiet (stateAt small twoSendersRun 3) 0 1 ∧
      ((stateAt small twoSendersRun 3).envs 1).envIpcRecving = false := by
    unfold Quiet
    decide +kernel
  have hset₂ : envid2env (stateAt small twoSendersRun 4) 0 0x1002 true = some 2 ∧
      Quiet (stateAt small twoSendersRun 4) 0 2 ∧
      ((stateAt small twoSendersRun 4).envs 2).envIpcRecving = false := by
    unfold Quiet
    decide +kernel
  -- there is no send before step 6
  have hno : ∀ i < 6, ∀ e args, callOf (stateAt small twoSendersRun i) (actionAt twoSendersRun i) ≠
      some (e, .ipcTrySend, args) := by
    intro i hi e args hc
    obtain rfl | rfl | rfl | rfl | rfl | rfl : i = 0 ∨ i = 1 ∨ i = 2 ∨ i = 3 ∨ i = 4 ∨ i = 5 := by
      omega
    · cases hc
    · obtain ⟨h, hd⟩ := hpar 1 (by decide)
      cases hc.symm.trans (callOf_eq_some h hd rfl rfl)
    · obtain ⟨h, hd⟩ := hpar 2 (by decide)
      cases hc.symm.trans (callOf_eq_some h hd rfl rfl)
    · obtain ⟨h, hd⟩ := hpar 3 (by decide)
      cases hc.symm.trans (callOf_eq_some h hd rfl rfl)
    · obtain ⟨h, hd⟩ := hpar 4 (by decide)
      cases hc.symm.trans (callOf_eq_some h hd rfl rfl)
    · cases hc
  refine ⟨by decide +kernel, fifoQueues_of_undisturbed boot_small
    (isRun_stateAt (N := 9) (by decide +kernel)) fun j hj => ?_⟩
  obtain rfl | rfl | rfl | rfl | rfl | rfl | rfl | rfl | rfl : j = 0 ∨ j = 1 ∨ j = 2 ∨ j = 3 ∨
      j = 4 ∨ j = 5 ∨ j = 6 ∨ j = 7 ∨ j = 8 := by
    omega
  · exact ⟨undisturbed_start rfl, trivial⟩
  · obtain ⟨h, hd⟩ := hpar 1 (by decide)
    exact ⟨undisturbed_sysTrap rfl h hd rfl (by decide) nofun, .sysTrap h rfl trivial⟩
  · obtain ⟨h, hd⟩ := hpar 2 (by decide)
    exact ⟨undisturbed_sysTrap rfl h hd rfl (by decide) nofun, .sysTrap h rfl trivial⟩
  · obtain ⟨h, hd⟩ := hpar 3 (by decide)
    obtain ⟨hid, hq, hr⟩ := hset₁
    refine ⟨undisturbed_sysTrap rfl h hd rfl (by decide) fun _ e he => ?_,
      .sysTrap h rfl fun _ e he => ?_⟩
    · obtain rfl := Option.some.inj (hid.symm.trans he)
      exact ⟨hr, fun i R ⟨hij, ⟨args, hc, _⟩, _⟩ => hno i (by omega) _ _ hc⟩
    · obtain rfl := Option.some.inj (hid.symm.trans he)
      exact ⟨hq, by decide⟩
  · obtain ⟨h, hd⟩ := hpar 4 (by decide)
    obtain ⟨hid, hq, hr⟩ := hset₂
    refine ⟨undisturbed_sysTrap rfl h hd rfl (by decide) fun _ e he => ?_,
      .sysTrap h rfl fun _ e he => ?_⟩
    · obtain rfl := Option.some.inj (hid.symm.trans he)
      exact ⟨hr, fun i R ⟨hij, ⟨args, hc, _⟩, _⟩ => hno i (by omega) _ _ hc⟩
    · obtain rfl := Option.some.inj (hid.symm.trans he)
      exact ⟨hq, by decide⟩
  · exact ⟨undisturbed_start rfl, trivial⟩
  · obtain ⟨h, hd⟩ := hchild₁
    exact ⟨undisturbed_sysTrap rfl h hd rfl (by decide) nofun, .sysTrap h rfl trivial⟩
  · obtain ⟨h, hd⟩ := hchild₂
    exact ⟨undisturbed_sysTrap rfl h hd rfl (by decide) nofun, .sysTrap h rfl trivial⟩
  · obtain ⟨h, hd⟩ := hpar 8 (by decide)
    exact ⟨undisturbed_sysTrap rfl h hd rfl (by decide) nofun, .sysTrap h rfl trivial⟩

/-- An environment makes itself runnable, so that the second CPU runs it as well, and sends to
itself from both CPUs. -/
def twiceRun : List Action :=
  [.start 0, sysTrap 0 7 0 0 0 0 0, sysTrap 0 8 0 2 0 0 0, .start 1, sysTrap 0 8 0x1001 2 0 0 0,
    sysTrap 1 11 0 0 0xEEC00000 0 0, sysTrap 0 11 0 0 0xEEC00000 0 0]

/-- The environment is in its own queue twice. -/
theorem not_fifoQueues_setStatus : ∃ (s : ℕ → Kernel 16) (a : ℕ → Action),
    Boot {p : Fin 16 | p ≠ 0} (s 0) ∧ IsRun Step 7 s a ∧ (∀ j < 7, Undisturbed s a j) ∧
      ¬FifoQueues s a 7 := by
  have hcur : ∀ i : Fin 7, 0 < i → (stateAt small twiceRun i).curenv 0 = some 0 ∧
      (stateAt small twiceRun i).status 0 ≠ .dying := by decide +kernel
  have hcur₁ : (stateAt small twiceRun 5).curenv 1 = some 0 := by decide +kernel
  have hself : envid2env (stateAt small twiceRun 2) 0 0 true = some 0 ∧
      ((stateAt small twiceRun 2).envs 0).envIpcRecving = false := by decide +kernel
  have hchild : envid2env (stateAt small twiceRun 4) 0 0x1001 true = some 1 ∧
      ((stateAt small twiceRun 4).envs 1).envIpcRecving = false := by decide +kernel
  have hq : (stateAt small twiceRun 7).waitingQueue 0 = [0x1000, 0x1000] := by decide +kernel
  -- there is no send before step 5
  have hno : ∀ i < 5, ∀ e args, callOf (stateAt small twiceRun i) (actionAt twiceRun i) ≠
      some (e, .ipcTrySend, args) := by
    intro i hi e args hc
    obtain rfl | rfl | rfl | rfl | rfl : i = 0 ∨ i = 1 ∨ i = 2 ∨ i = 3 ∨ i = 4 := by omega
    · cases hc
    · obtain ⟨h, hd⟩ := hcur 1 (by decide)
      cases hc.symm.trans (callOf_eq_some h hd rfl rfl)
    · obtain ⟨h, hd⟩ := hcur 2 (by decide)
      cases hc.symm.trans (callOf_eq_some h hd rfl rfl)
    · cases hc
    · obtain ⟨h, hd⟩ := hcur 4 (by decide)
      cases hc.symm.trans (callOf_eq_some h hd rfl rfl)
  refine ⟨stateAt small twiceRun, actionAt twiceRun, boot_small, isRun_stateAt (by decide +kernel),
    fun j hj => ?_, fun h => ?_⟩
  · obtain rfl | rfl | rfl | rfl | rfl | rfl | rfl :
        j = 0 ∨ j = 1 ∨ j = 2 ∨ j = 3 ∨ j = 4 ∨ j = 5 ∨ j = 6 := by omega
    · exact undisturbed_start rfl
    · obtain ⟨h, hd⟩ := hcur 1 (by decide)
      exact undisturbed_sysTrap rfl h hd rfl (by decide) nofun
    · obtain ⟨h, hd⟩ := hcur 2 (by decide)
      refine undisturbed_sysTrap rfl h hd rfl (by decide) fun _ e he => ?_
      obtain rfl := Option.some.inj (hself.1.symm.trans he)
      exact ⟨hself.2, fun i R ⟨hij, ⟨args, hc, _⟩, _⟩ => hno i (by omega) _ _ hc⟩
    · exact undisturbed_start rfl
    · obtain ⟨h, hd⟩ := hcur 4 (by decide)
      refine undisturbed_sysTrap rfl h hd rfl (by decide) fun _ e he => ?_
      obtain rfl := Option.some.inj (hchild.1.symm.trans he)
      exact ⟨hchild.2, fun i R ⟨hij, ⟨args, hc, _⟩, _⟩ => hno i (by omega) _ _ hc⟩
    · obtain ⟨-, hd⟩ := hcur 5 (by decide)
      exact undisturbed_sysTrap rfl hcur₁ hd rfl (by decide) nofun
    · obtain ⟨h, hd⟩ := hcur 6 (by decide)
      exact undisturbed_sysTrap rfl h hd rfl (by decide) nofun
  · obtain ⟨L, hL⟩ := h.queue 7 le_rfl 0
    have hnodup := hL.nodupIds
    rw [hq] at hnodup
    simp at hnodup

end JosKernel
