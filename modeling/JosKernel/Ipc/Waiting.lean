import JosKernel.Ipc.Dying
import JosKernel.Ipc.Queue

/-!
# Senders that wait

`sys_ipc_try_send` blocks a caller whose target is not receiving, by putting its id into the
target's queue. Only `sys_ipc_recv` of the target looks there. The target may be freed in the
meantime: `env_free` leaves the queue alone, and the next environment in the slot inherits it.
-/
namespace JosKernel

open Lib

variable {n : Nat} {S : Set (Fin n)} {k k' : Kernel n} {a : Action} {cur e R : EnvIx}

/-- The action is a `sys_ipc_try_send` of `e` that finds `R` not receiving and has room in its
queue. -/
def Blocks (k : Kernel n) (a : Action) (e R : EnvIx) : Prop :=
  ∃ args, callOf k a = some (e, .ipcTrySend, args) ∧ envid2env k e args.a1 false = some R ∧
    (k.envs R).envIpcRecving = false ∧
    ((k.envs R).envIpcWaitingTail + 1) % maxIpcWaiting ≠ (k.envs R).envIpcWaitingHead

/-- In state `j` of the run, `e` is not runnable because of its send to `R` in step `i`. -/
def BlockedSince (s : ℕ → Kernel n) (a : ℕ → Action) (i j : ℕ) (e R : EnvIx) : Prop :=
  i < j ∧ Blocks (s i) (a i) e R ∧ ∀ l, i < l → l ≤ j → (s l).status e = .notRunnable

/-- `R` is still the environment that `e` was sending to in step `i`, and has `e` in its queue. -/
structure WaitsFor (s : ℕ → Kernel n) (i j : ℕ) (e R : EnvIx) : Prop where
  live : (s j).status R ≠ .free
  sameId : ((s j).envs R).envId = ((s i).envs R).envId
  queued : ((s j).envs e).envId ∈ (s j).waitingQueue R

/-! ## Steps -/

/-- What a step does to the queue of `R`. -/
inductive QueueMoved (k : Kernel n) (a : Action) (R : EnvIx) (k' : Kernel n) : Prop
  | same (h : k'.waitingQueue R = k.waitingQueue R)
  | push {cur : EnvIx} {args : Args} (hc : callOf k a = some (cur, .ipcTrySend, args))
      (he : envid2env k cur args.a1 false = some R) (hr : (k.envs R).envIpcRecving = false)
      (room : ((k.envs R).envIpcWaitingTail + 1) % maxIpcWaiting ≠ (k.envs R).envIpcWaitingHead)
      (h : k'.waitingQueue R = k.waitingQueue R ++ [(k.envs cur).envId])
      (hs : k'.status cur = .notRunnable)
  | pop {args : Args} {w : Word} (hc : callOf k a = some (R, .ipcRecv, args))
      (h : k.waitingQueue R = w :: k'.waitingQueue R)
      (hw : ∀ e, envid2env k R w false = some e → k'.status e = .runnable ∨ k'.status e = .running)

theorem callOf_of_call {c : Cpu} {tf : Trapframe} {io : Inputs} {s : Sys} {args : Args}
    (hcur : k.curenv c = some cur) (hd : k.status cur ≠ .dying)
    (h : tf.call = some (s, args)) : callOf k (.trap c tf io) = some (cur, s, args) := by
  unfold Trapframe.call at h
  split_ifs at h with hno
  rw [Option.map_eq_some_iff] at h
  obtain ⟨s', hs, h⟩ := h
  cases h
  exact callOf_eq_some hcur hd hno hs

theorem Step.queue (inv : TableInv k) (ok : k.view.QueueOk) (h : Step k a k') (R : EnvIx) :
    QueueMoved k a R k' := by
  cases (h.view inv.slots).kinds with
  | idle _ s => exact .same (s.queue R)
  | @reap c tf io cur ha hcur hd s =>
    refine .same ((s.queue R).trans ?_)
    by_cases hi : R = cur
    · subst hi
      simp [View.leave, View.setStatus, EnvView.queue, EnvView.headIx, EnvView.tailIx,
        Kernel.waitingQueue]
    · simp [View.leave, View.setStatus, View.modEnv_of_ne _ _ hi, Kernel.waitingQueue]
  | @act c tf io cur v₁ ha hcur hd act s =>
    subst ha
    cases act.queue ok (inv.live.cur c cur hcur) R with
    | same h => exact .same ((s.queue R).trans h)
    | push hcall he hr room h hs =>
      refine .push (callOf_of_call hcur hd hcall) he hr room ((s.queue R).trans h) ?_
      rcases s.status cur with h' | ⟨h', -⟩ | ⟨h', -⟩
      · exact h'.trans hs
      · simp [hs] at h'
      · simp [hs] at h'
    | pop hcall hR h hw =>
      subst hR
      refine .pop (callOf_of_call hcur hd hcall) (h.trans (by rw [← s.queue R]; rfl)) fun e he => ?_
      have hs := hw e he
      rcases s.status e with h' | ⟨-, h'⟩ | ⟨h', -⟩
      · exact .inl (h'.trans hs)
      · exact .inr h'
      · simp [hs] at h'

/-- Ids of live environments do not change. -/
theorem Step.id (inv : TableInv k) (h : Step k a k') (he : k.status e ≠ .free) :
    (k'.envs e).envId = (k.envs e).envId := by
  cases (h.view inv.slots).kinds with
  | idle _ s => exact s.id e
  | @reap c tf io cur ha hcur hd s =>
    refine (s.id e).trans ?_
    by_cases hi : e = cur
    · subst hi
      simp [View.leave, View.setStatus, Env.view]
    · simp [View.leave, View.setStatus, View.modEnv_of_ne _ _ hi, Env.view]
  | @act c tf io cur v₁ ha hcur hd act s =>
    refine (s.id e).trans ?_
    rcases act.id (inv.live.cur c cur hcur) e with ⟨h, -⟩ | ⟨h, -⟩
    · exact h
    · exact absurd h he

/-- The id of a live environment leads to it. -/
theorem TableInv.envid2env_id (inv : TableInv k) (he : k.status e ≠ .free) :
    envid2env k cur (k.envs e).envId false = some e := by
  obtain ⟨hx, h0⟩ := inv.live.ids e he
  have hx' : envx (k.envs e).envId = e := hx
  have h0' : (k.envs e).envId ≠ 0#32 := h0
  simp [envid2env, hx', h0', he]

/-- An environment that stays blocked stays in the queue. -/
theorem Step.queued (inv : TableInv k) (ok : k.view.QueueOk) (h : Step k a k')
    (he : k.status e = .notRunnable) (he' : k'.status e = .notRunnable)
    (hq : (k.envs e).envId ∈ k.waitingQueue R) : (k'.envs e).envId ∈ k'.waitingQueue R := by
  have hlive : k.status e ≠ .free := by simp [he]
  rw [h.id inv hlive]
  cases h.queue inv ok R with
  | same h => rwa [h]
  | push _ _ _ _ h _ =>
    rw [h]
    exact List.mem_append_left _ hq
  | pop _ h hw =>
    rw [h, List.mem_cons] at hq
    rcases hq with rfl | hq
    · have hstat := hw e (inv.envid2env_id hlive)
      simp [he'] at hstat
    · exact hq

/-- The branch of `sys_ipc_try_send` that blocks the caller. -/
theorem sysIpcTrySend_enqueue {args : Args} (he : envid2env k e args.a1 false = some R)
    (hr : (k.envs R).envIpcRecving = false)
    (room : ((k.envs R).envIpcWaitingTail + 1) % maxIpcWaiting ≠ (k.envs R).envIpcWaitingHead)
    (hi : (k.envs R).envIpcWaitingTail.toNat < 10) :
    sysIpcTrySend k e args.a1 args.a2 args.a3 args.a4 =
      .ok (-eIpcNotRecv, enqueued k e R ⟨_, hi⟩) := by
  have hid : ((k.setStatus e .notRunnable).envs e).envId = (k.envs e).envId := by
    simp [Kernel.setStatus]
  unfold sysIpcTrySend
  simp only [he, hr, Bool.false_eq_true, if_false, ipcEnqueue, if_pos room, waitingIx, dif_pos hi,
    bind, Except.bind, pure, Except.pure, hid]
  rfl

/-- Blocking, as an effect on the view. -/
theorem Blocks.settled (ok : k.view.QueueOk) (hb : Blocks k a e R) (h : Step k a k') :
    ∃ (c : Cpu) (i : Fin 10) (w : Word), (k.envs R).envIpcWaitingTail.toNat = i ∧
      ((k.view.enqueued e R i).setEax e w).Settled c k'.view := by
  obtain ⟨args, hc, he, hr, room⟩ := hb
  have hi : (k.envs R).envIpcWaitingTail.toNat < 10 := (ok R).2
  have hsys : ∀ c tf io, k.curenv c = some e →
      Sys.ofNat tf.tfRegs.regEax.toNat = some .ipcTrySend →
      syscall (saved k e tf) c e io tf.tfRegs.regEax args.a1 args.a2 args.a3 args.a4 args.a5 =
        .ok (some (-eIpcNotRecv), enqueued (saved k e tf) e R ⟨_, hi⟩) := by
    intro c tf io _ hs
    have hsend : sysIpcTrySend (saved k e tf) e args.a1 args.a2 args.a3 args.a4 =
        .ok (-eIpcNotRecv, enqueued (saved k e tf) e R ⟨_, hi⟩) := by
      have hi' : ((saved k e tf).envs R).envIpcWaitingTail.toNat < 10 := by rwa [saved_env]
      have hix : (⟨_, hi'⟩ : Fin 10) = ⟨_, hi⟩ := by simp only [saved_env]
      rw [← hix]
      exact sysIpcTrySend_enqueue (by rwa [envid2env_saved]) (by rwa [saved_env])
        (by rwa [saved_env]) hi'
    unfold syscall
    rw [hs]
    simp only [hsend, returning, Except.map]
  obtain ⟨c, tf, io, -, -, hret⟩ := step_syscall hc h hsys
  have hs := hret.view.settled
  rw [view_setResult, view_enqueued, view_saved, View.enqueued_setEax, View.setEax_setEax] at hs
  exact ⟨c, _, _, rfl, hs⟩

theorem View.Settled.notRunnable {v v' : View} {c : Cpu} (h : View.Settled v c v')
    (he : (v.env e).status = .notRunnable) : (v'.env e).status = .notRunnable := by
  rcases h.status e with h | ⟨h, -⟩ | ⟨h, -⟩
  · rw [h, he]
  · simp [he] at h
  · simp [he] at h

/-- The caller is blocked and last in the queue. -/
theorem Blocks.queued (ok : k.view.QueueOk) (hb : Blocks k a e R) (h : Step k a k') :
    k'.status e = .notRunnable ∧
      k'.waitingQueue R = k.waitingQueue R ++ [(k.envs e).envId] := by
  obtain ⟨c, i, w, hi, hs⟩ := hb.settled ok h
  obtain ⟨args, -, -, -, room⟩ := hb
  constructor
  · refine hs.notRunnable ?_
    rw [View.setEax_status]
    by_cases hR : e = R
    · subst hR; simp [View.enqueued, View.setStatus]
    · simp [View.enqueued, View.setStatus, View.modEnv_of_ne _ _ hR]
  · rw [Kernel.waitingQueue, hs.queue]
    have heax := View.queue_congr (View.setEax_head (k.view.enqueued e R i) e R w)
      (View.setEax_tail ..) (View.setEax_waiting ..)
    exact heax.trans (View.enqueued_queue ok room hi)

theorem Blocks.live (ok : k.view.QueueOk) (hb : Blocks k a e R) (h : Step k a k')
    (hR : k.status R ≠ .free) : k'.status R ≠ .free := by
  obtain ⟨c, i, w, -, hs⟩ := hb.settled ok h
  have hR' : (k.view.env R).status ≠ .free := hR
  refine fun hf => hR' ?_
  have hf' := (hs.free R).mp hf
  rw [View.setEax_status] at hf'
  simp only [View.enqueued, View.setStatus, View.modEnv_env] at hf'
  grind

/-- An environment that a step does not free stays live. -/
theorem Step.live (inv : TableInv k) (h : Step k a k') (he : k.status e ≠ .free)
    (hf : ¬Frees k a e) : k'.status e ≠ .free :=
  fun h' => hf ((step_slots inv.live.cur h).frees he h')

/-! ## Runs -/

/-- At boot no environment receives and all queues are empty. -/
theorem created_ipc (h : Created S k) (e : EnvIx) : (k.envs e).envIpcRecving = false ∧
    (k.envs e).envIpcWaitingHead = 0 ∧ (k.envs e).envIpcWaitingTail = 0 := by
  induction h with
  | init _ zero =>
    obtain rfl := zero.eq
    exact ⟨rfl, rfl, rfl⟩
  | @create k k₁ i g m eip _ alloc _ _ ih =>
    obtain ⟨g', m', -, -, rfl⟩ := envAlloc_ok alloc
    by_cases hi : e = i
    · subst hi
      simpa [entered, allocated] using ih.2
    · simpa [entered, allocated, Kernel.modEnv_of_ne _ _ hi, hi] using ih

theorem queueOk_boot (h : Boot S k) : k.view.QueueOk := by
  intro e
  show (k.envs e).envIpcWaitingHead.toNat < 10 ∧ (k.envs e).envIpcWaitingTail.toNat < 10
  simp [created_ipc h.1 e]

theorem queueOk_of_run {N : ℕ} {s : ℕ → Kernel n} {a : ℕ → Action} (boot : Boot S (s 0))
    (run : IsRun Step N s a) (inv : ∀ j ≤ N, TableInv (s j)) {i : ℕ} (hi : i ≤ N) :
    (s i).view.QueueOk := by
  induction i with
  | zero => exact queueOk_boot boot
  | succ i ih => exact ((run i hi).view (inv i (by omega)).slots).queueOk (ih (by omega))

/-- In a run in which no environment is freed while it is current on another CPU, or while another
one is blocked by a send to it, every blocked sender waits for a live environment. -/
theorem waitsFor_of_blockedSince {N : ℕ} {s : ℕ → Kernel n} {a : ℕ → Action}
    (boot : Boot S (s 0)) (run : IsRun Step N s a) (ok : ∀ j < N, FreeOk (s j) (a j))
    (release : ∀ j < N, ∀ i e R, BlockedSince s a i j e R → e ≠ R → ¬Frees (s j) (a j) R)
    {i j : ℕ} (hj : j ≤ N) (hb : BlockedSince s a i j e R) : WaitsFor s i j e R := by
  have inv : ∀ l ≤ N, TableInv (s l) := fun l hl => tableInv_of_run boot run ok hl
  have qok : ∀ l ≤ N, (s l).view.QueueOk := fun l hl => queueOk_of_run boot run inv hl
  obtain ⟨hij, hblocks, hst⟩ := hb
  obtain ⟨hei, hR⟩ : (s i).status e ≠ .free ∧ (s i).status R ≠ .free := by
    obtain ⟨args, hc, hid, -⟩ := hblocks
    obtain ⟨c, tf, io, -, hcur, -⟩ := step_call hc (run i (by omega))
    have hlive := (inv i (by omega)).live.cur c e hcur
    exact ⟨hlive, envid2env_live hid hlive⟩
  induction j, hij using Nat.le_induction with
  | base =>
    have hinv := inv i (by omega)
    have hstep := run i (by omega)
    obtain ⟨-, hq⟩ := hblocks.queued (qok i (by omega)) hstep
    refine ⟨hblocks.live (qok i (by omega)) hstep hR, hstep.id hinv hR, ?_⟩
    rw [hstep.id hinv hei, hq]
    exact List.mem_append_right _ (List.mem_singleton.mpr rfl)
  | succ j hij ih =>
    have hw := ih (by omega) fun l hl hlj => hst l hl (by omega)
    have hstep := run j (by omega)
    have hj1 := hst (j + 1) (by omega) le_rfl
    refine ⟨?_, (hstep.id (inv j (by omega)) hw.live).trans hw.sameId, ?_⟩
    · by_cases heR : e = R
      · subst heR
        simp [hj1]
      · refine hstep.live (inv j (by omega)) hw.live (release j (by omega) i e R ?_ heR)
        exact ⟨hij, hblocks, fun l hl hlj => hst l hl (by omega)⟩
    · exact hstep.queued (inv j (by omega)) (qok j (by omega)) (hst j hij (by omega)) hj1 hw.queued

/-! ### A run with a blocked sender -/

/-- The first environment forks a child, which runs on the second CPU and sends to its parent. -/
def waitRun : List Action :=
  [.start 0, sysTrap 0 7 0 0 0 0 0, sysTrap 0 8 0x1001 2 0 0 0, .start 1,
    sysTrap 1 11 0x1000 0 0xEEC00000 0 0]

theorem blockedSince_waitRun : BlockedSince (stateAt small waitRun) (actionAt waitRun) 4 5 1 0 := by
  refine ⟨by decide, ⟨⟨0x1000, 0, 0xEEC00000, 0, 0⟩, callOf_eq_some ?_ ?_ rfl rfl, ?_, ?_, ?_⟩,
    fun l h h' => ?_⟩
  · decide +kernel
  · decide +kernel
  · decide +kernel
  · decide +kernel
  · decide +kernel
  · obtain rfl : l = 5 := by omega
    decide +kernel

theorem waitsFor_waitRun : WaitsFor (stateAt small waitRun) 4 5 1 0 := by
  have hcur : ∀ i : Fin 5, 0 < i → (stateAt small waitRun i).curenv 0 = some 0 ∧
      (stateAt small waitRun i).status 0 ≠ .dying ∧ Quiet (stateAt small waitRun i) 0 0 := by
    unfold Quiet
    decide +kernel
  refine waitsFor_of_blockedSince boot_small (isRun_stateAt (N := 5) (by decide +kernel))
    (fun j hj => ?_) (fun j hj i e R hb _ => ?_) le_rfl blockedSince_waitRun
  · obtain rfl | rfl | rfl | rfl | rfl : j = 0 ∨ j = 1 ∨ j = 2 ∨ j = 3 ∨ j = 4 := by omega
    · exact ⟨trivial, trivial⟩
    · obtain ⟨h, -, hq⟩ := hcur 1 (by decide)
      exact .sysTrap h rfl hq trivial
    · obtain ⟨h, -, hq⟩ := hcur 2 (by decide)
      exact .sysTrap h rfl hq trivial
    · exact ⟨trivial, trivial⟩
    · have h : (stateAt small waitRun 4).curenv 1 = some 1 := by decide +kernel
      have hq : Quiet (stateAt small waitRun 4) 1 1 := by
        unfold Quiet
        decide +kernel
      exact .sysTrap h rfl hq trivial
  · -- no one is blocked before the last step
    obtain ⟨hij, ⟨args, hc, -⟩, -⟩ := hb
    obtain rfl | rfl | rfl | rfl : i = 0 ∨ i = 1 ∨ i = 2 ∨ i = 3 := by omega
    · cases hc
    · obtain ⟨h, hd, -⟩ := hcur 1 (by decide)
      cases hc.symm.trans (callOf_eq_some h hd rfl rfl)
    · obtain ⟨h, hd, -⟩ := hcur 2 (by decide)
      cases hc.symm.trans (callOf_eq_some h hd rfl rfl)
    · cases hc

/-- The same, but then the parent exits. -/
def desertRun : List Action :=
  [.start 0, sysTrap 0 7 0 0 0 0 0, sysTrap 0 8 0x1001 2 0 0 0, .start 1,
    sysTrap 1 11 0x1000 0 0xEEC00000 0 0, sysTrap 0 3 0 0 0 0 0]

/-- The child stays blocked by its send to an environment that no longer exists. -/
theorem not_waitsFor_exit : ∃ (s : ℕ → Kernel 16) (a : ℕ → Action),
    Boot {p : Fin 16 | p ≠ 0} (s 0) ∧ IsRun Step 6 s a ∧ BlockedSince s a 4 6 1 0 ∧
      ¬WaitsFor s 4 6 1 0 := by
  have hf : (stateAt small desertRun 6).status 0 = .free := by decide +kernel
  refine ⟨stateAt small desertRun, actionAt desertRun, boot_small,
    isRun_stateAt (by decide +kernel), ⟨by decide, ?_, fun l h h' => ?_⟩, fun h => h.live hf⟩
  · refine ⟨⟨0x1000, 0, 0xEEC00000, 0, 0⟩, callOf_eq_some ?_ ?_ rfl rfl, ?_, ?_, ?_⟩ <;>
      decide +kernel
  · obtain rfl | rfl : l = 5 ∨ l = 6 := by omega
    · decide +kernel
    · decide +kernel

end JosKernel
