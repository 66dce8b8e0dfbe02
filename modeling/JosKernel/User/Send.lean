import JosKernel.Ipc.Delivery

/-!
# Sending until it works

The loop of `ipc_send` in `lib/ipc.c`, as the states in which the code of an environment can be
between its system calls, and what the loop is for: a sender that finds the receiver busy waits in
its queue, and `sys_ipc_recv` wakes up one of them, who is to try again. The receiver then relies
on that one sender. The loop panics after the third failure though, and a sender that wakes up from
it does not try again.
-/
namespace JosKernel

open Lib

variable {n : Nat} {S : Set (Fin n)} {k k' : Kernel n} {a : Action} {cur e R : EnvIx}

/-! ## The loop -/

deriving instance DecidableEq for Args

/-- Where the code of an environment is between two system calls. -/
inductive SendState where
  /-- Not in `ipc_send`. -/
  | idle
  /-- About to call `sys_ipc_try_send` again. -/
  | trying (args : Args) (retryTimes : Nat)
  /-- About to call `sys_yield`. -/
  | yielding (args : Args) (retryTimes : Nat)
  | panicked
  deriving DecidableEq

namespace SendState

/-- The body of the loop, with the result `r` of `sys_ipc_try_send`. -/
def result (args : Args) (retryTimes : Nat) (r : Int) : SendState :=
  if r < 0 then
    if r ≠ -eIpcNotRecv then .panicked
    else
      let retryTimes := retryTimes + 1
      if retryTimes > 2 then .panicked else .yielding args retryTimes
  else .idle

/-- The system calls that can come next. -/
def Calls : SendState → Sys → Args → Prop
  | .trying args _, s, args' => s = .ipcTrySend ∧ args' = args
  | .yielding _ _, s, _ => s = .yield
  | _, _, _ => True

/-- The state after a system call with result `r`. Every `sys_ipc_try_send` from outside the loop
enters it. -/
def next : SendState → Sys → Args → Int → SendState
  | .idle, .ipcTrySend, args, r => result args 0 r
  | .trying args retryTimes, _, _, r => result args retryTimes r
  | .yielding args retryTimes, _, _, _ => .trying args retryTimes
  | st, _, _, _ => st

end SendState

/-- Where the code of `e` is in state `j` of a run. A new environment starts outside the loop. -/
def sendState (s : ℕ → Kernel n) (a : ℕ → Action) (e : EnvIx) : ℕ → SendState
  | 0 => .idle
  | j + 1 =>
    if (s (j + 1)).status e = .free then .idle
    else
      match callOf (s j) (a j) with
      | some (cur, sys, args) =>
        if cur = e then (sendState s a e j).next sys args ((s (j + 1)).eax e).toInt
        else sendState s a e j
      | none => sendState s a e j

/-- In step `j`, environments use `sys_ipc_try_send` as `ipc_send` does, and none ends inside its
loop. -/
structure UsesIpcSend (s : ℕ → Kernel n) (a : ℕ → Action) (j : ℕ) : Prop where
  calls : ∀ e sys args, callOf (s j) (a j) = some (e, sys, args) →
    (sendState s a e j).Calls sys args
  ends : ∀ e, Frees (s j) (a j) e → sendState s a e j = .idle ∨ sendState s a e j = .panicked

/-- `R` waits for a message, a sender waits in its queue, and no environment can run. -/
structure Stranded (k : Kernel n) (R : EnvIx) : Prop where
  recving : (k.envs R).envIpcRecving = true
  sender : ∃ e, k.status e = .notRunnable ∧ (k.envs e).envId ∈ k.waitingQueue R
  idle : ∀ e, ¬Ready (k.status e)

/-! ## Results of sends -/

/-- The results of `sys_ipc_try_send`. -/
theorem sysIpcTrySend_result {envid value srcva perm : Word} {v : Int}
    (h : sysIpcTrySend k cur envid value srcva perm = .ok (v, k')) :
    v ∈ [-eBadEnv, -eInval, -eNoMem, 0] ∨ v = -eIpcNotRecv ∧
      ∃ e, envid2env k cur envid false = some e ∧ (k.envs e).envIpcRecving = false := by
  unfold sysIpcTrySend at h
  split at h
  · cases h
    exact .inl (by simp)
  · rename_i e he
    by_cases hr : (k.envs e).envIpcRecving = true
    · left
      rw [if_pos hr, bind_ok] at h
      obtain ⟨⟨r, k₁⟩, page, h⟩ := h
      by_cases hneg : r < 0
      · simp only [hneg, if_true] at h
        cases h
        cases ipcSendPage_sent page with
        | noMem _ _ _ _ _ _ _ hins _ =>
          rcases pageInsert_result hins with rfl | rfl <;> simp
        | _ => simp
      · simp only [hneg, if_false] at h
        cases h
        simp
    · refine .inr ⟨?_, e, he, by simpa using hr⟩
      rw [if_neg hr] at h
      unfold ipcEnqueue at h
      dsimp only at h
      split_ifs at h with room
      · rw [bind_ok] at h
        obtain ⟨i, -, h⟩ := h
        cases h
        rfl
      · cases h
        rfl

/-- The handler of `sys_ipc_try_send` behind a step, and its result. -/
theorem Step.send {args : Args} (h : Step k a k')
    (hc : callOf k a = some (cur, .ipcTrySend, args)) : ∃ tf v k₁,
      sysIpcTrySend (saved k cur tf) cur args.a1 args.a2 args.a3 args.a4 = .ok (v, k₁) ∧
        k'.eax cur = BitVec.ofInt 32 v := by
  obtain ⟨c, tf, io, r, k₁, rfl, hcur, hs, hsys, hend⟩ := step_result hc h
  unfold syscall returning at hsys
  simp only [hs] at hsys
  cases hsend : sysIpcTrySend (saved k cur tf) cur args.a1 args.a2 args.a3 args.a4 with
  | error p =>
    rw [hsend] at hsys
    cases hsys
  | ok r' =>
    rw [hsend] at hsys
    cases hsys
    obtain ⟨hr, -⟩ | ⟨v', hr, hret⟩ := hend
    · cases hr
    · cases hr
      exact ⟨tf, _, _, hsend, hret.eax⟩

theorem Step.send_result {args : Args} (h : Step k a k')
    (hc : callOf k a = some (cur, .ipcTrySend, args)) :
    (k'.eax cur).toInt ∈ [-eBadEnv, -eInval, -eNoMem, 0] ∨ (k'.eax cur).toInt = -eIpcNotRecv ∧
      ∃ e, envid2env k cur args.a1 false = some e ∧ (k.envs e).envIpcRecving = false := by
  obtain ⟨tf, v, k₁, hsend, hv⟩ := h.send hc
  rw [hv]
  rcases sysIpcTrySend_result hsend with hr | ⟨rfl, e, he, hr⟩
  · left
    simp only [List.mem_cons, List.not_mem_nil, or_false] at hr ⊢
    rcases hr with rfl | rfl | rfl | rfl <;> decide
  · rw [envid2env_saved] at he
    rw [saved_env] at hr
    exact .inr ⟨by decide, e, he, hr⟩

/-- A sender that joins a queue is told that its target is busy. -/
theorem Blocks.result (ok : k.view.QueueOk) (hb : Blocks k a e R) (h : Step k a k') :
    ∃ args, callOf k a = some (e, .ipcTrySend, args) ∧
      envid2env k e args.a1 false = some R ∧ (k'.eax e).toInt = -eIpcNotRecv := by
  obtain ⟨args, hc, he, hr, room⟩ := hb
  refine ⟨args, hc, he, ?_⟩
  obtain ⟨tf, v, k₁, hsend, hv⟩ := h.send hc
  have hi : ((saved k e tf).envs R).envIpcWaitingTail.toNat < 10 := by
    rw [saved_env]
    exact (ok R).2
  rw [sysIpcTrySend_enqueue (by rwa [envid2env_saved]) (by rwa [saved_env]) (by rwa [saved_env])
    hi] at hsend
  cases hsend
  rw [hv]
  decide

/-! ## Steps -/

theorem envid2env_eq {id : Word} {b : Bool} (h : envid2env k cur id b = some e) :
    id = 0 ∧ e = cur ∨ id ≠ 0 ∧ e = envx id := by
  unfold envid2env at h
  split_ifs at h with h0
  · cases h
    exact .inl ⟨h0, rfl⟩
  · cases h
    exact .inr ⟨h0, rfl⟩

/-- A request to receive that is accepted names no address or that of a page. -/
theorem Step.recv_aligned {args : Args} (h : Step k a k')
    (hc : callOf k a = some (R, .ipcRecv, args)) (old : (k.envs R).envIpcRecving = false)
    (new : (k'.envs R).envIpcRecving = true) :
    ¬(args.a1 < utop ∧ roundUp args.a1 pgsize ≠ args.a1) := by
  intro hva
  obtain ⟨c, tf, io, r, k₁, rfl, hcur, hs, hsys, hend⟩ := step_result hc h
  unfold syscall at hsys
  simp only [hs, sysIpcRecv, if_pos hva] at hsys
  cases hsys
  obtain ⟨hr, -⟩ | ⟨v, -, hret⟩ := hend
  · cases hr
  · have hrec := hret.view.settled.recving R
    rw [view_setResult, view_saved, View.setEax_setEax, View.setEax_recving] at hrec
    exact absurd (new.symm.trans (hrec.trans old)) (by decide)

section
variable {N : ℕ} {s : ℕ → Kernel n} {act : ℕ → Action} {i j l : ℕ} {args : Args} {r : ℕ}

theorem sendState_call {sys : Sys} (hc : callOf (s j) (act j) = some (e, sys, args))
    (he : (s (j + 1)).status e ≠ .free) : sendState s act e (j + 1) =
      (sendState s act e j).next sys args ((s (j + 1)).eax e).toInt := by
  simp [sendState, hc, he]

theorem sendState_quiet (hc : ∀ sys args, callOf (s j) (act j) ≠ some (e, sys, args))
    (he : (s (j + 1)).status e ≠ .free) : sendState s act e (j + 1) = sendState s act e j := by
  simp only [sendState, if_neg he]
  cases hcall : callOf (s j) (act j) with
  | none => rfl
  | some p =>
    obtain ⟨cur, sys, args⟩ := p
    have hne : cur ≠ e := fun h => hc sys args (h ▸ hcall)
    simp [hne]

/-- `e` is in its loop, between two attempts. -/
def Retries (s : ℕ → Kernel n) (a : ℕ → Action) (e : EnvIx) (args : Args) (r l : ℕ) : Prop :=
  sendState s a e l = .yielding args r ∨ sendState s a e l = .trying args r

/-- In state `l`, `e` is in the table since it called in step `i`. -/
def Since (s : ℕ → Kernel n) (i l : ℕ) (e : EnvIx) : Prop :=
  (∃ c, (s i).curenv c = some e) ∧ ∀ l', i ≤ l' → l' ≤ l → (s l').status e ≠ .free

theorem NotYetRun.not_since (hf : NotYetRun s l e) (hil : i ≤ l) : ¬Since s i l e := by
  rintro ⟨⟨c, hc⟩, hlive⟩
  obtain ⟨i', hi', hfree, hnot⟩ := hf
  rcases le_total i i' with h | h
  · exact hlive i' h hi'.le hfree
  · exact hnot i h hil c hc

/-- A ready environment in its loop stays ready, unless it calls `sys_ipc_try_send`. -/
theorem MailInv.ready_succ (inv : MailInv s act l) (h : Step (s l) (act l) (s (l + 1)))
    (ok : Independent s act l) (hil : i ≤ l) (since : Since s i l e) (hr : Ready ((s l).status e))
    (stays : ¬Frees (s l) (act l) e)
    (hcalls : ∀ sys args, callOf (s l) (act l) = some (e, sys, args) →
      sys ≠ .ipcTrySend ∧ sys ≠ .ipcRecv) : Ready ((s (l + 1)).status e) := by
  have hnot : (s l).status e ≠ .notRunnable := fun h => by rcases hr with hr | hr <;> simp [h] at hr
  cases h.moves inv.table inv.queues e with
  | same hs _ =>
    rcases hs with hs | ⟨-, hs⟩
    · rwa [hs]
    · exact hs
  | freed hf => exact absurd hf stays
  | marked hm => exact absurd hm (ok.spares e)
  | forked hf _ => exact absurd hf (since.2 l hil le_rfl)
  | set hc hv hid _ => exact absurd since ((ok.starts _ _ e hc hv hid).not_since hil)
  | blocked hc _ _ => exact absurd rfl (hcalls _ _ hc).1
  | delivered old _ =>
    obtain ⟨i', hi'⟩ := inv.recv e old
    exact absurd hi'.now.2 hnot
  | receives hc _ => exact absurd rfl (hcalls _ _ hc).2
  | woken _ _ hq _ hw _ =>
    obtain ⟨i', hb, -⟩ := inv.entry_blocked (hq ▸ List.mem_cons_self) hw
    exact absurd (FifoInv.notRunnable hb) hnot

/-- One step of a sender that has been woken up, while `R` waits for a message. -/
theorem MailInv.retries_succ (inv : MailInv s act l) (h : Step (s l) (act l) (s (l + 1)))
    (ok : Independent s act l) (uses : UsesIpcSend s act l) (hil : i ≤ l) (since : Since s i l e)
    (target : envid2env (s i) e args.a1 false = some R) (hr : Ready ((s l).status e))
    (hst : Retries s act e args r l) (old : ((s l).envs R).envIpcRecving = true)
    (new : ((s (l + 1)).envs R).envIpcRecving = true) :
    sendState s act e (l + 1) = .panicked ∨
      Since s i (l + 1) e ∧ Ready ((s (l + 1)).status e) ∧ Retries s act e args r (l + 1) := by
  have stays : ¬Frees (s l) (act l) e := fun hf => by
    rcases hst with hst | hst <;> simpa [hst] using uses.ends e hf
  have live : (s (l + 1)).status e ≠ .free := h.live inv.table (since.2 l hil le_rfl) stays
  have since' : Since s i (l + 1) e := by
    refine ⟨since.1, fun l' hl hl' => ?_⟩
    rcases Nat.lt_succ_iff_lt_or_eq.mp (Nat.lt_succ_of_le hl') with h' | rfl
    · exact since.2 l' hl (by omega)
    · exact live
  have ready := inv.ready_succ h ok hil since hr stays
  by_cases hcall : ∃ sys args', callOf (s l) (act l) = some (e, sys, args')
  · obtain ⟨sys, args', hc⟩ := hcall
    have hnext := sendState_call hc live
    have hcalls := uses.calls e sys args' hc
    rcases hst with hst | hst
    · rw [hst] at hcalls hnext
      obtain rfl : sys = .yield := hcalls
      refine .inr ⟨since', ready fun sys' args'' hc' => ?_, .inr hnext⟩
      cases hc.symm.trans hc'
      decide
    · rw [hst] at hcalls hnext
      obtain ⟨rfl, rfl⟩ : sys = .ipcTrySend ∧ args' = args := hcalls
      have htarget : ∀ {e'}, envid2env (s l) e args'.a1 false = some e' → e' = R := by
        intro e' he'
        rcases envid2env_eq target with ⟨h0, rfl⟩ | ⟨h0, rfl⟩
        · rcases envid2env_eq he' with ⟨-, rfl⟩ | ⟨h0', -⟩
          · rfl
          · exact absurd h0 h0'
        · rcases envid2env_eq he' with ⟨h0', -⟩ | ⟨-, rfl⟩
          · exact absurd h0' h0
          · rfl
      have panics : ∀ {v : Int}, ((s (l + 1)).eax e).toInt = v → v < 0 → v ≠ -eIpcNotRecv →
          sendState s act e (l + 1) = .panicked := by
        rintro v hv hneg hne
        rw [hnext, hv]
        simp [SendState.next, SendState.result, hneg, hne]
      rcases h.send_result hc with hv | ⟨-, e', he', hrec⟩
      · simp only [List.mem_cons, List.not_mem_nil, or_false] at hv
        rcases hv with hv | hv | hv | hv
        · exact .inl (panics hv (by decide) (by decide))
        · exact .inl (panics hv (by decide) (by decide))
        · exact .inl (panics hv (by decide) (by decide))
        · -- the send has ended the wait of its target
          obtain ⟨e', hh⟩ := h.sent inv.table hc (BitVec.eq_of_toInt_eq hv)
          obtain rfl := htarget hh.target
          cases new.symm.trans hh.recving
      · obtain rfl := htarget he'
        cases old.symm.trans hrec
  · simp only [not_exists] at hcall
    refine .inr ⟨since', ready fun sys args' hc => absurd hc (hcall sys args'), ?_⟩
    rwa [Retries, sendState_quiet hcall live]

/-- The first failure of a send, or one more, is followed by `sys_yield` or by a panic. -/
theorem Blocks.loops (inv : MailInv s act i) (h : Step (s i) (act i) (s (i + 1)))
    (uses : UsesIpcSend s act i) (hb : Blocks (s i) (act i) e R)
    (live : (s (i + 1)).status e ≠ .free) : ∃ args r,
      envid2env (s i) e args.a1 false = some R ∧
        (sendState s act e (i + 1) = .panicked ∨ Retries s act e args r (i + 1)) := by
  obtain ⟨args, hc, he, hx⟩ := hb.result inv.queues h
  have hnext := sendState_call hc live
  have hcalls := uses.calls e _ args hc
  have hresult : ∀ r, SendState.result args r (-eIpcNotRecv) = .panicked ∨
      SendState.result args r (-eIpcNotRecv) = .yielding args (r + 1) := by
    intro r
    unfold SendState.result
    rw [if_pos (by decide), if_neg (by decide)]
    dsimp only
    split_ifs
    · exact .inl rfl
    · exact .inr rfl
  rw [hx] at hnext
  cases hst : sendState s act e i with
  | idle =>
    rw [hst] at hnext
    exact ⟨args, 1, he, (hresult 0).imp hnext.trans fun h => .inl (hnext.trans h)⟩
  | trying args' r =>
    rw [hst] at hnext hcalls
    obtain ⟨-, rfl⟩ : _ ∧ args = args' := hcalls
    exact ⟨args, r + 1, he, (hresult r).imp hnext.trans fun h => .inl (hnext.trans h)⟩
  | yielding args' r =>
    rw [hst] at hcalls
    cases hcalls
  | panicked =>
    rw [hst] at hnext
    exact ⟨args, 0, he, .inl hnext⟩

/-- While an environment waits for a message, its queue stays as it is. -/
theorem ReceivingSince.queue (inv : ∀ l ≤ N, MailInv s act l) (run : IsRun Step N s act)
    (hrec : ReceivingSince s act i j R) (hj : j ≤ N) (hil : i < l) (hlj : l ≤ j) :
    (s l).waitingQueue R = (s (i + 1)).waitingQueue R := by
  induction l, hil using Nat.le_induction with
  | base => rfl
  | succ l hil ih =>
    have hinv := inv l (by omega)
    have hstep := run l (by omega)
    have hwait := hrec.2.2 l hil (by omega)
    refine Eq.trans ?_ (ih (by omega))
    cases hstep.queue hinv.table hinv.queues R with
    | same h => exact h
    | push _ _ hr _ _ _ => cases hwait.1.symm.trans hr
    | pop hc _ _ => cases hwait.2.symm.trans (hinv.cpu.caller hstep hc)

/-- A receiver that has entries in its queue while it waits has taken one off when it began. -/
theorem ReceivingSince.woke (inv : ∀ l ≤ N, MailInv s act l) (run : IsRun Step N s act)
    (hrec : ReceivingSince s act i j R) (hj : j ≤ N) (hne : (s j).waitingQueue R ≠ []) :
    ∃ e i₀, (s i).waitingQueue R = ((s i).envs e).envId :: (s j).waitingQueue R ∧
      BlockedSince s act i₀ i e R ∧ Ready ((s (i + 1)).status e) := by
  have hij := hrec.1
  have hinv := inv i (by omega)
  have hstep := run i (by omega)
  obtain ⟨args, hc⟩ := hrec.2.1
  have hrun := hinv.cpu.caller hstep hc
  have hold : ((s i).envs R).envIpcRecving = false := by
    by_contra hr
    rw [Bool.not_eq_false] at hr
    obtain ⟨i', hi'⟩ := hinv.recv R hr
    cases hi'.now.2.symm.trans hrun
  have htail := hstep.recv_queue hinv.queues hc
    (hstep.recv_aligned hc hold (hrec.2.2 (i + 1) (by omega) hij).1)
  have hq := hrec.queue inv run hj hij le_rfl
  cases hstep.queue hinv.table hinv.queues R with
  | same h =>
    rw [h] at htail hq
    rw [hq] at hne
    have hlen := congrArg List.length htail
    rw [List.length_tail] at hlen
    exact absurd (List.length_eq_zero_iff.mp (by omega)) hne
  | push hc' _ _ _ _ _ => cases hc.symm.trans hc'
  | @pop args' w hc' h hw =>
    obtain ⟨e, i₀, hid, hb⟩ := hinv.waits R w (h ▸ List.mem_cons_self)
    refine ⟨e, i₀, ?_, hb, hw e ?_⟩
    · rw [hid, hq, h]
    · rw [← hid]
      exact hinv.table.envid2env_id (by simp [FifoInv.notRunnable hb])

/-- The system is stranded only if the sender that the last `sys_ipc_recv` has woken up panicked
in `ipc_send`. -/
theorem panicked_of_stranded (boot : Boot S (s 0)) (run : IsRun Step N s act)
    (ok : ∀ j < N, Independent s act j ∧ UsesIpcSend s act j) (hj : j ≤ N)
    (h : Stranded (s j) R) : ∃ i e l, ReceivingSince s act i j R ∧
      (s i).waitingQueue R = ((s i).envs e).envId :: (s j).waitingQueue R ∧
      i < l ∧ l ≤ j ∧ sendState s act e l = .panicked := by
  have inv := mailInv_of_run boot run fun j hj => (ok j hj).1
  obtain ⟨i, hrec⟩ := (inv j hj).recv R h.recving
  obtain ⟨e₁, -, hmem⟩ := h.sender
  obtain ⟨e, i₀, hq, hb, hready⟩ := hrec.woke inv run hj (List.ne_nil_of_mem hmem)
  have hij := hrec.1
  have hi₀ := hb.1
  have hsteps : ∀ l, i₀ < l → l ≤ i → (s l).status e = .notRunnable := hb.2.2
  have hlive : ∀ l, i₀ < l → l ≤ i + 1 → (s l).status e ≠ .free := by
    intro l hl hli
    rcases Nat.lt_succ_iff_lt_or_eq.mp (Nat.lt_succ_of_le hli) with h | rfl
    · simp [hsteps l hl (by omega)]
    · rcases hready with h | h <;> simp [h]
  obtain ⟨args, r, target, hst⟩ := hb.2.1.loops (inv i₀ (by omega)) (run i₀ (by omega))
    (ok i₀ (by omega)).2 (hlive (i₀ + 1) (by omega) (by omega))
  -- it makes no system call until it is woken up
  have hsame : ∀ l, i₀ + 1 ≤ l → l ≤ i + 1 →
      sendState s act e l = sendState s act e (i₀ + 1) := by
    intro l hl
    induction l, hl using Nat.le_induction with
    | base => exact fun _ => rfl
    | succ l hl ih =>
      intro hli
      refine (sendState_quiet (fun sys args hc => ?_) (hlive (l + 1) (by omega) hli)).trans
        (ih (by omega))
      exact (inv l (by omega)).not_parked (run l (by omega)) hc
        ⟨hl, hb.parked.2.1, fun l' h h' => hsteps l' h (by omega)⟩
  rw [Retries, ← hsame (i + 1) (by omega) le_rfl] at hst
  rcases hst with hst | hst
  · exact ⟨i, e, i + 1, hrec, hq, by omega, hij, hst⟩
  obtain ⟨c, hcur⟩ := hb.parked.2.1
  have since : Since s i₀ (i + 1) e := by
    refine ⟨⟨c, hcur⟩, fun l hl hli => ?_⟩
    rcases Nat.lt_or_eq_of_le hl with h | rfl
    · exact hlive l h hli
    · exact (inv i₀ (by omega)).table.live.cur c e hcur
  -- from then on it is ready, or it has panicked
  have hall : ∀ l, i + 1 ≤ l → l ≤ j →
      (∃ l', i < l' ∧ l' ≤ l ∧ sendState s act e l' = .panicked) ∨
        Since s i₀ l e ∧ Ready ((s l).status e) ∧ Retries s act e args r l := by
    intro l hl
    induction l, hl using Nat.le_induction with
    | base => exact fun _ => .inr ⟨since, hready, hst⟩
    | succ l hl ih =>
      intro hlj
      rcases ih (by omega) with ⟨l', h, h', hp⟩ | ⟨hs, hr, hst⟩
      · exact .inl ⟨l', h, by omega, hp⟩
      · rcases (inv l (by omega)).retries_succ (run l (by omega)) (ok l (by omega)).1
          (ok l (by omega)).2 (by omega) hs target hr hst (hrec.2.2 l (by omega) (by omega)).1
          (hrec.2.2 (l + 1) (by omega) hlj).1 with hp | hnext
        · exact .inl ⟨l + 1, by omega, le_rfl, hp⟩
        · exact .inr hnext
  rcases hall j hij le_rfl with ⟨l, hl, hlj, hp⟩ | ⟨-, hr, -⟩
  · exact ⟨i, e, l, hrec, hq, hl, hlj, hp⟩
  · exact absurd hr (h.idle e)

end

/-! ### A stranded system -/

def timerTrap (c : Cpu) : Action := .trap c { freshTf with tfTrapno := 32 } ⟨0, 0⟩

/-- The first environment starts two children, which both send to it and block. It then receives
and wakes up the first one, whose message has a page that is not mapped. -/
def strandedRun : List Action :=
  [.start 0, sysTrap 0 7 0 0 0 0 0, sysTrap 0 8 0x1001 2 0 0 0, sysTrap 0 7 0 0 0 0 0,
    sysTrap 0 8 0x1002 2 0 0 0, timerTrap 0, sysTrap 0 11 0x1000 0 0 0 0,
    sysTrap 0 11 0x1000 0 0xEEC00000 0 0, sysTrap 0 12 0xEEC00000 0 0 0 0,
    sysTrap 0 10 0 0 0 0 0, sysTrap 0 11 0x1000 0 0 0 0, sysTrap 0 3 0 0 0 0 0]

/-- The environments that make the steps of the run. -/
def strandedCur (i : ℕ) : EnvIx := [0, 0, 0, 0, 0, 0, 1, 2, 0, 1, 1, 1].getD i 0

/-- Where their code is then. -/
def strandedState (i : ℕ) : SendState :=
  if i = 9 then .yielding ⟨0x1000, 0, 0, 0, 0⟩ 1
  else if i = 10 then .trying ⟨0x1000, 0, 0, 0, 0⟩ 1
  else if i = 11 then .panicked
  else .idle

theorem strandedRun_facts :
    (∀ i < 12, Enabled (stateAt small strandedRun i) (actionAt strandedRun i) ∧
      (perform (stateAt small strandedRun i) (actionAt strandedRun i)).isOk = true) ∧
    (∀ i < 12, 0 < i →
      (stateAt small strandedRun i).curenv 0 = some (strandedCur i) ∧
      (stateAt small strandedRun i).status (strandedCur i) ≠ .dying ∧
      sendState (stateAt small strandedRun) (actionAt strandedRun) (strandedCur i) i =
        strandedState i) ∧
    (∀ i < 12, ∀ c, c ≠ 0 → (stateAt small strandedRun i).curenv c = none) ∧
    ((stateAt small strandedRun 1).status 1 = .free ∧
      envid2env (stateAt small strandedRun 2) 0 0x1001 true = some 1) ∧
    ((stateAt small strandedRun 3).status 2 = .free ∧
      envid2env (stateAt small strandedRun 4) 0 0x1002 true = some 2) ∧
    ((stateAt small strandedRun 12).envs 0).envIpcRecving = true ∧
    ((stateAt small strandedRun 12).status 2 = .notRunnable ∧
      ((stateAt small strandedRun 12).envs 2).envId ∈
        (stateAt small strandedRun 12).waitingQueue 0) ∧
    ∀ e, (stateAt small strandedRun 12).status e ≠ .runnable ∧
      (stateAt small strandedRun 12).status e ≠ .running := by
  decide +kernel

section
variable {s : ℕ → Kernel n} {act : ℕ → Action} {j : ℕ} {c : Cpu}

theorem follows_idle (ha : ∀ c tf io, act j ≠ .trap c tf io) :
    Independent s act j ∧ UsesIpcSend s act j := by
  refine ⟨independent_idle ha, fun e sys args hc => ?_, fun e hf => ?_⟩
  · cases hc.symm.trans (callOf_idle ha)
  · exact absurd hf (not_frees_idle ha)

theorem follows_timerTrap (ha : act j = timerTrap c) (hcur : (s j).curenv c = some cur)
    (hd : (s j).status cur ≠ .dying) : Independent s act j ∧ UsesIpcSend s act j := by
  have hno : ({ freshTf with tfTrapno := 32 } : Trapframe).tfTrapno ≠ 48 := by decide
  have hcall : callOf (s j) (act j) = none := by
    rw [ha]
    exact callOf_eq_none hcur (.inr (.inl hno))
  have hfrees : ∀ e, ¬Frees (s j) (act j) e := by
    rw [ha]
    rintro e ⟨cur', hcur', ⟨-, hdies⟩ | ⟨-, hno', -⟩⟩
    · obtain rfl := Option.some.inj (hcur.symm.trans hcur')
      rcases hdies with h | h
      · exact hd h
      · cases h with
        | noUpcall hexc _ => cases hexc
        | badStack hexc _ _ _ => cases hexc
        | unexpected _ h => exact h.2.2 rfl
    · exact hno hno'
  have hnone : ∀ {e sys args}, callOf (s j) (act j) ≠ some (e, sys, args) := fun hc => by
    cases hcall.symm.trans hc
  refine ⟨⟨fun e hf => absurd hf (hfrees e), fun e hm => ?_, fun _ _ _ hc => absurd hc hnone⟩,
    fun _ _ _ hc => absurd hc hnone, fun e hf => absurd hf (hfrees e)⟩
  obtain ⟨cur', args, hc, -⟩ := hm
  exact hnone hc

theorem follows_sysTrap {sys : Sys} {no a1 a2 a3 a4 a5 : Word}
    (ha : act j = sysTrap c no a1 a2 a3 a4 a5) (hcur : (s j).curenv c = some cur)
    (hd : (s j).status cur ≠ .dying) (hs : Sys.ofNat no.toNat = some sys)
    (hsys : sys ≠ .envDestroy ∧ sys ≠ .cputs)
    (fresh : sys = .envSetStatus → ∀ e, envid2env (s j) cur a1 true = some e → NotYetRun s j e)
    (hst : (sendState s act cur j).Calls sys ⟨a1, a2, a3, a4, a5⟩) :
    Independent s act j ∧ UsesIpcSend s act j := by
  refine ⟨independent_sysTrap ha hcur hd hs hsys fresh, fun e sys' args hc => ?_, fun e hf => ?_⟩
  · rw [ha, show callOf (s j) (sysTrap c no a1 a2 a3 a4 a5) = _ from
      callOf_eq_some hcur hd rfl hs] at hc
    cases hc
    exact hst
  · rw [ha] at hf
    exact absurd hf (not_frees_sysTrap hcur hd hs hsys)

/-- `sys_env_destroy` of the environment that calls it. -/
theorem follows_exit {a2 a3 a4 a5 : Word} (ha : act j = sysTrap c 3 0 a2 a3 a4 a5)
    (hcur : (s j).curenv c = some cur) (hd : (s j).status cur ≠ .dying)
    (hst : sendState s act cur j = .panicked) : Independent s act j ∧ UsesIpcSend s act j := by
  have hcall : callOf (s j) (act j) = some (cur, .envDestroy, ⟨0, a2, a3, a4, a5⟩) :=
    ha ▸ callOf_eq_some hcur hd rfl rfl
  have hfrees : ∀ e, Frees (s j) (act j) e → e = cur := by
    rw [ha]
    rintro e ⟨cur', hcur', h⟩
    obtain rfl := Option.some.inj (hcur.symm.trans hcur')
    rcases h with ⟨rfl, -⟩ | ⟨-, -, sys, hs, hf⟩
    · rfl
    · cases hs
      exact (Option.some.inj hf.1).symm
  refine ⟨⟨fun e hf => ?_, fun e hm => ?_, fun _ _ _ hc => ?_⟩, fun e sys args hc => ?_,
    fun e hf => ?_⟩
  · exact hfrees e hf ▸ ⟨c, _, _, ha, hcur⟩
  · obtain ⟨cur', args, hc, he, -, hne⟩ := hm
    cases hcall.symm.trans hc
    exact hne (Option.some.inj he).symm
  · cases hcall.symm.trans hc
  · cases hcall.symm.trans hc
    rw [hst]
    trivial
  · exact .inr (hfrees e hf ▸ hst)

end

/-- The first sender panics. -/
theorem panicked_of_stranded_strandedRun : ∃ i e l,
    ReceivingSince (stateAt small strandedRun) (actionAt strandedRun) i 12 0 ∧
      (stateAt small strandedRun i).waitingQueue 0 =
        ((stateAt small strandedRun i).envs e).envId ::
          (stateAt small strandedRun 12).waitingQueue 0 ∧
      i < l ∧ l ≤ 12 ∧
      sendState (stateAt small strandedRun) (actionAt strandedRun) e l = .panicked := by
  obtain ⟨hsteps, hcur, hother, hfirst, hsecond, hrec, hsender, hidle⟩ := strandedRun_facts
  -- until it is started, a child is current on no CPU
  have fresh : ∀ i e, i < 11 → (stateAt small strandedRun i).status e = .free →
      (∀ l, i ≤ l → l ≤ i + 1 → strandedCur l ≠ e) → 0 < i →
      NotYetRun (stateAt small strandedRun) (i + 1) e := by
    intro i e hi hfree hne h0
    refine ⟨i, Nat.lt_succ_self i, hfree, fun l hl hli c hc => ?_⟩
    by_cases h : c = 0
    · subst h
      exact hne l hl hli (Option.some.inj ((hcur l (by omega) (by omega)).1.symm.trans hc))
    · cases (hother l (by omega) c h).symm.trans hc
  refine panicked_of_stranded boot_small (isRun_stateAt hsteps) (fun j hj => ?_) le_rfl
    ⟨hrec, ⟨2, hsender⟩, fun e he => he.elim (hidle e).1 (hidle e).2⟩
  have call : ∀ {sys : Sys} {no a1 a2 a3 a4 a5 : Word}, 0 < j →
      actionAt strandedRun j = sysTrap 0 no a1 a2 a3 a4 a5 → Sys.ofNat no.toNat = some sys →
      sys ≠ .envDestroy ∧ sys ≠ .cputs →
      (sys = .envSetStatus → ∀ e, envid2env (stateAt small strandedRun j) (strandedCur j) a1
        true = some e → NotYetRun (stateAt small strandedRun) j e) →
      (strandedState j).Calls sys ⟨a1, a2, a3, a4, a5⟩ →
      Independent (stateAt small strandedRun) (actionAt strandedRun) j ∧
        UsesIpcSend (stateAt small strandedRun) (actionAt strandedRun) j := by
    intro sys no a1 a2 a3 a4 a5 h0 ha hs hsys hfresh hst
    obtain ⟨hc, hd, hstate⟩ := hcur j hj h0
    exact follows_sysTrap ha hc hd hs hsys hfresh (hstate ▸ hst)
  obtain rfl | rfl | rfl | rfl | rfl | rfl | rfl | rfl | rfl | rfl | rfl | rfl :
      j = 0 ∨ j = 1 ∨ j = 2 ∨ j = 3 ∨ j = 4 ∨ j = 5 ∨ j = 6 ∨ j = 7 ∨ j = 8 ∨ j = 9 ∨ j = 10 ∨
        j = 11 := by omega
  · exact follows_idle fun c tf io h => by cases h
  · exact call (by decide) rfl rfl (by decide) (fun h => by cases h) trivial
  · refine call (by decide) rfl rfl (by decide) (fun _ e he => ?_) trivial
    obtain rfl := Option.some.inj (hfirst.2.symm.trans he)
    exact fresh 1 1 (by decide) hfirst.1 (by decide) (by decide)
  · exact call (by decide) rfl rfl (by decide) (fun h => by cases h) trivial
  · refine call (by decide) rfl rfl (by decide) (fun _ e he => ?_) trivial
    obtain rfl := Option.some.inj (hsecond.2.symm.trans he)
    exact fresh 3 2 (by decide) hsecond.1 (by decide) (by decide)
  · obtain ⟨hc, hd, -⟩ := hcur 5 hj (by decide)
    exact follows_timerTrap rfl hc hd
  · exact call (by decide) rfl rfl (by decide) (fun h => by cases h) trivial
  · exact call (by decide) rfl rfl (by decide) (fun h => by cases h) trivial
  · exact call (by decide) rfl rfl (by decide) (fun h => by cases h) trivial
  · exact call (by decide) rfl rfl (by decide) (fun h => by cases h) rfl
  · exact call (by decide) rfl rfl (by decide) (fun h => by cases h) ⟨rfl, rfl⟩
  · -- the sender exits
    obtain ⟨hc, hd, hstate⟩ := hcur 11 hj (by decide)
    exact follows_exit rfl hc hd hstate

end JosKernel
