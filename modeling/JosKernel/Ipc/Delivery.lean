import JosKernel.Ipc.Fifo

/-!
# Delivery

Every message reaches exactly one receiver, and every receiver gets exactly one message for each
`sys_ipc_recv`. This holds as long as environments leave the system only on their own account and
`sys_env_set_status` is used only to start children that `sys_exofork` has just made. No
environment is then taken out of its wait by anything but the event that it waits for: a blocked
sender by a `sys_ipc_recv` that takes its id off a queue, a receiver by a message.
-/
namespace JosKernel

open Lib

variable {n : Nat} {S : Set (Fin n)} {k k' : Kernel n} {a : Action} {cur e R : EnvIx}

namespace View

variable {v v' v₁ : View} {c : Cpu} {call : Option (Sys × Args)}

/-! ## What a step does to the message fields -/

/-- A `sys_ipc_try_send` hands its message to `e`. -/
structure Handed (v : View) (cur : EnvIx) (args : Args) (e : EnvIx) (v₁ : View) : Prop where
  target : v.envid2env cur args.a1 false = some e
  old : (v.env e).recving = true
  recving : (v₁.env e).recving = false
  value : (v₁.env e).value = args.a2
  sender : (v₁.env e).sender = (v.env cur).id
  result : (v₁.env cur).eax = 0

/-- The message fields of `e` are the old ones. -/
structure Kept (v : View) (e : EnvIx) (v₁ : View) : Prop where
  value : (v₁.env e).value = (v.env e).value
  sender : (v₁.env e).sender = (v.env e).sender
  perm : (v₁.env e).perm = (v.env e).perm

theorem Kept.of_core (h : (v₁.env e).core = (v.env e).core) : Kept v e v₁ where
  value := show (v₁.env e).core.value = (v.env e).core.value by rw [h]
  sender := show (v₁.env e).core.sender = (v.env e).core.sender by rw [h]
  perm := show (v₁.env e).core.perm = (v.env e).core.perm by rw [h]

/-- A trap of `cur` leaves the message of `e` alone, or it is a send to `e`. -/
theorem Acted.mail (h : Acted v c cur call v₁) (e : EnvIx) :
    Kept v e v₁ ∧ (e = cur ∨ (v.env e).status = .free ∨
        (v₁.env e).eax = (v.env e).eax ∧ (v₁.env e).recving = (v.env e).recving) ∨
      ∃ args, call = some (.ipcTrySend, args) ∧ Handed v cur args e v₁ := by
  cases h with
  | @deliver args i p hi hr =>
    by_cases he : e = i
    · subst he
      refine .inr ⟨args, rfl, hi, hr, ?_, ?_, ?_, ?_⟩ <;>
      · simp only [setEax, View.delivered, modEnv_env]
        grind
    · refine .inl ⟨⟨?_, ?_, ?_⟩, ?_⟩ <;>
      · simp only [setEax, View.delivered, modEnv_env]
        grind
  | _ =>
    refine .inl ⟨⟨?_, ?_, ?_⟩, ?_⟩ <;>
    · simp only [setEax, View.setStatus, View.forked, View.enqueued, View.receiving,
        View.dequeued, View.leave, modEnv_env]
      grind

/-- A send that returns zero has handed over its message. -/
theorem Acted.sent {args : Args} (h : Acted v c cur (some (.ipcTrySend, args)) v₁)
    (h0 : (v₁.env cur).eax = 0) : ∃ e, Handed v cur args e v₁ := by
  generalize hcall : some (Sys.ipcTrySend, args) = call at h
  cases h with
  | quiet hw =>
    subst hcall
    exact absurd (by simpa [setEax] using h0) (hw _ _ rfl rfl)
  | die why =>
    subst hcall
    rcases why _ _ rfl with h | ⟨h, -⟩ <;> cases h
  | enqueue _ _ _ _ =>
    rw [setEax, modEnv_self] at h0
    exact absurd h0 (show BitVec.ofInt 32 (-eIpcNotRecv) ≠ 0 by decide)
  | @deliver args' e p he hr =>
    cases hcall
    refine ⟨e, he, hr, ?_, ?_, ?_, ?_⟩ <;>
    · simp only [setEax, View.delivered, modEnv_env]
      grind
  | _ => cases hcall

/-- A request to receive that is refused has a nonzero result. -/
theorem Acted.refused {args : Args} (h : Acted v c cur (some (.ipcRecv, args)) v₁) :
    (v₁.env cur).recving = true ∨
      (v₁.env cur).eax ≠ 0 ∧ (v₁.env cur).recving = (v.env cur).recving := by
  generalize hcall : some (Sys.ipcRecv, args) = call at h
  cases h with
  | quiet hw =>
    subst hcall
    refine .inr ⟨fun h0 => hw _ _ rfl rfl (by simpa [setEax] using h0), setEax_recving ..⟩
  | die why =>
    subst hcall
    rcases why _ _ rfl with h | ⟨h, -⟩ <;> cases h
  | recv _ => exact .inl (by simp [setEax, View.receiving])
  | wake _ _ _ =>
    left
    simp only [setEax, View.receiving, View.dequeued, View.setStatus, modEnv_env]
    grind
  | stale _ _ _ => exact .inl (by simp [setEax, View.receiving, View.dequeued])
  | _ => cases hcall

end View

/-- A `sys_ipc_try_send` of `cur` that hands its message to `e`. -/
structure Hands (k : Kernel n) (a : Action) (cur : EnvIx) (args : Args) (e : EnvIx)
    (k' : Kernel n) : Prop where
  call : callOf k a = some (cur, .ipcTrySend, args)
  target : envid2env k cur args.a1 false = some e
  old : (k.envs e).envIpcRecving = true
  recving : (k'.envs e).envIpcRecving = false
  value : (k'.envs e).envIpcValue = args.a2
  sender : (k'.envs e).envIpcFrom = (k.envs cur).envId
  result : k'.eax cur = 0

/-- The message fields of an environment. -/
def Env.message (env : Env n) : Word × Word × Word :=
  (env.envIpcValue, env.envIpcFrom, env.envIpcPerm)

theorem View.Settled.kept {v v' : View} {c : Cpu} (h : View.Settled v c v') (e : EnvIx) :
    View.Kept v e v' := .of_core (h.core e)

theorem View.Settled.eax {v v' : View} {c : Cpu} (h : View.Settled v c v') (e : EnvIx) :
    (v'.env e).eax = (v.env e).eax := by
  show (v'.env e).core.eax = (v.env e).core.eax
  rw [h.core]

theorem View.Kept.message (h : View.Kept k.view e k'.view) :
    (k'.envs e).message = (k.envs e).message :=
  Prod.ext h.value (Prod.ext h.sender h.perm)

theorem View.Handed.hands {v₁ : View} {c c' : Cpu} {tf : Trapframe} {io : Inputs} {args : Args}
    (h : View.Handed k.view cur args e v₁) (hcur : k.curenv c = some cur)
    (hd : k.status cur ≠ .dying) (hcall : tf.call = some (.ipcTrySend, args))
    (s : View.Settled v₁ c' k'.view) : Hands k (.trap c tf io) cur args e k' where
  call := callOf_of_call hcur hd hcall
  target := h.target
  old := h.old
  recving := (s.recving e).trans h.recving
  value := (s.kept e).value.trans h.value
  sender := (s.kept e).sender.trans h.sender
  result := (s.eax cur).trans h.result

/-- A step leaves the message of `e` alone, or it is a send to `e`. Without one, only its own
entries change the result that `e` finds and whether it waits for a message. -/
theorem Step.mail (inv : TableInv k) (h : Step k a k') (e : EnvIx) :
    (k'.envs e).message = (k.envs e).message ∧
        (Enters k a e ∨ k.status e = .free ∨
          k'.eax e = k.eax e ∧ (k'.envs e).envIpcRecving = (k.envs e).envIpcRecving) ∨
      ∃ cur args, Hands k a cur args e k' := by
  cases (h.view inv.slots).kinds with
  | idle _ s => exact .inl ⟨(s.kept e).message, .inr (.inr ⟨s.eax e, s.recving e⟩)⟩
  | @reap c tf io cur ha hcur hd s =>
    left
    by_cases he : e = cur
    · subst he
      refine ⟨View.Kept.message ⟨?_, ?_, ?_⟩, .inl ⟨c, tf, io, ha, hcur⟩⟩
      · exact (s.kept e).value.trans (by simp [View.setStatus])
      · exact (s.kept e).sender.trans (by simp [View.setStatus])
      · exact (s.kept e).perm.trans (by simp [View.setStatus])
    · have hsame : ((k.view.setStatus cur .free).leave c).env e = k.view.env e := by
        simp [View.setStatus, View.modEnv_of_ne _ _ he]
      refine ⟨View.Kept.message (.of_core ((s.core e).trans (by rw [hsame]))), .inr (.inr ?_)⟩
      exact ⟨(s.eax e).trans (by rw [hsame]; rfl), (s.recving e).trans (by rw [hsame]; rfl)⟩
  | @act c tf io cur v₁ ha hcur hd act s =>
    subst ha
    rcases act.mail e with ⟨hk, hx⟩ | ⟨args, hcall, hh⟩
    · refine .inl ⟨View.Kept.message ⟨?_, ?_, ?_⟩, ?_⟩
      · exact (s.kept e).value.trans hk.value
      · exact (s.kept e).sender.trans hk.sender
      · exact (s.kept e).perm.trans hk.perm
      · rcases hx with rfl | hf | hx
        · exact .inl ⟨c, tf, io, rfl, hcur⟩
        · exact .inr (.inl hf)
        · exact .inr (.inr ⟨(s.eax e).trans hx.1, (s.recving e).trans hx.2⟩)
    · exact .inr ⟨cur, args, hh.hands hcur hd hcall s⟩

/-- What a system call does before scheduling. -/
theorem Step.acted {sys : Sys} {args : Args} (inv : TableInv k) (h : Step k a k')
    (hc : callOf k a = some (cur, sys, args)) : ∃ c tf io v₁, a = .trap c tf io ∧
      k.curenv c = some cur ∧ k.status cur ≠ .dying ∧ tf.call = some (sys, args) ∧
      k.view.Acted c cur (some (sys, args)) v₁ ∧ View.Settled v₁ c k'.view := by
  obtain ⟨c, tf, io, rfl, hcur, hd, hno, hs, rfl, -⟩ := step_call hc h
  have hcall : tf.call = some (sys, argsOf tf) := View.Trapframe.call_eq hno hs
  cases (h.view inv.slots).kinds with
  | idle ha _ => exact absurd rfl (ha c tf io)
  | reap ha hcur' hd' _ =>
    cases ha
    obtain rfl := Option.some.inj (hcur.symm.trans hcur')
    exact absurd hd' hd
  | @act _ _ _ cur' v₁ ha hcur' _ act s =>
    cases ha
    obtain rfl := Option.some.inj (hcur.symm.trans hcur')
    exact ⟨c, tf, io, v₁, rfl, hcur, hd, hcall, hcall ▸ act, s⟩

/-- A send that returns zero has handed over its message. -/
theorem Step.sent {args : Args} (inv : TableInv k) (h : Step k a k')
    (hc : callOf k a = some (cur, .ipcTrySend, args)) (h0 : k'.eax cur = 0) :
    ∃ e, Hands k a cur args e k' := by
  obtain ⟨c, tf, io, v₁, rfl, hcur, hd, hcall, act, s⟩ := h.acted inv hc
  obtain ⟨e, he⟩ := act.sent ((s.eax cur).symm.trans h0)
  exact ⟨e, he.hands hcur hd hcall s⟩

/-- A request to receive is accepted, or its result is not zero. -/
theorem Step.refused {args : Args} (inv : TableInv k) (h : Step k a k')
    (hc : callOf k a = some (cur, .ipcRecv, args)) : (k'.envs cur).envIpcRecving = true ∨
      k'.eax cur ≠ 0 ∧ (k'.envs cur).envIpcRecving = (k.envs cur).envIpcRecving := by
  obtain ⟨c, tf, io, v₁, rfl, hcur, hd, -, act, s⟩ := h.acted inv hc
  rcases act.refused with hr | ⟨hx, hr⟩
  · exact .inl ((s.recving cur).trans hr)
  · exact .inr ⟨fun h0 => hx ((s.eax cur).symm.trans h0), (s.recving cur).trans hr⟩

/-- Only `sys_ipc_recv` starts a wait for a message. -/
theorem Step.receives (inv : TableInv k) (ok : k.view.QueueOk) (h : Step k a k')
    (old : (k.envs e).envIpcRecving = false) (hr : (k'.envs e).envIpcRecving = true) :
    ∃ args, callOf k a = some (e, .ipcRecv, args) ∧ (k'.status e = .notRunnable ∨
      ∃ w q, k.waitingQueue e = w :: q ∧ envid2env k e w false = some e) := by
  have hnot : (k'.envs e).envIpcRecving ≠ (k.envs e).envIpcRecving := by simp [old, hr]
  cases (h.view inv.slots).kinds with
  | idle _ s => exact absurd (s.recving e) hnot
  | @reap c tf io cur ha hcur hd s =>
    refine absurd ((s.recving e).trans ?_) hnot
    by_cases he : e = cur
    · subst he
      simp [View.setStatus, Env.view]
    · simp [View.setStatus, View.modEnv_of_ne _ _ he, Env.view]
  | @act c tf io cur v₁ ha hcur hd act s =>
    subst ha
    have hr' : (v₁.env e).recving = true := (s.recving e).symm.trans hr
    have hold : ∀ {b}, (v₁.env e).recving = b → b = (k.envs e).envIpcRecving → False :=
      fun h h' => hnot ((s.recving e).trans (h.trans h'))
    cases act.touched ok hcur (inv.live.cur c cur hcur) e with
    | receives he hcall _ hs =>
      subst he
      exact ⟨_, callOf_of_call hcur hd hcall, hs.imp_left s.notRunnable⟩
    | same _ h => exact (hold h rfl).elim
    | freed _ h _ => exact (hold h rfl).elim
    | marked _ _ _ _ _ h => exact (hold h rfl).elim
    | forked _ _ h => simp [hr'] at h
    | set _ _ _ _ h => exact (hold h rfl).elim
    | blocked _ _ _ h => exact (hold h rfl).elim
    | delivered _ _ _ _ h => simp [hr'] at h
    | woken _ _ _ _ _ _ h => exact (hold h rfl).elim

/-- Only `env_destroy` makes an environment dying. -/
theorem Step.marks (inv : TableInv k) (ok : k.view.QueueOk) (h : Step k a k')
    (self : ∀ w q, k.waitingQueue e = w :: q → envid2env k e w false = some e → ¬Enters k a e)
    (old : k.status e ≠ .dying) (he : k'.status e = .dying) : Marks k a e := by
  have settled : ∀ {v : View} {c : Cpu}, View.Settled v c k'.view → (v.env e).status = .dying := by
    intro v c s
    rcases s.status e with h | ⟨-, h⟩ | ⟨-, h⟩
    · exact h.symm.trans he
    · cases h.symm.trans he
    · cases h.symm.trans he
  cases (h.view inv.slots).kinds with
  | idle _ s => exact absurd (settled s) old
  | @reap c tf io cur ha hcur hd s =>
    have hs := settled s
    by_cases hi : e = cur
    · subst hi
      simp [View.setStatus] at hs
    · simp only [View.leave_env, View.setStatus, View.modEnv_of_ne _ _ hi] at hs
      exact absurd hs old
  | @act c tf io cur v₁ ha hcur hd act s =>
    subst ha
    have hs := settled s
    cases act.touched ok hcur (inv.live.cur c cur hcur) e with
    | marked hcall hne hid hrun _ _ =>
      exact ⟨cur, _, callOf_of_call hcur hd hcall, hid, hrun, hne⟩
    | same h _ => exact absurd (h.symm.trans hs) old
    | freed h _ _ => cases h.symm.trans hs
    | forked _ h _ => cases h.symm.trans hs
    | set _ _ _ h _ => split_ifs at h <;> cases h.symm.trans hs
    | blocked _ _ h _ => cases h.symm.trans hs
    | delivered _ _ _ h _ => cases h.symm.trans hs
    | receives he _ _ h =>
      subst he
      rcases h with h | ⟨w, q, hq, hw⟩
      · cases h.symm.trans hs
      · exact absurd ⟨c, tf, io, rfl, hcur⟩ (self w q hq hw)
    | woken _ _ _ _ _ h _ => cases h.symm.trans hs

/-! ## Environments that come and go on their own account -/

/-- `e` is new in its slot and has not run on any CPU. -/
def NotYetRun (s : ℕ → Kernel n) (j : ℕ) (e : EnvIx) : Prop :=
  ∃ i < j, (s i).status e = .free ∧ ∀ l, i ≤ l → l ≤ j → ∀ c, (s l).curenv c ≠ some e

/-- Step `j` destroys no environment but the one that makes it, and `sys_env_set_status` is called
for new environments only. -/
structure Independent (s : ℕ → Kernel n) (a : ℕ → Action) (j : ℕ) : Prop where
  exits : ∀ e, Frees (s j) (a j) e → Enters (s j) (a j) e
  spares : ∀ e, ¬Marks (s j) (a j) e
  starts : ∀ cur args e, callOf (s j) (a j) = some (cur, .envSetStatus, args) →
    args.a2 = 2 ∨ args.a2 = 4 → envid2env (s j) cur args.a1 true = some e → NotYetRun s j e

/-- In state `j` of the run, `e` waits for a message because of its `sys_ipc_recv` in step `i`. -/
def ReceivingSince (s : ℕ → Kernel n) (a : ℕ → Action) (i j : ℕ) (e : EnvIx) : Prop :=
  i < j ∧ (∃ args, callOf (s i) (a i) = some (e, .ipcRecv, args)) ∧
    ∀ l, i < l → l ≤ j → ((s l).envs e).envIpcRecving = true ∧ (s l).status e = .notRunnable

/-- `e` stopped running in step `i`. -/
def Parked (s : ℕ → Kernel n) (i j : ℕ) (e : EnvIx) : Prop :=
  i < j ∧ (∃ c, (s i).curenv c = some e) ∧ ∀ l, i < l → l ≤ j → (s l).status e = .notRunnable

theorem callOf_curenv {sys : Sys} {args : Args} (hc : callOf k a = some (e, sys, args)) :
    ∃ c, k.curenv c = some e := by
  cases a with
  | trap c tf io =>
    obtain ⟨cur, hcur, hc⟩ := Option.bind_eq_some_iff.mp hc
    split_ifs at hc
    obtain ⟨_, -, hc⟩ := Option.map_eq_some_iff.mp hc
    cases hc
    exact ⟨c, hcur⟩
  | _ => cases hc

section
variable {s : ℕ → Kernel n} {act : ℕ → Action} {i j : ℕ}

theorem NotYetRun.not_parked (hf : NotYetRun s j e) : ¬Parked s i j e := by
  rintro ⟨hij, ⟨c, hc⟩, hs⟩
  obtain ⟨i', hi', hfree, hnot⟩ := hf
  rcases lt_or_ge i i' with h | h
  · cases hfree.symm.trans (hs i' h hi'.le)
  · exact hnot i h hij.le c hc

theorem BlockedSince.parked (hb : BlockedSince s act i j e R) : Parked s i j e := by
  obtain ⟨hij, ⟨args, hc, -⟩, hs⟩ := hb
  exact ⟨hij, callOf_curenv hc, hs⟩

theorem ReceivingSince.parked (hr : ReceivingSince s act i j e) : Parked s i j e := by
  obtain ⟨hij, ⟨args, hc⟩, hs⟩ := hr
  exact ⟨hij, callOf_curenv hc, fun l h h' => (hs l h h').2⟩

theorem ReceivingSince.now (hr : ReceivingSince s act i j e) :
    ((s j).envs e).envIpcRecving = true ∧ (s j).status e = .notRunnable := hr.2.2 j hr.1 le_rfl

theorem ReceivingSince.succ (hr : ReceivingSince s act i j e)
    (h : ((s (j + 1)).envs e).envIpcRecving = true ∧ (s (j + 1)).status e = .notRunnable) :
    ReceivingSince s act i (j + 1) e := by
  refine ⟨hr.1.trans (Nat.lt_succ_self j), hr.2.1, fun l hl hlj => ?_⟩
  rcases Nat.lt_succ_iff_lt_or_eq.mp (Nat.lt_succ_of_le hlj) with h' | rfl
  · exact hr.2.2 l hl (by omega)
  · exact h

end

theorem created_alive (h : Created S k) (e : EnvIx) : k.status e ≠ .dying := by
  induction h with
  | init _ zero =>
    obtain rfl := zero.eq
    show EnvStatus.free ≠ .dying
    decide
  | @create k k₁ i g m eip _ alloc _ _ ih =>
    obtain ⟨g', m', -, -, rfl⟩ := envAlloc_ok alloc
    by_cases hi : e = i
    · subst hi
      simp [entered, allocated, Kernel.status]
    · simpa [entered, allocated, Kernel.status, Kernel.modEnv_of_ne _ _ hi, hi] using ih

/-! ## The invariant -/

/-- The state `j` of a run in which environments act on their own account. -/
structure MailInv (s : ℕ → Kernel n) (a : ℕ → Action) (j : ℕ) : Prop where
  table : TableInv (s j)
  queues : (s j).view.QueueOk
  cpu : CpuInv (s j)
  alive : ∀ e, (s j).status e ≠ .dying
  recv : ∀ e, ((s j).envs e).envIpcRecving = true → ∃ i, ReceivingSince s a i j e
  deaf : ∀ e i R, BlockedSince s a i j e R → ((s j).envs e).envIpcRecving = false
  once : ∀ e i R i' R', BlockedSince s a i j e R → BlockedSince s a i' j e R' → i = i' ∧ R = R'
  waits : ∀ R, ∀ w ∈ (s j).waitingQueue R, ∃ e i, ((s j).envs e).envId = w ∧
    BlockedSince s a i j e R
  nodup : ∀ R, ((s j).waitingQueue R).Nodup

namespace MailInv

variable {s : ℕ → Kernel n} {act : ℕ → Action} {i j : ℕ} {w : Word} {q : List Word}

/-- The environment that an id in a queue leads to is blocked. -/
theorem entry_blocked (inv : MailInv s act j) (hq : w ∈ (s j).waitingQueue R)
    (hw : envid2env (s j) cur w false = some e) :
    ∃ i, BlockedSince s act i j e R ∧ w = ((s j).envs e).envId := by
  obtain ⟨e₀, i, rfl, hb⟩ := inv.waits R w hq
  have he₀ : envid2env (s j) cur ((s j).envs e₀).envId false = some e₀ :=
    inv.table.envid2env_id (by simp [FifoInv.notRunnable hb])
  obtain rfl := Option.some.inj (he₀.symm.trans hw)
  exact ⟨i, hb, rfl⟩

/-- An environment that makes a step is running. -/
theorem enters_running (inv : MailInv s act j) (h : Step (s j) (act j) (s (j + 1)))
    (he : Enters (s j) (act j) e) : (s j).status e = .running := by
  obtain ⟨c, tf, io, ha, hcur⟩ := he
  rw [ha] at h
  obtain ⟨e', he', hb⟩ := inv.cpu.user c h.1.1
  obtain rfl := Option.some.inj (hcur.symm.trans he')
  exact hb.resolve_right (inv.alive _)

theorem not_enters (inv : MailInv s act j) (h : Step (s j) (act j) (s (j + 1)))
    (he : (s j).status e = .notRunnable) : ¬Enters (s j) (act j) e := fun hen => by
  cases he.symm.trans (inv.enters_running h hen)

theorem disciplined (inv : MailInv s act j) (h : Step (s j) (act j) (s (j + 1)))
    (ok : Independent s act j) : Disciplined (s j) (act j) := by
  unfold Disciplined OnCall
  cases ha : act j with
  | trap c tf io =>
    intro cur sys hcur hd hno hs
    rw [ha] at h
    have hc : callOf (s j) (act j) = _ := ha ▸ callOf_eq_some hcur hd hno hs
    have hl : LockFree (s j) := h.1.2.2
    cases sys with
    | envSetStatus =>
      intro hv e he
      obtain ⟨i, hi, -, hnot⟩ := ok.starts cur _ e hc hv he
      refine ⟨fun c' _ => hnot j hi.le le_rfl c', ?_⟩
      rintro rfl
      exact absurd hcur (hnot j hi.le le_rfl c)
    | envDestroy =>
      intro e he
      by_cases hr : (s j).status e = .running
      · exact .inr hr
      · have hf : Frees (s j) (act j) e :=
          ha ▸ ⟨cur, hcur, .inr ⟨hd, hno, _, hs, he, .inr hr⟩⟩
        obtain ⟨c', tf', io', ha', hcur'⟩ := ok.exits e hf
        cases ha.symm.trans ha'
        exact .inl fun c' hne hc' => hne (inv.cpu.unique c c' e hcur' hc')
    | ipcTrySend =>
      intro e _ hr
      obtain ⟨i, hi⟩ := inv.recv e hr
      exact inv.cpu.away hl hi.now.2
    | ipcRecv =>
      intro hne i e hi he
      have hq := View.dequeued_queue (v := (s j).view) (inv.queues cur) hne hi
      have hmem : ((s j).view.env cur).waiting i ∈ (s j).waitingQueue cur := by
        rw [Kernel.waitingQueue, hq]
        exact List.mem_cons_self
      obtain ⟨i', hb, -⟩ := inv.entry_blocked hmem he
      exact inv.cpu.away hl (FifoInv.notRunnable hb)
    | _ => trivial
  | _ => trivial

theorem freeOk (inv : MailInv s act j) (ok : Independent s act j) : FreeOk (s j) (act j) := by
  cases ha : act j with
  | trap c tf io =>
    have quiet : ∀ {e}, (s j).curenv c = some e → Quiet (s j) c e := fun hcur c' hne hc' =>
      hne (inv.cpu.unique c c' _ hcur hc')
    refine ⟨fun cur sys hcur hd hno hs => ?_, fun cur hcur _ => quiet hcur⟩
    cases sys with
    | envDestroy =>
      intro e he
      by_cases hself : (s j).curenv c = some e
      · exact .inl (quiet hself)
      have hne : e ≠ cur := fun h => hself (h ▸ hcur)
      by_cases hr : (s j).status e = .running
      · exact .inr ⟨hne, hr⟩
      · have hf : Frees (s j) (act j) e :=
          ha ▸ ⟨cur, hcur, .inr ⟨hd, hno, _, hs, he, .inr hr⟩⟩
        obtain ⟨c', tf', io', ha', hcur'⟩ := ok.exits e hf
        cases ha.symm.trans ha'
        exact absurd hcur' hself
    | _ => trivial
  | _ => exact ⟨trivial, trivial⟩

/-- What ends the wait of an environment that stopped running. -/
theorem stays (inv : MailInv s act j) (h : Step (s j) (act j) (s (j + 1)))
    (ok : Independent s act j) (hp : Parked s i j e) : (s (j + 1)).status e = .notRunnable ∨
      ((s j).envs e).envIpcRecving = true ∧ ((s (j + 1)).envs e).envIpcRecving = false ∨
      ∃ R w q, (s j).waitingQueue R = w :: q ∧ (s (j + 1)).waitingQueue R = q ∧
        envid2env (s j) R w false = some e := by
  have he : (s j).status e = .notRunnable := hp.2.2 j hp.1 le_rfl
  have hnr : ∀ {sys args}, callOf (s j) (act j) = some (e, sys, args) → False := fun hc => by
    simpa [he] using inv.cpu.caller h hc
  cases h.moves inv.table inv.queues e with
  | same hs _ =>
    rcases hs with hs | ⟨hs, -⟩
    · exact .inl (hs.trans he)
    · rcases hs with hs | hs <;> simp [he] at hs
  | freed hf => exact absurd (ok.exits e hf) (inv.not_enters h he)
  | marked hm => exact absurd hm (ok.spares e)
  | forked hf _ => simp [he] at hf
  | set hc hv hid _ => exact absurd hp (ok.starts _ _ e hc hv hid).not_parked
  | blocked hc _ _ => exact (hnr hc).elim
  | delivered old hr => exact .inr (.inl ⟨old, hr⟩)
  | receives hc _ => exact (hnr hc).elim
  | woken _ _ hq hq' hw _ => exact .inr (.inr ⟨_, _, _, hq, hq', hw⟩)

theorem recv_succ (inv : MailInv s act j) (h : Step (s j) (act j) (s (j + 1)))
    (ok : Independent s act j) (hr : ((s (j + 1)).envs e).envIpcRecving = true) :
    ∃ i, ReceivingSince s act i (j + 1) e := by
  by_cases old : ((s j).envs e).envIpcRecving = true
  · obtain ⟨i, hi⟩ := inv.recv e old
    rcases inv.stays h ok hi.parked with hs | ⟨-, hr'⟩ | ⟨R, w, q, hq, -, hw⟩
    · exact ⟨i, hi.succ ⟨hr, hs⟩⟩
    · simp [hr] at hr'
    · obtain ⟨i', hb, -⟩ := inv.entry_blocked (hq ▸ List.mem_cons_self) hw
      simp [inv.deaf e i' R hb] at old
  · rw [Bool.not_eq_true] at old
    obtain ⟨args, hc, hs | ⟨w, q, hq, hw⟩⟩ := h.receives inv.table inv.queues old hr
    · refine ⟨j, Nat.lt_succ_self j, ⟨args, hc⟩, fun l hl hlj => ?_⟩
      obtain rfl : l = j + 1 := by omega
      exact ⟨hr, hs⟩
    · obtain ⟨i', hb, -⟩ := inv.entry_blocked (hq ▸ List.mem_cons_self) hw
      cases (FifoInv.notRunnable hb).symm.trans (inv.cpu.caller h hc)

/-- A wait starts with a call of the environment that waits, which is running then. -/
theorem not_parked (inv : MailInv s act j) (h : Step (s j) (act j) (s (j + 1))) {sys : Sys}
    {args : Args} (hc : callOf (s j) (act j) = some (e, sys, args)) : ¬Parked s i j e :=
  fun hp => by cases (hp.2.2 j hp.1 le_rfl).symm.trans (inv.cpu.caller h hc)

theorem deaf_succ (inv : MailInv s act j) (h : Step (s j) (act j) (s (j + 1)))
    (ok : Independent s act j) (hb : BlockedSince s act i (j + 1) e R) :
    ((s (j + 1)).envs e).envIpcRecving = false := by
  by_contra hr
  rw [Bool.not_eq_false] at hr
  obtain ⟨i', hi'⟩ := inv.recv_succ h ok hr
  obtain ⟨hij', ⟨args', hc'⟩, hst⟩ := hi'
  obtain ⟨-, ⟨rfl, args, hc, -⟩ | hb⟩ := FifoInv.blockedSince_succ.mp hb
  · rcases Nat.lt_succ_iff_lt_or_eq.mp hij' with hlt | rfl
    · exact inv.not_parked h hc
        ⟨hlt, callOf_curenv hc', fun l hl hlj => (hst l hl (by omega)).2⟩
    · cases hc.symm.trans hc'
  · rcases Nat.lt_succ_iff_lt_or_eq.mp hij' with hlt | rfl
    · exact absurd (hst j hlt (by omega)).1 (by simp [inv.deaf e i R hb])
    · exact inv.not_parked h hc' hb.parked

theorem once_succ (inv : MailInv s act j) (h : Step (s j) (act j) (s (j + 1))) {i' : ℕ}
    {R' : EnvIx} (hb : BlockedSince s act i (j + 1) e R)
    (hb' : BlockedSince s act i' (j + 1) e R') : i = i' ∧ R = R' := by
  obtain ⟨-, ⟨rfl, args, hc, he, -⟩ | hb⟩ := FifoInv.blockedSince_succ.mp hb
  · obtain ⟨-, ⟨rfl, args', hc', he', -⟩ | hb'⟩ := FifoInv.blockedSince_succ.mp hb'
    · cases hc.symm.trans hc'
      exact ⟨rfl, Option.some.inj (he.symm.trans he')⟩
    · exact absurd hb'.parked (inv.not_parked h hc)
  · obtain ⟨-, ⟨rfl, args', hc', -⟩ | hb'⟩ := FifoInv.blockedSince_succ.mp hb'
    · exact absurd hb.parked (inv.not_parked h hc')
    · exact inv.once e i R i' R' hb hb'

/-- What is left of a queue after a step still belongs to blocked environments. -/
theorem waits_old (inv : MailInv s act j) (h : Step (s j) (act j) (s (j + 1)))
    (ok : Independent s act j) (hw : w ∈ (s j).waitingQueue R)
    (hw' : w ∈ (s (j + 1)).waitingQueue R) :
    ∃ e i, ((s (j + 1)).envs e).envId = w ∧ BlockedSince s act i (j + 1) e R := by
  obtain ⟨e, i, hid, hb⟩ := inv.waits R w hw
  rcases inv.stays h ok hb.parked with hs | ⟨hr, -⟩ | ⟨R', w', q, hq, hq', he⟩
  · refine ⟨e, i, ?_, FifoInv.blockedSince_succ.mpr ⟨hs, .inr hb⟩⟩
    rw [h.id inv.table (by simp [FifoInv.notRunnable hb]), hid]
  · simp [inv.deaf e i R hb] at hr
  · -- the id was the first in its queue, and does not occur in the rest
    obtain ⟨i', hb', rfl⟩ := inv.entry_blocked (hq ▸ List.mem_cons_self) he
    obtain ⟨-, rfl⟩ := inv.once e i R i' R' hb hb'
    have hnd := inv.nodup R
    rw [hq, List.nodup_cons, hid, ← hq'] at hnd
    exact absurd hw' hnd.1

theorem waits_succ (inv : MailInv s act j) (h : Step (s j) (act j) (s (j + 1)))
    (ok : Independent s act j) (hw : w ∈ (s (j + 1)).waitingQueue R) :
    ∃ e i, ((s (j + 1)).envs e).envId = w ∧ BlockedSince s act i (j + 1) e R := by
  cases h.queue inv.table inv.queues R with
  | same hq => exact inv.waits_old h ok (hq ▸ hw) hw
  | @push cur args hc he hr room hq hs =>
    rcases List.mem_append.mp (hq ▸ hw) with hold | hnew
    · exact inv.waits_old h ok hold hw
    · obtain rfl := List.mem_singleton.mp hnew
      refine ⟨cur, j, h.id inv.table ?_, ?_⟩
      · simp [inv.cpu.caller h hc]
      · exact FifoInv.blockedSince_succ.mpr ⟨hs, .inl ⟨rfl, args, hc, he, hr, room⟩⟩
  | pop _ hq _ => exact inv.waits_old h ok (hq ▸ List.mem_cons_of_mem _ hw) hw

theorem nodup_succ (inv : MailInv s act j) (h : Step (s j) (act j) (s (j + 1))) (R : EnvIx) :
    ((s (j + 1)).waitingQueue R).Nodup := by
  have hnd := inv.nodup R
  cases h.queue inv.table inv.queues R with
  | same hq => rwa [hq]
  | @push cur args hc he hr room hq hs =>
    have hrun := inv.cpu.caller h hc
    rw [hq]
    refine List.Nodup.append hnd (List.nodup_singleton _) ?_
    rw [List.disjoint_singleton]
    intro hmem
    have hid : envid2env (s j) cur ((s j).envs cur).envId false = some cur :=
      inv.table.envid2env_id (by simp [hrun])
    obtain ⟨i, hb, -⟩ := inv.entry_blocked hmem hid
    cases (FifoInv.notRunnable hb).symm.trans hrun
  | pop _ hq _ =>
    rw [hq, List.nodup_cons] at hnd
    exact hnd.2

theorem alive_succ (inv : MailInv s act j) (h : Step (s j) (act j) (s (j + 1)))
    (ok : Independent s act j) (e : EnvIx) : (s (j + 1)).status e ≠ .dying := by
  refine fun he => ok.spares e (h.marks inv.table inv.queues (fun w q hq hw => ?_)
    (inv.alive e) he)
  obtain ⟨i, hb, -⟩ := inv.entry_blocked (hq ▸ List.mem_cons_self) hw
  exact inv.not_enters h (FifoInv.notRunnable hb)

theorem step (inv : MailInv s act j) (h : Step (s j) (act j) (s (j + 1)))
    (ok : Independent s act j) : MailInv s act (j + 1) where
  table := inv.table.step (inv.freeOk ok) h
  queues := (h.view inv.table.slots).queueOk inv.queues
  cpu := step_cpuInv inv.cpu (inv.disciplined h ok) h
  alive := inv.alive_succ h ok
  recv _ hr := inv.recv_succ h ok hr
  deaf _ _ _ hb := inv.deaf_succ h ok hb
  once _ _ _ _ _ hb hb' := inv.once_succ h hb hb'
  waits _ _ hw := inv.waits_succ h ok hw
  nodup := inv.nodup_succ h

theorem boot_queue (h : Boot S k) (R : EnvIx) : k.waitingQueue R = [] := by
  obtain ⟨-, hh, ht⟩ := created_ipc h.1 R
  have hv : (k.view.env R).headIx = (k.view.env R).tailIx := by
    simp only [EnvView.headIx, EnvView.tailIx, view_env, Env.view, hh, ht]
  rw [Kernel.waitingQueue, EnvView.queue, hv, ring_self]

theorem boot (h : Boot S (s 0)) : MailInv s act 0 where
  table := tableInv_boot h
  queues := queueOk_boot h
  cpu := (created_cpuInv h.1).1
  alive := created_alive h.1
  recv e hr := by simp [(created_ipc h.1 e).1] at hr
  deaf _ i _ hb := absurd hb.1 (by omega)
  once _ i _ _ _ hb _ := absurd hb.1 (by omega)
  waits R w hw := by simp [boot_queue h R] at hw
  nodup R := by simp [boot_queue h R]

end MailInv

/-! ## Messages -/

/-- Step `m` of the run is a `sys_ipc_try_send` to `e` that returns zero. -/
structure Delivers (s : ℕ → Kernel n) (a : ℕ → Action) (m : ℕ) (cur : EnvIx) (args : Args)
    (e : EnvIx) : Prop where
  call : callOf (s m) (a m) = some (cur, .ipcTrySend, args)
  target : envid2env (s m) cur args.a1 false = some e
  result : (s (m + 1)).eax cur = 0

/-- The `sys_ipc_recv` of `e` in step `i` resumes in state `j`. -/
structure Resumes (s : ℕ → Kernel n) (a : ℕ → Action) (i j : ℕ) (e : EnvIx) : Prop where
  lt : i < j
  call : ∃ args, callOf (s i) (a i) = some (e, .ipcRecv, args)
  first : ∀ l, i < l → l < j → (s l).status e ≠ .running
  running : (s j).status e = .running

/-- Every message reaches one receiver, every receiver gets one message, and the message stays
until the next request to receive. -/
structure ExactlyOnce (s : ℕ → Kernel n) (a : ℕ → Action) (N : ℕ) : Prop where
  recv : ∀ i j e, j ≤ N → Resumes s a i j e → (s j).eax e = 0 →
    ∃ m cur args, i < m ∧ m < j ∧ Delivers s a m cur args e ∧
      ((s j).envs e).envIpcValue = args.a2 ∧
      ((s j).envs e).envIpcFrom = ((s m).envs cur).envId ∧
      ∀ m' cur' args', i < m' → m' < j → Delivers s a m' cur' args' e → m' = m
  send : ∀ m < N, ∀ cur args, callOf (s m) (a m) = some (cur, .ipcTrySend, args) →
    (s (m + 1)).eax cur = 0 → ∃! p : EnvIx × ℕ, ReceivingSince s a p.2 m p.1 ∧
      ((s (m + 1)).envs p.1).envIpcRecving = false
  keep : ∀ m j cur args e, m < j → j ≤ N → Delivers s a m cur args e →
    (∀ l, m < l → l < j → ∀ args', callOf (s l) (a l) ≠ some (e, .ipcRecv, args')) →
    ((s j).envs e).message = ((s (m + 1)).envs e).message

namespace MailInv

variable {s : ℕ → Kernel n} {act : ℕ → Action} {i j m : ℕ} {args : Args}

theorem hands (inv : MailInv s act m) (h : Step (s m) (act m) (s (m + 1)))
    (hd : Delivers s act m cur args e) : Hands (s m) (act m) cur args e (s (m + 1)) := by
  obtain ⟨e', he⟩ := h.sent inv.table hd.call hd.result
  obtain rfl := Option.some.inj (he.target.symm.trans hd.target)
  exact he

/-- The end of a wait for a message is a send. -/
theorem handed (inv : MailInv s act m) (h : Step (s m) (act m) (s (m + 1)))
    (old : ((s m).envs e).envIpcRecving = true)
    (new : ((s (m + 1)).envs e).envIpcRecving = false) :
    ∃ cur args, Hands (s m) (act m) cur args e (s (m + 1)) := by
  obtain ⟨i, hi⟩ := inv.recv e old
  rcases h.mail inv.table e with ⟨-, hen | hf | ⟨-, hr⟩⟩ | hh
  · exact absurd hen (inv.not_enters h hi.now.2)
  · cases hi.now.2.symm.trans hf
  · simp [old, new] at hr
  · exact hh

/-- An environment that does not run does not start to wait. -/
theorem recving_false (inv : MailInv s act j) (h : Step (s j) (act j) (s (j + 1)))
    (old : ((s j).envs e).envIpcRecving = false)
    (hno : ∀ args, callOf (s j) (act j) ≠ some (e, .ipcRecv, args)) :
    ((s (j + 1)).envs e).envIpcRecving = false := by
  by_contra hr
  rw [Bool.not_eq_false] at hr
  obtain ⟨args, hc, -⟩ := h.receives inv.table inv.queues old hr
  exact hno args hc

theorem message_succ (inv : MailInv s act j) (h : Step (s j) (act j) (s (j + 1)))
    (old : ((s j).envs e).envIpcRecving = false) :
    ((s (j + 1)).envs e).message = ((s j).envs e).message := by
  rcases h.mail inv.table e with ⟨hm, -⟩ | ⟨cur, args, hh⟩
  · exact hm
  · cases old.symm.trans hh.old

/-- Two requests to receive of one environment do not overlap. -/
theorem receivingSince_unique (inv : ∀ l ≤ m, MailInv s act l)
    (run : ∀ l < m, Step (s l) (act l) (s (l + 1))) (hi : ReceivingSince s act i m e)
    (hj : ReceivingSince s act j m e) : i = j := by
  have hle : ∀ {i j}, ReceivingSince s act i m e → ReceivingSince s act j m e → j ≤ i := by
    intro i j hi hj
    by_contra hlt
    rw [not_le] at hlt
    obtain ⟨args, hc⟩ := hj.2.1
    have hjm := hj.1
    exact (inv j hjm.le).not_parked (run j hjm) hc
      ⟨hlt, hi.parked.2.1, fun l hl hlj => hi.parked.2.2 l hl (by omega)⟩
  exact le_antisymm (hle hj hi) (hle hi hj)

end MailInv

/-- `sys_ipc_recv` destroys nothing. -/
theorem not_frees_recv {args : Args} (hc : callOf k a = some (cur, .ipcRecv, args))
    (h : Step k a k') : ¬Frees k a e := by
  obtain ⟨c, tf, io, rfl, hcur, hd, hno, hs, -⟩ := step_call hc h
  rintro ⟨cur', hcur', ⟨-, hdies⟩ | ⟨-, -, sys, hs', hf⟩⟩
  · obtain rfl := Option.some.inj (hcur.symm.trans hcur')
    rcases hdies with h | h
    · exact hd h
    · exact h.ne_syscall hno
  · cases hs.symm.trans hs'
    exact hf

section
variable {N : ℕ} {s : ℕ → Kernel n} {act : ℕ → Action} {i j : ℕ}

theorem mailInv_of_run (boot : Boot S (s 0)) (run : IsRun Step N s act)
    (ok : ∀ j < N, Independent s act j) : ∀ j ≤ N, MailInv s act j := by
  intro j
  induction j with
  | zero => exact fun _ => .boot boot
  | succ j ih => exact fun hj => (ih (by omega)).step (run j hj) (ok j hj)

/-- Between the call and the return of `sys_ipc_recv`, the environment is there. -/
theorem Resumes.live (inv : ∀ l ≤ N, MailInv s act l) (run : IsRun Step N s act)
    (ok : ∀ j < N, Independent s act j) (hres : Resumes s act i j e) (hj : j ≤ N) {l : ℕ}
    (hil : i ≤ l) (hlj : l ≤ j) : (s l).status e ≠ .free := by
  have hij := hres.lt
  obtain ⟨args, hc⟩ := hres.call
  induction l, hil using Nat.le_induction with
  | base => simp [(inv i (by omega)).cpu.caller (run i (by omega)) hc]
  | succ l hil ih =>
    have hstep := run l (by omega)
    refine hstep.live (inv l (by omega)).table (ih (by omega)) fun hf => ?_
    rcases Nat.lt_or_eq_of_le hil with hlt | rfl
    · have hen := (ok l (by omega)).exits e hf
      exact hres.first l hlt (by omega) ((inv l (by omega)).enters_running hstep hen)
    · exact not_frees_recv hc hstep hf

/-- An environment that does not run makes no system call. -/
theorem Resumes.no_call (inv : ∀ l ≤ N, MailInv s act l) (run : IsRun Step N s act)
    (hres : Resumes s act i j e) (hj : j ≤ N) {l : ℕ} (hil : i < l) (hlj : l < j) {sys : Sys}
    {args : Args} : callOf (s l) (act l) ≠ some (e, sys, args) := fun hc =>
  hres.first l hil hlj ((inv l (by omega)).cpu.caller (run l (by omega)) hc)

/-- An environment that does not wait for a message stays so, with the same message, until it
calls `sys_ipc_recv`. -/
theorem message_kept (inv : ∀ l ≤ N, MailInv s act l) (run : IsRun Step N s act) {l : ℕ}
    (old : ((s i).envs e).envIpcRecving = false) (hil : i ≤ l) (hl : l ≤ N)
    (hno : ∀ l', i ≤ l' → l' < l → ∀ args, callOf (s l') (act l') ≠ some (e, .ipcRecv, args)) :
    ((s l).envs e).envIpcRecving = false ∧ ((s l).envs e).message = ((s i).envs e).message := by
  induction l, hil using Nat.le_induction with
  | base => exact ⟨old, rfl⟩
  | succ l hil ih =>
    obtain ⟨hr, hm⟩ := ih (by omega) fun l' h h' => hno l' h (by omega)
    have hinv := inv l (by omega)
    have hstep := run l (by omega)
    exact ⟨hinv.recving_false hstep hr (hno l hil (by omega)),
      (hinv.message_succ hstep hr).trans hm⟩

/-- The result of a request that is refused stays until the environment runs again. -/
theorem Resumes.refused (inv : ∀ l ≤ N, MailInv s act l) (run : IsRun Step N s act)
    (ok : ∀ j < N, Independent s act j) (hres : Resumes s act i j e) (hj : j ≤ N)
    (old : ((s (i + 1)).envs e).envIpcRecving = false) : (s j).eax e = (s (i + 1)).eax e := by
  have hij := hres.lt
  have hall : ∀ l, i + 1 ≤ l → l ≤ j → (s l).eax e = (s (i + 1)).eax e := by
    intro l hil
    induction l, hil using Nat.le_induction with
    | base => exact fun _ => rfl
    | succ l hil ih =>
      intro hlj
      have hinv := inv l (by omega)
      have hstep := run l (by omega)
      have hr := (message_kept inv run old hil (by omega) fun l' h h' args =>
        hres.no_call inv run hj (by omega) (by omega)).1
      rcases hstep.mail hinv.table e with ⟨-, hen | hf | ⟨hx, -⟩⟩ | ⟨cur, args, hh⟩
      · exact absurd (hinv.enters_running hstep hen) (hres.first l (by omega) (by omega))
      · exact absurd hf (hres.live inv run ok hj (by omega) (by omega))
      · exact hx.trans (ih (by omega))
      · cases hr.symm.trans hh.old
  exact hall j hij le_rfl

theorem Resumes.delivered (inv : ∀ l ≤ N, MailInv s act l) (run : IsRun Step N s act)
    (ok : ∀ j < N, Independent s act j) (hres : Resumes s act i j e) (hj : j ≤ N)
    (h0 : (s j).eax e = 0) : ∃ m cur args, i < m ∧ m < j ∧ Delivers s act m cur args e ∧
      ((s j).envs e).envIpcValue = args.a2 ∧
      ((s j).envs e).envIpcFrom = ((s m).envs cur).envId ∧
      ∀ m' cur' args', i < m' → m' < j → Delivers s act m' cur' args' e → m' = m := by
  have hij := hres.lt
  obtain ⟨args₀, hc⟩ := hres.call
  have hstep₀ := run i (by omega)
  have hinv₀ := inv i (by omega)
  -- the request was accepted
  have hacc : ((s (i + 1)).envs e).envIpcRecving = true := by
    rcases hstep₀.refused hinv₀.table hc with h | ⟨hx, hr⟩
    · exact h
    · by_cases hold : ((s i).envs e).envIpcRecving = true
      · exact hr.trans hold
      · rw [Bool.not_eq_true] at hold
        exact absurd ((hres.refused inv run ok hj (hr.trans hold)).symm.trans h0) hx
  have hend : ¬((s j).envs e).envIpcRecving = true := by
    intro hr
    obtain ⟨i', hi'⟩ := (inv j hj).recv e hr
    cases hi'.now.2.symm.trans hres.running
  obtain ⟨m, him, hmj, hwait, hdone⟩ :=
    exists_switch (fun l => ((s l).envs e).envIpcRecving = true) hij hacc hend
  rw [Bool.not_eq_true] at hdone
  obtain ⟨cur, args, hh⟩ := (inv m (by omega)).handed (run m (by omega)) (hwait m him le_rfl) hdone
  have hkept : ∀ l, m + 1 ≤ l → l ≤ j → _ := fun l h h' =>
    message_kept (l := l) inv run hdone h (by omega) fun l' h h' args =>
      hres.no_call inv run hj (by omega) (by omega)
  obtain ⟨-, hmsg⟩ := hkept j hmj le_rfl
  refine ⟨m, cur, args, by omega, hmj, ⟨hh.call, hh.target, hh.result⟩,
    (congrArg Prod.fst hmsg).trans hh.value,
    (congrArg (fun p => p.2.1) hmsg).trans hh.sender, fun m' cur' args' him' hmj' hd => ?_⟩
  have hh' := (inv m' (by omega)).hands (run m' (by omega)) hd
  rcases Nat.lt_trichotomy m' m with hlt | rfl | hlt
  · cases (hwait (m' + 1) (by omega) (by omega)).symm.trans hh'.recving
  · rfl
  · cases hh'.old.symm.trans (hkept m' hlt (by omega)).1

/-- In a run in which environments leave the system on their own account only, and the status is
set of new environments only, messages are delivered exactly once. -/
theorem exactlyOnce_of_independent (boot : Boot S (s 0)) (run : IsRun Step N s act)
    (ok : ∀ j < N, Independent s act j) : ExactlyOnce s act N := by
  have inv := mailInv_of_run boot run ok
  refine ⟨fun i j e hj hres h0 => hres.delivered inv run ok hj h0, fun m hm cur args hc h0 => ?_,
    fun m j cur args e hmj hj hd hno => ?_⟩
  · have hinv := inv m (by omega)
    obtain ⟨e, hh⟩ := (run m hm).sent hinv.table hc h0
    obtain ⟨i, hi⟩ := hinv.recv e hh.old
    refine ⟨(e, i), ⟨hi, hh.recving⟩, fun ⟨e', i'⟩ ⟨hi', hr'⟩ => ?_⟩
    obtain ⟨cur', args', hh'⟩ := hinv.handed (run m hm) hi'.now.1 hr'
    cases hc.symm.trans hh'.call
    obtain rfl := Option.some.inj (hh.target.symm.trans hh'.target)
    rw [MailInv.receivingSince_unique (fun l hl => inv l (by omega))
      (fun l hl => run l (by omega)) hi hi']
  · have hh := (inv m (by omega)).hands (run m (by omega)) hd
    exact (message_kept inv run hh.recving hmj hj fun l h h' args => hno l h h' args).2

end

/-! ### A run with a message -/

section
variable {s : ℕ → Kernel n} {act : ℕ → Action} {j : ℕ} {c : Cpu}

theorem not_frees_idle (ha : ∀ c tf io, a ≠ .trap c tf io) : ¬Frees k a e := by
  intro hf
  cases a with
  | trap c tf io => exact ha c tf io rfl
  | _ => exact hf.elim

theorem callOf_idle (ha : ∀ c tf io, a ≠ .trap c tf io) : callOf k a = none := by
  cases a with
  | trap c tf io => exact absurd rfl (ha c tf io)
  | _ => rfl

theorem independent_idle (ha : ∀ c tf io, act j ≠ .trap c tf io) : Independent s act j where
  exits _ hf := absurd hf (not_frees_idle ha)
  spares e hm := by
    obtain ⟨cur, args, hc, -⟩ := hm
    cases hc.symm.trans (callOf_idle ha)
  starts cur args e hc := by cases hc.symm.trans (callOf_idle ha)

theorem not_frees_sysTrap {sys : Sys} {no a1 a2 a3 a4 a5 : Word} (hcur : k.curenv c = some cur)
    (hd : k.status cur ≠ .dying) (hs : Sys.ofNat no.toNat = some sys)
    (hsys : sys ≠ .envDestroy ∧ sys ≠ .cputs) : ¬Frees k (sysTrap c no a1 a2 a3 a4 a5) e := by
  rintro ⟨cur', hcur', ⟨-, hdies⟩ | ⟨-, -, sys', hs', hf⟩⟩
  · obtain rfl := Option.some.inj (hcur.symm.trans hcur')
    rcases hdies with h | h
    · exact hd h
    · exact h.ne_syscall rfl
  · obtain rfl := Option.some.inj (hs.symm.trans hs')
    cases sys with
    | envDestroy => exact hsys.1 rfl
    | cputs => exact hsys.2 rfl
    | _ => exact hf.elim

/-- What has to be checked for a system call that destroys nothing. -/
theorem independent_sysTrap {sys : Sys} {no a1 a2 a3 a4 a5 : Word}
    (ha : act j = sysTrap c no a1 a2 a3 a4 a5) (hcur : (s j).curenv c = some cur)
    (hd : (s j).status cur ≠ .dying) (hs : Sys.ofNat no.toNat = some sys)
    (hsys : sys ≠ .envDestroy ∧ sys ≠ .cputs)
    (fresh : sys = .envSetStatus → ∀ e, envid2env (s j) cur a1 true = some e →
      NotYetRun s j e) : Independent s act j := by
  have hcall : callOf (s j) (act j) = some (cur, sys, ⟨a1, a2, a3, a4, a5⟩) :=
    ha ▸ callOf_eq_some hcur hd rfl hs
  refine ⟨fun e hf => ?_, fun e hm => ?_, fun cur' args e hc _ he => ?_⟩
  · rw [ha] at hf
    exact absurd hf (not_frees_sysTrap hcur hd hs hsys)
  · obtain ⟨cur', args, hc, -⟩ := hm
    cases hcall.symm.trans hc
    exact hsys.1 rfl
  · cases hcall.symm.trans hc
    exact fresh rfl e he

end

/-- The first environment starts a child, which receives a message from it on the second CPU. -/
def mailRun : List Action :=
  [.start 0, sysTrap 0 7 0 0 0 0 0, sysTrap 0 8 0x1001 2 0 0 0, .start 1,
    sysTrap 1 12 0xEEC00000 0 0 0 0, sysTrap 0 11 0x1001 42 0xEEC00000 0 0, .wake 1 32]

theorem exactlyOnce_mailRun : ExactlyOnce (stateAt small mailRun) (actionAt mailRun) 7 ∧
    Resumes (stateAt small mailRun) (actionAt mailRun) 4 7 1 ∧
    (stateAt small mailRun 7).eax 1 = 0 := by
  have hcur : ∀ i : Fin 7, 0 < i → (stateAt small mailRun i).curenv 0 = some 0 ∧
      (stateAt small mailRun i).status 0 ≠ .dying := by decide +kernel
  have hchild : (stateAt small mailRun 4).curenv 1 = some 1 ∧
      (stateAt small mailRun 4).status 1 ≠ .dying := by decide +kernel
  have hnew : envid2env (stateAt small mailRun 2) 0 0x1001 true = some 1 ∧
      (stateAt small mailRun 1).status 1 = .free := by decide +kernel
  have haway : ∀ l : Fin 3, 1 ≤ l → ∀ c, (stateAt small mailRun l).curenv c ≠ some 1 := by
    decide +kernel
  refine ⟨exactlyOnce_of_independent boot_small (isRun_stateAt (N := 7) (by decide +kernel))
    fun j hj => ?_, ⟨by decide, ?_, fun l h h' => ?_, ?_⟩, ?_⟩
  · obtain rfl | rfl | rfl | rfl | rfl | rfl | rfl :
        j = 0 ∨ j = 1 ∨ j = 2 ∨ j = 3 ∨ j = 4 ∨ j = 5 ∨ j = 6 := by omega
    · exact independent_idle fun c tf io h => by cases h
    · obtain ⟨h, hd⟩ := hcur 1 (by decide)
      exact independent_sysTrap rfl h hd rfl (by decide) fun h => by cases h
    · obtain ⟨h, hd⟩ := hcur 2 (by decide)
      refine independent_sysTrap rfl h hd rfl (by decide) fun _ e he => ?_
      obtain rfl := Option.some.inj (hnew.1.symm.trans he)
      exact ⟨1, by decide, hnew.2, fun l hl hlj => haway ⟨l, by omega⟩ hl⟩
    · exact independent_idle fun c tf io h => by cases h
    · exact independent_sysTrap rfl hchild.1 hchild.2 rfl (by decide) fun h => by cases h
    · obtain ⟨h, hd⟩ := hcur 5 (by decide)
      exact independent_sysTrap rfl h hd rfl (by decide) fun h => by cases h
    · exact independent_idle fun c tf io h => by cases h
  · exact ⟨_, callOf_eq_some hchild.1 hchild.2 rfl rfl⟩
  · obtain rfl | rfl : l = 5 ∨ l = 6 := by omega
    · decide +kernel
    · decide +kernel
  · decide +kernel
  · decide +kernel

end JosKernel
