import JosKernel.Ipc.Table
import JosKernel.Lib.Ring

/-!
# Waiting queues

The waiting queue of an environment is a ring buffer of the ids of environments that found it not
receiving. A step appends the caller's id to the queue of its target, takes the first id off the
caller's own queue, or leaves all queues alone (`Acted.queue`).
-/
namespace JosKernel

open Lib

variable {n : Nat}

def EnvView.headIx (env : EnvView) : Fin 10 := Fin.ofNat 10 env.head.toNat

def EnvView.tailIx (env : EnvView) : Fin 10 := Fin.ofNat 10 env.tail.toNat

/-- The ids between `env_ipc_waiting_head` and `env_ipc_waiting_tail`, oldest first. -/
def EnvView.queue (env : EnvView) : List Word := ring env.waiting env.headIx env.tailIx

/-- The waiting queue of `e`. -/
def Kernel.waitingQueue (k : Kernel n) (e : EnvIx) : List Word := (k.view.env e).queue

namespace View

/-- Indices are below `MAXIPCWAITING`. -/
def QueueOk (v : View) : Prop := ∀ e, (v.env e).head.toNat < 10 ∧ (v.env e).tail.toNat < 10

variable {v v' v₁ : View} {c : Cpu} {cur e : EnvIx} {call : Option (Sys × Args)}

theorem next_toNat {w : Word} (h : w.toNat < 10) :
    ((w + 1) % maxIpcWaiting).toNat = (w.toNat + 1) % 10 := by
  have h1 : (w + 1).toNat = w.toNat + 1 := by
    rw [BitVec.toNat_add_of_lt]
    · rfl
    · rw [show (1 : Word).toNat = 1 from rfl]
      omega
  rw [BitVec.toNat_umod, h1]
  rfl

theorem next_lt (w : Word) : ((w + 1) % maxIpcWaiting).toNat < 10 := by
  rw [BitVec.toNat_umod]
  exact Nat.mod_lt _ (by decide)

theorem ofNat_next {w : Word} (h : w.toNat < 10) :
    Fin.ofNat 10 ((w + 1) % maxIpcWaiting).toNat = Fin.ofNat 10 w.toNat + 1 := by
  rw [next_toNat h]
  refine Fin.ext ?_
  simp [Fin.val_add]

/-- The caller joins the queue of `e` at its end. -/
theorem enqueued_queue {i : Fin 10} (ok : v.QueueOk)
    (room : ((v.env e).tail + 1) % maxIpcWaiting ≠ (v.env e).head) (hi : (v.env e).tail.toNat = i) :
    ((v.enqueued cur e i).env e).queue = (v.env e).queue ++ [(v.env cur).id] := by
  obtain ⟨hh, ht⟩ := ok e
  have hti : (v.env e).tailIx = i := by
    rw [EnvView.tailIx, hi, Fin.ofNat_val_eq_self]
  have hroom : (v.env e).tailIx + 1 ≠ (v.env e).headIx := by
    intro h
    rw [EnvView.tailIx, EnvView.headIx, ← ofNat_next ht] at h
    have hv := congrArg Fin.val h
    simp only [Fin.val_ofNat] at hv
    rw [Nat.mod_eq_of_lt (next_lt _), Nat.mod_eq_of_lt hh] at hv
    exact room (BitVec.eq_of_toNat_eq hv)
  have henv : (v.enqueued cur e i).env e =
      { (v.setStatus cur .notRunnable).env e with
        waiting := Function.update (v.env e).waiting i (v.env cur).id
        tail := ((v.env e).tail + 1) % maxIpcWaiting } := by
    by_cases h : e = cur
    · subst h; simp [enqueued, setStatus]
    · simp [enqueued, setStatus, modEnv_of_ne _ _ h]
  have hhead : ((v.setStatus cur .notRunnable).env e).head = (v.env e).head := by
    by_cases h : e = cur
    · subst h; simp [setStatus]
    · simp [setStatus, modEnv_of_ne _ _ h]
  rw [henv, EnvView.queue, EnvView.headIx, EnvView.tailIx]
  simp only [hhead, ofNat_next ht]
  rw [← hti]
  exact ring_push hroom _

/-- The first id leaves the queue. -/
theorem dequeued_queue {i : Fin 10}
    (ok : (v.env cur).head.toNat < 10 ∧ (v.env cur).tail.toNat < 10)
    (h : (v.env cur).head ≠ (v.env cur).tail)
    (hi : (v.env cur).head.toNat = i) :
    (v.env cur).queue = (v.env cur).waiting i :: ((v.dequeued cur).env cur).queue := by
  obtain ⟨hh, ht⟩ := ok
  have hhi : (v.env cur).headIx = i := by
    rw [EnvView.headIx, hi, Fin.ofNat_val_eq_self]
  have hne : (v.env cur).headIx ≠ (v.env cur).tailIx := by
    intro heq
    have hv := congrArg Fin.val heq
    simp only [EnvView.headIx, EnvView.tailIx, Fin.val_ofNat] at hv
    rw [Nat.mod_eq_of_lt hh, Nat.mod_eq_of_lt ht] at hv
    exact h (BitVec.eq_of_toNat_eq hv)
  have htail : ((v.dequeued cur).env cur).queue =
      ring (v.env cur).waiting ((v.env cur).headIx + 1) (v.env cur).tailIx := by
    simp only [dequeued, modEnv_self, EnvView.queue, EnvView.headIx, EnvView.tailIx, ofNat_next hh]
  rw [htail, EnvView.queue, ring_pop hne, hhi]

/-- The queue of an environment depends on three of its fields. -/
theorem queue_congr {env env' : EnvView} (hh : env'.head = env.head) (ht : env'.tail = env.tail)
    (hw : env'.waiting = env.waiting) : env'.queue = env.queue := by
  simp only [EnvView.queue, EnvView.headIx, EnvView.tailIx, hh, ht, hw]

/-- What a trap of `cur` does to the queue of `R`. -/
inductive QueueEffect (v : View) (cur : EnvIx) (call : Option (Sys × Args)) (v₁ : View)
    (R : EnvIx) : Prop
  | same (h : (v₁.env R).queue = (v.env R).queue)
  | push {a : Args} (hcall : call = some (.ipcTrySend, a))
      (he : v.envid2env cur a.a1 false = some R) (hr : (v.env R).recving = false)
      (room : ((v.env R).tail + 1) % maxIpcWaiting ≠ (v.env R).head)
      (h : (v₁.env R).queue = (v.env R).queue ++ [(v.env cur).id])
      (hs : (v₁.env cur).status = .notRunnable)
  | pop {a : Args} {w : Word} (hcall : call = some (.ipcRecv, a)) (hR : R = cur)
      (h : (v.env R).queue = w :: (v₁.env R).queue)
      (hw : ∀ e, v.envid2env cur w false = some e → (v₁.env e).status = .runnable)

theorem Acted.queue (h : Acted v c cur call v₁) (ok : v.QueueOk)
    (hlive : (v.env cur).status ≠ .free) (R : EnvIx) : QueueEffect v cur call v₁ R := by
  -- an update of `eax` or the status changes no queue
  have hset : ∀ (w : View) (s : EnvStatus) i,
      ((w.setStatus i s).env R).queue = (w.env R).queue := by
    intro w s i
    by_cases hi : R = i
    · subst hi; simp [View.setStatus, EnvView.queue, EnvView.headIx, EnvView.tailIx]
    · simp [View.setStatus, modEnv_of_ne _ _ hi]
  have heax : ∀ (w : View) i x, ((w.setEax i x).env R).queue = (w.env R).queue := fun w i x =>
    queue_congr (setEax_head ..) (setEax_tail ..) (setEax_waiting ..)
  have hrecv : ∀ d, ((v.receiving cur d).env R).queue = (v.env R).queue := by
    intro d
    by_cases hi : R = cur
    · subst hi; exact queue_congr (receiving_head ..) (receiving_tail ..) (receiving_waiting ..)
    · simp [receiving, modEnv_of_ne _ _ hi]
  cases h with
  | quiet _ => exact .same (heax ..)
  | die _ => exact .same ((hset ..).trans (heax ..))
  | mark _ _ _ => exact .same ((heax ..).trans (hset ..))
  | kill _ _ _ => exact .same ((heax ..).trans (hset ..))
  | @fork a e w free =>
    refine .same ((heax ..).trans ?_)
    by_cases hi : R = e
    · subst hi; simp [View.forked, EnvView.queue, EnvView.headIx, EnvView.tailIx]
    · simp [View.forked, modEnv_of_ne _ _ hi]
  | setStatus _ _ => exact .same ((heax ..).trans (hset ..))
  | @enqueue a e i he hr room hi =>
    by_cases hR : R = e
    · subst hR
      refine .push rfl he hr room ((heax ..).trans (enqueued_queue ok room hi)) ?_
      by_cases hc : cur = R
      · subst hc; simp [View.enqueued, View.setStatus]
      · simp [View.enqueued, View.setStatus, modEnv_of_ne _ _ hc]
    · refine .same ((heax ..).trans ?_)
      rw [View.enqueued, modEnv_of_ne _ _ hR]
      exact hset ..
  | @deliver a e p he hr =>
    refine .same ((heax ..).trans ?_)
    by_cases hi : R = e
    · subst hi; simp [View.delivered, EnvView.queue, EnvView.headIx, EnvView.tailIx]
    · simp [View.delivered, modEnv_of_ne _ _ hi]
  | recv _ => exact .same ((heax ..).trans (hrecv _))
  | @wake a e i w hq hi he =>
    by_cases hR : R = cur
    · subst hR
      have hpop := @dequeued_queue (v.receiving R a.a1) R i
        (by simpa using ok R) (by simpa using hq) (by simpa using hi)
      rw [envid2env_dequeued hlive] at he
      refine .pop rfl rfl (w := (v.env R).waiting i) ?_ fun e' he' => ?_
      · rw [heax, hset, ← hrecv a.a1, hpop, receiving_waiting]
      · obtain rfl := Option.some.inj (he.symm.trans he')
        simp [View.setStatus]
    · refine .same ((heax ..).trans ((hset ..).trans ?_))
      rw [View.dequeued, modEnv_of_ne _ _ hR]
      exact hrecv _
  | @stale a i hq hi he =>
    by_cases hR : R = cur
    · subst hR
      have hpop := @dequeued_queue (v.receiving R a.a1) R i
        (by simpa using ok R) (by simpa using hq) (by simpa using hi)
      rw [envid2env_dequeued hlive] at he
      refine .pop rfl rfl (w := (v.env R).waiting i) ?_ fun e' he' => ?_
      · rw [heax, ← hrecv a.a1, hpop, receiving_waiting]
      · rw [he] at he'
        cases he'
    · refine .same ((heax ..).trans ?_)
      rw [View.dequeued, modEnv_of_ne _ _ hR]
      exact hrecv _

/-- The wake-up drops the first id. -/
theorem Woken.queue {r : Int} (ok : (v.env cur).head.toNat < 10 ∧ (v.env cur).tail.toNat < 10)
    (h : Woken v cur r v₁) : (v₁.env cur).queue = (v.env cur).queue.tail := by
  cases h with
  | empty h =>
    have hnil : (v.env cur).queue = [] := by
      rw [EnvView.queue, EnvView.headIx, EnvView.tailIx, h, ring_self]
    rw [hnil, List.tail_nil]
  | @wake i e h hi _ =>
    rw [dequeued_queue ok h hi, List.tail_cons]
    by_cases he : cur = e
    · subst he; simp [View.setStatus, EnvView.queue, EnvView.headIx, EnvView.tailIx]
    · simp [View.setStatus, modEnv_of_ne _ _ he]
  | stale h hi _ => rw [dequeued_queue ok h hi, List.tail_cons]

theorem Acted.queueOk (h : Acted v c cur call v₁) (ok : v.QueueOk) : v₁.QueueOk := by
  intro i
  have hn := next_lt
  have := ok i
  cases h <;>
  · simp only [setEax, View.setStatus, View.forked, View.enqueued, View.delivered, View.receiving,
      View.dequeued, View.leave, modEnv_env]
    grind

/-- What a trap of `cur` does to the status and the request to receive of `e`. -/
inductive Touched (v : View) (cur : EnvIx) (call : Option (Sys × Args)) (v₁ : View)
    (e : EnvIx) : Prop
  | same (hs : (v₁.env e).status = (v.env e).status) (hr : (v₁.env e).recving = (v.env e).recving)
  | freed (hs : (v₁.env e).status = .free) (hr : (v₁.env e).recving = (v.env e).recving)
      (why : e = cur ∨ ∃ a, call = some (.envDestroy, a) ∧ v.envid2env cur a.a1 true = some e)
  | marked {a : Args} (hcall : call = some (.envDestroy, a)) (hne : e ≠ cur)
      (he : v.envid2env cur a.a1 true = some e) (old : (v.env e).status = .running)
      (hs : (v₁.env e).status = .dying) (hr : (v₁.env e).recving = (v.env e).recving)
  | forked (hf : (v.env e).status = .free) (hs : (v₁.env e).status = .notRunnable)
      (hr : (v₁.env e).recving = false)
  | set {a : Args} (hcall : call = some (.envSetStatus, a)) (hv : a.a2 = 2 ∨ a.a2 = 4)
      (he : v.envid2env cur a.a1 true = some e)
      (hs : (v₁.env e).status = if a.a2 = 2 then .runnable else .notRunnable)
      (hr : (v₁.env e).recving = (v.env e).recving)
  | blocked {a : Args} (he : e = cur) (hcall : call = some (.ipcTrySend, a))
      (hs : (v₁.env e).status = .notRunnable) (hr : (v₁.env e).recving = (v.env e).recving)
  | delivered {a : Args} (hcall : call = some (.ipcTrySend, a))
      (he : v.envid2env cur a.a1 false = some e) (old : (v.env e).recving = true)
      (hs : (v₁.env e).status = .runnable) (hr : (v₁.env e).recving = false)
  | receives {a : Args} (he : e = cur) (hcall : call = some (.ipcRecv, a))
      (hr : (v₁.env e).recving = true)
      (hs : (v₁.env e).status = .notRunnable ∨ ∃ w q, (v.env cur).queue = w :: q ∧
        v.envid2env cur w false = some e)
  | woken {a : Args} {w : Word} {q : List Word} (hne : e ≠ cur)
      (hcall : call = some (.ipcRecv, a)) (hq : (v.env cur).queue = w :: q)
      (hq' : (v₁.env cur).queue = q) (hw : v.envid2env cur w false = some e)
      (hs : (v₁.env e).status = .runnable) (hr : (v₁.env e).recving = (v.env e).recving)

theorem Acted.touched (h : Acted v c cur call v₁) (ok : v.QueueOk) (hcur : v.cur c = some cur)
    (hlive : (v.env cur).status ≠ .free) (e : EnvIx) : Touched v cur call v₁ e := by
  cases h with
  | quiet _ => exact .same (setEax_status ..) (setEax_recving ..)
  | die _ =>
    by_cases he : e = cur
    · subst he
      exact .freed (by simp [View.setStatus]) (by simp [View.setStatus]) (.inl rfl)
    · exact .same (by simp [View.setStatus, modEnv_of_ne _ _ he])
        (by simp [View.setStatus, modEnv_of_ne _ _ he])
  | @mark a i hi hrun hc =>
    by_cases he : e = i
    · subst he
      exact .marked rfl (fun h => hc (h ▸ hcur)) hi hrun (by simp [View.setStatus])
        (by simp [View.setStatus])
    · exact .same (by simp [View.setStatus, modEnv_of_ne _ _ he])
        (by simp [View.setStatus, modEnv_of_ne _ _ he])
  | @kill a i hi _ _ =>
    by_cases he : e = i
    · subst he
      exact .freed (by simp [View.setStatus]) (by simp [View.setStatus]) (.inr ⟨a, rfl, hi⟩)
    · exact .same (by simp [View.setStatus, modEnv_of_ne _ _ he])
        (by simp [View.setStatus, modEnv_of_ne _ _ he])
  | @fork a i w hf =>
    by_cases he : e = i
    · subst he
      exact .forked hf (by simp [View.forked]) (by simp [View.forked])
    · exact .same (by simp [View.forked, modEnv_of_ne _ _ he])
        (by simp [View.forked, modEnv_of_ne _ _ he])
  | @setStatus a i hi hv =>
    by_cases he : e = i
    · subst he
      exact .set rfl hv hi (by simp [View.setStatus]) (by simp [View.setStatus])
    · exact .same (by simp [View.setStatus, modEnv_of_ne _ _ he])
        (by simp [View.setStatus, modEnv_of_ne _ _ he])
  | @enqueue a R i hR _ _ _ =>
    have hr : ((v.enqueued cur R i).env e).recving = (v.env e).recving := by
      simp only [View.enqueued, View.setStatus, modEnv_env]
      grind
    by_cases he : e = cur
    · subst he
      refine .blocked rfl rfl ?_ ((setEax_recving ..).trans hr)
      rw [setEax_status]
      simp only [View.enqueued, View.setStatus, modEnv_env]
      grind
    · refine .same ?_ ((setEax_recving ..).trans hr)
      rw [setEax_status]
      simp only [View.enqueued, View.setStatus, modEnv_env]
      grind
  | @deliver a i p hi hr =>
    by_cases he : e = i
    · subst he
      exact .delivered rfl hi hr (by simp [View.delivered]) (by simp [View.delivered])
    · exact .same (by simp [View.delivered, modEnv_of_ne _ _ he])
        (by simp [View.delivered, modEnv_of_ne _ _ he])
  | recv _ =>
    by_cases he : e = cur
    · subst he
      exact .receives rfl rfl (by simp [View.receiving]) (.inl (by simp [View.receiving]))
    · exact .same (by simp [View.receiving, modEnv_of_ne _ _ he])
        (by simp [View.receiving, modEnv_of_ne _ _ he])
  | @wake a i j w hq hj hi =>
    rw [envid2env_dequeued hlive] at hi
    have hqueue := dequeued_queue (ok cur) hq hj
    have hqueue' : ((((((v.receiving cur a.a1).dequeued cur).setStatus i .runnable).setEax cur
        w).env cur).queue) = ((v.dequeued cur).env cur).queue := by
      refine (queue_congr (setEax_head ..) (setEax_tail ..) (setEax_waiting ..)).trans
        (queue_congr ?_ ?_ ?_) <;>
      · simp only [View.setStatus, View.dequeued, View.receiving, modEnv_env]
        grind
    have hr : e ≠ cur →
        ((((v.receiving cur a.a1).dequeued cur).setStatus i .runnable).env e).recving =
          (v.env e).recving := by
      intro he
      simp only [View.receiving, View.dequeued, View.setStatus, modEnv_env]
      grind
    by_cases he : e = cur
    · subst he
      refine .receives rfl rfl ?_ ?_
      · rw [setEax_recving]
        simp only [View.receiving, View.dequeued, View.setStatus, modEnv_env]
        grind
      · by_cases hei : e = i
        · subst hei
          exact .inr ⟨_, _, hqueue, hi⟩
        · left
          simp [View.setStatus, modEnv_of_ne _ _ hei, View.receiving, View.dequeued]
    · by_cases hei : e = i
      · subst hei
        exact .woken he rfl hqueue hqueue' hi (by simp [View.setStatus])
          ((setEax_recving ..).trans (hr he))
      · refine .same ?_ ((setEax_recving ..).trans (hr he))
        simp [View.setStatus, View.receiving, View.dequeued, modEnv_of_ne _ _ he,
          modEnv_of_ne _ _ hei]
  | stale _ _ _ =>
    by_cases he : e = cur
    · subst he
      exact .receives rfl rfl (by simp [View.receiving, View.dequeued])
        (.inl (by simp [View.receiving, View.dequeued]))
    · exact .same (by simp [View.receiving, View.dequeued, modEnv_of_ne _ _ he])
        (by simp [View.receiving, View.dequeued, modEnv_of_ne _ _ he])

theorem Settled.queue (h : Settled v c v') (R : EnvIx) : (v'.env R).queue = (v.env R).queue := by
  show (v'.env R).core.queue = (v.env R).core.queue
  rw [h.core]

theorem Settled.queueOk (h : Settled v c v') (ok : v.QueueOk) : v'.QueueOk := by
  intro i
  show (v'.env i).core.head.toNat < 10 ∧ (v'.env i).core.tail.toNat < 10
  rw [h.core]
  exact ok i

theorem Step.queueOk {a : Action} (h : Step v a v') (ok : v.QueueOk) : v'.QueueOk := by
  cases h.kinds with
  | idle _ s => exact s.queueOk ok
  | @reap c tf io cur ha hcur hd s =>
    refine s.queueOk fun i => ?_
    have := ok i
    simp only [View.setStatus, View.leave, modEnv_env]
    grind
  | act _ _ _ act s => exact s.queueOk (act.queueOk ok)

end View

end JosKernel
