import JosKernel.Env.Cpus

/-!
# The environment table as schedulers and messages see it

Scheduling and IPC never look at memory, and memory never looks at them. A `View` is what is left
of the kernel without memory: status, ids, message fields and waiting queue of every environment,
and the environment and mode of every CPU. The operations of the kernel become operations on
views; where their outcome depends on memory, a relation allows every outcome.

`Refine` shows that the kernel does on its view what is described here.
-/
namespace JosKernel

structure EnvView where
  status : EnvStatus
  id : Word
  parentId : Word
  eax : Word
  recving : Bool
  dstva : Word
  value : Word
  sender : Word
  perm : Word
  head : Word
  tail : Word
  waiting : Fin 10 → Word

structure View where
  env : EnvIx → EnvView
  cur : Cpu → Option EnvIx
  mode : Cpu → CpuMode

variable {n : Nat}

def Env.view (env : Env n) : EnvView where
  status := env.envStatus
  id := env.envId
  parentId := env.envParentId
  eax := env.envTf.tfRegs.regEax
  recving := env.envIpcRecving
  dstva := env.envIpcDstva
  value := env.envIpcValue
  sender := env.envIpcFrom
  perm := env.envIpcPerm
  head := env.envIpcWaitingHead
  tail := env.envIpcWaitingTail
  waiting := env.envIpcWaiting

def Kernel.view (k : Kernel n) : View where
  env e := (k.envs e).view
  cur := k.curenv
  mode c := (k.cpus c).cpuMode

/-- The calls that return zero only when they have changed the view. -/
def Sys.onView : Sys → Bool
  | .envSetStatus | .exofork | .ipcTrySend | .ipcRecv => true
  | _ => false

namespace View

/-! ## Operations -/

def modEnv (v : View) (e : EnvIx) (f : EnvView → EnvView) : View :=
  { v with env := Function.update v.env e (f (v.env e)) }

def setStatus (v : View) (e : EnvIx) (s : EnvStatus) : View :=
  v.modEnv e fun env => { env with status := s }

def setEax (v : View) (e : EnvIx) (w : Word) : View := v.modEnv e fun env => { env with eax := w }

/-- The CPU gives up its environment. -/
def leave (v : View) (c : Cpu) : View := { v with cur := Function.update v.cur c none }

def envid2env (v : View) (cur : EnvIx) (envid : Word) (checkperm : Bool) : Option EnvIx :=
  if envid = 0 then some cur
  else if (v.env (envx envid)).status = .free ∨ (v.env (envx envid)).id ≠ envid then none
  else if checkperm ∧ envx envid ≠ cur ∧
      (v.env (envx envid)).parentId ≠ (v.env cur).id then none
  else some (envx envid)

@[ext] theorem ext {v w : View} (he : ∀ i, v.env i = w.env i) (hc : ∀ c, v.cur c = w.cur c)
    (hm : ∀ c, v.mode c = w.mode c) : v = w := by
  cases v
  cases w
  simp only [mk.injEq]
  exact ⟨funext he, funext hc, funext hm⟩

@[simp] theorem modEnv_cur (v : View) (e : EnvIx) (f : EnvView → EnvView) :
    (v.modEnv e f).cur = v.cur := rfl
@[simp] theorem modEnv_mode (v : View) (e : EnvIx) (f : EnvView → EnvView) :
    (v.modEnv e f).mode = v.mode := rfl
theorem modEnv_env (v : View) (e i : EnvIx) (f : EnvView → EnvView) :
    (v.modEnv e f).env i = if i = e then f (v.env e) else v.env i := Function.update_apply ..
@[simp] theorem modEnv_self (v : View) (e : EnvIx) (f : EnvView → EnvView) :
    (v.modEnv e f).env e = f (v.env e) := Function.update_self ..
theorem modEnv_of_ne (v : View) {e i : EnvIx} (f : EnvView → EnvView) (h : i ≠ e) :
    (v.modEnv e f).env i = v.env i := Function.update_of_ne h ..

@[simp] theorem leave_env (v : View) (c : Cpu) : (v.leave c).env = v.env := rfl

@[simp] theorem setEax_setEax (v : View) (e : EnvIx) (w w' : Word) :
    (v.setEax e w).setEax e w' = v.setEax e w' := by
  refine ext (fun i => ?_) (fun _ => rfl) fun _ => rfl
  simp only [setEax, modEnv_env]
  grind

/-! ## Scheduling -/

/-- The statuses after `env_run`. -/
def ranStatus (v : View) (c : Cpu) (e i : EnvIx) : EnvStatus :=
  if v.cur c = some e then (v.env i).status
  else if i = e then .running
  else if v.cur c = some i ∧ (v.env i).status = .running then .runnable
  else (v.env i).status

/-- `env_run`. -/
def run (v : View) (c : Cpu) (e : EnvIx) : View where
  env i := { v.env i with status := v.ranStatus c e i }
  cur := Function.update v.cur c (some e)
  mode := Function.update v.mode c .user

/-- `sched_yield`. -/
inductive Sched (v : View) (c : Cpu) : View → Prop
  | next {e : EnvIx} (he : (v.env e).status = .runnable) : Sched v c (v.run c e)
  | same {e : EnvIx} (hc : v.cur c = some e) (he : (v.env e).status = .running)
      (idle : ∀ i, (v.env i).status ≠ .runnable) : Sched v c (v.run c e)
  | halt (idle : ∀ i, (v.env i).status ≠ .runnable)
      (hc : ∀ e, v.cur c = some e → (v.env e).status ≠ .running)
      (live : ∃ e, (v.env e).status = .running ∨ (v.env e).status = .dying) :
      Sched v c { v with cur := Function.update v.cur c none
                         mode := Function.update v.mode c .halted }
  | monitor (idle : ∀ i, (v.env i).status ≠ .runnable)
      (hc : ∀ e, v.cur c = some e → (v.env e).status ≠ .running)
      (dead : ∀ e, (v.env e).status ≠ .running ∧ (v.env e).status ≠ .dying) :
      Sched v c { v with mode := Function.update v.mode c .monitor }

/-- The end of `trap`. -/
inductive Resumed (v : View) (c : Cpu) : View → Prop
  | run {e : EnvIx} (hc : v.cur c = some e) (hr : (v.env e).status = .running) :
      Resumed v c (v.run c e)
  | yield {v' : View} (hc : ∀ e, v.cur c = some e → (v.env e).status ≠ .running)
      (sched : Sched v c v') : Resumed v c v'

/-- `env_destroy`. -/
inductive Destroyed (v : View) (c : Cpu) (e : EnvIx) : Option Unit → View → Prop
  | mark (hr : (v.env e).status = .running) (hc : v.cur c ≠ some e) :
      Destroyed v c e (some ()) (v.setStatus e .dying)
  | other (hr : (v.env e).status ≠ .running) (hc : v.cur c ≠ some e) :
      Destroyed v c e (some ()) (v.setStatus e .free)
  | self {v' : View} (hc : v.cur c = some e)
      (sched : Sched ((v.setStatus e .free).leave c) c v') : Destroyed v c e none v'

/-! ## System calls -/

/-- The environment that `sys_exofork` adds in slot `e`. -/
def forked (v : View) (cur e : EnvIx) : View :=
  v.modEnv e fun env =>
    { env with
      status := .notRunnable
      id := nextEnvId env.id e
      parentId := (v.env cur).id
      eax := 0
      recving := false }

/-- The caller blocks in the waiting queue of `e`. -/
def enqueued (v : View) (cur e : EnvIx) (i : Fin 10) : View :=
  (v.setStatus cur .notRunnable).modEnv e fun env =>
    { env with
      waiting := Function.update env.waiting i (v.env cur).id
      tail := ((v.env e).tail + 1) % maxIpcWaiting }

/-- A message for `e`, with the permission `p` of the page that came with it. -/
def delivered (v : View) (cur e : EnvIx) (value p : Word) : View :=
  v.modEnv e fun env =>
    { env with
      recving := false
      sender := (v.env cur).id
      value := value
      perm := p
      status := .runnable
      eax := 0 }

def receiving (v : View) (cur : EnvIx) (dstva : Word) : View :=
  v.modEnv cur fun env => { env with recving := true, dstva := dstva, status := .notRunnable }

def dequeued (v : View) (cur : EnvIx) : View :=
  v.modEnv cur fun env => { env with head := (env.head + 1) % maxIpcWaiting }

/-- The wake-up of `sys_ipc_recv`. -/
inductive Woken (v : View) (cur : EnvIx) : Int → View → Prop
  | empty (h : (v.env cur).head = (v.env cur).tail) : Woken v cur 0 v
  | wake {i : Fin 10} {e : EnvIx} (h : (v.env cur).head ≠ (v.env cur).tail)
      (hi : (v.env cur).head.toNat = i)
      (he : (v.dequeued cur).envid2env cur ((v.env cur).waiting i) false = some e) :
      Woken v cur 0 ((v.dequeued cur).setStatus e .runnable)
  | stale {i : Fin 10} (h : (v.env cur).head ≠ (v.env cur).tail)
      (hi : (v.env cur).head.toNat = i)
      (he : (v.dequeued cur).envid2env cur ((v.env cur).waiting i) false = none) :
      Woken v cur (-eBadEnv) (v.dequeued cur)

/-- What a system call of `cur` on CPU `c` does. -/
inductive Called (v : View) (c : Cpu) (cur : EnvIx) : Sys → Args → Option Int → View → Prop
  | quiet {s : Sys} {a : Args} {r : Int} (hr : s.onView = true → BitVec.ofInt 32 r ≠ 0) :
      Called v c cur s a (some r) v
  | cputs {a : Args} {r : Option Unit} {v' : View} (d : Destroyed v c cur r v') :
      Called v c cur .cputs a (r.map fun _ => 0) v'
  | destroy {a : Args} {e : EnvIx} {r : Option Unit} {v' : View}
      (he : v.envid2env cur a.a1 true = some e) (d : Destroyed v c e r v') :
      Called v c cur .envDestroy a (r.map fun _ => 0) v'
  | yield {a : Args} {v' : View} (sched : Sched v c v') : Called v c cur .yield a none v'
  | fork {a : Args} {e : EnvIx} (free : (v.env e).status = .free) :
      Called v c cur .exofork a (some (nextEnvId (v.env e).id e).toInt) (v.forked cur e)
  | setStatus {a : Args} {e : EnvIx} (he : v.envid2env cur a.a1 true = some e)
      (hs : a.a2 = 2 ∨ a.a2 = 4) :
      Called v c cur .envSetStatus a (some 0)
        (v.setStatus e (if a.a2 = 2 then .runnable else .notRunnable))
  | enqueue {a : Args} {e : EnvIx} {i : Fin 10} (he : v.envid2env cur a.a1 false = some e)
      (hr : (v.env e).recving = false)
      (room : ((v.env e).tail + 1) % maxIpcWaiting ≠ (v.env e).head)
      (hi : (v.env e).tail.toNat = i) :
      Called v c cur .ipcTrySend a (some (-eIpcNotRecv)) (v.enqueued cur e i)
  | full {a : Args} {e : EnvIx} (he : v.envid2env cur a.a1 false = some e)
      (hr : (v.env e).recving = false)
      (room : ((v.env e).tail + 1) % maxIpcWaiting = (v.env e).head) :
      Called v c cur .ipcTrySend a (some (-eIpcNotRecv)) v
  | deliver {a : Args} {e : EnvIx} {p : Word} (he : v.envid2env cur a.a1 false = some e)
      (hr : (v.env e).recving = true) :
      Called v c cur .ipcTrySend a (some 0) (v.delivered cur e a.a2 p)
  | recv {a : Args} {v₁ v' : View} (wake : Woken (v.receiving cur a.a1) cur 0 v₁)
      (sched : Sched v₁ c v') : Called v c cur .ipcRecv a none v'
  | recvStale {a : Args} {v₁ : View} (wake : Woken (v.receiving cur a.a1) cur (-eBadEnv) v₁) :
      Called v c cur .ipcRecv a (some (-eBadEnv)) v₁

/-! ## Steps -/

/-- What a trap of `cur` on CPU `c` does. -/
inductive Trapped (v : View) (c : Cpu) (cur : EnvIx) (tf : Trapframe) : View → Prop
  | zombie {v' : View} (hd : (v.env cur).status = .dying)
      (sched : Sched ((v.setStatus cur .free).leave c) c v') : Trapped v c cur tf v'
  | destroy {v' : View} (hd : (v.env cur).status ≠ .dying) (hno : tf.tfTrapno ≠ 48)
      (sched : Sched (((v.setEax cur tf.tfRegs.regEax).setStatus cur .free).leave c) c v') :
      Trapped v c cur tf v'
  | upcall (hd : (v.env cur).status ≠ .dying) (hno : tf.tfTrapno ≠ 48) :
      Trapped v c cur tf ((v.setEax cur tf.tfRegs.regEax).run c cur)
  | nosys {v' : View} (hd : (v.env cur).status ≠ .dying) (hno : tf.tfTrapno = 48)
      (hs : Sys.ofNat tf.tfRegs.regEax.toNat = none)
      (ret : Resumed (v.setEax cur (BitVec.ofInt 32 (-eNoSys))) c v') : Trapped v c cur tf v'
  | call {s : Sys} {r : Int} {v₁ v' : View} (hd : (v.env cur).status ≠ .dying)
      (hno : tf.tfTrapno = 48) (hs : Sys.ofNat tf.tfRegs.regEax.toNat = some s)
      (called : Called (v.setEax cur tf.tfRegs.regEax) c cur s (argsOf tf) (some r) v₁)
      (ret : Resumed (v₁.setEax cur (BitVec.ofInt 32 r)) c v') : Trapped v c cur tf v'
  | leave {s : Sys} {v' : View} (hd : (v.env cur).status ≠ .dying) (hno : tf.tfTrapno = 48)
      (hs : Sys.ofNat tf.tfRegs.regEax.toNat = some s)
      (called : Called (v.setEax cur tf.tfRegs.regEax) c cur s (argsOf tf) none v') :
      Trapped v c cur tf v'
  | spurious {v' : View} (hd : (v.env cur).status ≠ .dying) (hno : tf.tfTrapno = 39)
      (ret : Resumed (v.setEax cur tf.tfRegs.regEax) c v') : Trapped v c cur tf v'
  | timer {v' : View} (hd : (v.env cur).status ≠ .dying) (hno : tf.tfTrapno = 32)
      (sched : Sched (v.setEax cur tf.tfRegs.regEax) c v') : Trapped v c cur tf v'

def LockFree (v : View) : Prop := ∀ c, v.mode c ≠ .monitor

/-- One step of the machine, as far as views go. -/
inductive Step (v : View) : Action → View → Prop
  | trap {c : Cpu} {tf : Trapframe} {io : Inputs} {cur : EnvIx} {v' : View}
      (hu : v.mode c = .user) (hl : v.LockFree) (hc : v.cur c = some cur)
      (t : Trapped v c cur tf v') : Step v (.trap c tf io) v'
  | wake {c : Cpu} {no : Word} {v' : View} (hm : v.mode c = .halted) (hl : v.LockFree)
      (h : Sched v c v' ∨ Resumed v c v') : Step v (.wake c no) v'
  | start {c : Cpu} {v' : View} (hm : v.mode c = .boot) (hl : v.LockFree) (h : Sched v c v') :
      Step v (.start c) v'
  | access {c : Cpu} {va : Word} {store : Option Byte} (hu : v.mode c = .user) :
      Step v (.access c va store) v

end View

end JosKernel
