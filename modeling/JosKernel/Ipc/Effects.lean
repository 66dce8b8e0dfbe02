import JosKernel.Ipc.View

/-!
# Effects of a step on environments

A step acts and then schedules. `Acted` says what a trap does on behalf of the environment that
caused it, with the result that this environment finds in `eax`. `Settled` says what the
scheduling afterwards may change: it turns runnable environments into running ones and back, and
touches only its own CPU. Invariants on views are proved for the two parts separately.
-/
namespace JosKernel

/-- An environment without its status. -/
def EnvView.core (env : EnvView) : EnvView := { env with status := .free }

/-- The system call that a trap frame asks for. -/
def Trapframe.call (tf : Trapframe) : Option (Sys × Args) :=
  if tf.tfTrapno = 48 then (Sys.ofNat tf.tfRegs.regEax.toNat).map fun s => (s, argsOf tf) else none

namespace View

variable {v v' v₁ : View} {c : Cpu} {cur e : EnvIx}

/-- The translation of ids does not read `eax`. -/
@[simp] theorem envid2env_setEax (v : View) (e cur : EnvIx) (w id : Word) (b : Bool) :
    (v.setEax e w).envid2env cur id b = v.envid2env cur id b := by
  have hs : ∀ i, ((v.setEax e w).env i).status = (v.env i).status ∧
      ((v.setEax e w).env i).id = (v.env i).id ∧
      ((v.setEax e w).env i).parentId = (v.env i).parentId := by
    intro i
    simp only [setEax, modEnv_env]
    split_ifs with h <;> simp [h]
  simp only [envid2env, hs]

/-! ## What scheduling changes -/

/-- `v'` is `v` after a visit of the scheduler on CPU `c`. -/
structure Settled (v : View) (c : Cpu) (v' : View) : Prop where
  core : ∀ i, (v'.env i).core = (v.env i).core
  status : ∀ i, (v'.env i).status = (v.env i).status ∨
    (v.env i).status = .runnable ∧ (v'.env i).status = .running ∨
    (v.env i).status = .running ∧ (v'.env i).status = .runnable
  other : ∀ c', c' ≠ c → v'.cur c' = v.cur c' ∧ v'.mode c' = v.mode c'
  self : ∀ e, v'.cur c = some e → v.cur c = some e ∨ (v'.env e).status = .running

theorem Settled.refl (v : View) (c : Cpu) : Settled v c v :=
  ⟨fun _ => rfl, fun _ => .inl rfl, fun _ _ => ⟨rfl, rfl⟩, fun _ => .inl⟩

/-- Scheduling creates and ends no environment. -/
theorem Settled.free (h : Settled v c v') (i : EnvIx) :
    (v'.env i).status = .free ↔ (v.env i).status = .free := by
  rcases h.status i with h | ⟨h, h'⟩ | ⟨h, h'⟩
  · rw [h]
  · simp [h, h']
  · simp [h, h']

/-- `env_run` of an environment that is runnable or goes on. -/
theorem settled_run (h : (v.env e).status = .runnable ∨ v.cur c = some e) :
    Settled v c (v.run c e) := by
  refine ⟨fun _ => rfl, fun i => ?_, fun c' hne => ?_, fun i hi => ?_⟩
  · show v.ranStatus c e i = _ ∨ _ ∧ v.ranStatus c e i = _ ∨ _ ∧ v.ranStatus c e i = _
    unfold ranStatus
    grind
  · simp [run, hne]
  · have : i = e := by simpa [run, eq_comm] using hi
    subst this
    by_cases hc : v.cur c = some i
    · exact .inl hc
    · exact .inr (by simp [run, ranStatus, hc])

theorem Sched.settled (h : Sched v c v') : Settled v c v' := by
  cases h with
  | next he => exact settled_run (.inl he)
  | same hc _ _ => exact settled_run (.inr hc)
  | halt _ _ _ =>
    exact ⟨fun _ => rfl, fun _ => .inl rfl, fun c' hne => by simp [hne], fun e h => by simp at h⟩
  | monitor _ _ _ =>
    exact ⟨fun _ => rfl, fun _ => .inl rfl, fun c' hne => by simp [hne], fun _ => .inl⟩

theorem Resumed.settled (h : Resumed v c v') : Settled v c v' := by
  cases h with
  | run hc _ => exact settled_run (.inr hc)
  | yield _ sched => exact sched.settled

/-! ## What a trap does -/

/-- What a trap of the live environment `cur` on CPU `c` does before scheduling. -/
inductive Acted (v : View) (c : Cpu) (cur : EnvIx) : Option (Sys × Args) → View → Prop
  | quiet {call : Option (Sys × Args)} {w : Word}
      (hw : ∀ s a, call = some (s, a) → s.onView = true → w ≠ 0) :
      Acted v c cur call (v.setEax cur w)
  | die {call : Option (Sys × Args)} {w : Word}
      (why : ∀ s a, call = some (s, a) →
        s = .cputs ∨ s = .envDestroy ∧ v.envid2env cur a.a1 true = some cur) :
      Acted v c cur call (((v.setEax cur w).setStatus cur .free).leave c)
  | mark {a : Args} {e : EnvIx} (he : v.envid2env cur a.a1 true = some e)
      (hr : (v.env e).status = .running) (hc : v.cur c ≠ some e) :
      Acted v c cur (some (.envDestroy, a)) ((v.setStatus e .dying).setEax cur 0)
  | kill {a : Args} {e : EnvIx} (he : v.envid2env cur a.a1 true = some e)
      (hr : (v.env e).status ≠ .running) (hc : v.cur c ≠ some e) :
      Acted v c cur (some (.envDestroy, a)) ((v.setStatus e .free).setEax cur 0)
  | fork {a : Args} {e : EnvIx} {w : Word} (free : (v.env e).status = .free) :
      Acted v c cur (some (.exofork, a)) ((v.forked cur e).setEax cur w)
  | setStatus {a : Args} {e : EnvIx} (he : v.envid2env cur a.a1 true = some e)
      (hs : a.a2 = 2 ∨ a.a2 = 4) :
      Acted v c cur (some (.envSetStatus, a))
        ((v.setStatus e (if a.a2 = 2 then .runnable else .notRunnable)).setEax cur 0)
  | enqueue {a : Args} {e : EnvIx} {i : Fin 10} (he : v.envid2env cur a.a1 false = some e)
      (hr : (v.env e).recving = false)
      (room : ((v.env e).tail + 1) % maxIpcWaiting ≠ (v.env e).head)
      (hi : (v.env e).tail.toNat = i) :
      Acted v c cur (some (.ipcTrySend, a))
        ((v.enqueued cur e i).setEax cur (BitVec.ofInt 32 (-eIpcNotRecv)))
  | deliver {a : Args} {e : EnvIx} {p : Word} (he : v.envid2env cur a.a1 false = some e)
      (hr : (v.env e).recving = true) :
      Acted v c cur (some (.ipcTrySend, a)) ((v.delivered cur e a.a2 p).setEax cur 0)
  | recv {a : Args} {w : Word} (h : (v.env cur).head = (v.env cur).tail) :
      Acted v c cur (some (.ipcRecv, a)) ((v.receiving cur a.a1).setEax cur w)
  | wake {a : Args} {e : EnvIx} {i : Fin 10} {w : Word}
      (h : (v.env cur).head ≠ (v.env cur).tail) (hi : (v.env cur).head.toNat = i)
      (he : ((v.receiving cur a.a1).dequeued cur).envid2env cur ((v.env cur).waiting i) false =
        some e) :
      Acted v c cur (some (.ipcRecv, a))
        ((((v.receiving cur a.a1).dequeued cur).setStatus e .runnable).setEax cur w)
  | stale {a : Args} {i : Fin 10}
      (h : (v.env cur).head ≠ (v.env cur).tail) (hi : (v.env cur).head.toNat = i)
      (he : ((v.receiving cur a.a1).dequeued cur).envid2env cur ((v.env cur).waiting i) false =
        none) :
      Acted v c cur (some (.ipcRecv, a))
        (((v.receiving cur a.a1).dequeued cur).setEax cur (BitVec.ofInt 32 (-eBadEnv)))

/-! ## From calls to effects

The frame that was saved at the entry is overwritten by the result. -/

section
variable (v : View) (cur : EnvIx) (x y : Word)

theorem setStatus_setEax (e : EnvIx) (s : EnvStatus) :
    (v.setEax cur x).setStatus e s = (v.setStatus e s).setEax cur x := by
  refine ext (fun i => ?_) (fun _ => rfl) fun _ => rfl
  simp only [setStatus, setEax, modEnv_env]
  grind

theorem forked_setEax (e : EnvIx) :
    ((v.setEax cur x).forked cur e).setEax cur y = (v.forked cur e).setEax cur y := by
  refine ext (fun i => ?_) (fun c => show v.cur c = v.cur c from rfl) fun c =>
    show v.mode c = v.mode c from rfl
  simp only [forked, setEax, modEnv_env]
  grind

theorem enqueued_setEax (e : EnvIx) (i : Fin 10) :
    (v.setEax cur x).enqueued cur e i = (v.enqueued cur e i).setEax cur x := by
  refine ext (fun j => ?_) (fun _ => rfl) fun _ => rfl
  simp only [enqueued, setStatus, setEax, modEnv_env]
  grind

theorem delivered_setEax (e : EnvIx) (value p : Word) :
    ((v.setEax cur x).delivered cur e value p).setEax cur y =
      (v.delivered cur e value p).setEax cur y := by
  refine ext (fun j => ?_) (fun _ => rfl) fun _ => rfl
  simp only [delivered, setEax, modEnv_env]
  grind

theorem receiving_setEax (dstva : Word) :
    (v.setEax cur x).receiving cur dstva = (v.receiving cur dstva).setEax cur x := by
  refine ext (fun j => ?_) (fun _ => rfl) fun _ => rfl
  simp only [receiving, setEax, modEnv_env]
  grind

theorem dequeued_setEax : (v.setEax cur x).dequeued cur = (v.dequeued cur).setEax cur x := by
  refine ext (fun j => ?_) (fun _ => rfl) fun _ => rfl
  simp only [dequeued, setEax, modEnv_env]
  grind

end

theorem setEax_field {α : Type} (f : EnvView → α) (hf : ∀ env w, f { env with eax := w } = f env)
    (v : View) (e i : EnvIx) (w : Word) : f ((v.setEax e w).env i) = f (v.env i) := by
  rw [setEax, modEnv_env]
  split_ifs with h
  · rw [hf, h]
  · rfl

@[simp] theorem setEax_status (v : View) (e i : EnvIx) (w : Word) :
    ((v.setEax e w).env i).status = (v.env i).status :=
  setEax_field (·.status) (fun _ _ => rfl) ..
@[simp] theorem setEax_recving (v : View) (e i : EnvIx) (w : Word) :
    ((v.setEax e w).env i).recving = (v.env i).recving :=
  setEax_field (·.recving) (fun _ _ => rfl) ..
@[simp] theorem setEax_head (v : View) (e i : EnvIx) (w : Word) :
    ((v.setEax e w).env i).head = (v.env i).head :=
  setEax_field (·.head) (fun _ _ => rfl) ..
@[simp] theorem setEax_tail (v : View) (e i : EnvIx) (w : Word) :
    ((v.setEax e w).env i).tail = (v.env i).tail :=
  setEax_field (·.tail) (fun _ _ => rfl) ..
@[simp] theorem setEax_waiting (v : View) (e i : EnvIx) (w : Word) :
    ((v.setEax e w).env i).waiting = (v.env i).waiting :=
  setEax_field (·.waiting) (fun _ _ => rfl) ..
@[simp] theorem setEax_id (v : View) (e i : EnvIx) (w : Word) :
    ((v.setEax e w).env i).id = (v.env i).id :=
  setEax_field (·.id) (fun _ _ => rfl) ..
@[simp] theorem setEax_cur (v : View) (e : EnvIx) (w : Word) : (v.setEax e w).cur = v.cur := rfl
@[simp] theorem receiving_head (v : View) (e : EnvIx) (w : Word) :
    ((v.receiving e w).env e).head = (v.env e).head := by simp [receiving]
@[simp] theorem receiving_tail (v : View) (e : EnvIx) (w : Word) :
    ((v.receiving e w).env e).tail = (v.env e).tail := by simp [receiving]
@[simp] theorem receiving_waiting (v : View) (e : EnvIx) (w : Word) :
    ((v.receiving e w).env e).waiting = (v.env e).waiting := by simp [receiving]

/-- The wake-up, as an effect of `sys_ipc_recv`. -/
theorem Woken.acted {a : Args} {x : Word} {r : Int}
    (h : Woken ((v.setEax cur x).receiving cur a.a1) cur r v₁) :
    r = 0 ∧ Acted v c cur (some (.ipcRecv, a)) v₁ ∨
      r = -eBadEnv ∧
        Acted v c cur (some (.ipcRecv, a)) (v₁.setEax cur (BitVec.ofInt 32 (-eBadEnv))) := by
  rw [receiving_setEax] at h
  cases h with
  | empty h => exact .inl ⟨rfl, .recv (by simpa using h)⟩
  | wake h hi he =>
    rw [dequeued_setEax] at he ⊢
    rw [setStatus_setEax]
    refine .inl ⟨rfl, .wake (by simpa using h) (by simpa using hi) ?_⟩
    simpa using he
  | stale h hi he =>
    rw [dequeued_setEax] at he ⊢
    rw [setEax_setEax]
    refine .inr ⟨rfl, .stale (by simpa using h) (by simpa using hi) ?_⟩
    simpa using he

/-- A call that returns. -/
theorem Called.acted {s : Sys} {a : Args} {x : Word} {r : Int} (hcur : v.cur c = some cur)
    (h : Called (v.setEax cur x) c cur s a (some r) v₁) :
    Acted v c cur (some (s, a)) (v₁.setEax cur (BitVec.ofInt 32 r)) := by
  generalize hr : some r = o at h
  cases h with
  | quiet hq =>
    cases hr
    rw [setEax_setEax]
    exact .quiet fun s' a' h => by cases h; exact hq
  | cputs d =>
    cases d with
    | mark _ hc => exact absurd hcur hc
    | other _ hc => exact absurd hcur hc
    | self _ _ => cases hr
  | destroy he d =>
    cases d with
    | mark hr' hc =>
      cases hr
      rw [setStatus_setEax, setEax_setEax]
      exact .mark (by simpa using he) (by simpa using hr') hc
    | other hr' hc =>
      cases hr
      rw [setStatus_setEax, setEax_setEax]
      exact .kill (by simpa using he) (by simpa using hr') hc
    | self _ _ => cases hr
  | yield _ => cases hr
  | fork free =>
    cases hr
    rw [forked_setEax]
    exact .fork (by simpa using free)
  | setStatus he hs =>
    cases hr
    rw [setStatus_setEax, setEax_setEax]
    exact .setStatus (by simpa using he) hs
  | enqueue he hr' room hi =>
    cases hr
    rw [enqueued_setEax, setEax_setEax]
    exact .enqueue (by simpa using he) (by simpa using hr') (by simpa using room)
      (by simpa using hi)
  | full he hr' room =>
    cases hr
    rw [setEax_setEax]
    exact .quiet fun _ _ _ _ => by decide
  | deliver he hr' =>
    cases hr
    rw [delivered_setEax]
    exact .deliver (by simpa using he) (by simpa using hr')
  | recv _ _ => cases hr
  | recvStale wake =>
    cases hr
    rcases wake.acted (c := c) with ⟨h, -⟩ | ⟨-, h⟩
    · cases h
    · exact h

/-- A call that does not return enters the scheduler. -/
theorem Called.acted_leave {s : Sys} {a : Args} {x : Word} (hcur : v.cur c = some cur)
    (h : Called (v.setEax cur x) c cur s a none v') (hx : s.onView = true → x ≠ 0) :
    ∃ v₁, Acted v c cur (some (s, a)) v₁ ∧ Sched v₁ c v' := by
  generalize hr : none = o at h
  cases h with
  | quiet _ => cases hr
  | cputs d =>
    cases d with
    | mark _ _ => cases hr
    | other _ _ => cases hr
    | self _ sched => exact ⟨_, .die (by simp), sched⟩
  | destroy he d =>
    cases d with
    | mark _ _ => cases hr
    | other _ _ => cases hr
    | self hc sched =>
      obtain rfl := Option.some.inj (hcur.symm.trans hc)
      refine ⟨_, .die fun s a h => ?_, sched⟩
      cases h
      exact .inr ⟨rfl, by simpa using he⟩
  | yield sched => exact ⟨_, .quiet (by simp [Sys.onView]), sched⟩
  | recv wake sched =>
    rcases wake.acted (c := c) with ⟨-, h⟩ | ⟨h, -⟩
    · exact ⟨_, h, sched⟩
    · exact absurd h (by decide)
  | fork _ => cases hr
  | setStatus _ _ => cases hr
  | enqueue _ _ _ _ => cases hr
  | full _ _ _ => cases hr
  | deliver _ _ => cases hr
  | recvStale _ => cases hr

theorem Trapframe.call_eq {tf : Trapframe} {s : Sys} (hno : tf.tfTrapno = 48)
    (hs : Sys.ofNat tf.tfRegs.regEax.toNat = some s) : tf.call = some (s, argsOf tf) := by
  simp [JosKernel.Trapframe.call, hno, hs]

theorem Trapped.acted {tf : Trapframe} (hcur : v.cur c = some cur) (h : Trapped v c cur tf v')
    (hd : (v.env cur).status ≠ .dying) :
    ∃ v₁, Acted v c cur tf.call v₁ ∧ Settled v₁ c v' := by
  have none : tf.tfTrapno ≠ 48 → tf.call = none := fun h => if_neg h
  cases h with
  | zombie h _ => exact absurd h hd
  | destroy _ hno sched =>
    exact ⟨_, .die fun s a h => by simp [none hno] at h, sched.settled⟩
  | upcall _ hno =>
    exact ⟨_, .quiet fun s a h => by simp [none hno] at h, settled_run (.inr hcur)⟩
  | nosys _ hno hs ret =>
    have : tf.call = .none := by simp [JosKernel.Trapframe.call, hno, hs]
    exact ⟨_, .quiet fun s a h => by simp [this] at h, ret.settled⟩
  | call _ hno hs called ret =>
    rw [Trapframe.call_eq hno hs]
    exact ⟨_, called.acted hcur, ret.settled⟩
  | leave _ hno hs called =>
    rw [Trapframe.call_eq hno hs]
    obtain ⟨v₁, h, sched⟩ := called.acted_leave hcur fun h0 hx => by
      rw [hx] at hs
      cases hs
      cases h0
    exact ⟨v₁, h, sched.settled⟩
  | spurious _ hno ret =>
    have hne : tf.tfTrapno ≠ 48 := by rw [hno]; decide
    exact ⟨_, .quiet fun s a h => by simp [none hne] at h, ret.settled⟩
  | timer _ hno sched =>
    have hne : tf.tfTrapno ≠ 48 := by rw [hno]; decide
    exact ⟨_, .quiet fun s a h => by simp [none hne] at h, sched.settled⟩

theorem Trapped.reaped {tf : Trapframe} (h : Trapped v c cur tf v')
    (hd : (v.env cur).status = .dying) :
    Settled ((v.setStatus cur .free).leave c) c v' := by
  cases h with
  | zombie _ sched => exact sched.settled
  | destroy h => exact absurd hd h
  | upcall h => exact absurd hd h
  | nosys h => exact absurd hd h
  | call h => exact absurd hd h
  | leave h => exact absurd hd h
  | spurious h => exact absurd hd h
  | timer h => exact absurd hd h

/-- The three kinds of steps: no trap, the last trap of a dying environment, and the trap of a live
one. -/
inductive Kinds (v : View) (a : Action) (v' : View) : Prop
  | idle (ha : ∀ c tf io, a ≠ .trap c tf io) (s : Settled v a.cpu v')
  | reap {c : Cpu} {tf : Trapframe} {io : Inputs} {cur : EnvIx} (ha : a = .trap c tf io)
      (hcur : v.cur c = some cur) (hd : (v.env cur).status = .dying)
      (s : Settled ((v.setStatus cur .free).leave c) c v')
  | act {c : Cpu} {tf : Trapframe} {io : Inputs} {cur : EnvIx} {v₁ : View}
      (ha : a = .trap c tf io) (hcur : v.cur c = some cur) (hd : (v.env cur).status ≠ .dying)
      (act : Acted v c cur tf.call v₁) (s : Settled v₁ c v')

theorem Step.kinds {a : Action} (h : Step v a v') : Kinds v a v' := by
  cases h with
  | @trap c tf io cur v' hu hl hc t =>
    by_cases hd : (v.env cur).status = .dying
    · exact .reap rfl hc hd (t.reaped hd)
    · obtain ⟨v₁, act, s⟩ := t.acted hc hd
      exact .act rfl hc hd act s
  | wake _ _ h =>
    refine .idle (fun _ _ _ h => by cases h) ?_
    rcases h with h | h
    · exact h.settled
    · exact h.settled
  | start _ _ h => exact .idle (fun _ _ _ h => by cases h) h.settled
  | access _ => exact .idle (fun _ _ _ h => by cases h) (.refl _ _)

end View

end JosKernel
