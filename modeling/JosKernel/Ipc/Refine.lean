import JosKernel.Env.Running
import JosKernel.Ipc.View

/-!
# The kernel refines its view

`Step.view`: what a step of the machine does to the view of the kernel is a step of views. One
lemma for every inversion of `Env.Cases` carries it over. The only thing that is asked of the
kernel is that its free list holds free slots.
-/
namespace JosKernel

variable {n : Nat} {k k' : Kernel n} {c : Cpu} {cur e : EnvIx}

/-! ## Operations -/

@[simp] theorem view_env (k : Kernel n) (i : EnvIx) : k.view.env i = (k.envs i).view := rfl
@[simp] theorem view_cur (k : Kernel n) (c : Cpu) : k.view.cur c = k.curenv c := rfl
@[simp] theorem view_mode (k : Kernel n) (c : Cpu) : k.view.mode c = (k.cpus c).cpuMode := rfl

@[simp] theorem view_mem (k : Kernel n) (m : Mem n) : { k with mem := m }.view = k.view := rfl

theorem view_status (k : Kernel n) (i : EnvIx) : (k.view.env i).status = k.status i := rfl

theorem view_modEnv (k : Kernel n) (e : EnvIx) {f : Env n → Env n} {g : EnvView → EnvView}
    (h : (f (k.envs e)).view = g (k.envs e).view) : (k.modEnv e f).view = k.view.modEnv e g := by
  refine View.ext (fun i => ?_) (fun _ => rfl) fun _ => rfl
  by_cases hi : i = e
  · subst hi
    simpa [View.modEnv] using h
  · simp [View.modEnv, hi, Kernel.modEnv_of_ne _ _ hi]

/-- An update that views do not see. -/
theorem view_modEnv_same (k : Kernel n) (e : EnvIx) {f : Env n → Env n}
    (h : (f (k.envs e)).view = (k.envs e).view) : (k.modEnv e f).view = k.view := by
  rw [view_modEnv (g := id) k e h]
  exact View.ext (fun i => congrFun (Function.update_eq_self e k.view.env) i) (fun _ => rfl)
    fun _ => rfl

theorem view_setStatus (k : Kernel n) (e : EnvIx) (s : EnvStatus) :
    (k.setStatus e s).view = k.view.setStatus e s := view_modEnv k e rfl

theorem view_saved (k : Kernel n) (cur : EnvIx) (tf : Trapframe) :
    (saved k cur tf).view = k.view.setEax cur tf.tfRegs.regEax := view_modEnv k cur rfl

theorem view_setResult (k : Kernel n) (cur : EnvIx) (v : Int) :
    (setResult k cur v).view = k.view.setEax cur (BitVec.ofInt 32 v) := view_modEnv k cur rfl

theorem view_receiving (k : Kernel n) (cur : EnvIx) (dstva : Word) :
    (receiving k cur dstva).view = k.view.receiving cur dstva := view_modEnv k cur rfl

theorem view_dequeued (k : Kernel n) (cur : EnvIx) :
    (dequeued k cur).view = k.view.dequeued cur := view_modEnv k cur rfl

theorem view_enqueued (k : Kernel n) (cur e : EnvIx) (i : Fin 10) :
    (enqueued k cur e i).view = k.view.enqueued cur e i := by
  rw [View.enqueued, ← view_setStatus]
  exact view_modEnv _ e rfl

theorem view_forked (k : Kernel n) (cur e : EnvIx) (g : Fin n) (m : Mem n) :
    (forked k cur e g m).view = k.view.forked cur e := by
  refine View.ext (fun i => ?_) (fun _ => rfl) fun _ => rfl
  by_cases hi : i = e
  · subst hi
    simp [View.forked, View.modEnv, forked, forkedEnv, Env.view, Trapframe.setEax]
  · simp [View.forked, View.modEnv, forked, hi]

theorem view_freed (k : Kernel n) (c : Cpu) (e : EnvIx) (m : Mem n) :
    (freed k c e m).view = k.view.setStatus e .free := by
  refine View.ext (fun i => ?_) (fun c' => freed_curenv ..) fun c' => ?_
  · by_cases hi : i = e
    · subst hi
      simp [View.setStatus, View.modEnv, freed, Env.view]
    · simp [View.setStatus, View.modEnv, freed, hi]
  · simp only [view_mode, freed, View.setStatus, View.modEnv]
    split_ifs with hc
    · by_cases hc' : c' = c
      · subst hc'; simp
      · simp [hc']
    · rfl

theorem view_leave (k : Kernel n) (c : Cpu) :
    (k.modCpu c fun cpu => { cpu with cpuEnv := none }).view = k.view.leave c := by
  refine View.ext (fun _ => rfl) (fun c' => ?_) fun c' => ?_
  · by_cases hc : c' = c
    · subst hc; simp [View.leave, Kernel.curenv]
    · simp [View.leave, Kernel.curenv, Kernel.modCpu_apply, hc]
  · by_cases hc : c' = c
    · subst hc; simp [View.leave]
    · simp [View.leave, Kernel.modCpu_apply, hc]

theorem envid2env_view (k : Kernel n) (cur : EnvIx) (id : Word) (b : Bool) :
    k.view.envid2env cur id b = envid2env k cur id b := rfl

/-! ## Running and scheduling -/

theorem Ran.view (run : Ran k c e k') : k'.view = k.view.run c e := by
  refine View.ext (fun i => ?_) (fun c' => ?_) fun c' => ?_
  · have hcore : (k'.envs i).core.view = (k.envs i).core.view := by rw [run.core i]
    have hs : (k'.envs i).view = { (k'.envs i).core.view with status := k'.status i } := rfl
    rw [view_env, hs, hcore, run.status i]
    rfl
  · by_cases hc : c' = c
    · subst hc; simpa [View.run] using run.cur
    · simp [View.run, hc, Kernel.curenv, run.other c' hc]
  · by_cases hc : c' = c
    · subst hc; simpa [View.run] using run.mode
    · simp [View.run, hc, run.other c' hc]

theorem Scheduled.view (sched : Scheduled k c k') : k.view.Sched c k'.view := by
  cases sched with
  | next he run => rw [run.view]; exact .next he
  | same hc he idle run => rw [run.view]; exact .same hc he idle
  | halt idle hc =>
    unfold schedHalt
    split_ifs with hlive
    · have hv : (k.modCpu c fun _ => ⟨.halted, none, k.mem.kernPgdir⟩).view =
          { k.view with cur := Function.update k.view.cur c none
                        mode := Function.update k.view.mode c .halted } := by
        refine View.ext (fun _ => rfl) (fun c' => ?_) fun c' => ?_
        · by_cases h : c' = c
          · subst h; simp [Kernel.curenv]
          · simp [h, Kernel.curenv, Kernel.modCpu_apply]
        · by_cases h : c' = c
          · subst h; simp
          · simp [h, Kernel.modCpu_apply]
      rw [hv]
      obtain ⟨e, he⟩ := hlive
      exact .halt idle hc ⟨e, he.resolve_left (idle e)⟩
    · have hv : (k.modCpu c fun cpu => { cpu with cpuMode := .monitor }).view =
          { k.view with mode := Function.update k.view.mode c .monitor } := by
        refine View.ext (fun _ => rfl) (fun c' => ?_) fun c' => ?_
        · by_cases h : c' = c
          · subst h; simp [Kernel.curenv]
          · simp [h, Kernel.curenv, Kernel.modCpu_apply]
        · by_cases h : c' = c
          · subst h; simp
          · simp [h, Kernel.modCpu_apply]
      rw [hv]
      refine .monitor idle hc fun e => ⟨fun h => hlive ⟨e, .inr (.inl h)⟩, fun h => ?_⟩
      exact hlive ⟨e, .inr (.inr h)⟩

theorem Resumed.view (h : Resumed k c k') : k.view.Resumed c k'.view := by
  cases h with
  | run hc hr run => rw [run.view]; exact .run hc hr
  | yield hc sched => exact .yield hc sched.view

/-- Freeing the current environment and entering the scheduler. -/
theorem view_freeSelf {k₁ : Kernel n} (free : envFree k c e = .ok k₁)
    (sched : Scheduled (k₁.modCpu c fun cpu => { cpu with cpuEnv := none }) c k') :
    ((k.view.setStatus e .free).leave c).Sched c k'.view := by
  obtain ⟨g, m₁, m, -, -, -, rfl⟩ := envFree_ok free
  have h := sched.view
  rwa [view_leave, view_freed] at h

theorem Destroyed.view {r : Option Unit} (d : Destroyed k c e r k') :
    k.view.Destroyed c e r k'.view := by
  cases d with
  | mark hr hc => rw [view_setStatus]; exact .mark hr hc
  | other hr hc free =>
    obtain ⟨g, m₁, m, -, -, -, rfl⟩ := envFree_ok free
    rw [view_freed]
    exact .other hr hc
  | self hc free sched => exact .self hc (view_freeSelf free sched)

/-! ## System calls -/

theorem pageInsert_result {m m' : Mem n} {g pp : Fin n} {va perm : Word} {r : Int}
    (h : m.pageInsert g pp va perm = .ok (r, m')) : r = -eNoMem ∨ r = 0 := by
  unfold Mem.pageInsert at h
  rw [bind_ok] at h
  obtain ⟨⟨o, m₁⟩, -, h⟩ := h
  cases o with
  | none => cases h; exact .inl rfl
  | some slot =>
    simp only at h
    split_ifs at h
    · rw [bind_ok] at h
      obtain ⟨m₂, -, h⟩ := h
      cases h
      exact .inr rfl
    · cases h
      exact .inr rfl

theorem Sent.error {srcva perm : Word} {r : Int} (h : Sent k cur e srcva perm r k')
    (hr : r < 0) : BitVec.ofInt 32 r ≠ 0 := by
  cases h with
  | refused => decide
  | noMem _ _ _ _ _ _ _ hins =>
    rcases pageInsert_result hins with rfl | rfl
    · decide
    · exact absurd hr (by decide)
  | page => exact absurd hr (by decide)
  | unwanted => exact absurd hr (by decide)
  | word => exact absurd hr (by decide)

/-- A refused message changes at most memory. -/
theorem Sent.view_error {srcva perm : Word} {r : Int} (h : Sent k cur e srcva perm r k')
    (hr : r < 0) : k'.view = k.view := by
  cases h with
  | refused => rfl
  | noMem => rfl
  | page => exact absurd hr (by decide)
  | unwanted => rfl
  | word => exact absurd hr (by decide)

theorem Sent.view_delivered {srcva perm value : Word} {r : Int} {k₁ : Kernel n}
    (h : Sent k cur e srcva perm r k₁) :
    ∃ p, (delivered k₁ cur e value).view = k.view.delivered cur e value p := by
  obtain ⟨m, p, rfl⟩ := h.state
  refine ⟨p, View.ext (fun i => ?_) (fun _ => rfl) fun _ => rfl⟩
  by_cases hi : i = e
  · subst hi
    by_cases hc : cur = i
    · subst hc
      simp [View.delivered, View.modEnv, delivered, Env.view, Trapframe.setEax]
    · simp [View.delivered, View.modEnv, delivered, Env.view, Trapframe.setEax,
        Kernel.modEnv_of_ne _ _ hc]
  · simp [View.delivered, View.modEnv, delivered, Kernel.modEnv_of_ne _ _ hi, hi]

theorem Woken.view {r : Int} (w : Woken k cur r k') : k.view.Woken cur r k'.view := by
  cases w with
  | empty h => exact .empty h
  | wake h hi he =>
    rw [view_setStatus, view_dequeued]
    exact .wake h hi (by rw [← view_dequeued]; exact he)
  | stale h hi he =>
    rw [view_dequeued]
    exact .stale h hi (by rw [← view_dequeued]; exact he)

theorem MemEffect.onView {s : Sys} {a : Args} {v : Int} {m : Mem n} (h : MemEffect k cur s a v m)
    (hs : s.onView = true) : BitVec.ofInt 32 v ≠ 0 := by
  cases h with
  | same hv _ =>
    apply hv
    cases s <;> first | rfl | cases hs
  | alloc => cases hs
  | allocFail => cases hs
  | map => cases hs
  | unmap => cases hs

theorem Called.view {s : Sys} {a : Args} {r : Option Int} (hslots : SlotInv k)
    (h : Called k c cur s a r k') : k.view.Called c cur s a r k'.view := by
  cases h with
  | memory op => exact .quiet op.onView
  | cputs _ _ d => exact .cputs d.view
  | destroy he d => exact .destroy he d.view
  | yield sched => exact .yield sched.view
  | @fork a e g m free vm =>
    rw [view_forked]
    exact .fork (hslots.forked cur g m free).1
  | setStatus he hs =>
    rw [view_setStatus]
    exact .setStatus he hs
  | setUpcall he =>
    rw [view_modEnv_same _ _ rfl]
    exact .quiet (by simp [Sys.onView])
  | enqueue he hr room hi =>
    rw [view_enqueued]
    exact .enqueue he hr room hi
  | full he hr room => exact .full he hr room
  | deliver he hr page hpos =>
    obtain ⟨p, hp⟩ : ∃ p, (delivered _ cur _ a.a2).view = _ := page.view_delivered
    rw [hp]
    exact .deliver he hr
  | refuse he hr page hneg =>
    rw [page.view_error hneg]
    exact .quiet fun _ => page.error hneg
  | recv hva wake sched =>
    have hw := wake.view
    rw [view_receiving] at hw
    exact .recv hw sched.view
  | recvStale hva wake =>
    have hw := wake.view
    rw [view_receiving] at hw
    exact .recvStale hw

/-! ## Steps -/

theorem SlotInv.saved (h : SlotInv k) (cur : EnvIx) (tf : Trapframe) : SlotInv (saved k cur tf) :=
  h.congr (.of_modEnv _ rfl .rfl)

theorem Trapped.view {tf : Trapframe} {io : Inputs} (hslots : SlotInv k)
    (h : Trapped k c cur tf io k') : k.view.Trapped c cur tf k'.view := by
  cases h with
  | zombie hd free sched => exact .zombie hd (view_freeSelf free sched)
  | destroy hd why free sched =>
    have hs := view_freeSelf free sched
    rw [view_saved] at hs
    exact .destroy hd why.ne_syscall hs
  | @upcall exc g m k' hd hexc _ _ _ _ run =>
    have hv : (upcalled k cur tf exc m).view = k.view.setEax cur tf.tfRegs.regEax := by
      rw [upcalled, view_modEnv_same, view_mem, view_saved]
      rfl
    rw [run.view, hv]
    exact .upcall hd (ne_syscall_of_exc hexc)
  | nosys hd hno hs ret =>
    have hr := ret.view
    rw [view_setResult, view_saved, View.setEax_setEax] at hr
    exact .nosys hd hno hs hr
  | call hd hno hs called ret =>
    have hc := called.view (hslots.saved cur tf)
    have hr := ret.view
    rw [view_saved] at hc
    rw [view_setResult] at hr
    exact .call hd hno hs hc hr
  | leave hd hno hs called =>
    have hc := called.view (hslots.saved cur tf)
    rw [view_saved] at hc
    exact .leave hd hno hs hc
  | spurious hd hno ret =>
    have hr := ret.view
    rw [view_saved] at hr
    exact .spurious hd hno hr
  | timer hd hno sched =>
    have hs := sched.view
    rw [view_saved] at hs
    exact .timer hd hno hs

/-- A step of the machine is a step of its view. -/
theorem Step.view {a : Action} (hslots : SlotInv k) (h : Step k a k') :
    k.view.Step a k'.view := by
  cases a with
  | trap c tf io =>
    obtain ⟨hu, hl, cur, hc, ht⟩ := step_trap h
    exact .trap hu hl hc (ht.view hslots)
  | wake c no =>
    obtain ⟨hm, hl, hs⟩ := step_wake h
    exact .wake hm hl (hs.imp (·.view) (·.view))
  | start c =>
    obtain ⟨hm, hl, hs⟩ := step_start h
    exact .start hm hl hs.view
  | access c va store =>
    obtain ⟨hm, -, rfl | ⟨m, -, rfl⟩⟩ := step_access h
    · exact .access hm
    · exact .access hm

end JosKernel
