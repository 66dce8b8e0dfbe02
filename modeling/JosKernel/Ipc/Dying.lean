import JosKernel.Ipc.Table

/-!
# Killing is permanent

An environment that `env_destroy` marks `ENV_DYING` is to stay that way until the CPU that runs it
enters the kernel, and is freed there. The kernel writes the status of environments without looking
at the old one: `sys_env_set_status`, the delivery of a message, the wake-up of a queued sender and
a second `env_destroy` can all hit a dying environment. `SparesDying` excludes just that.
-/
namespace JosKernel

open Lib

variable {n : Nat} {S : Set (Fin n)} {k k' : Kernel n} {a : Action} {cur e : EnvIx}

/-- The call is a `sys_env_destroy` of `e`, which runs on another CPU. -/
def Marks (k : Kernel n) (a : Action) (e : EnvIx) : Prop :=
  ∃ cur args, callOf k a = some (cur, .envDestroy, args) ∧
    envid2env k cur args.a1 true = some e ∧ k.status e = .running ∧ e ≠ cur

/-- The action is the entry into the kernel of a CPU that runs `e`. -/
def Enters (k : Kernel n) (a : Action) (e : EnvIx) : Prop :=
  ∃ c tf io, a = .trap c tf io ∧ k.curenv c = some e

/-- `e` is freed, and what its trap frame asks for has no influence on the outcome. -/
def Reaped (k : Kernel n) (a : Action) (e : EnvIx) (k' : Kernel n) : Prop :=
  k'.status e = .free ∧ ∀ c tf io, a = .trap c tf io → ∀ tf' io',
    perform k (.trap c tf' io') = .ok k'

/-- After step `i`, `e` is dying until its next entry into the kernel, and is freed there. -/
def StaysDead (s : ℕ → Kernel n) (a : ℕ → Action) (N i : ℕ) (e : EnvIx) : Prop :=
  ∀ j, i < j → j ≤ N → (∀ l, i < l → l < j → ¬Enters (s l) (a l) e) →
    (s j).status e = .dying ∧
      (j < N → Enters (s j) (a j) e → Reaped (s j) (a j) e (s (j + 1)))

/-- The call does not change the status of a dying environment. -/
def SparesDying (k : Kernel n) (_ : Cpu) (cur : EnvIx) (s : Sys) (a : Args) : Prop :=
  match s with
  | .envSetStatus => a.a2 = 2 ∨ a.a2 = 4 → ∀ e, envid2env k cur a.a1 true = some e →
      k.status e ≠ .dying
  | .envDestroy => ∀ e, envid2env k cur a.a1 true = some e → k.status e ≠ .dying
  | .ipcTrySend => ∀ e, envid2env k cur a.a1 false = some e →
      (k.envs e).envIpcRecving = true → k.status e ≠ .dying
  | .ipcRecv => (k.envs cur).envIpcWaitingHead ≠ (k.envs cur).envIpcWaitingTail →
      ∀ (i : Fin 10) e, (k.envs cur).envIpcWaitingHead.toNat = i →
        envid2env k cur ((k.envs cur).envIpcWaiting i) false = some e → k.status e ≠ .dying
  | _ => True

/-! ## Steps -/

namespace View

theorem Acted.dying {call : Option (Sys × Args)} {v₁ : View} {c : Cpu}
    (h : k.view.Acted c cur call v₁) (ok : ∀ s a, call = some (s, a) → SparesDying k c cur s a)
    (hcur : k.status cur ≠ .dying) (hlive : k.status cur ≠ .free) (he : k.status e = .dying) :
    (v₁.env e).status = .dying := by
  have hne : e ≠ cur := fun h => hcur (h ▸ he)
  have he' : (k.view.env e).status = .dying := he
  have other : ∀ {i : EnvIx}, k.status i ≠ .dying → e ≠ i := fun hi h => hi (h ▸ he)
  cases h with
  | quiet _ => simpa using he'
  | die _ => simpa [View.leave, View.setStatus, modEnv_of_ne _ _ hne] using he'
  | mark _ _ _ =>
    simp only [setEax, View.setStatus, modEnv_env]
    grind
  | kill hid _ _ =>
    have hi := other (ok _ _ rfl _ hid)
    simpa [View.setStatus, modEnv_of_ne _ _ hi] using he'
  | @fork a i w free =>
    have hi : e ≠ i := by
      rintro rfl
      rw [he'] at free
      cases free
    simpa [View.forked, modEnv_of_ne _ _ hi] using he'
  | setStatus hid hs =>
    have hi := other (ok _ _ rfl hs _ hid)
    simpa [View.setStatus, modEnv_of_ne _ _ hi] using he'
  | enqueue _ _ _ _ =>
    simp only [setEax, View.enqueued, View.setStatus, modEnv_env]
    grind
  | deliver hid hr =>
    have hi := other (ok _ _ rfl _ hid hr)
    simpa [View.delivered, modEnv_of_ne _ _ hi] using he'
  | recv _ => simpa [View.receiving, modEnv_of_ne _ _ hne] using he'
  | wake hq hi hid =>
    rw [envid2env_dequeued hlive] at hid
    have hi := other (ok _ _ rfl hq _ _ hi hid)
    simpa [View.setStatus, View.receiving, View.dequeued, modEnv_of_ne _ _ hi,
      modEnv_of_ne _ _ hne] using he'
  | stale _ _ _ => simpa [View.receiving, View.dequeued, modEnv_of_ne _ _ hne] using he'

theorem Settled.dying {v v' : View} {c : Cpu} (h : Settled v c v')
    (he : (v.env e).status = .dying) : (v'.env e).status = .dying := by
  rcases h.status e with h | ⟨h, -⟩ | ⟨h, -⟩
  · rw [h, he]
  · simp [he] at h
  · simp [he] at h

end View

/-- What is required of every call holds of the call that a trap frame asks for. -/
theorem OnCall.of_call {P : Kernel n → Cpu → EnvIx → Sys → Args → Prop} {c : Cpu}
    {tf : Trapframe} {io : Inputs} (ok : OnCall P k (.trap c tf io))
    (hcur : k.curenv c = some cur) (hd : k.status cur ≠ .dying) {s : Sys} {args : Args}
    (h : tf.call = some (s, args)) : P k c cur s args := by
  unfold Trapframe.call at h
  split_ifs at h with hno
  rw [Option.map_eq_some_iff] at h
  obtain ⟨s', hs, h⟩ := h
  cases h
  exact ok cur s hcur hd hno hs

/-- A dying environment stays dying until the CPU that runs it enters the kernel. -/
theorem Step.dying (inv : TableInv k) (ok : OnCall SparesDying k a) (h : Step k a k')
    (he : k.status e = .dying) (hne : ¬Enters k a e) : k'.status e = .dying := by
  cases (h.view inv.slots).kinds with
  | idle _ s => exact s.dying he
  | @reap c tf io i ha hcur hd s =>
    have hi : e ≠ i := fun h => hne ⟨c, tf, io, ha, h ▸ hcur⟩
    have he' : (k.view.env e).status = .dying := he
    refine s.dying ?_
    simpa [View.leave, View.setStatus, View.modEnv_of_ne _ _ hi] using he'
  | @act c tf io i v₁ ha hcur hd act s =>
    subst ha
    exact s.dying (act.dying (fun s args h => ok.of_call hcur hd h) hd (inv.live.cur c i hcur) he)

/-- The entry of the CPU that runs a dying environment. -/
theorem Step.reaped (inv : TableInv k) (h : Step k a k') (he : k.status e = .dying)
    (hen : Enters k a e) : Reaped k a e k' := by
  obtain ⟨c, tf, io, rfl, hc⟩ := hen
  constructor
  · cases (h.view inv.slots).kinds with
    | idle ha _ => exact absurd rfl (ha c tf io)
    | reap ha hcur hd s =>
      cases ha
      obtain rfl := Option.some.inj (hcur.symm.trans hc)
      refine (s.free _).mpr ?_
      simp [View.leave, View.setStatus]
    | act ha hcur hd _ _ =>
      cases ha
      obtain rfl := Option.some.inj (hcur.symm.trans hc)
      exact absurd he hd
  · rintro c' tf₁ io₁ heq tf' io'
    cases heq
    have hno : ∀ tf io, perform k (.trap c tf io) = (envFree k c e >>= fun k =>
        schedYield (k.modCpu c fun cpu => { cpu with cpuEnv := none }) c) := by
      intro tf io
      simp only [perform, trap, hc, he, if_true]
    rw [hno, ← hno tf io]
    exact h.2

/-- `env_destroy` marks an environment that runs elsewhere. -/
theorem Marks.dying (hm : Marks k a e) (h : Step k a k') :
    k'.status e = .dying := by
  obtain ⟨cur, args, hc, he, hr, hne⟩ := hm
  have hsys : ∀ c tf io, k.curenv c = some cur →
      Sys.ofNat tf.tfRegs.regEax.toNat = some .envDestroy →
      syscall (saved k cur tf) c cur io tf.tfRegs.regEax args.a1 args.a2 args.a3 args.a4 args.a5 =
        .ok (some 0, (saved k cur tf).setStatus e .dying) := by
    intro c tf io hcur hs
    have hself : (saved k cur tf).curenv c ≠ some e := by
      rw [saved_curenv, hcur]
      exact fun h => hne (Option.some.inj h).symm
    have hdes : envDestroy (saved k cur tf) c e =
        .ok (some (), (saved k cur tf).setStatus e .dying) := by
      unfold envDestroy
      rw [if_pos ⟨by rw [saved_status]; exact hr, hself⟩]
      rfl
    unfold syscall
    rw [hs]
    simp only [sysEnvDestroy, envid2env_saved, he, hdes, bind, Except.bind, pure, Except.pure,
      Option.map]
  obtain ⟨c, tf, io, rfl, hcur, hret⟩ := step_syscall hc h hsys
  refine hret.view.settled.dying ?_
  rw [view_setResult, view_setStatus]
  simp [View.setStatus]

/-! ## Runs -/

theorem tableInv_of_run {N : ℕ} {s : ℕ → Kernel n} {a : ℕ → Action} (boot : Boot S (s 0))
    (run : IsRun Step N s a) (ok : ∀ i < N, FreeOk (s i) (a i)) {i : ℕ} (hi : i ≤ N) :
    TableInv (s i) := by
  induction i with
  | zero => exact tableInv_boot boot
  | succ i ih => exact (ih (by omega)).step (ok i hi) (run i hi)

/-- In a run in which no environment is freed while it is current on another CPU and no system
call changes the status of a dying environment, killing is permanent. -/
theorem staysDead_of_sparesDying {N : ℕ} {s : ℕ → Kernel n} {a : ℕ → Action} {i : ℕ}
    (boot : Boot S (s 0)) (run : IsRun Step N s a)
    (ok : ∀ i < N, FreeOk (s i) (a i) ∧ OnCall SparesDying (s i) (a i)) (hi : i < N)
    (hm : Marks (s i) (a i) e) : StaysDead s a N i e := by
  have inv : ∀ j ≤ N, TableInv (s j) := fun j hj =>
    tableInv_of_run boot run (fun l hl => (ok l hl).1) hj
  have dying : ∀ j, i < j → j ≤ N → (∀ l, i < l → l < j → ¬Enters (s l) (a l) e) →
      (s j).status e = .dying := by
    intro j hij
    induction j, hij using Nat.le_induction with
    | base => exact fun hj _ => hm.dying (run i hi)
    | succ j hij ih =>
      intro hj hno
      have hd := ih (by omega) fun l hl hlj => hno l hl (by omega)
      exact (run j (by omega)).dying (inv j (by omega)) (ok j (by omega)).2 hd
        (hno j (by omega) (by omega))
  intro j hij hj hno
  have hd := dying j hij hj hno
  exact ⟨hd, fun hjN hen => (run j hjN).reaped (inv j hj) hd hen⟩

/-! ### A run with a kill -/

/-- What has to be checked for a system call of the run. -/
theorem OnCall.sysTrap {P : Kernel n → Cpu → EnvIx → Sys → Args → Prop} {c : Cpu} {s : Sys}
    {no a1 a2 a3 a4 a5 : Word} (hcur : k.curenv c = some cur) (hs : Sys.ofNat no.toNat = some s)
    (h : P k c cur s ⟨a1, a2, a3, a4, a5⟩) : OnCall P k (sysTrap c no a1 a2 a3 a4 a5) := by
  intro cur' s' hcur' _ _ hs'
  obtain rfl := Option.some.inj (hcur.symm.trans hcur')
  obtain rfl := Option.some.inj (hs.symm.trans hs')
  exact h

theorem FreeOk.sysTrap {c : Cpu} {s : Sys} {no a1 a2 a3 a4 a5 : Word}
    (hcur : k.curenv c = some cur) (hs : Sys.ofNat no.toNat = some s) (hq : Quiet k c cur)
    (h : DestroyOk k c cur s ⟨a1, a2, a3, a4, a5⟩) : FreeOk k (sysTrap c no a1 a2 a3 a4 a5) := by
  refine ⟨.sysTrap hcur hs h, fun cur' hcur' _ => ?_⟩
  obtain rfl := Option.some.inj (hcur.symm.trans hcur')
  exact hq

/-- The first environment forks a child, which runs on the second CPU, and destroys it. Then the
child traps. -/
def killRun : List Action :=
  [.start 0, sysTrap 0 7 0 0 0 0 0, sysTrap 0 8 0x1001 2 0 0 0, .start 1,
    sysTrap 0 3 0x1001 0 0 0 0, sysTrap 1 10 0 0 0 0 0]

theorem marks_killRun : Marks (stateAt small killRun 4) (actionAt killRun 4) 1 := by
  refine ⟨0, ⟨0x1001, 0, 0, 0, 0⟩, callOf_eq_some ?_ ?_ rfl rfl, ?_, ?_, by decide⟩ <;>
    decide +kernel

theorem staysDead_killRun : StaysDead (stateAt small killRun) (actionAt killRun) 6 4 1 := by
  have hcur : ∀ i : Fin 5, 0 < i → (stateAt small killRun i).curenv 0 = some 0 ∧
      Quiet (stateAt small killRun i) 0 0 := by
    unfold Quiet
    decide +kernel
  have hchild : ∀ i : Fin 5, 2 ≤ i → (stateAt small killRun i).status 1 ≠ .dying ∧
      envid2env (stateAt small killRun i) 0 0x1001 true = some 1 := by
    decide +kernel
  refine staysDead_of_sparesDying boot_small (isRun_stateAt (by decide +kernel)) (fun i hi => ?_)
    (by decide) marks_killRun
  obtain rfl | rfl | rfl | rfl | rfl | rfl : i = 0 ∨ i = 1 ∨ i = 2 ∨ i = 3 ∨ i = 4 ∨ i = 5 := by
    omega
  · exact ⟨⟨trivial, trivial⟩, trivial⟩
  · obtain ⟨h, hq⟩ := hcur 1 (by decide)
    exact ⟨.sysTrap h rfl hq trivial, .sysTrap h rfl trivial⟩
  · obtain ⟨h, hq⟩ := hcur 2 (by decide)
    obtain ⟨hd, he⟩ := hchild 2 (by decide)
    refine ⟨.sysTrap h rfl hq trivial, .sysTrap h rfl fun _ e h => ?_⟩
    exact Option.some.inj (he.symm.trans h) ▸ hd
  · exact ⟨⟨trivial, trivial⟩, trivial⟩
  · obtain ⟨h, hq⟩ := hcur 4 (by decide)
    obtain ⟨hd, he⟩ := hchild 4 (by decide)
    have hr : (stateAt small killRun 4).status 1 = .running := by decide +kernel
    refine ⟨.sysTrap h rfl hq fun e h => ?_, .sysTrap h rfl fun e h => ?_⟩
    · obtain rfl := Option.some.inj (he.symm.trans h)
      exact .inr ⟨by decide, hr⟩
    · exact Option.some.inj (he.symm.trans h) ▸ hd
  · have h : (stateAt small killRun 5).curenv 1 = some 1 := by decide +kernel
    have hq : Quiet (stateAt small killRun 5) 1 1 := by
      unfold Quiet
      decide +kernel
    exact ⟨.sysTrap h rfl hq trivial, .sysTrap h rfl trivial⟩

/-- The same, but the parent makes the child runnable before it traps. -/
def reviveRun : List Action :=
  [.start 0, sysTrap 0 7 0 0 0 0 0, sysTrap 0 8 0x1001 2 0 0 0, .start 1,
    sysTrap 0 3 0x1001 0 0 0 0, sysTrap 0 8 0x1001 2 0 0 0]

/-- Between the kill and the child's next entry, its parent makes it runnable again. -/
theorem not_staysDead_setStatus : ∃ (s : ℕ → Kernel 16) (a : ℕ → Action),
    Boot {p : Fin 16 | p ≠ 0} (s 0) ∧ IsRun Step 6 s a ∧ Marks (s 4) (a 4) 1 ∧
      ¬StaysDead s a 6 4 1 := by
  have hs : (stateAt small reviveRun 6).status 1 = .runnable := by decide +kernel
  have hc : (stateAt small reviveRun 5).curenv 0 = some 0 := by decide +kernel
  refine ⟨stateAt small reviveRun, actionAt reviveRun, boot_small,
    isRun_stateAt (by decide +kernel), ?_, fun h => ?_⟩
  · refine ⟨0, ⟨0x1001, 0, 0, 0, 0⟩, callOf_eq_some ?_ ?_ rfl rfl, ?_, ?_, by decide⟩ <;>
      decide +kernel
  · have hno : ∀ l, 4 < l → l < 6 →
        ¬Enters (stateAt small reviveRun l) (actionAt reviveRun l) 1 := by
      intro l h4 h6
      obtain rfl : l = 5 := by omega
      rintro ⟨c, tf, io, ha, hcur⟩
      cases ha
      rw [hc] at hcur
      cases hcur
    have := (h 6 (by omega) (by omega) hno).1
    rw [hs] at this
    cases this

end JosKernel
