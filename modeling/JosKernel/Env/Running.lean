import JosKernel.Env.Boot
import JosKernel.Env.Cases
import JosKernel.Lib.Runs

/-!
# One CPU per environment

An environment that is current on a CPU must not be picked by another one, so its status has to
stay `ENV_RUNNING` or `ENV_DYING` as long as that CPU is in user mode. The kernel writes the
status of environments on behalf of others: `sys_env_set_status`, the delivery of a message and
the wake-up of a queued sender make their target runnable (or not runnable) wherever it is, and
`env_destroy` frees a target that is not `ENV_RUNNING`. `Disciplined` describes the system calls
for which this does no harm, and `step_cpuInv` shows that they are harmless.
-/
namespace JosKernel

open Lib

variable {n : Nat}

/-- No CPU but `c` has `e` as its current environment. -/
def Quiet (k : Kernel n) (c : Cpu) (e : EnvIx) : Prop := ∀ c', c' ≠ c → k.curenv c' ≠ some e

instance {k : Kernel n} {c : Cpu} {e : EnvIx} : Decidable (Quiet k c e) :=
  inferInstanceAs (Decidable (∀ c', c' ≠ c → k.curenv c' ≠ some e))

/-- No CPU has `e` as its current environment. -/
def Away (k : Kernel n) (e : EnvIx) : Prop := ∀ c, k.curenv c ≠ some e

/-- Running, or to be destroyed at its next trap. -/
def Busy (s : EnvStatus) : Prop := s = .running ∨ s = .dying

/-- No environment is current on two CPUs, and user code runs in environments that the scheduler
does not pick. -/
def OnePerCpu (k : Kernel n) : Prop :=
  (∀ c c' e, k.curenv c = some e → k.curenv c' = some e → c' = c) ∧
    ∀ c, (k.cpus c).cpuMode = .user → ∃ e, k.curenv c = some e ∧ Busy (k.status e)

/-- The call does not change the status of an environment that is current on a CPU, other than
blocking the caller or marking a running environment as dying. -/
def StatusOk (k : Kernel n) (c : Cpu) (cur : EnvIx) (s : Sys) (a : Args) : Prop :=
  match s with
  | .envSetStatus => a.a2 = 2 ∨ a.a2 = 4 → ∀ e, envid2env k cur a.a1 true = some e →
      Quiet k c e ∧ (e = cur → a.a2 ≠ 2)
  | .envDestroy => ∀ e, envid2env k cur a.a1 true = some e →
      Quiet k c e ∨ k.status e = .running
  | .ipcTrySend => ∀ e, envid2env k cur a.a1 false = some e →
      (k.envs e).envIpcRecving = true → Away k e
  | .ipcRecv => (k.envs cur).envIpcWaitingHead ≠ (k.envs cur).envIpcWaitingTail →
      ∀ (i : Fin 10) e, (k.envs cur).envIpcWaitingHead.toNat = i →
        envid2env k cur ((k.envs cur).envIpcWaiting i) false = some e → Away k e
  | _ => True

/-- The system call of an action, if it is one, satisfies `P`. -/
def OnCall (P : Kernel n → Cpu → EnvIx → Sys → Args → Prop) (k : Kernel n) : Action → Prop
  | .trap c tf _ => ∀ cur s, k.curenv c = some cur → k.status cur ≠ .dying → tf.tfTrapno = 48 →
      Sys.ofNat tf.tfRegs.regEax.toNat = some s → P k c cur s (argsOf tf)
  | _ => True

def Disciplined (k : Kernel n) (a : Action) : Prop := OnCall StatusOk k a

/-! ## Free slots -/

/-- `env_free_list` holds exactly the free environments. It ends at the pointer that `env_init`
stored in the last slot. -/
def SlotInv (k : Kernel n) : Prop :=
  ∃ l, ListSeg EnvPtr.env (fun e => (k.envs e).envLink) k.envFreeList l .pastEnd ∧ l.Nodup ∧
    ∀ e, e ∈ l ↔ k.status e = .free

/-- No environment has become free or has ceased to be free. -/
structure SameSlots (k k' : Kernel n) : Prop where
  head : k'.envFreeList = k.envFreeList
  link : ∀ e, (k'.envs e).envLink = (k.envs e).envLink
  free : ∀ e, k'.status e = .free ↔ k.status e = .free

variable {k k' : Kernel n} {c : Cpu} {cur e : EnvIx}

theorem SlotInv.congr (h : SlotInv k) (hs : SameSlots k k') : SlotInv k' := by
  obtain ⟨l, hseg, hnd, hmem⟩ := h
  refine ⟨l, ?_, hnd, fun e => (hmem e).trans (hs.free e).symm⟩
  rw [hs.head]
  exact hseg.congr fun e _ => hs.link e

theorem SameSlots.of_modEnv (f : Env n → Env n) (hl : (f (k.envs e)).envLink = (k.envs e).envLink)
    (hs : (f (k.envs e)).envStatus = .free ↔ (k.envs e).envStatus = .free) :
    SameSlots k (k.modEnv e f) := by
  refine ⟨rfl, fun i => ?_, fun i => ?_⟩
  · by_cases h : i = e
    · subst h; simpa using hl
    · rw [Kernel.modEnv_of_ne _ _ h]
  · by_cases h : i = e
    · subst h; simpa [Kernel.status] using hs
    · simp [Kernel.status, Kernel.modEnv_of_ne _ _ h]

theorem SameSlots.setStatus (he : k.status e ≠ .free) {s : EnvStatus} (hs : s ≠ .free) :
    SameSlots k (k.setStatus e s) :=
  .of_modEnv _ rfl ⟨fun h => absurd h hs, fun h => absurd h he⟩

theorem SameSlots.ran (he : k.status e ≠ .free) (run : Ran k c e k') : SameSlots k k' := by
  refine ⟨run.freeList, fun i => core_envLink (run.core i), fun i => ?_⟩
  rw [run.status, ranStatus]
  split_ifs with h1 h2 h3
  · rfl
  · simp [h2, he]
  · simp [h3.2]
  · rfl

theorem SameSlots.of_envs (he : k'.envs = k.envs) (hf : k'.envFreeList = k.envFreeList) :
    SameSlots k k' :=
  ⟨hf, fun e => by rw [he], fun e => by simp [Kernel.status, he]⟩

theorem Scheduled.sameSlots (sched : Scheduled k c k') : SameSlots k k' := by
  cases sched with
  | next he run => exact .ran (by simp [he]) run
  | same _ he _ run => exact .ran (by simp [he]) run
  | halt _ _ =>
    unfold schedHalt
    split_ifs <;> exact .of_envs rfl rfl

theorem Resumed.sameSlots (h : Resumed k c k') : SameSlots k k' := by
  cases h with
  | run _ hr run => exact .ran (by simp [hr]) run
  | yield _ sched => exact sched.sameSlots

/-- Taking the first slot off the list. -/
theorem SlotInv.pop (h : SlotInv k) (hfree : k.envFreeList = .env e)
    (hhead : k'.envFreeList = (k.envs e).envLink) (hother : ∀ i, i ≠ e → k'.envs i = k.envs i)
    (hs : k'.status e ≠ .free) : k.status e = .free ∧ SlotInv k' := by
  obtain ⟨l, hseg, hnd, hmem⟩ := h
  rw [hfree] at hseg
  obtain ⟨l', rfl, hseg'⟩ := hseg.of_node (fun _ _ h => EnvPtr.env.inj h) (by simp)
  have he : e ∉ l' := (List.nodup_cons.mp hnd).1
  refine ⟨(hmem e).mp List.mem_cons_self, l', ?_, (List.nodup_cons.mp hnd).2, fun i => ?_⟩
  · rw [hhead]
    refine hseg'.congr fun i hi => ?_
    rw [hother i (ne_of_mem_of_not_mem hi he)]
  · by_cases hi : i = e
    · subst hi; simp [he, hs]
    · have := hmem i
      simp only [List.mem_cons, hi, false_or] at this
      simpa [Kernel.status, hother i hi] using this

theorem SlotInv.forked (h : SlotInv k) (cur : EnvIx) (g : Fin n) (m : Mem n)
    (hfree : k.envFreeList = .env e) : k.status e = .free ∧ SlotInv (forked k cur e g m) :=
  h.pop hfree rfl (fun i hi => by simp [JosKernel.forked, hi])
    (by simp [JosKernel.forked, Kernel.status, forkedEnv])

theorem SlotInv.allocated (h : SlotInv k) (g : Fin n) (m : Mem n) (parentId : Word)
    (hfree : k.envFreeList = .env e) :
    k.status e = .free ∧ SlotInv (allocated k e g m parentId) :=
  h.pop hfree rfl (fun i hi => by simp [JosKernel.allocated, hi])
    (by simp [JosKernel.allocated, Kernel.status])

theorem SlotInv.freed (h : SlotInv k) {m : Mem n} (he : k.status e ≠ .free) :
    SlotInv (freed k c e m) := by
  obtain ⟨l, hseg, hnd, hmem⟩ := h
  have hel : e ∉ l := fun hl => he ((hmem e).mp hl)
  refine ⟨e :: l, ⟨rfl, ?_⟩, List.nodup_cons.mpr ⟨hel, hnd⟩, fun i => ?_⟩
  · have : ((JosKernel.freed k c e m).envs e).envLink = k.envFreeList := by
      simp [JosKernel.freed]
    show ListSeg _ _ ((JosKernel.freed k c e m).envs e).envLink _ _
    rw [this]
    refine hseg.congr fun i hi => ?_
    have hne : i ≠ e := ne_of_mem_of_not_mem hi hel
    simp [JosKernel.freed, hne]
  · rw [List.mem_cons, freed_status, hmem i]
    by_cases hi : i = e <;> simp [hi]

/-! ## The invariant -/

structure CpuInv (k : Kernel n) : Prop where
  slots : SlotInv k
  unique : ∀ c c' e, k.curenv c = some e → k.curenv c' = some e → c' = c
  user : ∀ c, (k.cpus c).cpuMode = .user → ∃ e, k.curenv c = some e ∧ Busy (k.status e)
  idle : ∀ c, (k.cpus c).cpuMode ≠ .user → (k.cpus c).cpuMode ≠ .monitor → k.curenv c = none

/-- The invariant while CPU `c` is in the kernel: nothing is said about its own environment. -/
structure KernelInv (k : Kernel n) (c : Cpu) : Prop where
  slots : SlotInv k
  unique : ∀ c c' e, k.curenv c = some e → k.curenv c' = some e → c' = c
  user : ∀ c', c' ≠ c → (k.cpus c').cpuMode = .user → ∃ e, k.curenv c' = some e
  busy : ∀ c' e, c' ≠ c → k.curenv c' = some e → Busy (k.status e)
  idle : ∀ c', c' ≠ c → (k.cpus c').cpuMode ≠ .user → k.curenv c' = none
  lock : ∀ c', c' ≠ c → (k.cpus c').cpuMode ≠ .monitor

theorem CpuInv.onePerCpu (inv : CpuInv k) : OnePerCpu k := ⟨inv.unique, inv.user⟩

theorem CpuInv.enter (inv : CpuInv k) (hl : LockFree k) (c : Cpu) : KernelInv k c where
  slots := inv.slots
  unique := inv.unique
  user c' _ hu := let ⟨e, he, _⟩ := inv.user c' hu; ⟨e, he⟩
  busy c' e _ he := by
    by_cases hu : (k.cpus c').cpuMode = .user
    · obtain ⟨e', he', hb⟩ := inv.user c' hu
      rw [he] at he'
      cases he'
      exact hb
    · simp [inv.idle c' hu (hl c')] at he
  idle c' _ hu := inv.idle c' hu (hl c')
  lock c' _ := hl c'

namespace KernelInv

/-- The environment of CPU `c` is current on no other CPU. -/
theorem quiet (inv : KernelInv k c) (hc : k.curenv c = some e) : Quiet k c e :=
  fun c' hne hc' => hne (inv.unique c c' e hc hc')

/-- The general rule: the other CPUs stay as they are, their environments stay busy, and CPU `c`
has an environment that is not current elsewhere. -/
theorem change (inv : KernelInv k c) (hslots : SlotInv k')
    (hother : ∀ c', c' ≠ c → k'.cpus c' = k.cpus c')
    (hs : ∀ c' e, c' ≠ c → k.curenv c' = some e → Busy (k'.status e))
    (hcur : ∀ e, k'.curenv c = some e → Quiet k c e) : KernelInv k' c := by
  have hcur' : ∀ c', c' ≠ c → k'.curenv c' = k.curenv c' := fun c' hne => by
    simp [Kernel.curenv, hother c' hne]
  refine ⟨hslots, fun c₁ c₂ e h₁ h₂ => ?_, fun c' hne => ?_, fun c' e hne he => ?_,
    fun c' hne => ?_, fun c' hne => ?_⟩
  · by_cases h1 : c₁ = c
    · by_cases h2 : c₂ = c
      · rw [h1, h2]
      · exact absurd (hcur' c₂ h2 ▸ h₂) (hcur e (h1 ▸ h₁) c₂ h2)
    · by_cases h2 : c₂ = c
      · exact absurd (hcur' c₁ h1 ▸ h₁) (hcur e (h2 ▸ h₂) c₁ h1)
      · exact inv.unique c₁ c₂ e (hcur' c₁ h1 ▸ h₁) (hcur' c₂ h2 ▸ h₂)
  · rw [hother c' hne, hcur' c' hne]
    exact inv.user c' hne
  · exact hs c' e hne (hcur' c' hne ▸ he)
  · rw [hother c' hne, hcur' c' hne]
    exact inv.idle c' hne
  · rw [hother c' hne]
    exact inv.lock c' hne

/-- Leaving the kernel. -/
theorem exit (inv : KernelInv k c)
    (hu : (k.cpus c).cpuMode = .user → ∃ e, k.curenv c = some e ∧ Busy (k.status e))
    (hi : (k.cpus c).cpuMode ≠ .user → (k.cpus c).cpuMode ≠ .monitor → k.curenv c = none) :
    CpuInv k := by
  refine ⟨inv.slots, inv.unique, fun c' hu' => ?_, fun c' hu' hm' => ?_⟩
  · by_cases hc' : c' = c
    · subst hc'; exact hu hu'
    · obtain ⟨e, he⟩ := inv.user c' hc' hu'
      exact ⟨e, he, inv.busy c' e hc' he⟩
  · by_cases hc' : c' = c
    · subst hc'; exact hi hu' hm'
    · exact inv.idle c' hc' hu'

/-- Changing environments, but not the status of those that are current elsewhere. -/
theorem congr (inv : KernelInv k c) (hslots : SlotInv k') (hcpus : k'.cpus = k.cpus)
    (hs : ∀ c' e, c' ≠ c → k.curenv c' = some e → Busy (k'.status e)) : KernelInv k' c :=
  inv.change hslots (fun c' _ => by rw [hcpus]) hs fun _ he =>
    inv.quiet (by simpa [Kernel.curenv, hcpus] using he)

theorem sameStatus (inv : KernelInv k c) (hslots : SameSlots k k') (hcpus : k'.cpus = k.cpus)
    (hs : ∀ e, k'.status e = k.status e) : KernelInv k' c :=
  inv.congr (inv.slots.congr hslots) hcpus fun c' e hne he => by rw [hs]; exact inv.busy c' e hne he

/-- Writing the status of an environment that is not current elsewhere. -/
theorem setStatus (inv : KernelInv k c) (hq : Quiet k c e) (he : k.status e ≠ .free)
    {s : EnvStatus} (hs : s ≠ .free) : KernelInv (k.setStatus e s) c := by
  refine inv.congr (inv.slots.congr (.setStatus he hs)) rfl fun c' e' hne he' => ?_
  rw [Kernel.setStatus_status, if_neg]
  · exact inv.busy c' e' hne he'
  · rintro rfl
    exact hq c' hne he'

/-- Running an environment that is runnable, or going on with the current one. -/
theorem ran (inv : KernelInv k c) (run : Ran k c e k')
    (he : k.curenv c = some e ∧ Busy (k.status e) ∨
      k.curenv c ≠ some e ∧ k.status e = .runnable) : CpuInv k' := by
  have hq : Quiet k c e := by
    intro c' hne hc'
    rcases he with ⟨hc, -⟩ | ⟨-, hr⟩
    · exact inv.quiet hc c' hne hc'
    · have := inv.busy c' e hne hc'
      simp [hr, Busy] at this
  have hlive : k.status e ≠ .free := by
    rcases he with ⟨-, hb | hb⟩ | ⟨-, hr⟩ <;> simp [*]
  have inv' : KernelInv k' c := by
    refine inv.change (inv.slots.congr (.ran hlive run)) run.other (fun c' e' hne he' => ?_)
      fun e' he' => ?_
    · have h1 : e' ≠ e := fun h => hq c' hne (h ▸ he')
      have h2 : k.curenv c ≠ some e' := fun h => inv.quiet h c' hne he'
      rw [run.status, ranStatus]
      simpa [h1, h2] using inv.busy c' e' hne he'
    · rw [run.cur] at he'
      cases he'
      exact hq
  refine inv'.exit (fun _ => ⟨e, run.cur, ?_⟩) fun hu => absurd run.mode hu
  rw [run.status, ranStatus]
  rcases he with ⟨hc, hb⟩ | ⟨hc, -⟩
  · simpa [hc] using hb
  · simp [hc, Busy]

/-- The scheduler is entered with a current environment that is not marked runnable. -/
theorem scheduled (inv : KernelInv k c) (hc : ∀ e, k.curenv c = some e → k.status e ≠ .runnable)
    (sched : Scheduled k c k') : CpuInv k' := by
  cases sched with
  | next he run => exact inv.ran run (.inr ⟨fun h => hc _ h he, he⟩)
  | same hcur he _ run => exact inv.ran run (.inl ⟨hcur, .inl he⟩)
  | halt _ _ =>
    have inv' : KernelInv (schedHalt k c) c := by
      unfold schedHalt
      split_ifs
      · exact inv.change inv.slots (fun c' hne => by simp [Kernel.modCpu_apply, hne]) inv.busy
          fun e he => by simp [Kernel.curenv] at he
      · exact inv.change inv.slots (fun c' hne => by simp [Kernel.modCpu_apply, hne]) inv.busy
          fun e he => inv.quiet (by simpa [Kernel.curenv] using he)
    refine inv'.exit (fun hu => ?_) fun _ hm => ?_
    · unfold schedHalt at hu
      split_ifs at hu <;> simp at hu
    · unfold schedHalt at hm ⊢
      split_ifs at hm ⊢
      · simp [Kernel.curenv]
      · simp at hm

theorem resumed (inv : KernelInv k c) (hc : ∀ e, k.curenv c = some e → k.status e ≠ .runnable)
    (h : Resumed k c k') : CpuInv k' := by
  cases h with
  | run hcur hr run => exact inv.ran run (.inl ⟨hcur, .inl hr⟩)
  | yield _ sched => exact inv.scheduled hc sched

/-- The current environment is destroyed and the scheduler entered. -/
theorem freeSelf (inv : KernelInv k c) {k₁ : Kernel n} (hc : k.curenv c = some e)
    (hlive : k.status e ≠ .free) (free : envFree k c e = .ok k₁)
    (sched : Scheduled (k₁.modCpu c fun cpu => { cpu with cpuEnv := none }) c k') :
    CpuInv k' := by
  obtain ⟨g, m₁, m, -, -, -, rfl⟩ := envFree_ok free
  refine KernelInv.scheduled (k := (freed k c e m).modCpu c _) ?_ (by simp [Kernel.curenv]) sched
  refine inv.change (inv.slots.freed (m := m) (c := c) hlive) (fun c' hne => ?_)
    (fun c' e' hne he' => ?_) (by simp [Kernel.curenv])
  · simp [Kernel.modCpu_apply, hne, freed, hc]
  · rw [Kernel.status_modCpu, freed_status, if_neg]
    · exact inv.busy c' e' hne he'
    · rintro rfl
      exact inv.quiet hc c' hne he'

/-- Destroying an environment that is not current elsewhere, or is running there. -/
theorem destroyed (inv : KernelInv k c) {r : Option Unit} (hlive : k.status e ≠ .free)
    (he : Quiet k c e ∨ k.status e = .running) (d : Destroyed k c e r k') :
    (r = none ∧ CpuInv k') ∨ (r = some () ∧ KernelInv k' c ∧ k'.curenv c = k.curenv c ∧
      ∀ i, k.curenv c = some i → k'.status i = k.status i) := by
  cases d with
  | mark hr hc =>
    refine .inr ⟨rfl, inv.congr (inv.slots.congr (.setStatus hlive (by simp))) rfl
      fun c' e' hne he' => ?_, rfl, fun i hi => ?_⟩
    · rw [Kernel.setStatus_status]
      split_ifs
      · exact .inr rfl
      · exact inv.busy c' e' hne he'
    · rw [Kernel.setStatus_status, if_neg]
      rintro rfl
      exact hc hi
  | other hr hc free =>
    have hq : Quiet k c e := he.resolve_right hr
    obtain ⟨g, m₁, m, -, -, -, rfl⟩ := envFree_ok free
    refine .inr ⟨rfl, inv.congr (inv.slots.freed hlive) (by simp [freed, hc])
      fun c' e' hne he' => ?_, freed_curenv .., fun i hi => ?_⟩
    · rw [freed_status, if_neg]
      · exact inv.busy c' e' hne he'
      · rintro rfl
        exact hq c' hne he'
    · rw [freed_status, if_neg]
      rintro rfl
      exact hc hi
  | self hc free sched => exact .inl ⟨rfl, inv.freeSelf hc hlive free sched⟩

theorem modEnv (inv : KernelInv k c) (f : Env n → Env n)
    (hl : (f (k.envs e)).envLink = (k.envs e).envLink)
    (hs : (f (k.envs e)).envStatus = (k.envs e).envStatus) : KernelInv (k.modEnv e f) c := by
  refine inv.sameStatus (.of_modEnv f hl (by rw [hs])) rfl fun i => ?_
  by_cases hi : i = e
  · subst hi; simpa [Kernel.status] using hs
  · simp [Kernel.status, Kernel.modEnv_of_ne _ _ hi]

theorem mem (inv : KernelInv k c) (m : Mem n) : KernelInv { k with mem := m } c :=
  inv.sameStatus ⟨rfl, fun _ => rfl, fun _ => Iff.rfl⟩ rfl fun _ => rfl

/-- The wake-up in `sys_ipc_recv`. -/
theorem woken (inv : KernelInv k c) {a : Args} {v : Int} (hc : k.curenv c = some cur)
    (hr : k.status cur = .running) (ok : StatusOk k c cur .ipcRecv a)
    (wake : Woken (receiving k cur a.a1) cur v k') :
    KernelInv k' c ∧ ∀ e, k'.curenv c = some e → k'.status e ≠ .runnable := by
  have hlive : k.status cur ≠ .free := by simp [hr]
  have hq : Quiet k c cur := inv.quiet hc
  have hst : ∀ i, (receiving k cur a.a1).status i = (k.setStatus cur .notRunnable).status i := by
    intro i
    by_cases hi : i = cur
    · subst hi; simp [receiving, Kernel.setStatus, Kernel.status]
    · simp [receiving, Kernel.setStatus, Kernel.status, Kernel.modEnv_of_ne _ _ hi]
  have hslots : SameSlots (k.setStatus cur .notRunnable) (receiving k cur a.a1) := by
    refine ⟨rfl, fun i => ?_, fun i => by rw [hst]⟩
    by_cases hi : i = cur
    · subst hi; simp [receiving, Kernel.setStatus]
    · simp [receiving, Kernel.setStatus, Kernel.modEnv_of_ne _ _ hi]
  have inv₁ : KernelInv (receiving k cur a.a1) c :=
    (inv.setStatus hq hlive (s := .notRunnable) (by simp)).sameStatus hslots rfl hst
  have hnr : (receiving k cur a.a1).status cur = .notRunnable := by
    rw [hst, Kernel.setStatus_status, if_pos rfl]
  have inv₂ : KernelInv (dequeued (receiving k cur a.a1) cur) c := inv₁.modEnv _ rfl rfl
  have hst₂ : ∀ i, (dequeued (receiving k cur a.a1) cur).status i =
      (receiving k cur a.a1).status i := by
    intro i
    by_cases hi : i = cur
    · subst hi; simp [dequeued, Kernel.status]
    · simp [dequeued, Kernel.status, Kernel.modEnv_of_ne _ _ hi]
  have hcurenv : ∀ {k₁ : Kernel n}, k₁.cpus = k.cpus → k₁.status cur = .notRunnable →
      ∀ e, k₁.curenv c = some e → k₁.status e ≠ .runnable := by
    intro k₁ hcpus hst e he
    simp only [Kernel.curenv, hcpus] at he hc
    rw [hc] at he
    cases he
    simp [hst]
  cases wake with
  | empty _ => exact ⟨inv₁, hcurenv rfl hnr⟩
  | stale _ _ _ => exact ⟨inv₂, hcurenv rfl (by rw [hst₂, hnr])⟩
  | @wake i e hne hi he =>
    -- the queue and the ids are those of the state before the call
    have hq' : (receiving k cur a.a1).envs cur = { k.envs cur with
        envIpcRecving := true, envIpcDstva := a.a1, envStatus := .notRunnable } := by
      simp [receiving]
    rw [hq'] at hne hi he
    have hid : envid2env k cur ((k.envs cur).envIpcWaiting i) false = some e := by
      rw [← he]
      refine (envid2env_congr (fun j => ?_) (fun j => ?_) fun j => ?_).symm
      · by_cases hj : j = cur
        · subst hj; simp [dequeued, receiving]
        · simp [dequeued, receiving, Kernel.modEnv_of_ne _ _ hj]
      · by_cases hj : j = cur
        · subst hj; simp [dequeued, receiving]
        · simp [dequeued, receiving, Kernel.modEnv_of_ne _ _ hj]
      · rw [hst₂, hst, Kernel.setStatus_status]
        by_cases hj : j = cur
        · subst hj; simp [hlive]
        · simp [hj]
    have haway := ok hne i e hi hid
    have hec : cur ≠ e := fun h => haway c (h ▸ hc)
    refine ⟨inv₂.setStatus (fun c' _ => haway c') ?_ (by simp), hcurenv rfl ?_⟩
    · rw [hst₂, hst, Kernel.setStatus_status, if_neg (Ne.symm hec)]
      exact envid2env_live hid hlive
    · rw [Kernel.setStatus_status, if_neg hec, hst₂, hnr]

/-- A disciplined system call by the running environment `cur` leaves the other CPUs alone. When
it returns, the caller is not marked runnable. -/
theorem called (inv : KernelInv k c) {s : Sys} {a : Args} {r : Option Int}
    (hc : k.curenv c = some cur) (hr : k.status cur = .running) (ok : StatusOk k c cur s a)
    (h : Called k c cur s a r k') :
    (r = none ∧ CpuInv k') ∨ (∃ v, r = some v ∧ KernelInv k' c ∧
      ∀ e, k'.curenv c = some e → k'.status e ≠ .runnable) := by
  have hlive : k.status cur ≠ .free := by simp [hr]
  have hq : Quiet k c cur := inv.quiet hc
  -- the caller keeps its status
  have hcur : ∀ {k₁ : Kernel n}, k₁.cpus = k.cpus → k₁.status cur = .running →
      ∀ e, k₁.curenv c = some e → k₁.status e ≠ .runnable := by
    intro k₁ hcpus hst e he
    simp only [Kernel.curenv, hcpus] at he hc
    rw [hc] at he
    cases he
    simp [hst]
  have hdestroyed : ∀ {e r k'}, k.status e ≠ .free → Quiet k c e ∨ k.status e = .running →
      Destroyed k c e r k' → (Option.map (fun _ => (0 : Int)) r = none ∧ CpuInv k') ∨
        (∃ v, Option.map (fun _ => (0 : Int)) r = some v ∧ KernelInv k' c ∧
          ∀ e, k'.curenv c = some e → k'.status e ≠ .runnable) := by
    intro e r k' hlive he d
    rcases inv.destroyed hlive he d with ⟨rfl, h⟩ | ⟨rfl, h, hcur', hst⟩
    · exact .inl ⟨rfl, h⟩
    · refine .inr ⟨0, rfl, h, fun i hi => ?_⟩
      rw [hcur'] at hi
      rw [hst i hi]
      rw [hc] at hi
      cases hi
      simp [hr]
  cases h with
  | memory op => exact .inr ⟨_, rfl, inv.mem _, hcur rfl hr⟩
  | cputs _ _ d => exact hdestroyed hlive (.inl hq) d
  | destroy he d => exact hdestroyed (envid2env_live he hlive) (ok _ he) d
  | yield sched =>
    refine .inl ⟨rfl, inv.scheduled (fun e he => ?_) sched⟩
    rw [hc] at he
    cases he
    simp [hr]
  | @fork _ e g m free vm =>
    obtain ⟨hfree, hslots⟩ := inv.slots.forked cur g m free
    have hne : cur ≠ e := fun h => hlive (h ▸ hfree)
    refine .inr ⟨_, rfl, inv.congr hslots rfl fun c' e' hne' he' => ?_,
      hcur rfl (by simp [forked, Kernel.status, hne]; exact hr)⟩
    have hbusy := inv.busy c' e' hne' he'
    have he : e' ≠ e := by
      rintro rfl
      simp [Busy, hfree] at hbusy
    simpa [forked, Kernel.status, he] using hbusy
  | @setStatus _ e he hs =>
    obtain ⟨hqe, hself⟩ := ok hs e he
    refine .inr ⟨_, rfl, inv.setStatus hqe (envid2env_live he hlive) (by split_ifs <;> simp),
      fun i hi => ?_⟩
    rw [Kernel.curenv_setStatus, hc] at hi
    cases hi
    rw [Kernel.setStatus_status]
    split_ifs with h1 h2
    · exact absurd h2 (hself h1.symm)
    · simp
    · simp [hr]
  | @setUpcall exc _ e he =>
    refine .inr ⟨_, rfl, inv.modEnv _ rfl rfl, hcur rfl ?_⟩
    rw [← hr]
    by_cases hi : cur = e
    · subst hi; simp [Kernel.status]
    · simp [Kernel.status, Kernel.modEnv_of_ne _ _ hi]
  | @enqueue _ e i he _ _ _ =>
    refine .inr ⟨_, rfl, (inv.setStatus hq hlive (by simp)).modEnv _ rfl rfl, fun j hj => ?_⟩
    rw [enqueued, Kernel.curenv_modEnv, Kernel.curenv_setStatus, hc] at hj
    cases hj
    have : (enqueued k cur e i).status cur = .notRunnable := by
      by_cases hi : cur = e
      · subst hi; simp [enqueued, Kernel.status, Kernel.setStatus]
      · simp [enqueued, Kernel.status, Kernel.modEnv_of_ne _ _ hi, Kernel.setStatus]
    simp [this]
  | full => exact .inr ⟨_, rfl, inv, hcur rfl hr⟩
  | @deliver _ e k₁ _ he hrecv page _ =>
    obtain ⟨m, p, rfl⟩ := page.state
    have haway := ok e he hrecv
    have hne : cur ≠ e := fun h => haway c (h ▸ hc)
    refine .inr ⟨_, rfl, ?_, hcur rfl ?_⟩
    · refine ((inv.setStatus (fun c' _ => haway c') (envid2env_live he hlive)
        (s := .runnable) (by simp)).sameStatus ?_ rfl fun i => ?_)
      · refine ⟨rfl, fun i => ?_, fun i => ?_⟩ <;> by_cases hi : i = e
        · subst hi; simp [delivered, Kernel.setStatus]
        · simp [delivered, Kernel.setStatus, Kernel.modEnv_of_ne _ _ hi]
        · subst hi; simp [delivered, Kernel.setStatus, Kernel.status]
        · simp [delivered, Kernel.setStatus, Kernel.status, Kernel.modEnv_of_ne _ _ hi]
      · by_cases hi : i = e
        · subst hi; simp [delivered, Kernel.setStatus, Kernel.status]
        · simp [delivered, Kernel.setStatus, Kernel.status, Kernel.modEnv_of_ne _ _ hi]
    · rw [← hr]
      simp [delivered, Kernel.status, Kernel.modEnv_of_ne _ _ hne]
  | @refuse _ e k₁ _ he hrecv page _ =>
    obtain ⟨m, p, rfl⟩ := page.state
    refine .inr ⟨_, rfl, (inv.mem m).modEnv _ rfl rfl, hcur rfl ?_⟩
    rw [← hr]
    by_cases hi : cur = e
    · subst hi; simp [Kernel.status]
    · simp [Kernel.status, Kernel.modEnv_of_ne _ _ hi]
  | recv _ wake sched =>
    obtain ⟨h₁, h₂⟩ := inv.woken hc hr ok wake
    exact .inl ⟨rfl, h₁.scheduled h₂ sched⟩
  | recvStale _ wake =>
    obtain ⟨h₁, h₂⟩ := inv.woken hc hr ok wake
    exact .inr ⟨_, rfl, h₁, h₂⟩

end KernelInv

/-! ## Whole entries -/

@[simp] theorem saved_status (k : Kernel n) (cur i : EnvIx) (tf : Trapframe) :
    (saved k cur tf).status i = k.status i := by
  by_cases hi : i = cur
  · subst hi; simp [saved, Kernel.status]
  · simp [saved, Kernel.status, Kernel.modEnv_of_ne _ _ hi]

@[simp] theorem saved_curenv (k : Kernel n) (cur : EnvIx) (tf : Trapframe) :
    (saved k cur tf).curenv = k.curenv := rfl

/-- Saving the trap frame changes the saved registers only. -/
theorem saved_env (k : Kernel n) (cur i : EnvIx) (tf : Trapframe) :
    (saved k cur tf).envs i =
      { k.envs i with envTf := if i = cur then tf else (k.envs i).envTf } := by
  by_cases hi : i = cur
  · subst hi; simp [saved]
  · simp [saved, Kernel.modEnv_of_ne _ _ hi, hi]

theorem envid2env_saved (k : Kernel n) (cur : EnvIx) (tf : Trapframe) (id : Word) (b : Bool) :
    envid2env (saved k cur tf) cur id b = envid2env k cur id b :=
  envid2env_congr (fun i => by rw [saved_env]) (fun i => by rw [saved_env]) fun i => by simp

theorem statusOk_saved (tf : Trapframe) {s : Sys} {a : Args} (ok : StatusOk k c cur s a) :
    StatusOk (saved k cur tf) c cur s a := by
  cases s <;> simp only [StatusOk, envid2env_saved, saved_env, saved_status, Quiet, Away,
    saved_curenv] at ok ⊢ <;> exact ok

theorem KernelInv.saved (inv : KernelInv k c) (cur : EnvIx) (tf : Trapframe) :
    KernelInv (saved k cur tf) c := inv.modEnv _ rfl rfl

theorem setResult_status (k : Kernel n) (cur i : EnvIx) (v : Int) :
    (setResult k cur v).status i = k.status i := by
  by_cases hi : i = cur
  · subst hi; simp [setResult, Kernel.status]
  · simp [setResult, Kernel.status, Kernel.modEnv_of_ne _ _ hi]

theorem trapped_cpuInv (inv : CpuInv k) (hl : LockFree k) (hu : (k.cpus c).cpuMode = .user)
    {tf : Trapframe} {io : Inputs} (hc : k.curenv c = some cur)
    (ok : Disciplined k (.trap c tf io)) (h : Trapped k c cur tf io k') : CpuInv k' := by
  have kinv := inv.enter hl c
  have sinv := kinv.saved cur tf
  obtain ⟨e, he, hbusy⟩ := inv.user c hu
  obtain rfl : cur = e := Option.some.inj (hc.symm.trans he)
  have hlive : k.status cur ≠ .free := by rcases hbusy with hb | hb <;> simp [hb]
  have hrun : k.status cur ≠ .dying → k.status cur = .running := fun hd => hbusy.resolve_right hd
  -- with a current environment that is running, the kernel may enter the scheduler
  have hsched : k.status cur ≠ .dying → ∀ {k₁ : Kernel n}, k₁.curenv c = k.curenv c →
      k₁.status cur = k.status cur → ∀ e, k₁.curenv c = some e → k₁.status e ≠ .runnable := by
    intro hd k₁ hcur hst e he
    rw [hcur, hc] at he
    cases he
    rw [hst, hrun hd]
    simp
  cases h with
  | zombie _ free sched => exact kinv.freeSelf hc hlive free sched
  | destroy _ _ free sched => exact sinv.freeSelf hc (by simpa using hlive) free sched
  | @upcall exc g m _ hd _ _ _ _ _ run =>
    have uinv : KernelInv (upcalled k cur tf exc m) c := (sinv.mem m).modEnv _ rfl rfl
    have hst : (upcalled k cur tf exc m).status cur = k.status cur := by
      simp [upcalled, Kernel.status, saved]
    exact uinv.ran run (.inl ⟨hc, .inl (by rw [hst, hrun hd])⟩)
  | nosys hd _ _ ret =>
    have rinv : KernelInv (setResult (saved k cur tf) cur (-eNoSys)) c := sinv.modEnv _ rfl rfl
    exact rinv.resumed (hsched hd rfl (by simp [setResult_status])) ret
  | @call s v k₁ _ hd hno hs called ret =>
    have hok := statusOk_saved tf (ok cur s hc hd hno hs)
    rcases sinv.called hc (by simpa using hrun hd) hok called with ⟨h, -⟩ | ⟨v', hv, h₁, h₂⟩
    · cases h
    · have rinv : KernelInv (setResult k₁ cur v) c := h₁.modEnv _ rfl rfl
      exact rinv.resumed (fun e he => by rw [setResult_status]; exact h₂ e he) ret
  | leave hd hno hs called =>
    have hok := statusOk_saved tf (ok cur _ hc hd hno hs)
    rcases sinv.called hc (by simpa using hrun hd) hok called with ⟨-, h⟩ | ⟨v', hv, -⟩
    · exact h
    · cases hv
  | spurious hd _ ret => exact sinv.resumed (hsched hd rfl (by simp)) ret
  | timer hd _ sched => exact sinv.scheduled (hsched hd rfl (by simp)) sched

/-- A disciplined step keeps the invariant. -/
theorem step_cpuInv {a : Action} (inv : CpuInv k) (ok : Disciplined k a) (h : Step k a k') :
    CpuInv k' := by
  -- a CPU that was idle has no current environment
  have hnone : ∀ {c : Cpu}, (k.cpus c).cpuMode ≠ .user → LockFree k →
      ∀ e, k.curenv c = some e → k.status e ≠ .runnable := by
    intro c hu hl e he
    simp [inv.idle c hu (hl c)] at he
  cases a with
  | trap c tf io =>
    obtain ⟨hu, hl, cur, hc, ht⟩ := step_trap h
    exact trapped_cpuInv inv hl hu hc ok ht
  | wake c no =>
    obtain ⟨hm, hl, hs | hs⟩ := step_wake h
    · exact (inv.enter hl c).scheduled (hnone (by simp [hm]) hl) hs
    · exact (inv.enter hl c).resumed (hnone (by simp [hm]) hl) hs
  | start c =>
    obtain ⟨hm, hl, hs⟩ := step_start h
    exact (inv.enter hl c).scheduled (hnone (by simp [hm]) hl) hs
  | access c va store =>
    obtain ⟨-, -, rfl | ⟨m, -, rfl⟩⟩ := step_access h
    · exact inv
    · exact ⟨inv.slots, inv.unique, inv.user, inv.idle⟩

/-! ## Boot -/

/-- The list that `env_init` builds visits the slots in order. -/
theorem listSeg_envInit (envs : EnvIx → Env n) : ∃ l, l = List.finRange 1024 ∧
    ListSeg EnvPtr.env (fun e => (envInit envs e).envLink) (.env 0) l .pastEnd :=
  ListSeg.array (by omega) (fun _ hi => dif_pos hi) fun _ hi => dif_neg (Nat.not_lt.mpr hi.ge)

theorem slotInv_init (m : Mem n) (cpus : Cpu → CpuInfo n) :
    SlotInv ⟨m, envInit fun _ => .zero, .env 0, cpus⟩ := by
  obtain ⟨l, hl, hseg⟩ := listSeg_envInit (n := n) fun _ => .zero
  exact ⟨l, hseg, hl ▸ List.nodup_finRange 1024,
    fun e => ⟨fun _ => rfl, fun _ => hl ▸ List.mem_finRange e⟩⟩

theorem created_cpuInv {S : Set (Fin n)} (h : Created S k) : CpuInv k ∧ ∀ c, k.curenv c = none := by
  have hinv : ∀ {k : Kernel n}, SlotInv k → (∀ c, k.curenv c = none) →
      (∀ c, (k.cpus c).cpuMode ≠ .user) → CpuInv k := fun hs hc hm =>
    ⟨hs, fun c _ e he => by simp [hc c] at he, fun c hu => absurd hu (hm c), fun c _ _ => hc c⟩
  suffices h : SlotInv k ∧ (∀ c, k.curenv c = none) ∧ ∀ c, (k.cpus c).cpuMode ≠ .user from
    ⟨hinv h.1 h.2.1 h.2.2, h.2.1⟩
  induction h with
  | init _ zero mode idle _ =>
    obtain rfl := zero.eq
    refine ⟨slotInv_init _ _, idle, fun c => ?_⟩
    rcases mode c with h | h <;> simp [h]
  | create _ alloc _ _ ih =>
    obtain ⟨g, m, hfree, -, rfl⟩ := envAlloc_ok alloc
    have h := (ih.1.allocated g m 0 hfree).2
    refine ⟨h.congr ⟨rfl, fun i => ?_, fun i => ?_⟩, ih.2⟩
    · rw [entered, Kernel.modEnv_apply]
      split_ifs with hi <;> simp [hi]
    · simp only [Kernel.status, entered, Kernel.modEnv_apply]
      split_ifs with hi <;> simp [hi]

/-- In a run of disciplined steps from boot, no environment is ever current on two CPUs, and user
code runs only in environments that are running or dying. -/
theorem onePerCpu_of_disciplined {S : Set (Fin n)}
    (h : Reachable (Boot S) (fun k a k' => Disciplined k a ∧ Step k a k') k) : OnePerCpu k :=
  (h.invariant (fun _ hb => (created_cpuInv hb.1).1)
    fun _ _ _ inv hs => step_cpuInv inv hs.1 hs.2).onePerCpu

/-- A call that meets `StatusOk`: it changes the status of another environment only, and of one
that is current nowhere. -/
def Sys.calm (k : Kernel n) (c : Cpu) (cur : EnvIx) (a : Args) : Sys → Bool
  | .envSetStatus => (envid2env k cur a.a1 true).all fun e => decide (Quiet k c e ∧ e ≠ cur)
  | .envDestroy | .ipcTrySend | .ipcRecv => false
  | _ => true

/-- A test that is enough for `Disciplined`. -/
def calm (k : Kernel n) : Action → Bool
  | .trap c tf _ => (k.curenv c).all fun cur =>
      (Sys.ofNat tf.tfRegs.regEax.toNat).all (Sys.calm k c cur (argsOf tf))
  | _ => true

theorem disciplined_of_calm {a : Action} (h : calm k a = true) : Disciplined k a := by
  cases a with
  | trap c tf io =>
    intro cur s hc _ _ hs
    simp only [calm, hc, hs, Option.all_some] at h
    cases s
    case envSetStatus =>
      intro _ e he
      simp only [Sys.calm, he, Option.all_some, decide_eq_true_eq] at h
      exact ⟨h.1, fun hcur => absurd hcur h.2⟩
    case envDestroy | ipcTrySend | ipcRecv => cases h
    all_goals trivial
  | _ => trivial

/-- Two CPUs run a parent and its child. -/
theorem onePerCpu_pairRun : ∃ k : Kernel 16, k.curenv 0 = some 0 ∧ k.curenv 1 = some 1 ∧
    (k.cpus 0).cpuMode = .user ∧ (k.cpus 1).cpuMode = .user ∧ OnePerCpu k := by
  obtain ⟨k, hk, hp⟩ := reachable_runWhile calm (fun _ _ => disciplined_of_calm) (.init boot_small)
    pairRun (fun k => decide (k.curenv 0 = some 0 ∧ k.curenv 1 = some 1 ∧
      (k.cpus 0).cpuMode = .user ∧ (k.cpus 1).cpuMode = .user)) (by decide +kernel)
  obtain ⟨h₀, h₁, hu₀, hu₁⟩ := of_decide_eq_true hp
  exact ⟨k, h₀, h₁, hu₀, hu₁, onePerCpu_of_disciplined hk⟩

/-- `sys_env_set_status(0, ENV_RUNNABLE)` by the only environment: it goes on running, marked
runnable, so that another CPU could pick it as well. -/
theorem not_onePerCpu_setStatus : ∃ k : Kernel 16,
    Reachable (Boot {p : Fin 16 | p ≠ 0}) Step k ∧ ¬OnePerCpu k := by
  obtain ⟨k, hk, hp⟩ := reachable_runActions (.init boot_small)
    [.start 0, sysTrap 0 8 0 2 0 0 0, .start 1]
    (fun k => decide (k.curenv 0 = some 0 ∧ k.curenv 1 = some 0)) (by decide +kernel)
  refine ⟨k, hk, fun h => ?_⟩
  have hp := of_decide_eq_true hp
  exact absurd (h.1 0 1 0 hp.1 hp.2) (by decide)

end JosKernel
