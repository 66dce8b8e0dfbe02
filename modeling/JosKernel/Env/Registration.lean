import JosKernel.Env.EnvIds
import JosKernel.Env.Stubs
import JosKernel.Env.Upcall

/-!
# Registration of upcalls

What upcalls are registered, as the user sees it. `Registered` records, next to a run of the
machine, the last successful registration of each environment for each kind of exception: by the
number that `inc/syscall.h` gives to the call, and forgotten when a slot gets a new id. The
kernel's own way goes through its dispatcher and the fields of `struct Env`, which always hold
what is in the record.
-/
namespace JosKernel

open Lib

variable {n : Nat} {S : Set (Fin n)} {k k' k₁ : Kernel n} {c : Cpu} {cur e i : EnvIx}
  {tf : Trapframe} {io : Inputs} {exc : Exc} {a : Action}

theorem eq_sysNo_of_ofNat {w : Word} {s : Sys} (h : Sys.ofNat w.toNat = some s) : w = sysNo s := by
  refine BitVec.eq_of_toNat_eq ?_
  unfold Sys.ofNat at h
  split at h <;> first
    | (cases h; rename_i hw; rw [hw]; rfl)
    | cases h

/-! ## Registrations -/

/-- An upcall for each environment and kind; `0` when there is none. -/
abbrev Registered := EnvIx → Exc → Word

/-- The trap is a system call that registers an upcall of `e` for `exc`. The caller is an
environment that may change `e`: `e` itself or its parent. -/
def Registers (k : Kernel n) (c : Cpu) (tf : Trapframe) (e : EnvIx) (exc : Exc) : Prop :=
  match k.curenv c with
  | none => False
  | some cur => k.status cur ≠ .dying ∧ tf.tfTrapno = 48 ∧
    tf.tfRegs.regEax = sysNo (.envSetUpcall exc) ∧
    envid2env k cur tf.tfRegs.regEdx true = some e

instance (k : Kernel n) (c : Cpu) (tf : Trapframe) (e : EnvIx) (exc : Exc) :
    Decidable (Registers k c tf e exc) := by
  unfold Registers
  cases k.curenv c <;> infer_instance

/-- The record after an action. -/
def register (k : Kernel n) (a : Action) (r : Registered) : Registered := fun e exc =>
  match a with
  | .trap c tf _ => if Registers k c tf e exc then tf.tfRegs.regEcx else r e exc
  | _ => r e exc

/-- A step of the machine, with the record kept. A slot that gets a new id has a new environment,
which has no upcalls. -/
def RegisterStep (s : Kernel n × Registered) (a : Action) (s' : Kernel n × Registered) : Prop :=
  Step s.1 a s'.1 ∧ s'.2 = fun e exc =>
    if (s'.1.envs e).envId ≠ (s.1.envs e).envId then 0 else register s.1 a s.2 e exc

/-! ## What a step does to ids and upcalls -/

/-- Ids and upcalls are as before. -/
def KeepsUpcalls (k k' : Kernel n) : Prop :=
  ∀ i, (k'.envs i).envId = (k.envs i).envId ∧ (k'.envs i).envUpcall = (k.envs i).envUpcall

namespace KeepsUpcalls

theorem refl (k : Kernel n) : KeepsUpcalls k k := fun _ => ⟨rfl, rfl⟩

theorem trans (h : KeepsUpcalls k k₁) (h' : KeepsUpcalls k₁ k') : KeepsUpcalls k k' := fun i =>
  ⟨(h' i).1.trans (h i).1, (h' i).2.trans (h i).2⟩

theorem of_envs (h : k'.envs = k.envs) : KeepsUpcalls k k' := fun i => by simp [h]

theorem of_modEnv (e : EnvIx) (f : Env n → Env n)
    (h : (f (k.envs e)).envId = (k.envs e).envId ∧
      (f (k.envs e)).envUpcall = (k.envs e).envUpcall) : KeepsUpcalls k (k.modEnv e f) := by
  intro i
  by_cases hi : i = e
  · subst hi
    simpa using h
  · rw [Kernel.modEnv_of_ne _ _ hi]
    exact ⟨rfl, rfl⟩

theorem ran (run : Ran k c e k') : KeepsUpcalls k k' := fun i => by
  refine ⟨?_, ?_⟩
  · show (k'.envs i).core.envId = (k.envs i).core.envId
    rw [run.core]
  · show (k'.envs i).core.envUpcall = (k.envs i).core.envUpcall
    rw [run.core]

theorem scheduled (sched : Scheduled k c k') : KeepsUpcalls k k' := by
  cases sched with
  | next _ run => exact ran run
  | same _ _ _ run => exact ran run
  | halt _ _ =>
    unfold schedHalt
    split_ifs <;> exact of_envs rfl

theorem resumed (h : Resumed k c k') : KeepsUpcalls k k' := by
  cases h with
  | run _ _ run => exact ran run
  | yield _ sched => exact scheduled sched

theorem envFree (h : envFree k c e = .ok k') : KeepsUpcalls k k' := by
  obtain ⟨g, m₁, m, -, -, -, rfl⟩ := envFree_ok h
  intro i
  by_cases hi : i = e
  · subst hi
    simp [freed]
  · rw [freed_env _ _ _ _ hi]
    exact ⟨rfl, rfl⟩

theorem freeSelf (free : JosKernel.envFree k c e = .ok k₁)
    (sched : Scheduled (k₁.modCpu c fun cpu => { cpu with cpuEnv := none }) c k') :
    KeepsUpcalls k k' :=
  (envFree free).trans (.trans (.of_envs (by rfl)) (scheduled sched))

theorem destroyed {r : Option Unit} (d : Destroyed k c e r k') : KeepsUpcalls k k' := by
  cases d with
  | mark _ _ => exact of_modEnv _ _ ⟨rfl, rfl⟩
  | other _ _ free => exact envFree free
  | self _ free sched => exact freeSelf free sched

theorem woken {r : Int} (w : Woken k cur r k') : KeepsUpcalls k k' := by
  have hdeq : KeepsUpcalls k (dequeued k cur) := of_modEnv _ _ ⟨rfl, rfl⟩
  cases w with
  | empty _ => exact refl k
  | wake _ _ _ => exact hdeq.trans (of_modEnv _ _ ⟨rfl, rfl⟩)
  | stale _ _ _ => exact hdeq

theorem sent {srcva perm : Word} {r : Int} (h : Sent k cur e srcva perm r k') :
    KeepsUpcalls k k' := by
  obtain ⟨m, p, rfl⟩ := h.state
  have hmem : KeepsUpcalls k { k with mem := m } := of_envs rfl
  exact hmem.trans (of_modEnv _ _ ⟨rfl, rfl⟩)

end KeepsUpcalls

/-- A system call other than a registration keeps the upcalls, except that `sys_exofork` makes an
environment without any. -/
theorem Called.upcalls {s : Sys} {args : Args} {r : Option Int} (h : Called k c cur s args r k')
    (hs : ∀ exc, s ≠ .envSetUpcall exc) :
    KeepsUpcalls k k' ∨ ∃ e g m, k' = forked k cur e g m := by
  have hrecv : ∀ d, KeepsUpcalls k (receiving k cur d) := fun d => .of_modEnv _ _ ⟨rfl, rfl⟩
  cases h with
  | memory _ => exact .inl (.of_envs rfl)
  | cputs _ _ d => exact .inl (.destroyed d)
  | destroy _ d => exact .inl (.destroyed d)
  | yield sched => exact .inl (.scheduled sched)
  | fork _ _ => exact .inr ⟨_, _, _, rfl⟩
  | setStatus _ _ => exact .inl (.of_modEnv _ _ ⟨rfl, rfl⟩)
  | setUpcall _ => exact absurd rfl (hs _)
  | enqueue _ _ _ _ =>
    exact .inl (.trans (.of_modEnv _ _ ⟨rfl, rfl⟩) (.of_modEnv _ _ ⟨rfl, rfl⟩))
  | full _ _ _ => exact .inl (.refl k)
  | deliver _ _ page _ => exact .inl (.trans (.sent page) (.of_modEnv _ _ ⟨rfl, rfl⟩))
  | refuse _ _ page _ => exact .inl (.sent page)
  | recv _ wake sched => exact .inl ((hrecv _).trans (.trans (.woken wake) (.scheduled sched)))
  | recvStale _ wake => exact .inl ((hrecv _).trans (.woken wake))

/-- A new environment has another id than the one before it in its slot. -/
theorem nextEnvId_ne (old : Word) (e : EnvIx) : nextEnvId old e ≠ old := by
  intro h
  have hold := old.isLt
  have he := e.isLt
  have hgen : ((old + 0x1000) &&& ~~~0x3FF#32).toNat =
      (old.toNat + 4096) % 2 ^ 32 / 1024 * 1024 := by
    rw [toNat_clearIndex, BitVec.toNat_add, show (0x1000 : Word).toNat = 4096 from rfl]
  have hnat := congrArg BitVec.toNat h
  unfold nextEnvId at hnat
  generalize (old + 0x1000) &&& ~~~0x3FF#32 = generation at hgen hnat
  simp only [] at hnat
  by_cases hpos : generation.toInt ≤ 0
  · rw [if_pos hpos, show (0x1000 : Word) = BitVec.ofNat 32 (1024 * 4) from rfl,
      toNat_or_index 4 e (by omega)] at hnat
    rw [BitVec.toInt_eq_toNat_of_lt (by omega)] at hpos
    omega
  · have hgen' : generation = BitVec.ofNat 32 (1024 * (generation.toNat / 1024)) :=
      BitVec.eq_of_toNat_eq (by rw [BitVec.toNat_ofNat]; omega)
    rw [if_neg hpos, hgen', toNat_or_index _ e (by omega)] at hnat
    omega

/-- A trap that is not a registration. -/
theorem Trapped.upcalls (h : Trapped k c cur tf io k')
    (hs : k.status cur ≠ .dying → tf.tfTrapno = 48 → ∀ exc,
      Sys.ofNat tf.tfRegs.regEax.toNat ≠ some (.envSetUpcall exc)) :
    KeepsUpcalls k k' ∨
      ∃ e g m, KeepsUpcalls (forked (saved k cur tf) cur e g m) k' := by
  have base : KeepsUpcalls k (saved k cur tf) := .of_modEnv _ _ ⟨rfl, rfl⟩
  have hres : ∀ (k₁ : Kernel n) (v : Int), KeepsUpcalls k₁ (setResult k₁ cur v) :=
    fun _ _ => .of_modEnv _ _ ⟨rfl, rfl⟩
  cases h with
  | zombie _ free sched => exact .inl (.freeSelf free sched)
  | destroy _ _ free sched => exact .inl (base.trans (.freeSelf free sched))
  | @upcall exc g m k' _ _ _ _ _ _ run =>
    have hmem : KeepsUpcalls (saved k cur tf) { saved k cur tf with mem := m } := .of_envs rfl
    exact .inl (base.trans (hmem.trans (.trans (.of_modEnv _ _ ⟨rfl, rfl⟩) (.ran run))))
  | nosys _ _ _ ret => exact .inl (base.trans ((hres _ _).trans (.resumed ret)))
  | call hd hno hof called ret =>
    rcases called.upcalls fun exc hexc => hs hd hno exc (hexc ▸ hof) with h | ⟨e, g, m, rfl⟩
    · exact .inl (base.trans (h.trans ((hres _ _).trans (.resumed ret))))
    · exact .inr ⟨e, g, m, (hres _ _).trans (.resumed ret)⟩
  | leave hd hno hof called =>
    rcases called.upcalls fun exc hexc => hs hd hno exc (hexc ▸ hof) with h | ⟨e, g, m, rfl⟩
    · exact .inl (base.trans h)
    · exact .inr ⟨e, g, m, .refl _⟩
  | spurious _ _ ret => exact .inl (base.trans (.resumed ret))
  | timer _ _ sched => exact .inl (base.trans (.scheduled sched))

/-- A registration that is refused, or that sets one upcall of one environment. -/
theorem Step.registration (h : Step k (.trap c tf io) k') (hcur : k.curenv c = some cur)
    (hd : k.status cur ≠ .dying) (hno : tf.tfTrapno = 48)
    (hs : Sys.ofNat tf.tfRegs.regEax.toNat = some (.envSetUpcall exc)) :
    envid2env k cur tf.tfRegs.regEdx true = none ∧ KeepsUpcalls k k' ∨
      ∃ e, envid2env k cur tf.tfRegs.regEdx true = some e ∧
        KeepsUpcalls (k.modEnv e fun env =>
          { env with envUpcall := Function.update env.envUpcall exc tf.tfRegs.regEcx }) k' := by
  have hcall : callOf k (.trap c tf io) = some (cur, .envSetUpcall exc, argsOf tf) := by
    simp [callOf, hcur, hd, hno, hs]
  have hres : ∀ (k₁ : Kernel n) (v : Int), KeepsUpcalls k₁ (setResult k₁ cur v) :=
    fun _ _ => .of_modEnv _ _ ⟨rfl, rfl⟩
  cases he : envid2env k cur tf.tfRegs.regEdx true with
  | none =>
    obtain ⟨c', tf', io', ha, -, ret⟩ := step_syscall (v := -eBadEnv) (f := saved k cur) hcall h
      fun c tf' io _ hs' => by
        unfold syscall
        rw [hs']
        simp only [dispatchSetUpcall_eq, sysEnvSetUpcall]
        rw [show envid2env (saved k cur tf') cur (argsOf tf).a1 true = none from
          (envid2env_saved ..).trans he]
        rfl
    cases ha
    have base : KeepsUpcalls k (saved k cur tf) := .of_modEnv _ _ ⟨rfl, rfl⟩
    exact .inl ⟨rfl, base.trans ((hres _ _).trans (.resumed ret))⟩
  | some e =>
    obtain ⟨c', tf', io', ha, -, ret⟩ := step_syscall (v := 0)
      (f := fun tf' => (saved k cur tf').modEnv e fun env =>
        { env with envUpcall := Function.update env.envUpcall exc tf.tfRegs.regEcx }) hcall h
      fun c tf' io _ hs' => by
        unfold syscall
        rw [hs']
        simp only [dispatchSetUpcall_eq, sysEnvSetUpcall]
        rw [show envid2env (saved k cur tf') cur (argsOf tf).a1 true = some e from
          (envid2env_saved ..).trans he]
        rfl
    cases ha
    refine .inr ⟨e, rfl, .trans (fun i => ?_) ((hres _ _).trans (.resumed ret))⟩
    rw [Kernel.modEnv_apply, Kernel.modEnv_apply, saved_env, saved_env]
    split_ifs <;> exact ⟨rfl, rfl⟩

theorem registers_of_curenv (hcur : k.curenv c = some cur) : Registers k c tf e exc ↔
    k.status cur ≠ .dying ∧ tf.tfTrapno = 48 ∧ tf.tfRegs.regEax = sysNo (.envSetUpcall exc) ∧
      envid2env k cur tf.tfRegs.regEdx true = some e := by
  rw [Registers, hcur]

theorem register_of_registers {r : Registered} (h : Registers k c tf e exc) :
    register k (.trap c tf io) r e exc = tf.tfRegs.regEcx := if_pos h

theorem register_of_not {r : Registered} (h : ¬Registers k c tf e exc) :
    register k (.trap c tf io) r e exc = r e exc := if_neg h

/-- What is registered when the dispatcher takes a call for a registration. -/
theorem registers_iff {exc' : Exc} (hcur : k.curenv c = some cur)
    (hd : k.status cur ≠ .dying) (hno : tf.tfTrapno = 48)
    (hs : Sys.ofNat tf.tfRegs.regEax.toNat = some (.envSetUpcall exc')) :
    Registers k c tf e exc ↔ exc = exc' ∧ envid2env k cur tf.tfRegs.regEdx true = some e := by
  rw [registers_of_curenv hcur]
  constructor
  · rintro ⟨-, -, heax, he⟩
    rw [heax, ofNat_sysNo] at hs
    cases hs
    exact ⟨rfl, he⟩
  · rintro ⟨rfl, he⟩
    exact ⟨hd, hno, eq_sysNo_of_ofNat hs, he⟩

/-- The upcalls after a step are those of the record. -/
theorem Step.upcalls (h : Step k a k') (e : EnvIx) (exc : Exc) :
    (k'.envs e).envUpcall exc = if (k'.envs e).envId ≠ (k.envs e).envId then 0 else
      register k a (fun e exc => (k.envs e).envUpcall exc) e exc := by
  have keeps : KeepsUpcalls k k' →
      register k a (fun e exc => (k.envs e).envUpcall exc) e exc = (k.envs e).envUpcall exc →
      (k'.envs e).envUpcall exc = if (k'.envs e).envId ≠ (k.envs e).envId then 0 else
        register k a (fun e exc => (k.envs e).envUpcall exc) e exc := fun hk hr => by
    rw [if_neg (not_not_intro (hk e).1), hr, (hk e).2]
  cases a with
  | trap c tf io =>
    obtain ⟨-, -, cur, hcur, ht⟩ := step_trap h
    by_cases hreg : k.status cur ≠ .dying ∧ tf.tfTrapno = 48 ∧
        ∃ exc, Sys.ofNat tf.tfRegs.regEax.toNat = some (.envSetUpcall exc)
    · obtain ⟨hd, hno, exc₀, hs⟩ := hreg
      have hiff : ∀ e, Registers k c tf e exc ↔ _ := fun e => registers_iff hcur hd hno hs
      rcases Step.registration h hcur hd hno hs with ⟨he, hk⟩ | ⟨e₀, he, hk⟩
      · refine keeps hk (register_of_not fun hr => ?_)
        rw [((hiff e).mp hr).2] at he
        cases he
      · have hid : (k'.envs e).envId = (k.envs e).envId := by
          rw [(hk e).1, Kernel.modEnv_apply]
          split_ifs with hi
          · rw [hi]
          · rfl
        rw [if_neg (not_not_intro hid), (hk e).2, Kernel.modEnv_apply]
        by_cases hr : Registers k c tf e exc
        · obtain ⟨rfl, he'⟩ := (hiff e).mp hr
          obtain rfl : e₀ = e := Option.some.inj (he.symm.trans he')
          rw [register_of_registers hr]
          simp
        · rw [register_of_not hr]
          split_ifs with hi
          · subst hi
            exact Function.update_of_ne (fun hx => hr ((hiff e).mpr ⟨hx, he⟩)) ..
          · rfl
    · have hs : k.status cur ≠ .dying → tf.tfTrapno = 48 → ∀ exc,
          Sys.ofNat tf.tfRegs.regEax.toNat ≠ some (.envSetUpcall exc) := fun hd hno exc hs =>
        hreg ⟨hd, hno, exc, hs⟩
      have hnot : ¬Registers k c tf e exc := by
        rw [registers_of_curenv hcur]
        rintro ⟨hd, hno, heax, -⟩
        exact hs hd hno exc (by rw [heax, ofNat_sysNo])
      rcases ht.upcalls hs with hk | ⟨e₀, g, m, hk⟩
      · exact keeps hk (register_of_not hnot)
      · rw [register_of_not hnot, (hk e).1, (hk e).2]
        by_cases he : e = e₀
        · subst he
          have hnew : ((forked (saved k cur tf) cur e g m).envs e).envId ≠ (k.envs e).envId := by
            simp only [forked, Function.update_self, forkedEnv, saved_env]
            exact nextEnvId_ne _ _
          rw [if_pos hnew]
          simp [forked, forkedEnv]
        · have hold : (forked (saved k cur tf) cur e₀ g m).envs e = (saved k cur tf).envs e :=
            Function.update_of_ne he ..
          rw [hold, saved_env]
          exact (if_neg (not_not_intro rfl)).symm
  | wake c no =>
    obtain ⟨-, -, hs | hs⟩ := step_wake h
    · exact keeps (.scheduled hs) rfl
    · exact keeps (.resumed hs) rfl
  | start c =>
    obtain ⟨-, -, hs⟩ := step_start h
    exact keeps (.scheduled hs) rfl
  | access c va store =>
    obtain ⟨-, -, rfl | ⟨m, -, rfl⟩⟩ := step_access h
    · exact keeps (.refl _) rfl
    · exact keeps (.of_envs rfl) rfl

/-! ## Runs -/

theorem created_upcall (h : Created S k) (e : EnvIx) (exc : Exc) :
    (k.envs e).envUpcall exc = 0 := by
  induction h with
  | init _ zero _ _ _ => exact congrFun (congrArg Env.envUpcall (zero e)) exc
  | @create k k₁ e₀ g m eip _ alloc _ _ ih =>
    obtain ⟨g', m', -, -, rfl⟩ := envAlloc_ok alloc
    rw [entered, Kernel.modEnv_apply]
    split_ifs with he
    · subst he
      simp [allocated]
    · exact (congrArg (fun env : Env n => env.envUpcall exc)
        (allocated_env k e₀ g' m' 0 he)).trans ih

/-- In every state of every run from boot, the fields of `struct Env` hold what was registered. -/
theorem registered_of_reachable {s : Kernel n × Registered}
    (h : Reachable (fun s => Boot S s.1 ∧ s.2 = fun _ _ => 0) RegisterStep s) (e : EnvIx)
    (exc : Exc) : (s.1.envs e).envUpcall exc = s.2 e exc := by
  refine h.invariant (P := fun s => ∀ e exc, (s.1.envs e).envUpcall exc = s.2 e exc) ?_ ?_ e exc
  · rintro ⟨k, r⟩ ⟨hb, hr⟩ e exc
    exact (created_upcall hb.1 e exc).trans (congrFun (congrFun hr e) exc).symm
  · rintro ⟨k, r⟩ a ⟨k', r'⟩ ih ⟨hstep, hr⟩ e exc
    have hsame : (fun e exc => (k.envs e).envUpcall exc) = r := by
      funext e exc
      exact ih e exc
    have hup := hstep.upcalls e exc
    rw [hsame] at hup
    exact hup.trans (congrFun (congrFun hr e) exc).symm

end JosKernel
