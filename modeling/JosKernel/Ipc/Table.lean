import JosKernel.Env.Table
import JosKernel.Ipc.Effects
import JosKernel.Ipc.Refine

/-!
# The table of live environments

`TableInv` is what holds of ids and current environments as long as no environment is freed while
it is current on another CPU: an environment that is current on a CPU is live, and the id of a
live environment leads to its slot.
-/
namespace JosKernel

open Lib

namespace View

variable {v v' v₁ : View} {c : Cpu} {cur e : EnvIx} {call : Option (Sys × Args)}

/-! ## Effects on ids and current environments -/

theorem envid2env_live {id : Word} {b : Bool} (h : v.envid2env cur id b = some e)
    (hc : (v.env cur).status ≠ .free) : (v.env e).status ≠ .free := by
  unfold View.envid2env at h
  split_ifs at h with h1 h2 h3
  · cases h; exact hc
  · cases h; exact fun hf => h2 (.inl hf)

/-- Neither the caller's request to receive nor its queue changes the meaning of ids. -/
theorem envid2env_dequeued {d id : Word} {b : Bool} (hlive : (v.env cur).status ≠ .free) :
    ((v.receiving cur d).dequeued cur).envid2env cur id b = v.envid2env cur id b := by
  have h : ∀ i, ((((v.receiving cur d).dequeued cur).env i).status = .free ↔
        (v.env i).status = .free) ∧
      (((v.receiving cur d).dequeued cur).env i).id = (v.env i).id ∧
      (((v.receiving cur d).dequeued cur).env i).parentId = (v.env i).parentId := by
    intro i
    simp only [View.receiving, View.dequeued, modEnv_env]
    grind
  simp only [View.envid2env, h]

/-- Only `sys_exofork` changes an id, that of a free slot, and makes a free slot live. -/
theorem Acted.id (h : Acted v c cur call v₁) (hlive : (v.env cur).status ≠ .free) (i : EnvIx) :
    (v₁.env i).id = (v.env i).id ∧ ((v.env i).status = .free → (v₁.env i).status = .free) ∨
      (v.env i).status = .free ∧ (v₁.env i).id = nextEnvId (v.env i).id i := by
  cases h with
  | fork free =>
    simp only [setEax, View.forked, modEnv_env]
    grind
  | mark he hr hc =>
    simp only [setEax, View.setStatus, modEnv_env]
    grind
  | setStatus he hs =>
    have := envid2env_live he hlive
    simp only [setEax, View.setStatus, modEnv_env]
    grind
  | deliver he hr =>
    have := envid2env_live he hlive
    simp only [setEax, View.delivered, modEnv_env]
    grind
  | @wake a e _ _ h hi he =>
    have hnf : (((v.receiving cur a.a1).dequeued cur).env cur).status ≠ .free := by
      simp [View.receiving, View.dequeued]
    have := envid2env_live he hnf
    simp only [setEax, View.receiving, View.setStatus, View.dequeued, modEnv_env] at this ⊢
    grind
  | _ =>
    simp only [setEax, View.setStatus, View.enqueued, View.receiving, View.dequeued, View.leave,
      modEnv_env]
    grind

theorem Settled.id (h : Settled v c v') (i : EnvIx) : (v'.env i).id = (v.env i).id := by
  show (v'.env i).core.id = (v.env i).core.id
  rw [h.core]

/-- A trap takes the current environment off its CPU only when it dies. -/
theorem Acted.curenv (h : Acted v c cur call v₁) : v₁.cur = v.cur ∨
    v₁.cur = Function.update v.cur c none := by
  cases h with
  | die _ => exact .inr rfl
  | _ => exact .inl rfl

theorem Acted.cur_status (h : Acted v c cur call v₁) (hcur : v.cur c = some cur)
    (hlive : (v.env cur).status ≠ .free) :
    v₁.cur c = none ∨ (v₁.env cur).status ≠ .free := by
  cases h with
  | die _ => exact .inl (by simp [View.leave])
  | _ =>
    right
    simp only [setEax, View.setStatus, View.forked, View.enqueued, View.delivered, View.receiving,
      View.dequeued, modEnv_env]
    grind

/-- Current environments are live, and the id of a live environment leads to it. -/
structure Live (v : View) : Prop where
  cur : ∀ c e, v.cur c = some e → (v.env e).status ≠ .free
  ids : ∀ e, (v.env e).status ≠ .free → envx (v.env e).id = e ∧ (v.env e).id ≠ 0

/-- An environment that leaves the table is current on no CPU but the one that makes the step. -/
def SparesCurrent (v : View) (c : Cpu) (v' : View) : Prop :=
  ∀ e, (v.env e).status ≠ .free → (v'.env e).status = .free → ∀ c', c' ≠ c → v.cur c' ≠ some e

end View

/-! ## Ids -/

/-- The generation part of a new id. -/
theorem nextEnvId_eq (old : Word) (e : EnvIx) : ∃ g : Word, g ≠ 0#32 ∧ g &&& 0x3FF = 0#32 ∧
    nextEnvId old e = g ||| BitVec.ofNat 32 e := by
  unfold nextEnvId
  refine ⟨_, ?_, ?_, rfl⟩
  · split_ifs with h
    · decide
    · intro h0
      rw [h0] at h
      exact h (by decide)
  · split_ifs with h
    · decide
    · rw [BitVec.and_assoc]
      simp
theorem nextEnvId_ne_zero (old : Word) (e : EnvIx) : nextEnvId old e ≠ 0 := by
  obtain ⟨g, hg, -, h⟩ := nextEnvId_eq old e
  rw [h]
  intro h0
  exact hg (BitVec.or_eq_zero_iff.mp h0).1

theorem envx_nextEnvId (old : Word) (e : EnvIx) : envx (nextEnvId old e) = e := by
  obtain ⟨g, -, hg, h⟩ := nextEnvId_eq old e
  have hlow : nextEnvId old e &&& 0x3FF = BitVec.ofNat 32 e &&& 0x3FF := by
    rw [h, BitVec.and_comm, BitVec.and_or_distrib_left]
    rw [BitVec.and_comm _ g, hg, BitVec.zero_or, BitVec.and_comm]
  have h' := congrArg BitVec.toNat hlow
  simp only [BitVec.toNat_and] at h'
  rw [show (0x3FF : Word).toNat = 2 ^ 10 - 1 from rfl, Nat.and_two_pow_sub_one_eq_mod,
    Nat.and_two_pow_sub_one_eq_mod] at h'
  refine Fin.ext ?_
  show (nextEnvId old e).toNat % 1024 = e
  simp at h'
  omega
namespace View

variable {v v' v₁ : View} {c : Cpu} {cur e : EnvIx} {a : Action}

theorem Settled.live (h : Settled v c v') (live : Live v) : Live v' where
  cur c' e he := by
    intro hf
    by_cases hc : c' = c
    · subst hc
      rcases h.self e he with h' | h'
      · exact live.cur c' e h' ((h.free e).mp hf)
      · simp [hf] at h'
    · exact live.cur c' e ((h.other c' hc).1 ▸ he) ((h.free e).mp hf)
  ids e he := by
    rw [h.id]
    exact live.ids e fun hf => he ((h.free e).mpr hf)

theorem Acted.live (h : Acted v c cur call v₁) (live : Live v) (hcur : v.cur c = some cur)
    (spares : SparesCurrent v c v₁) : Live v₁ where
  cur c' e he := by
    by_cases hc : c' = c
    · subst hc
      rcases h.cur_status hcur (live.cur c' cur hcur) with h' | h'
      · simp [h'] at he
      · rcases h.curenv with hv | hv
        · rw [hv, hcur] at he
          exact Option.some.inj he ▸ h'
        · simp [hv] at he
    · have he' : v.cur c' = some e := by
        rcases h.curenv with hv | hv
        · rwa [hv] at he
        · simpa [hv, hc] using he
      exact fun hf => spares e (live.cur c' e he') hf c' hc he'
  ids e he := by
    rcases h.id (live.cur c cur hcur) e with ⟨h', hf⟩ | ⟨hf, h'⟩
    · rw [h']
      exact live.ids e fun h => he (hf h)
    · rw [h']
      exact ⟨envx_nextEnvId .., nextEnvId_ne_zero _ _⟩

/-- The death of the current environment of CPU `c`. -/
theorem Live.reap (live : Live v)
    (spares : ∀ c', c' ≠ c → v.cur c' ≠ some cur) : Live ((v.setStatus cur .free).leave c) where
  cur c' e he := by
    by_cases hc : c' = c
    · simp [View.leave, hc] at he
    · have he' : v.cur c' = some e := by simpa [View.leave, View.setStatus, hc] using he
      have hne : e ≠ cur := fun h => spares c' hc (h ▸ he')
      simpa [View.leave, View.setStatus, modEnv_of_ne _ _ hne] using live.cur c' e he'
  ids e he := by
    by_cases hi : e = cur
    · simp [View.leave, View.setStatus, hi] at he
    · simp only [View.leave, View.setStatus, modEnv_of_ne _ _ hi] at he ⊢
      exact live.ids e he

theorem Step.live (h : Step v a v') (live : Live v) (spares : SparesCurrent v a.cpu v') :
    Live v' := by
  cases h.kinds with
  | idle _ s => exact s.live live
  | @reap c tf io cur ha hcur hd s =>
    subst ha
    refine s.live (live.reap ?_)
    refine spares cur (live.cur c cur hcur) ((s.free cur).mpr ?_)
    simp [View.leave, View.setStatus]
  | @act c tf io cur v₁ ha hcur hd act s =>
    subst ha
    exact s.live (act.live live hcur fun e he hf => spares e he ((s.free e).mpr hf))

end View

/-! ## The invariant -/

variable {n : Nat} {S : Set (Fin n)} {k k' : Kernel n} {a : Action}

structure TableInv (k : Kernel n) : Prop where
  slots : SlotInv k
  live : k.view.Live

theorem TableInv.step (inv : TableInv k) (ok : FreeOk k a) (h : Step k a k') : TableInv k' := by
  have hslots : SlotStep k (Frees k a) k' := step_slots inv.live.cur h
  refine ⟨hslots.slotInv inv.slots, (h.view inv.slots).live inv.live fun e he hf => ?_⟩
  have hfrees := hslots.frees he hf
  cases a with
  | trap c tf io => exact ok.quiet rfl hfrees
  | _ => exact hfrees.elim

theorem created_ids (h : Created S k) (e : EnvIx) (he : k.status e ≠ .free) :
    envx (k.envs e).envId = e ∧ (k.envs e).envId ≠ 0 := by
  induction h generalizing e with
  | init _ zero => exact absurd (congrArg Env.envStatus (zero e)) he
  | @create k k₁ i g m eip _ alloc _ _ ih =>
    obtain ⟨g', m', hfree, -, rfl⟩ := envAlloc_ok alloc
    by_cases hi : e = i
    · subst hi
      simp only [entered, allocated, Kernel.modEnv_self, Function.update_self]
      exact ⟨envx_nextEnvId .., nextEnvId_ne_zero _ _⟩
    · simp only [entered, allocated, Kernel.status, Kernel.modEnv_of_ne _ _ hi,
        Function.update_of_ne hi] at he ⊢
      exact ih e he

theorem tableInv_boot (h : Boot S k) : TableInv k := by
  obtain ⟨inv, hnone⟩ := created_cpuInv h.1
  refine ⟨inv.slots, fun c e he => ?_, created_ids h.1⟩
  rw [view_cur, hnone] at he
  cases he

end JosKernel
