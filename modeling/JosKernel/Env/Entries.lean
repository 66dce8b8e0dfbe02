import JosKernel.Env.Invariant

/-!
# Steps of the machine

The kernel invariant under whole kernel entries and under memory accesses in user mode.
`Moved` says what a step does to the address spaces: a system call maps or unmaps one page, an
environment that is destroyed loses its mappings, and an access sets the accessed and dirty bits
of one entry.
-/
namespace JosKernel

open Lib

variable {n : Nat} {S : Set (Fin n)} {x : Fin n → ℕ} {k k' : Kernel n} {c : Cpu}
  {cur e : EnvIx}

/-! ## The user trap frame -/

namespace MemInv

variable {ι : Type} [Fintype ι] {dirs : ι → Option (Fin n)} {m m' : Mem n} {i : ι} {g : Fin n}
  {va : Word}

/-- The pages that hold one of the `len` bytes from `va` on. -/
def SpanPage (n : Nat) (v : Fin 1024 → Fin 1024 → Word) (va : Word) (len : Nat) (q : Fin n) :
    Prop :=
  ∃ a : Word, va.toNat ≤ a.toNat ∧ a.toNat < va.toNat + len ∧
    pageOf n (v (pdx a) (ptx a)) = some q

theorem kstoreWord (inv : MemInv S dirs x ∅ m) (hi : dirs i = some g) {w : Word}
    (hva : va.toNat + 4 ≤ utop.toNat) (hst : JosKernel.kstoreWord m g va w = some m') :
    MemInv S dirs x ∅ m' ∧ m'.spaces dirs = m.spaces dirs ∧ m'.kernPgdir = m.kernPgdir ∧
      ∀ q, ¬SpanPage n (m.spaces dirs i) va 4 q → m'.frame q = m.frame q := by
  have hadd : ∀ j < 4, (va + BitVec.ofNat 32 j).toNat = va.toNat + j := by
    intro j hj
    rw [toNat_utop] at hva
    rw [BitVec.toNat_add, BitVec.toNat_ofNat]
    omega
  -- one byte store, at distance `j`
  have step : ∀ {m₁ m₂ : Mem n} {b : Byte} (j : ℕ), j < 4 → MemInv S dirs x ∅ m₁ →
      m₁.spaces dirs = m.spaces dirs → m₁.kernPgdir = m.kernPgdir →
      (∀ q, ¬SpanPage n (m.spaces dirs i) va 4 q → m₁.frame q = m.frame q) →
      m₁.storeByte g (va + BitVec.ofNat 32 j) b false = some m₂ →
      MemInv S dirs x ∅ m₂ ∧ m₂.spaces dirs = m.spaces dirs ∧ m₂.kernPgdir = m.kernPgdir ∧
        ∀ q, ¬SpanPage n (m.spaces dirs i) va 4 q → m₂.frame q = m.frame q := by
    intro m₁ m₂ b j hj inv₁ hsp₁ hk₁ hfr₁ hst₁
    have hlt : va + BitVec.ofNat 32 j < utop := by
      rw [BitVec.lt_def, hadd j hj]
      omega
    obtain ⟨inv₂, hsp₂, hk₂, hfr₂⟩ := inv₁.storeByte hi hlt hst₁
    refine ⟨inv₂, hsp₂.trans hsp₁, hk₂.trans hk₁, fun q hq => (hfr₂ q ?_).trans (hfr₁ q hq)⟩
    intro hc
    refine hq ⟨va + BitVec.ofNat 32 j, ?_, ?_, ?_⟩
    · rw [hadd j hj]; omega
    · rw [hadd j hj]; omega
    · rw [← hsp₁, Mem.spaces_of_dir hi]
      exact hc
  simp only [JosKernel.kstoreWord, Option.bind_eq_bind, Option.bind_eq_some_iff] at hst
  obtain ⟨m₁, h₁, m₂, h₂, m₃, h₃, h₄⟩ := hst
  obtain ⟨inv₁, hsp₁, hk₁, hfr₁⟩ :=
    step 0 (by omega) inv rfl rfl (fun _ _ => rfl) (by simpa using h₁)
  obtain ⟨inv₂, hsp₂, hk₂, hfr₂⟩ := step 1 (by omega) inv₁ hsp₁ hk₁ hfr₁ h₂
  obtain ⟨inv₃, hsp₃, hk₃, hfr₃⟩ := step 2 (by omega) inv₂ hsp₂ hk₂ hfr₂ h₃
  exact step 3 (by omega) inv₃ hsp₃ hk₃ hfr₃ h₄

/-- The kernel stores words in user memory. -/
theorem kstoreWords (inv : MemInv S dirs x ∅ m) (hi : dirs i = some g) {ws : List Word}
    (hva : va.toNat + 4 * ws.length ≤ utop.toNat)
    (hst : JosKernel.kstoreWords m g va ws = some m') :
    MemInv S dirs x ∅ m' ∧ m'.spaces dirs = m.spaces dirs ∧ m'.kernPgdir = m.kernPgdir ∧
      ∀ q, ¬SpanPage n (m.spaces dirs i) va (4 * ws.length) q → m'.frame q = m.frame q := by
  induction ws generalizing m va with
  | nil => cases hst; exact ⟨inv, rfl, rfl, fun _ _ => rfl⟩
  | cons w ws ih =>
    simp only [JosKernel.kstoreWords, Option.bind_eq_bind, Option.bind_eq_some_iff] at hst
    obtain ⟨m₁, h₁, h₂⟩ := hst
    rw [List.length_cons] at hva ⊢
    have hadd : (va + 4).toNat = va.toNat + 4 := by
      rw [toNat_utop] at hva
      rw [BitVec.toNat_add]
      show (va.toNat + 4) % _ = _
      omega
    obtain ⟨inv₁, hsp₁, hk₁, hfr₁⟩ := inv.kstoreWord hi (by omega) h₁
    obtain ⟨inv₂, hsp₂, hk₂, hfr₂⟩ := ih inv₁ (by rw [hadd]; omega) h₂
    refine ⟨inv₂, hsp₂.trans hsp₁, hk₂.trans hk₁, fun q hq => ?_⟩
    rw [hfr₂ q, hfr₁ q]
    · rintro ⟨a, h1, h2, h3⟩
      exact hq ⟨a, h1, by omega, h3⟩
    · rintro ⟨a, h1, h2, h3⟩
      rw [hadd] at h1 h2
      rw [hsp₁] at h3
      exact hq ⟨a, by omega, by omega, h3⟩

end MemInv

/-- The user trap frame lies below `UTOP`. -/
theorem utfAddr_le (esp faultVa : Word) (tf : Trapframe) :
    (utfAddr esp).toNat + 4 * (utrapframe faultVa tf).length ≤ utop.toNat := by
  have hlen : (utrapframe faultVa tf).length = 13 := rfl
  have htop : uxstacktop.toNat = 4005560320 := by decide
  have hlow : (uxstacktop - pgsize).toNat = 4005556224 := by decide
  rw [hlen, toNat_utop, utfAddr]
  split_ifs with h
  · rw [BitVec.le_def, BitVec.lt_def, htop, hlow] at h
    simp only [BitVec.toNat_sub]
    show ((2 ^ 32 - 4 + ((2 ^ 32 - 52 + esp.toNat) % 2 ^ 32)) % 2 ^ 32) + 52 ≤ 4005560320
    omega
  · decide

/-! ## The saved trap frame -/

@[simp] theorem saved_mem (k : Kernel n) (cur : EnvIx) (tf : Trapframe) :
    (saved k cur tf).mem = k.mem := rfl

@[simp] theorem saved_dirs (k : Kernel n) (cur : EnvIx) (tf : Trapframe) :
    (saved k cur tf).dirs = k.dirs := Kernel.dirs_modEnv _ rfl

@[simp] theorem saved_spaces (k : Kernel n) (cur : EnvIx) (tf : Trapframe) :
    (saved k cur tf).spaces = k.spaces := Kernel.spaces_congr rfl (saved_dirs k cur tf)

theorem intended_saved (k : Kernel n) (cur : EnvIx) (tf : Trapframe) (s : Sys) (a : Args) :
    intended (saved k cur tf) cur s a = intended k cur s a := by
  cases s <;> simp [intended, envid2env_saved, lookedUp, saved_env]

theorem Remaps.of_saved {tf : Trapframe} {s : Sys} {a : Args} {va w : Word}
    (h : Remaps (saved k cur tf) cur s a e va w) : Remaps k cur s a e va w := by
  cases h with
  | alloc he hva hperm hpp => exact .alloc (envid2env_saved k .. ▸ he) hva hperm hpp
  | map hs hd hsva hva hperm hlook hpp hw =>
    refine .map (envid2env_saved k .. ▸ hs) (envid2env_saved k .. ▸ hd) hsva hva hperm ?_
      (saved_spaces k .. ▸ hpp) (saved_spaces k .. ▸ hw)
    simpa [lookedUp] using hlook
  | unmap he hva hp => exact .unmap (envid2env_saved k .. ▸ he) hva (saved_spaces k .. ▸ hp)
  | send he hr hs ha hva hlook hpp hperm =>
    rw [envid2env_saved] at he
    simp only [saved_env, saved_spaces] at hr hva hpp hperm ⊢
    exact .send he hr hs ha hva (by simpa [lookedUp] using hlook) hpp hperm

theorem getsPage_saved (tf : Trapframe) {s : Sys} {a : Args} :
    GetsPage (saved k cur tf) cur s a = GetsPage k cur s a := by
  simp [GetsPage, envid2env_saved]

theorem memOk_saved (tf : Trapframe) {s : Sys} {a : Args} (ok : MemOk k c cur s a) :
    MemOk (saved k cur tf) c cur s a := by
  have hlook : ∀ e va, lookedUp (saved k cur tf) e va = lookedUp k e va := fun e va => by
    simp [lookedUp]
  cases s
  case pageAlloc => simpa only [MemOk, getsPage_saved] using ok
  case pageMap =>
    intro srce dste pp h
    simpa only [RoomFor, saved_mem, saved_spaces] using
      ok srce dste pp ⟨envid2env_saved k .. ▸ h.src, envid2env_saved k .. ▸ h.dst, h.srcva,
        h.dstva, hlook _ _ ▸ h.page, h.perm, saved_spaces k .. ▸ h.write⟩
  case ipcTrySend =>
    intro e pp h
    have hr := h.recving
    have hd := h.dstva
    rw [saved_env] at hr hd ⊢
    simpa only [RoomFor, saved_mem, saved_spaces] using
      ok e pp ⟨envid2env_saved k .. ▸ h.dst, hr, h.srcva, h.aligned, hd, hlook _ _ ▸ h.page,
        saved_spaces k .. ▸ h.perm⟩
  all_goals trivial

theorem destroyOk_saved (tf : Trapframe) {s : Sys} {a : Args} (ok : DestroyOk k c cur s a) :
    DestroyOk (saved k cur tf) c cur s a := by
  cases s
  case envDestroy =>
    simpa only [DestroyOk, envid2env_saved, saved_status, Quiet, saved_curenv] using ok
  all_goals trivial

theorem KInv.save (inv : KInv S x k) (cur : EnvIx) (tf : Trapframe) :
    KInv S x (saved k cur tf) := inv.modEnv _ rfl Iff.rfl rfl

/-! ## What a step does to the address spaces -/

/-- The system call that an action makes. -/
def callOf (k : Kernel n) : Action → Option (EnvIx × Sys × Args)
  | .trap c tf _ => (k.curenv c).bind fun cur =>
    if k.status cur ≠ .dying ∧ tf.tfTrapno = 48 then
      (Sys.ofNat tf.tfRegs.regEax.toNat).map fun s => (cur, s, argsOf tf)
    else none
  | _ => none

/-- The register in which a system call returns its result. -/
def Kernel.eax (k : Kernel n) (e : EnvIx) : Word := (k.envs e).envTf.tfRegs.regEax

inductive Moved (k : Kernel n) (a : Action) (k' : Kernel n) : Prop
  | call {cur : EnvIx} {s : Sys} {args : Args} {r : Option Int}
      (hc : callOf k a = some (cur, s, args)) (eff : Respaced k cur s args r k')
      (hr : ∀ v, r = some v → k'.eax cur = BitVec.ofInt 32 v) (frames : SameFrames k k')
  | idle (hc : callOf k a = none) (hsp : k'.spaces = k.spaces) (frames : SameFrames k k')
  | upcall {c : Cpu} {tf : Trapframe} {io : Inputs} {cur : EnvIx} (ha : a = .trap c tf io)
      (hc : callOf k a = none) (hcur : k.curenv c = some cur) (hsp : k'.spaces = k.spaces)
      (frames : ∀ q, ¬MemInv.SpanPage n (k.spaces cur) (utfAddr tf.tfEsp) 52 q →
        k'.mem.frame q = k.mem.frame q)
  | death {e : EnvIx} (hc : callOf k a = none) (hfree : k'.status e = .free)
      (hsp : k'.spaces = Function.update k.spaces e 0) (frames : SameFrames k k')
  | touch {c : Cpu} {va : Word} {store : Option Byte} {e : EnvIx} {p : Fin n}
      (ha : a = .access c va store) (hcur : k.curenv c = some e)
      (hp : pageOf n (k.spaces e (pdx va) (ptx va)) = some p)
      (hallow : Mem.allows true store.isSome (k.spaces e (pdx va) (ptx va)) = true)
      (hsp : k'.spaces =
        setSpace k.spaces e va (touched store (k.spaces e (pdx va) (ptx va))))
      (frames : ∀ q, k.Mapped q → k'.mem.frame q =
        if q = p then stored store (pgoff va) (k.mem.frame p) else k.mem.frame q)

theorem Scheduled.core (sched : Scheduled k c k') (i : EnvIx) :
    (k'.envs i).core = (k.envs i).core := by
  cases sched with
  | next _ run => exact run.core i
  | same _ _ _ run => exact run.core i
  | halt _ _ =>
    unfold schedHalt
    split_ifs <;> rfl

theorem Resumed.core (h : Resumed k c k') (i : EnvIx) : (k'.envs i).core = (k.envs i).core := by
  cases h with
  | run _ _ run => exact run.core i
  | yield _ sched => exact sched.core i

theorem Resumed.eax {v : Int} (h : Resumed (setResult k cur v) c k') :
    k'.eax cur = BitVec.ofInt 32 v := by
  have htf : (k'.envs cur).envTf = ((setResult k cur v).envs cur).envTf := by
    show (k'.envs cur).core.envTf = ((setResult k cur v).envs cur).core.envTf
    rw [h.core]
  rw [Kernel.eax, htf]
  simp [setResult, Trapframe.setEax]

/-- The caller's saved frame does not matter for the effect of a call. -/
theorem Respaced.of_saved {tf : Trapframe} {s : Sys} {a : Args} {r : Option Int} {k₁ : Kernel n}
    (h : Respaced (saved k cur tf) cur s a r k₁) (hsp : k'.spaces = k₁.spaces)
    (hst : ∀ i, k₁.status i = .free → k'.status i = .free) : Respaced k cur s a r k' := by
  cases h with
  | same h hr =>
    exact .same (by rw [hsp, h, saved_spaces]) fun hv => intended_saved k .. ▸ hr hv
  | remap hre h => exact .remap hre.of_saved (by rw [hsp, h, saved_spaces])
  | clear hs he hf h =>
    exact .clear hs (envid2env_saved k .. ▸ he) (hst _ hf) (by rw [hsp, h, saved_spaces])

theorem callOf_eq_some {tf : Trapframe} {io : Inputs} {s : Sys} (hc : k.curenv c = some cur)
    (hd : k.status cur ≠ .dying) (hno : tf.tfTrapno = 48)
    (hs : Sys.ofNat tf.tfRegs.regEax.toNat = some s) :
    callOf k (.trap c tf io) = some (cur, s, argsOf tf) := by
  simp [callOf, hc, hd, hno, hs]

theorem callOf_eq_none {tf : Trapframe} {io : Inputs} (hc : k.curenv c = some cur)
    (h : k.status cur = .dying ∨ tf.tfTrapno ≠ 48 ∨ Sys.ofNat tf.tfRegs.regEax.toNat = none) :
    callOf k (.trap c tf io) = none := by
  simp only [callOf, hc, Option.bind_some, ite_eq_right_iff, Option.map_eq_none_iff]
  grind

/-- No exception has the number of the system call trap. -/
theorem ne_syscall_of_exc {tf : Trapframe} {exc : Exc}
    (h : Exc.ofTrapno tf.tfTrapno.toNat = some exc) : tf.tfTrapno ≠ 48 := by
  intro hno
  rw [hno] at h
  cases h

theorem Doomed.ne_syscall {tf : Trapframe} (h : Doomed k cur tf) : tf.tfTrapno ≠ 48 := by
  cases h with
  | noUpcall hexc _ => exact ne_syscall_of_exc hexc
  | badStack hexc _ _ _ => exact ne_syscall_of_exc hexc
  | unexpected _ hno => exact hno.1

/-- A system call that returns, seen from the trap. -/
theorem trap_syscall {tf : Trapframe} {io : Inputs} {v : Int} {k₁ : Kernel n}
    (hc : k.curenv c = some cur) (hd : k.status cur ≠ .dying) (hno : tf.tfTrapno = 48)
    (hsys : syscall (saved k cur tf) c cur io tf.tfRegs.regEax (argsOf tf).a1 (argsOf tf).a2
      (argsOf tf).a3 (argsOf tf).a4 (argsOf tf).a5 = .ok (some v, k₁)) :
    trap k c tf io = trapReturn (setResult k₁ cur v) c := by
  have hexc : Exc.ofTrapno tf.tfTrapno.toNat = none := by rw [hno]; rfl
  have hdisp : trapDispatch (saved k cur tf) c cur tf io = .ok (some (), setResult k₁ cur v) := by
    unfold trapDispatch
    rw [hexc]
    simp only [if_pos hno, trapSyscall]
    change (syscall (saved k cur tf) c cur io tf.tfRegs.regEax (argsOf tf).a1 (argsOf tf).a2
      (argsOf tf).a3 (argsOf tf).a4 (argsOf tf).a5 >>= _) = _
    rw [hsys]
    rfl
  unfold trap
  simp only [hc, if_neg hd]
  change (trapDispatch (saved k cur tf) c cur tf io >>= _) = _
  rw [hdisp]
  rfl

/-- A step that makes a system call. -/
theorem step_call {a : Action} {s : Sys} {args : Args} (hc : callOf k a = some (cur, s, args))
    (h : Step k a k') : ∃ c tf io, a = .trap c tf io ∧ k.curenv c = some cur ∧
      k.status cur ≠ .dying ∧ tf.tfTrapno = 48 ∧ Sys.ofNat tf.tfRegs.regEax.toNat = some s ∧
      args = argsOf tf ∧
      ((∃ v k₁, Called (saved k cur tf) c cur s args (some v) k₁ ∧
          Resumed (setResult k₁ cur v) c k') ∨
        Called (saved k cur tf) c cur s args none k') := by
  cases a with
  | trap c tf io =>
    obtain ⟨-, -, cur', hcur, ht⟩ := step_trap h
    have hnone : k.status cur' = .dying ∨ tf.tfTrapno ≠ 48 ∨
        Sys.ofNat tf.tfRegs.regEax.toNat = none → False := fun hn => by
      rw [callOf_eq_none hcur hn] at hc
      cases hc
    have hsome : ∀ {s'}, k.status cur' ≠ .dying → tf.tfTrapno = 48 →
        Sys.ofNat tf.tfRegs.regEax.toNat = some s' → cur' = cur ∧ s' = s ∧ argsOf tf = args := by
      intro s' hd hno hs
      rw [callOf_eq_some hcur hd hno hs] at hc
      cases hc
      exact ⟨rfl, rfl, rfl⟩
    cases ht with
    | zombie hd => exact (hnone (.inl hd)).elim
    | destroy _ why => exact (hnone (.inr (.inl why.ne_syscall))).elim
    | upcall _ hexc => exact (hnone (.inr (.inl (ne_syscall_of_exc hexc)))).elim
    | nosys _ _ hs => exact (hnone (.inr (.inr hs))).elim
    | call hd hno hs called ret =>
      obtain ⟨rfl, rfl, rfl⟩ := hsome hd hno hs
      exact ⟨c, tf, io, rfl, hcur, hd, hno, hs, rfl, .inl ⟨_, _, called, ret⟩⟩
    | leave hd hno hs called =>
      obtain ⟨rfl, rfl, rfl⟩ := hsome hd hno hs
      exact ⟨c, tf, io, rfl, hcur, hd, hno, hs, rfl, .inr called⟩
    | spurious _ hno => exact (hnone (.inr (.inl (by rw [hno]; decide)))).elim
    | timer _ hno => exact (hnone (.inr (.inl (by rw [hno]; decide)))).elim
  | wake => cases hc
  | start => cases hc
  | access => cases hc

/-- A step that makes a system call with a known outcome. -/
theorem step_syscall {a : Action} {s : Sys} {args : Args} {v : Int} {f : Trapframe → Kernel n}
    (hc : callOf k a = some (cur, s, args)) (h : Step k a k')
    (hsys : ∀ c tf io, k.curenv c = some cur → Sys.ofNat tf.tfRegs.regEax.toNat = some s →
      syscall (saved k cur tf) c cur io tf.tfRegs.regEax args.a1 args.a2 args.a3 args.a4 args.a5 =
        .ok (some v, f tf)) :
    ∃ c tf io, a = .trap c tf io ∧ k.curenv c = some cur ∧
      Resumed (setResult (f tf) cur v) c k' := by
  obtain ⟨c, tf, io, rfl, hcur, hd, hno, hs, rfl, -⟩ := step_call hc h
  have htrap := trap_syscall hcur hd hno (hsys c tf io hcur hs)
  exact ⟨c, tf, io, rfl, hcur, trapReturn_resumed (htrap.symm.trans h.2)⟩

/-- The result of the system call that a step makes. -/
theorem step_result {a : Action} {s : Sys} {args : Args}
    (hc : callOf k a = some (cur, s, args)) (h : Step k a k') :
    ∃ c tf io r k₁, a = .trap c tf io ∧ k.curenv c = some cur ∧
      Sys.ofNat tf.tfRegs.regEax.toNat = some s ∧
      syscall (saved k cur tf) c cur io tf.tfRegs.regEax args.a1 args.a2 args.a3 args.a4 args.a5 =
        .ok (r, k₁) ∧
      (r = none ∧ k' = k₁ ∨ ∃ v, r = some v ∧ Resumed (setResult k₁ cur v) c k') := by
  obtain ⟨c, tf, io, rfl, hcur, hd, hno, hs, rfl, -⟩ := step_call hc h
  have hexc : Exc.ofTrapno tf.tfTrapno.toNat = none := by rw [hno]; rfl
  have htrap := h.2
  simp only [perform, trap, hcur, if_neg hd, bind_ok] at htrap
  obtain ⟨⟨u, k₂⟩, hdisp, hk'⟩ := htrap
  unfold trapDispatch at hdisp
  rw [hexc] at hdisp
  simp only [if_pos hno, trapSyscall, bind_ok] at hdisp
  obtain ⟨⟨r, k₁⟩, hsys, hdisp⟩ := hdisp
  refine ⟨c, tf, io, r, k₁, rfl, hcur, hs, hsys, ?_⟩
  cases r with
  | none =>
    cases hdisp
    cases hk'
    exact .inl ⟨rfl, rfl⟩
  | some v =>
    cases hdisp
    exact .inr ⟨v, rfl, trapReturn_resumed hk'⟩

/-- What a step must not do for the invariant to survive it. -/
structure StepOk (k : Kernel n) (a : Action) : Prop where
  mem : OnCall MemOk k a
  free : FreeOk k a

/-- The action is a `sys_page_alloc` that gets a page. -/
def Allocates (k : Kernel n) (a : Action) : Prop :=
  ∃ cur s args, callOf k a = some (cur, s, args) ∧ GetsPage k cur s args

theorem not_allocates {a : Action} (h : callOf k a = none) : ¬Allocates k a := by
  rintro ⟨cur, s, args, hc, -⟩
  simp [h] at hc

theorem allocates_iff {a : Action} {s : Sys} {args : Args}
    (h : callOf k a = some (cur, s, args)) : Allocates k a = GetsPage k cur s args := by
  simp [Allocates, h]

theorem Grown.map {p : Prop} {k₁ : Kernel n} (h : Grown S x p k₁)
    (f : ∀ {x}, KInv S x k₁ → KInv S x k') : Grown S x p k' :=
  h.imp (fun h => ⟨h.1, f h.2⟩) fun ⟨pp, hS, hp, inv⟩ => ⟨pp, hS, hp, f inv⟩

theorem Grown.kInv {p : Prop} (h : Grown S x p k') : ∃ x', KInv S x' k' := by
  rcases h with ⟨-, inv⟩ | ⟨pp, -, -, inv⟩
  · exact ⟨x, inv⟩
  · exact ⟨_, inv⟩

namespace KInv

/-- An environment that traps for the last time. -/
theorem dead {a : Action} {k₀ k₁ : Kernel n} (inv₀ : KInv S x k₀)
    (hsp : k₀.spaces = k.spaces) (hm : k₀.mem = k.mem) (hcpus : k₀.cpus = k.cpus)
    (hc : k.curenv c = some cur) (hq : Quiet k c cur) (hcall : callOf k a = none)
    (free : envFree k₀ c cur = .ok k₁)
    (sched : Scheduled (k₁.modCpu c fun cpu => { cpu with cpuEnv := none }) c k') :
    KInv S x k' ∧ Moved k a k' := by
  have hcur : k₀.curenv = k.curenv := by funext c; simp [Kernel.curenv, hcpus]
  obtain ⟨hsp₁, hfr₁⟩ := inv₀.freed_spaces free
  obtain ⟨hm', hd'⟩ := sched.mem_dirs
  have hst := (sched.sameSlots.free cur).mpr ((Kernel.status_modCpu ..).trans (envFree_status free))
  refine ⟨inv₀.freeSelf (hcur ▸ hc) (fun c' hne => hcur ▸ hq c' hne) free sched,
    .death (e := cur) hcall hst ?_ fun p hp => ?_⟩
  · rw [Kernel.spaces_congr hm' hd', ← hsp, ← hsp₁]
    rfl
  · rw [hm', ← hm]
    refine hfr₁ p ?_
    rwa [Kernel.Mapped, hsp]

/-- A return to user mode in which nothing was mapped. -/
theorem idle (inv₁ : KInv S x k') {a : Action} (hm : k'.mem = k.mem) (hd : k'.dirs = k.dirs)
    (hcall : callOf k a = none) : KInv S x k' ∧ Moved k a k' :=
  ⟨inv₁, .idle hcall (Kernel.spaces_congr hm hd) fun _ _ => by rw [hm]⟩

/-- The start of an upcall. -/
theorem upcalled (inv : KInv S x k) {tf : Trapframe} {io : Inputs} {exc : Exc} {m : Mem n}
    (hc : k.curenv c = some cur) (hno : tf.tfTrapno ≠ 48)
    (store : kstoreWords k.mem (k.cpus c).cr3 (utfAddr tf.tfEsp) (utrapframe io.cr2 tf) = some m)
    (run : Ran (upcalled k cur tf exc m) c cur k') :
    KInv S x k' ∧ Moved k (.trap c tf io) k' := by
  have hle := utfAddr_le tf.tfEsp io.cr2 tf
  have hdir : k.dirs cur = some (k.cpus c).cr3 := by
    rcases inv.cr3 c with h | ⟨e, he, h⟩
    · -- the kernel's directory has no exception stack
      exfalso
      have hlt : utfAddr tf.tfEsp < utop := by
        rw [BitVec.lt_def]
        simp only [utrapframe, List.length_cons] at hle
        omega
      have hnone := inv.mem.translate_kern hlt false true
      simp [h, utrapframe, kstoreWords, kstoreWord, Mem.storeByte, hnone] at store
    · rw [hc] at he
      cases he
      exact h
  obtain ⟨inv', hsp, hk, hfr⟩ := inv.mem.kstoreWords hdir hle store
  have hd : (JosKernel.upcalled k cur tf exc m).dirs = k.dirs :=
    (Kernel.dirs_modEnv _ rfl).trans (saved_dirs k cur tf)
  have inv₁ : KInv S x (JosKernel.upcalled k cur tf exc m) := by
    refine KInv.modEnv ?_ _ rfl Iff.rfl rfl
    refine (inv.save cur tf).withMem ?_ hk
    rwa [saved_dirs]
  refine ⟨inv₁.ran (inv₁.cur c cur hc) run, .upcall rfl (callOf_eq_none hc (.inr (.inl hno))) hc
    ?_ fun q hq => ?_⟩
  · rw [Kernel.spaces_congr run.mem run.dirs, Kernel.spaces, hd]
    exact hsp
  · rw [run.mem]
    exact hfr q hq

theorem trapped (inv : KInv S x k) {tf : Trapframe} {io : Inputs} (hc : k.curenv c = some cur)
    (ok : StepOk k (.trap c tf io)) (h : Trapped k c cur tf io k') :
    Grown S x (Allocates k (.trap c tf io)) k' ∧ Moved k (.trap c tf io) k' := by
  have sinv := inv.save cur tf
  have same : callOf k (.trap c tf io) = none → KInv S x k' ∧ Moved k (.trap c tf io) k' →
      Grown S x (Allocates k (.trap c tf io)) k' ∧ Moved k (.trap c tf io) k' :=
    fun hc h => ⟨.inl ⟨not_allocates hc, h.1⟩, h.2⟩
  -- a system call, up to the return to user mode
  have calls : ∀ {s : Sys} {r : Option Int} {k₁ : Kernel n}, k.status cur ≠ .dying →
      tf.tfTrapno = 48 → Sys.ofNat tf.tfRegs.regEax.toNat = some s →
      Called (saved k cur tf) c cur s (argsOf tf) r k₁ →
      Grown S x (Allocates k (.trap c tf io)) k₁ ∧
        Respaced (saved k cur tf) cur s (argsOf tf) r k₁ ∧ SameFrames k k₁ := by
    intro s r k₁ hd hno hs called
    obtain ⟨hg, hre, hfr⟩ := sinv.called hc
      (memOk_saved tf (ok.mem cur s hc hd hno hs))
      (destroyOk_saved tf (ok.free.1 cur s hc hd hno hs)) (fun hcp g va hg hbad =>
        ok.free.2 cur hc (.inr (.inr ⟨hno, hcp ▸ hs, g, va, saved_dirs k .. ▸ hg, hbad⟩))) called
    refine ⟨?_, hre, fun p hp => hfr p ?_⟩
    · rwa [allocates_iff (callOf_eq_some hc hd hno hs), ← getsPage_saved tf]
    · rwa [Kernel.Mapped, saved_spaces]
  cases h with
  | zombie hd free sched =>
    have hcall : callOf k (.trap c tf io) = none := callOf_eq_none hc (.inl hd)
    exact same hcall (dead inv rfl rfl rfl hc (ok.free.2 cur hc (.inl hd)) hcall free sched)
  | destroy hd why free sched =>
    have hcall : callOf k (.trap c tf io) = none :=
      callOf_eq_none hc (.inr (.inl why.ne_syscall))
    exact same hcall (dead sinv (saved_spaces ..) rfl rfl hc
      (ok.free.2 cur hc (.inr (.inl why))) hcall free sched)
  | upcall hd hexc hup hg hchk store run =>
    exact same (callOf_eq_none hc (.inr (.inl (ne_syscall_of_exc hexc))))
      (inv.upcalled hc (ne_syscall_of_exc hexc) store run)
  | nosys hd hno hs ret =>
    obtain ⟨hm, hdirs⟩ := ret.mem_dirs
    have hcall : callOf k (.trap c tf io) = none := callOf_eq_none hc (.inr (.inr hs))
    refine same hcall (KInv.idle ?_ hm ?_ hcall)
    · exact (sinv.modEnv _ rfl Iff.rfl rfl).resumed ret
    · exact hdirs.trans ((Kernel.dirs_modEnv _ rfl).trans (saved_dirs ..))
  | call hd hno hs called ret =>
    obtain ⟨hg, hre, hfr⟩ := calls hd hno hs called
    obtain ⟨hm, hdirs⟩ := ret.mem_dirs
    refine ⟨hg.map fun inv' => (inv'.modEnv _ rfl Iff.rfl rfl).resumed ret,
      .call (callOf_eq_some hc hd hno hs) (hre.of_saved ?_ fun i hi => ?_) ?_ fun p hp => ?_⟩
    · exact Kernel.spaces_congr hm (hdirs.trans (Kernel.dirs_modEnv _ rfl))
    · exact (ret.sameSlots.free i).mpr ((setResult_status ..).trans hi)
    · rintro v ⟨⟩
      exact ret.eax
    · rw [hm]
      exact hfr p hp
  | leave hd hno hs called =>
    obtain ⟨hinv, hre, hfr⟩ := calls hd hno hs called
    exact ⟨hinv, .call (callOf_eq_some hc hd hno hs) (hre.of_saved rfl fun _ => id) (by simp) hfr⟩
  | spurious hd hno ret =>
    obtain ⟨hm, hdirs⟩ := ret.mem_dirs
    have hcall : callOf k (.trap c tf io) = none :=
      callOf_eq_none hc (.inr (.inl (by rw [hno]; decide)))
    exact same hcall ((sinv.resumed ret).idle hm (hdirs.trans (saved_dirs ..)) hcall)
  | timer hd hno sched =>
    obtain ⟨hm, hdirs⟩ := sched.mem_dirs
    have hcall : callOf k (.trap c tf io) = none :=
      callOf_eq_none hc (.inr (.inl (by rw [hno]; decide)))
    exact same hcall ((sinv.scheduled sched).idle hm (hdirs.trans (saved_dirs ..)) hcall)

/-- A load or store in user mode. -/
theorem accessed (inv : KInv S x k) {va : Word} {store : Option Byte} {m : Mem n}
    (hva : va < utop) (hacc : k.mem.userAccess (k.cpus c).cr3 va store = some m) :
    KInv S x { k with mem := m } ∧ Moved k (.access c va store) { k with mem := m } := by
  rcases inv.cr3 c with h | ⟨e, he, hdir⟩
  · have hnone := inv.mem.translate_kern hva true store.isSome
    simp [h, Mem.userAccess, hnone] at hacc
  · obtain ⟨p, hp, hallow, inv', hsp, hk, hfr⟩ := inv.mem.userAccess hdir hva hacc
    rw [← Mem.spaces_of_dir hdir] at hp hallow hsp
    refine ⟨inv.withMem inv' hk, .touch rfl he hp hallow hsp fun q hq => ?_⟩
    exact hfr q (inv.mem.of_mapped hq).2.2

/-- A step that meets the conditions keeps the invariant. A `sys_page_alloc` that gets a page, and
no other step, adds to the references that are not accounted for. -/
theorem step (inv : KInv S x k) {a : Action} (ok : StepOk k a) (h : Step k a k') :
    Grown S x (Allocates k a) k' ∧ Moved k a k' := by
  cases a with
  | trap c tf io =>
    obtain ⟨-, -, cur, hc, ht⟩ := step_trap h
    exact inv.trapped hc ok ht
  | wake c no =>
    obtain ⟨-, -, hs | hs⟩ := step_wake h
    · obtain ⟨inv', hmv⟩ := (inv.scheduled hs).idle (a := .wake c no) hs.mem_dirs.1
        hs.mem_dirs.2 rfl
      exact ⟨.inl ⟨not_allocates rfl, inv'⟩, hmv⟩
    · obtain ⟨inv', hmv⟩ := (inv.resumed hs).idle (a := .wake c no) hs.mem_dirs.1
        hs.mem_dirs.2 rfl
      exact ⟨.inl ⟨not_allocates rfl, inv'⟩, hmv⟩
  | start c =>
    obtain ⟨-, -, hs⟩ := step_start h
    obtain ⟨inv', hmv⟩ := (inv.scheduled hs).idle (a := .start c) hs.mem_dirs.1 hs.mem_dirs.2 rfl
    exact ⟨.inl ⟨not_allocates rfl, inv'⟩, hmv⟩
  | access c va store =>
    obtain ⟨-, hva, rfl | ⟨m, hacc, rfl⟩⟩ := step_access h
    · obtain ⟨inv', hmv⟩ := inv.idle (k := k') (a := .access c va store) rfl rfl rfl
      exact ⟨.inl ⟨not_allocates rfl, inv'⟩, hmv⟩
    · obtain ⟨inv', hmv⟩ := inv.accessed hva hacc
      exact ⟨.inl ⟨not_allocates rfl, inv'⟩, hmv⟩

end KInv

end JosKernel
