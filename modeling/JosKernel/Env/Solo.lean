import JosKernel.Env.Counts
import JosKernel.Pmap.Mapped

/-!
# A single environment

Runs in which one environment exists, and calls the kernel for itself: what `sys_page_alloc`,
`sys_page_map` and a store do then follows from what they do to memory.
-/
namespace JosKernel

open Lib

variable {n : Nat} {k : Kernel n} {m m₁ : Mem n} {c : Cpu} {e : EnvIx} {g pp q : Fin n}
  {va srcva dstva perm : Word}

/-- `e`, with directory `g`, is the only environment. It is in user mode on CPU `c`. -/
structure Solo (c : Cpu) (e : EnvIx) (g : Fin n) (k : Kernel n) : Prop where
  lock : LockFree k
  mode : (k.cpus c).cpuMode = .user
  cur : k.curenv c = some e
  cr3 : (k.cpus c).cr3 = g
  running : k.status e = .running
  dir : k.dirs e = some g
  others : ∀ i, i ≠ e → k.status i = .free ∧ k.dirs i = none

/-- A system call that changes memory only. -/
theorem Solo.call (h : Solo c e g k) {no a1 a2 a3 a4 a5 : Word} {r : Int}
    (hsys : ∀ k₁ : Kernel n, k₁.mem = k.mem → k₁.dirs e = some g →
      syscall k₁ c e ⟨0, 0⟩ no a1 a2 a3 a4 a5 = .ok (some r, { k₁ with mem := m })) :
    ∃ k', Step k (sysTrap c no a1 a2 a3 a4 a5) k' ∧ Solo c e g k' ∧ k'.mem = m := by
  set tf : Trapframe := { freshTf with tfTrapno := 48, tfRegs := ⟨a4, a5, 0, 0, a3, a1, a2, no⟩ }
  set k₁ := k.modEnv e fun env => { env with envTf := tf } with hk₁
  set k₂ := ({ k₁ with mem := m } : Kernel n).modEnv e fun env =>
    { env with envTf := env.envTf.setEax (BitVec.ofInt 32 r) } with hk₂
  set k₃ := (k₂.modEnv e fun env => { env with envCpunum := c }).modCpu c fun cpu =>
    { cpu with cpuMode := .user } with hk₃
  have hcall := hsys k₁ rfl ((congrFun (Kernel.dirs_modEnv _ rfl) e).trans h.dir)
  have hstatus : ∀ i, k₃.status i = k.status i := by
    intro i
    by_cases hi : i = e <;> simp [hk₃, hk₂, hk₁, Kernel.status, Kernel.modEnv_apply, hi]
  have hdirs : ∀ i, k₃.dirs i = k.dirs i := by
    intro i
    by_cases hi : i = e <;> simp [hk₃, hk₂, hk₁, Kernel.dirs, Kernel.modEnv_apply, hi]
  have hdisp : trapDispatch k₁ c e tf ⟨0, 0⟩ = .ok (some (), k₂) := by
    have hexc : Exc.ofTrapno tf.tfTrapno.toNat = none := rfl
    rw [trapDispatch, hexc]
    show trapSyscall k₁ c e tf ⟨0, 0⟩ = _
    unfold trapSyscall
    show ((syscall k₁ c e ⟨0, 0⟩ no a1 a2 a3 a4 a5) >>= _) = _
    rw [hcall]
    rfl
  have hret : trapReturn k₂ c = .ok k₃ := by
    have hcur : k₂.curenv c = some e := h.cur
    have hrun : k₂.status e = .running := by
      rw [← h.running]
      simp [hk₂, hk₁, Kernel.status]
    rw [trapReturn, hcur]
    show (if k₂.status e = .running then _ else _) = _
    rw [if_pos hrun, envRun, if_pos hcur]
    rfl
  have hcs : freshTf.tfCs &&& 3 = 3 := by decide
  refine ⟨k₃, ⟨⟨h.mode, hcs, h.lock⟩, ?_⟩, ?_, rfl⟩
  · show trap k c tf ⟨0, 0⟩ = _
    rw [trap, h.cur]
    show (if k.status e = .dying then _ else _) = _
    rw [if_neg (by rw [h.running]; decide)]
    show (trapDispatch k₁ c e tf ⟨0, 0⟩ >>= _) = _
    rw [hdisp]
    exact hret
  · refine ⟨fun c' => ?_, by simp [hk₃], ?_, ?_, (hstatus e).trans h.running,
      (hdirs e).trans h.dir, fun i hi => ?_⟩
    · by_cases hc : c' = c
      · simp [hk₃, hc]
      · have := h.lock c'
        simpa [hk₃, hk₂, hk₁, Kernel.modCpu_apply, hc] using this
    · simpa [hk₃, hk₂, hk₁, Kernel.curenv] using h.cur
    · simpa [hk₃, hk₂, hk₁] using h.cr3
    · rw [hstatus, hdirs]
      exact h.others i hi

/-- `sys_page_map` from the environment to itself. -/
theorem Solo.pageMap (h : Solo c e g k) (hsva : badUserPage srcva = false)
    (hdva : badUserPage dstva = false) (hup : lacksUP perm = false)
    (hp : pageOf n (k.mem.pteAt g (pdx srcva) (ptx srcva)) = some pp)
    (hw : perm &&& pteW ≠ 0 → k.mem.pteAt g (pdx srcva) (ptx srcva) &&& pteW ≠ 0)
    (hins : k.mem.pageInsert g pp dstva perm = .ok (0, m)) :
    ∃ k', Step k (sysTrap c 5 0 srcva 0 dstva perm) k' ∧ Solo c e g k' ∧ k'.mem = m := by
  obtain ⟨pt, ht⟩ := Mem.table_of_page hp
  rw [Mem.pteAt_of_table ht] at hp hw
  refine h.call (r := 0) fun k₁ hmem hdir => ?_
  have hgdir : pgdirOf k₁ e = .ok g := by rw [pgdirOf, show (k₁.envs e).envPgdir = _ from hdir]
  have hself : envid2env k₁ e 0 true = some e := rfl
  have hright : ¬(perm &&& pteW ≠ 0 ∧ k.mem.entry pt (ptx srcva) &&& pteW = 0) :=
    fun hc => hw hc.1 hc.2
  show returning (sysPageMap k₁ e 0 srcva 0 dstva perm) = _
  rw [sysPageMap, hself]
  simp only [hsva, hdva, Bool.or_self, Bool.false_eq_true, if_false, hgdir, hmem, bind,
    Except.bind, Mem.pageLookup_of_table ht hp, hup, if_neg hright, hins]
  rfl

/-- `sys_page_alloc` for the environment itself. -/
theorem Solo.pageAlloc (h : Solo c e g k) (hva : badUserPage va = false)
    (hup : lacksUP perm = false) (halloc : k.mem.pageAlloc true = (some pp, m₁))
    (hins : (m₁.incRef pp).pageInsert g pp va perm = .ok (0, m)) :
    ∃ k', Step k (sysTrap c 4 0 va perm 0 0) k' ∧ Solo c e g k' ∧ k'.mem = m := by
  refine h.call (r := 0) fun k₁ hmem hdir => ?_
  have hgdir : pgdirOf k₁ e = .ok g := by rw [pgdirOf, show (k₁.envs e).envPgdir = _ from hdir]
  have hself : envid2env k₁ e 0 true = some e := rfl
  show returning (sysPageAlloc k₁ e 0 va perm) = _
  rw [sysPageAlloc, hself]
  simp only [hva, hup, Bool.false_eq_true, if_false, hmem, halloc, hgdir, bind, Except.bind, hins]
  rfl

/-- A store of one byte. -/
theorem Solo.store (h : Solo c e g k) {b : Byte} (hva : va < utop)
    (hst : k.mem.userAccess g va (some b) = some m) :
    ∃ k', Step k (.access c va (some b)) k' ∧ Solo c e g k' ∧ k'.mem = m := by
  refine ⟨{ k with mem := m }, ⟨⟨h.mode, hva⟩, ?_⟩, ⟨h.lock, h.mode, h.cur, h.cr3, h.running, h.dir,
    h.others⟩, rfl⟩
  rw [perform, h.cr3, hst]

/-- The address space, by page number. -/
theorem Solo.spaces (h : Solo c e g k) {i : EnvIx} {d t : Fin 1024}
    (hq : pageOf n (k.spaces i d t) = some q) :
    i = e ∧ (d : ℕ) < userPdes ∧ k.spaces i d t = k.mem.pteAt g d t := by
  have hi : i = e := by
    by_contra hne
    simp [Kernel.spaces, Mem.spaces, (h.others i hne).2] at hq
  subst hi
  have hsp : k.spaces i d t = k.mem.pte g d t := Mem.spaces_of_dir h.dir d t
  by_cases hd : (d : ℕ) < userPdes
  · exact ⟨rfl, hd, hsp.trans (Mem.pte_eq_pteAt hd)⟩
  · have hno : k.mem.ptab g d = none := if_neg hd
    rw [hsp, Mem.pte_of_no_ptab hno, pageOf_zero] at hq
    cases hq

/-- No page has more than 65535 mappings. -/
def FewMappings (k : Kernel n) : Prop := ∀ p, k.pteRefs p ≤ 65535

/-- Entries by page number, with at most 65535 for one page. -/
def FewEntries (n : ℕ) (f : ℕ → Word) : Prop :=
  ∀ q : Fin n, ∃ A : Finset ℕ, A.card ≤ 65535 ∧ ∀ i, pageOf n (f i) = some q → i ∈ A

theorem Solo.fewMappings (h : Solo c e g k) {f : ℕ → Word}
    (hpte : ∀ d t : Fin 1024, (d : ℕ) < userPdes →
      pageOf n (k.mem.pteAt g d t) = pageOf n (f (d * 1024 + t)))
    (few : FewEntries n f) : FewMappings k := by
  intro q
  obtain ⟨A, hcard, hA⟩ := few q
  have hslot : ∀ s : EnvIx × Fin 1024 × Fin 1024,
      (if k.status s.1 = .free then none else pageOf n (k.spaces s.1 s.2.1 s.2.2)) = some q →
        s.1 = e ∧ (s.2.1 : ℕ) * 1024 + s.2.2 ∈ A := by
    rintro ⟨i, d, t⟩ hs
    split_ifs at hs with hfree
    obtain ⟨rfl, hd, hsp⟩ := h.spaces hs
    rw [hsp, hpte d t hd] at hs
    exact ⟨rfl, hA _ hs⟩
  refine le_trans ?_ hcard
  refine count_le_card (fun s => (s.2.1 : ℕ) * 1024 + s.2.2) (fun s hs => (hslot s hs).2)
    fun s s' hs hs' heq => ?_
  have h₁ := (hslot s hs).1
  have h₂ := (hslot s' hs').1
  obtain ⟨i, d, t⟩ := s
  obtain ⟨i', d', t'⟩ := s'
  simp only at h₁ h₂ heq
  have hd : d = d' := Fin.ext (by omega)
  have ht : t = t' := Fin.ext (by omega)
  rw [h₁, h₂, hd, ht]

/-- Mapping counters bound the numbers of mappings. -/
theorem KInv.fewMappings {S : Set (Fin n)} {x : Fin n → ℕ}
    (inv : KInv S x k) : FewMappings k := by
  intro p
  by_cases h0 : k.pteRefs p = 0
  · omega
  · have hcount := inv.count_target p
    have href : k.pteRefs p ≤ k.refs p := by
      unfold Kernel.refs
      omega
    obtain ⟨s, hs⟩ : ∃ s, k.mem.target k.dirs s = some p := by
      by_contra hno
      have := count_eq_zero.mpr (not_exists.mp hno)
      omega
    have := inv.mem.ref_eq (inv.mem.target_mem hs)
    have hlt : k.mem.ref p < 65536 := (k.mem.pages p).ppRef.isLt
    omega

end JosKernel
