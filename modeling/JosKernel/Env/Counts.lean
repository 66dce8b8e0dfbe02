import JosKernel.Env.Loaded

/-!
# Reference counts and freed pages

What the kernel invariant says about the pages that `mem_init` left free. A page's counter is the
number of its mappings, plus one if it is a page table or a page directory, plus the number of
times that `sys_page_alloc` handed it out: that call counts the page itself before `page_insert`
counts it again, so the page is never freed. The counters are exact as long as no
`sys_page_alloc` has been successful, and at no later time.

The same invariant shows that no CPU runs on a directory that has been freed, as long as no
environment is freed under a CPU that runs it.
-/
namespace JosKernel

open Lib

variable {n : Nat} {S : Set (Fin n)} {x : Fin n → ℕ} {k k' : Kernel n}

/-! ## Exact counts -/

/-- Present table entries below `UTOP` that map `p`, over all live environments. -/
def Kernel.pteRefs (k : Kernel n) (p : Fin n) : ℕ :=
  count (fun s : EnvIx × Fin 1024 × Fin 1024 =>
    if k.status s.1 = .free then none else pageOf n (k.spaces s.1 s.2.1 s.2.2)) p

/-- Present directory entries below `UTOP` that point to the table `p`. -/
def Kernel.pdeRefs (k : Kernel n) (p : Fin n) : ℕ :=
  count (fun s : EnvIx × Fin 1024 =>
    if k.status s.1 = .free then none else (k.dirs s.1).bind fun g => k.mem.ptab g s.2) p

/-- Whether `p` is the page directory of a live environment. -/
def Kernel.dirRefs (k : Kernel n) (p : Fin n) : ℕ :=
  if ∃ e, k.status e ≠ .free ∧ k.dirs e = some p then 1 else 0

def Kernel.refs (k : Kernel n) (p : Fin n) : ℕ := k.pteRefs p + k.pdeRefs p + k.dirRefs p

/-- Counters are exact, and the free list holds the pages without references. -/
def ExactRefs (S : Set (Fin n)) (k : Kernel n) : Prop :=
  ∀ p ∈ S, k.mem.ref p = k.refs p ∧ (k.mem.OnFreeList p ↔ k.refs p = 0)

/-- Slots by kind. -/
def Slot.equiv (ι : Type) : ι ⊕ (ι × Fin 1024) ⊕ (ι × Fin 1024 × Fin 1024) ≃ Slot ι where
  toFun
    | .inl e => .dir e
    | .inr (.inl (e, d)) => .pde e d
    | .inr (.inr (e, d, t)) => .pte e d t
  invFun
    | .dir e => .inl e
    | .pde e d => .inr (.inl (e, d))
    | .pte e d t => .inr (.inr (e, d, t))
  left_inv s := by rcases s with e | ⟨e, d⟩ | ⟨e, d, t⟩ <;> rfl
  right_inv s := by cases s <;> rfl

/-- The page directories of the live environments. -/
def Kernel.liveDirs (k : Kernel n) : EnvIx → Option (Fin n) :=
  fun e => if k.status e = .free then none else k.dirs e

theorem liveDirs_of_live {e : EnvIx} (h : k.status e ≠ .free) : k.liveDirs e = k.dirs e :=
  if_neg h

/-- References counted slot by slot. -/
theorem count_target_liveDirs
    (inj : ∀ e e' g, k.liveDirs e = some g → k.liveDirs e' = some g → e' = e) (p : Fin n) :
    count (k.mem.target k.liveDirs) p = k.refs p := by
  rw [← count_comp_equiv (Slot.equiv EnvIx), count_sum, count_sum]
  have hdir : count ((k.mem.target k.liveDirs ∘ Slot.equiv EnvIx) ∘ .inl) p = k.dirRefs p := by
    unfold Kernel.dirRefs
    split_ifs with h
    · obtain ⟨e, hlive, he⟩ := h
      have he' := (liveDirs_of_live hlive).trans he
      exact count_eq_one he' fun e' => inj e e' p he'
    · refine count_eq_zero.mpr fun e he => h ⟨e, ?_⟩
      have he' : k.liveDirs e = some p := he
      unfold Kernel.liveDirs at he'
      split_ifs at he' with hf
      exact ⟨hf, he'⟩
  have hpde : ((k.mem.target k.liveDirs ∘ Slot.equiv EnvIx) ∘ .inr) ∘ .inl =
      fun s : EnvIx × Fin 1024 => if k.status s.1 = .free then none
        else (k.dirs s.1).bind fun g => k.mem.ptab g s.2 := by
    funext s
    obtain ⟨e, d⟩ := s
    show (k.liveDirs e).bind _ = _
    unfold Kernel.liveDirs
    split_ifs <;> rfl
  have hpte : ((k.mem.target k.liveDirs ∘ Slot.equiv EnvIx) ∘ .inr) ∘ .inr =
      fun s : EnvIx × Fin 1024 × Fin 1024 => if k.status s.1 = .free then none
        else pageOf n (k.spaces s.1 s.2.1 s.2.2) := by
    funext s
    obtain ⟨e, d, t⟩ := s
    show (k.liveDirs e).bind _ = _
    unfold Kernel.liveDirs
    split_ifs
    · rfl
    · cases hg : k.dirs e with
      | none => simp [Kernel.spaces, Mem.spaces, hg]
      | some g => simp [Kernel.spaces, Mem.spaces, hg]
  rw [hdir, hpde, hpte, Kernel.refs, Kernel.pteRefs, Kernel.pdeRefs]
  omega

theorem KInv.liveDirs (inv : KInv S x k) : k.liveDirs = k.dirs := by
  funext e
  unfold Kernel.liveDirs
  split_ifs with h
  · exact ((inv.live e).mp h).symm
  · rfl

/-- Under the invariant the slots of live environments are all there are. -/
theorem KInv.count_target (inv : KInv S x k) (p : Fin n) :
    count (k.mem.target k.dirs) p = k.refs p := by
  rw [← inv.liveDirs]
  refine count_target_liveDirs (fun e e' g he he' => ?_) p
  rw [inv.liveDirs] at he he'
  exact inv.mem.excl.distinct.dir_inj he he'

/-- Counts are exact if and only if nothing is unaccounted for. -/
theorem KInv.exactRefs_iff (inv : KInv S x k) : ExactRefs S k ↔ ∀ p ∈ S, x p = 0 := by
  constructor
  · intro h p hp
    have := inv.mem.ref_eq hp
    rw [inv.count_target, (h p hp).1] at this
    omega
  · intro h p hp
    constructor
    · rw [inv.mem.ref_eq hp, inv.count_target, h p hp, Nat.add_zero]
    · rw [inv.mem.onFreeList_iff, inv.count_target, h p hp]
      simp [hp]

/-- Along a run, references stay accounted for until `sys_page_alloc` gets a page. -/
theorem kInv_of_run {N : ℕ} {s : ℕ → Kernel n} {a : ℕ → Action} (boot : Boot S (s 0))
    (run : IsRun (fun k a k' => StepOk k a ∧ Step k a k') N s a) :
    ∃ x, KInv S x (s N) ∧ ((∀ p ∈ S, x p = 0) ↔ ∀ i < N, ¬Allocates (s i) (a i)) := by
  induction N with
  | zero => exact ⟨0, (boot_kInv boot).1, by simp⟩
  | succ N ih =>
    obtain ⟨x, inv, hx⟩ := ih fun i hi => run i (by omega)
    obtain ⟨ok, step⟩ := run N (by omega)
    have hlast : (∀ i < N + 1, ¬Allocates (s i) (a i)) ↔
        (∀ i < N, ¬Allocates (s i) (a i)) ∧ ¬Allocates (s N) (a N) := by
      simp only [Nat.lt_succ_iff_lt_or_eq, or_imp, forall_and, forall_eq]
    rw [hlast]
    rcases (inv.step ok step).1 with ⟨hno, inv'⟩ | ⟨pp, hS, halloc, inv'⟩
    · exact ⟨x, inv', by simp [hx, hno]⟩
    · refine ⟨_, inv', iff_of_false (fun h => ?_) fun h => h.2 halloc⟩
      simpa using h pp hS

/-- In a run whose steps meet `StepOk`, reference counts are exact if and only if no
`sys_page_alloc` got a page. -/
theorem exactRefs_iff_of_run {N : ℕ} {s : ℕ → Kernel n} {a : ℕ → Action} (boot : Boot S (s 0))
    (run : IsRun (fun k a k' => StepOk k a ∧ Step k a k') N s a) :
    ExactRefs S (s N) ↔ ∀ i < N, ¬Allocates (s i) (a i) := by
  obtain ⟨x, inv, hx⟩ := kInv_of_run boot run
  exact inv.exactRefs_iff.trans hx

/-- The small machine after its first environment has been scheduled. -/
@[irreducible] def smallRunning : Kernel 16 := after small (.start 0)

theorem step_smallRunning : Step small (.start 0) smallRunning := by
  unfold smallRunning
  exact step_after (by decide +kernel) (by decide +kernel)

/-- `sys_page_alloc(0, 0x800000, PTE_P|PTE_U|PTE_W)` on CPU 0. -/
def allocOne : Action := sysTrap 0 4 0 0x800000 7 0 0

/-- A run of the small machine. -/
def smallRun : ℕ → Kernel 16
  | 0 => small
  | 1 => smallRunning
  | _ => after smallRunning allocOne

def smallActions : ℕ → Action
  | 0 => .start 0
  | _ => allocOne

theorem boot_smallRun : Boot {p : Fin 16 | p ≠ 0} (smallRun 0) := by
  simp only [smallRun]
  exact boot_small

theorem isRun_small : IsRun (fun k a k' => StepOk k a ∧ Step k a k') 2 smallRun smallActions := by
  intro i hi
  obtain rfl | rfl : i = 0 ∨ i = 1 := by omega
  · simp only [smallRun, smallActions, zero_add]
    exact ⟨stepOk_of_plain rfl, step_smallRunning⟩
  · simp only [smallRun, smallActions]
    exact ⟨stepOk_of_plain (by decide +kernel), step_after (by decide +kernel) (by decide +kernel)⟩

/-- The environment forks twice, destroys one child and starts the other one. -/
def forksRun : List Action :=
  [.start 0, sysTrap 0 7 0 0 0 0 0, sysTrap 0 7 0 0 0 0 0, sysTrap 0 3 0x1001 0 0 0 0,
    sysTrap 0 8 0x1002 2 0 0 0, .start 1]

theorem not_allocates_of_no {c : Cpu} {tf : Trapframe} {io : Inputs} {k : Kernel n}
    (h : Sys.ofNat tf.tfRegs.regEax.toNat ≠ some .pageAlloc) : ¬Allocates k (.trap c tf io) := by
  rintro ⟨cur, s, args, hc, hgets⟩
  obtain ⟨cur', -, hc⟩ := Option.bind_eq_some_iff.mp hc
  split_ifs at hc
  obtain ⟨s', hs, heq⟩ := Option.map_eq_some_iff.mp hc
  cases heq
  exact h (hs.trans (congrArg some hgets.1))

theorem exactRefs_forksRun : ExactRefs {p : Fin 16 | p ≠ 0} (stateAt small forksRun 6) := by
  refine (exactRefs_iff_of_run boot_small (isRun_plain ?_)).mpr fun i hi => ?_
  · decide +kernel
  · interval_cases i
    · exact not_allocates rfl
    · exact not_allocates_of_no (by decide)
    · exact not_allocates_of_no (by decide)
    · exact not_allocates_of_no (by decide)
    · exact not_allocates_of_no (by decide)
    · exact not_allocates rfl

theorem allocates_allocOne : Allocates smallRunning allocOne := by
  have h0 : smallRunning.curenv 0 = some 0 := by decide +kernel
  refine ⟨0, .pageAlloc, _, callOf_eq_some h0 ?_ rfl rfl, rfl, ?_, ?_, ?_, ?_⟩ <;> decide +kernel

/-- One `sys_page_alloc` by the only environment: the page is mapped once and counted twice. -/
theorem not_exactRefs_pageAlloc : ∃ k : Kernel 16,
    Reachable (Boot {p : Fin 16 | p ≠ 0}) (fun k a k' => StepOk k a ∧ Step k a k') k ∧
      ¬ExactRefs {p : Fin 16 | p ≠ 0} k := by
  have h₁ := isRun_small 0 (by omega)
  have h₂ := isRun_small 1 (by omega)
  refine ⟨smallRun 2, .step (.step (.init boot_smallRun) h₁) h₂, fun h => ?_⟩
  obtain ⟨x, inv, hx⟩ := kInv_of_run boot_smallRun isRun_small
  exact hx.mp (inv.exactRefs_iff.mp h) 1 (by omega) allocates_allocOne

/-! ## Freed environments -/

/-- No CPU has a freed environment, or runs on a page directory that is free. -/
def NoneFreed (k : Kernel n) : Prop :=
  (∀ c e, k.curenv c = some e → k.status e ≠ .free) ∧ ∀ c, ¬k.mem.OnFreeList (k.cpus c).cr3

theorem KInv.noneFreed (inv : KInv S x k) : NoneFreed k := by
  refine ⟨inv.cur, fun c => ?_⟩
  rcases inv.cr3 c with h | ⟨e, -, h⟩
  · rw [h, inv.mem.onFreeList_iff]
    exact fun hk => inv.mem.kern hk.1
  · exact inv.mem.not_onFreeList (s := .dir e) h

/-- In a run whose steps meet `StepOk`, nothing that a CPU runs is freed. -/
theorem noneFreed_of_stepOk (h : Reachable (Boot S) (fun k a k' => StepOk k a ∧ Step k a k') k) :
    NoneFreed k := by
  obtain ⟨x, inv⟩ := kInv_of_reachable h
  exact inv.noneFreed

/-- The parent destroys its child while this runs on the second CPU. -/
theorem noneFreed_pairRun : ∃ k : Kernel 16, k.curenv 1 = some 1 ∧ k.status 1 = .dying ∧
    NoneFreed k := by
  obtain ⟨k, hk, hp⟩ := reachable_runPlain (.init boot_small)
    (pairRun ++ [sysTrap 0 3 0x1001 0 0 0 0])
    (fun k => decide (k.curenv 1 = some 1 ∧ k.status 1 = .dying)) (by decide +kernel)
  obtain ⟨hcur, hdying⟩ := of_decide_eq_true hp
  exact ⟨k, hcur, hdying, noneFreed_of_stepOk hk⟩

/-- A child runs on the second CPU; the first `sys_env_destroy` marks it as dying and the second
one frees it, because it is not marked running any more. -/
theorem not_noneFreed_destroyTwice : ∃ k : Kernel 16,
    Reachable (Boot {p : Fin 16 | p ≠ 0}) Step k ∧ ¬NoneFreed k := by
  obtain ⟨k, hk, hp⟩ := reachable_runActions (.init boot_small)
    [.start 0, sysTrap 0 7 0 0 0 0 0, sysTrap 0 8 0x1001 2 0 0 0, .start 1,
      sysTrap 0 3 0x1001 0 0 0 0, sysTrap 0 3 0x1001 0 0 0 0]
    (fun k => decide (k.curenv 1 = some 1 ∧ k.status 1 = .free)) (by decide +kernel)
  refine ⟨k, hk, fun h => ?_⟩
  have hp := of_decide_eq_true hp
  exact h.1 1 1 hp.1 hp.2

end JosKernel
