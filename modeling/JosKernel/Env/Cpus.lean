import JosKernel.Env.Loaded

/-!
# CPUs and their page directories

What a kernel entry does to the CPU that makes it: it goes on with its environment and keeps
CR3, or switches to another environment and loads that one's directory, or halts on
`kern_pgdir`, or stays in the monitor. It leaves the other CPUs alone. So a CPU in user mode
always uses the page directory of its current environment.
-/
namespace JosKernel

open Lib

variable {n : Nat} {S : Set (Fin n)} {x : Fin n → ℕ} {k k' k₁ : Kernel n} {c : Cpu}
  {cur e : EnvIx}

/-! ## The directory of the kernel stays where it is -/

section
variable {m m' : Mem n} {g pp pt : Fin n} {va perm : Word}

theorem pageAlloc_kern (m : Mem n) (zero : Bool) :
    (m.pageAlloc zero).2.kernPgdir = m.kernPgdir := by
  unfold Mem.pageAlloc
  split
  · rfl
  · split_ifs <;> rfl

theorem pageAlloc_some_kern {zero : Bool} (h : m.pageAlloc zero = (some pp, m')) :
    m'.kernPgdir = m.kernPgdir := by
  rw [← pageAlloc_kern m zero, h]

theorem pageFree_kern (h : m.pageFree pp = .ok m') : m'.kernPgdir = m.kernPgdir := by
  unfold Mem.pageFree at h
  split_ifs at h
  cases h
  rfl

theorem pageDecref_kern (h : m.pageDecref pp = .ok m') : m'.kernPgdir = m.kernPgdir := by
  unfold Mem.pageDecref at h
  simp only at h
  split_ifs at h
  · have hk := pageFree_kern h
    exact hk
  · cases h
    rfl

theorem pgdirWalk_kern {create : Bool} {r : Option (Fin n × Fin 1024)}
    (h : m.pgdirWalk g va create = .ok (r, m')) : m'.kernPgdir = m.kernPgdir := by
  unfold Mem.pgdirWalk at h
  split_ifs at h
  · obtain ⟨pt, -, h⟩ := bind_ok.mp h
    cases h
    rfl
  · cases h
    rfl
  · split at h
    · rename_i m₁ halloc
      cases h
      rw [← pageAlloc_kern m true, halloc]
    · rename_i pp m₁ halloc
      obtain ⟨pt, -, h⟩ := bind_ok.mp h
      cases h
      have hk := pageAlloc_some_kern halloc
      exact hk

theorem pageRemove_kern (h : m.pageRemove g va = .ok m') : m'.kernPgdir = m.kernPgdir := by
  unfold Mem.pageRemove at h
  obtain ⟨o, -, h⟩ := bind_ok.mp h
  cases o with
  | none => cases h; rfl
  | some w =>
    obtain ⟨m₁, hdec, h⟩ := bind_ok.mp h
    cases h
    have hk := pageDecref_kern hdec
    exact hk

theorem pageInsert_kern {r : Int} (h : m.pageInsert g pp va perm = .ok (r, m')) :
    m'.kernPgdir = m.kernPgdir := by
  unfold Mem.pageInsert at h
  obtain ⟨⟨o, m₁⟩, hwalk, h⟩ := bind_ok.mp h
  have hw := pgdirWalk_kern hwalk
  cases o with
  | none => cases h; exact hw
  | some w =>
    obtain ⟨pt, i⟩ := w
    rw [← hw]
    simp only at h
    split_ifs at h
    · obtain ⟨m₂, hrem, h⟩ := bind_ok.mp h
      cases h
      have hk := pageRemove_kern hrem
      exact hk
    · cases h
      rfl

theorem envSetupVm_kern {o : Option (Fin n)} (h : envSetupVm m = (o, m')) :
    m'.kernPgdir = m.kernPgdir := by
  unfold envSetupVm at h
  split at h
  · rename_i m₁ halloc
    cases h
    rw [← pageAlloc_kern m true, halloc]
  · rename_i p m₁ halloc
    cases h
    have hk := pageAlloc_some_kern halloc
    exact hk

theorem envFreePtes_kern {d : Fin 1024} {ts : List (Fin 1024)}
    (h : envFreePtes m g pt d ts = .ok m') : m'.kernPgdir = m.kernPgdir := by
  induction ts generalizing m with
  | nil => cases h; rfl
  | cons t ts ih =>
    simp only [envFreePtes] at h
    split_ifs at h
    · obtain ⟨m₁, h₁, h⟩ := bind_ok.mp h
      rw [ih h, pageRemove_kern h₁]
    · exact ih h

theorem envFreePdes_kern {ds : List (Fin 1024)} (h : envFreePdes m g ds = .ok m') :
    m'.kernPgdir = m.kernPgdir := by
  induction ds generalizing m with
  | nil => cases h; rfl
  | cons d ds ih =>
    obtain ⟨m₁, h₁, h⟩ := bind_ok.mp h
    rw [ih h]
    unfold envFreePde at h₁
    split_ifs at h₁
    · obtain ⟨pt, -, h₁⟩ := bind_ok.mp h₁
      obtain ⟨m₂, h₂, h₁⟩ := bind_ok.mp h₁
      obtain ⟨pp, -, h₁⟩ := bind_ok.mp h₁
      rw [pageDecref_kern h₁, ← envFreePtes_kern h₂]
      rfl
    · cases h₁
      rfl

theorem storeByte_kern {b : Byte} {user : Bool} (h : m.storeByte g va b user = some m') :
    m'.kernPgdir = m.kernPgdir := by
  obtain ⟨w, -, rfl⟩ := Option.map_eq_some_iff.mp h
  rfl

theorem kstoreWords_kern {ws : List Word} (h : kstoreWords m g va ws = some m') :
    m'.kernPgdir = m.kernPgdir := by
  induction ws generalizing m va with
  | nil => cases h; rfl
  | cons w ws ih =>
    simp only [kstoreWords, kstoreWord, Option.bind_eq_bind, Option.bind_eq_some_iff] at h
    obtain ⟨m₄, ⟨m₁, h₁, m₂, h₂, m₃, h₃, h₄⟩, h⟩ := h
    rw [ih h, storeByte_kern h₄, storeByte_kern h₃, storeByte_kern h₂, storeByte_kern h₁]

theorem userAccess_kern {store : Option Byte} (h : m.userAccess g va store = some m') :
    m'.kernPgdir = m.kernPgdir := by
  unfold Mem.userAccess at h
  simp only [Option.bind_eq_bind, Option.bind_eq_some_iff] at h
  obtain ⟨w, -, h⟩ := h
  split_ifs at h
  cases store <;> cases h <;> rfl

end

/-! ## CPUs -/

/-- What a kernel entry does to its CPU. -/
inductive CpuMoved (k : Kernel n) (c : Cpu) (k' : Kernel n) : Prop
  | stay {e : EnvIx} (hcur : k.curenv c = some e) (hcur' : k'.curenv c = some e)
      (hmode : (k'.cpus c).cpuMode = .user) (hcr3 : (k'.cpus c).cr3 = (k.cpus c).cr3)
  | switch {e : EnvIx} (hcur : k.curenv c ≠ some e) (hcur' : k'.curenv c = some e)
      (hmode : (k'.cpus c).cpuMode = .user) (hdir : k'.dirs e = some (k'.cpus c).cr3)
  | halt (hcur' : k'.curenv c = none) (hmode : (k'.cpus c).cpuMode = .halted)
      (hcr3 : (k'.cpus c).cr3 = k'.mem.kernPgdir)
  | monitor (hmode : (k'.cpus c).cpuMode = .monitor)

/-- A kernel entry on CPU `c` leaves the other CPUs and the place of `kern_pgdir` alone. -/
structure CpuStep (k : Kernel n) (c : Cpu) (k' : Kernel n) : Prop where
  other : ∀ c', c' ≠ c → k'.cpus c' = k.cpus c'
  kern : k'.mem.kernPgdir = k.mem.kernPgdir
  self : CpuMoved k c k'

theorem Ran.cpuStep (run : Ran k c e k') : CpuStep k c k' := by
  refine ⟨run.other, by rw [run.mem], ?_⟩
  rcases run.cr3 with ⟨hc, hcr3⟩ | ⟨hc, hdir⟩
  · exact .stay hc run.cur run.mode hcr3
  · exact .switch hc run.cur run.mode (by rw [run.dirs]; exact hdir)

theorem Scheduled.cpuStep (sched : Scheduled k c k') : CpuStep k c k' := by
  cases sched with
  | next _ run => exact run.cpuStep
  | same _ _ _ run => exact run.cpuStep
  | halt _ _ =>
    unfold schedHalt
    split_ifs
    · exact ⟨fun c' hne => by simp [Kernel.modCpu_apply, hne], rfl,
        .halt (by simp [Kernel.curenv]) (by simp) (by simp)⟩
    · exact ⟨fun c' hne => by simp [Kernel.modCpu_apply, hne], rfl, .monitor (by simp)⟩

theorem Resumed.cpuStep (h : Resumed k c k') : CpuStep k c k' := by
  cases h with
  | run _ _ run => exact run.cpuStep
  | yield _ sched => exact sched.cpuStep

/-- What comes before the scheduling of a kernel entry does not touch the CPUs. -/
theorem CpuStep.of_cpus (h : CpuStep k₁ c k') (hcpus : k₁.cpus = k.cpus)
    (hk : k₁.mem.kernPgdir = k.mem.kernPgdir) : CpuStep k c k' := by
  have hcur : k₁.curenv = k.curenv := by funext c; simp [Kernel.curenv, hcpus]
  refine ⟨fun c' hne => by rw [h.other c' hne, hcpus], h.kern.trans hk, ?_⟩
  cases h.self with
  | stay hc hc' hm hcr3 => exact .stay (hcur ▸ hc) hc' hm (by rw [hcr3, hcpus])
  | switch hc hc' hm hdir => exact .switch (hcur ▸ hc) hc' hm hdir
  | halt hc' hm hcr3 => exact .halt hc' hm hcr3
  | monitor hm => exact .monitor hm

theorem envFree_kern (h : envFree k c e = .ok k₁) : k₁.mem.kernPgdir = k.mem.kernPgdir := by
  obtain ⟨g, m₁, m, -, hpdes, hdec, rfl⟩ := envFree_ok h
  exact (pageDecref_kern hdec).trans (envFreePdes_kern hpdes)

/-- The current environment is freed. -/
theorem cpuStep_freeSelf (hc : k.curenv c = some e) (free : envFree k c e = .ok k₁)
    (sched : Scheduled (k₁.modCpu c fun cpu => { cpu with cpuEnv := none }) c k') :
    CpuStep k c k' := by
  have hk := envFree_kern free
  obtain ⟨g, m₁, m, -, -, -, rfl⟩ := envFree_ok free
  have h := sched.cpuStep
  refine ⟨fun c' hne => ?_, h.kern.trans hk, ?_⟩
  · rw [h.other c' hne]
    simp [Kernel.modCpu_apply, hne, freed, hc]
  · cases sched with
    | @next i _ hi run =>
      refine .switch (fun hci => ?_) run.cur run.mode ?_
      · -- the freed environment is not runnable
        rw [hc] at hci
        cases hci
        simp [freed_status] at hi
      · rcases run.cr3 with ⟨hn, -⟩ | ⟨-, hdir⟩
        · simp [Kernel.curenv] at hn
        · rw [run.dirs]
          exact hdir
    | same hn => simp [Kernel.curenv] at hn
    | halt =>
      cases h.self with
      | stay hn => simp [Kernel.curenv] at hn
      | switch _ hc' hm hdir =>
        unfold schedHalt at hm
        split_ifs at hm <;> simp at hm
      | halt hc' hm hcr3 => exact .halt hc' hm hcr3
      | monitor hm => exact .monitor hm

/-- A part of a kernel entry that returns leaves all CPUs alone. -/
structure SameCpus (k k' : Kernel n) : Prop where
  cpus : k'.cpus = k.cpus
  kern : k'.mem.kernPgdir = k.mem.kernPgdir

theorem CpuStep.after (h : CpuStep k₁ c k') (hs : SameCpus k k₁) : CpuStep k c k' :=
  h.of_cpus hs.cpus hs.kern

theorem Destroyed.cpus {r : Option Unit} (d : Destroyed k c e r k') :
    (r = none ∧ CpuStep k c k') ∨ (r = some () ∧ SameCpus k k') := by
  cases d with
  | mark => exact .inr ⟨rfl, rfl, rfl⟩
  | other _ hc free =>
    have hk := envFree_kern free
    obtain ⟨g, m₁, m, -, -, -, rfl⟩ := envFree_ok free
    exact .inr ⟨rfl, if_neg hc, hk⟩
  | self hc free sched => exact .inl ⟨rfl, cpuStep_freeSelf hc free sched⟩

theorem MemEffect.kern {s : Sys} {a : Args} {v : Int} {m : Mem n} (h : MemEffect k cur s a v m) :
    m.kernPgdir = k.mem.kernPgdir := by
  cases h with
  | same => rfl
  | alloc _ _ _ halloc _ hins =>
    have hk := pageAlloc_some_kern halloc
    exact (pageInsert_kern hins).trans hk
  | allocFail _ _ _ halloc _ hins _ hfree =>
    have hk := pageAlloc_some_kern halloc
    exact (pageFree_kern hfree).trans ((pageInsert_kern hins).trans hk)
  | map _ _ _ _ _ _ _ _ _ hins => exact pageInsert_kern hins
  | unmap _ _ _ hrem => exact pageRemove_kern hrem

theorem Sent.sameCpus {srcva perm : Word} {r : Int} (h : Sent k cur e srcva perm r k') :
    SameCpus k k' := by
  cases h with
  | refused => exact ⟨rfl, rfl⟩
  | noMem _ _ _ _ _ _ _ hins => exact ⟨rfl, pageInsert_kern hins⟩
  | page _ _ _ _ _ _ _ hins => exact ⟨rfl, pageInsert_kern hins⟩
  | unwanted => exact ⟨rfl, rfl⟩
  | word => exact ⟨rfl, rfl⟩

theorem Woken.sameCpus {v : Int} (h : Woken k cur v k') : SameCpus k k' := by
  cases h <;> exact ⟨rfl, rfl⟩

theorem Called.cpus {s : Sys} {a : Args} {r : Option Int} (h : Called k c cur s a r k') :
    (r = none ∧ CpuStep k c k') ∨ (r ≠ none ∧ SameCpus k k') := by
  cases h with
  | memory op => exact .inr ⟨by simp, rfl, op.kern⟩
  | cputs _ _ d =>
    obtain ⟨rfl, h⟩ | ⟨rfl, h⟩ := d.cpus
    · exact .inl ⟨rfl, h⟩
    · exact .inr ⟨by simp, h⟩
  | destroy _ d =>
    obtain ⟨rfl, h⟩ | ⟨rfl, h⟩ := d.cpus
    · exact .inl ⟨rfl, h⟩
    · exact .inr ⟨by simp, h⟩
  | yield sched => exact .inl ⟨rfl, sched.cpuStep⟩
  | fork _ vm => exact .inr ⟨by simp, rfl, envSetupVm_kern vm⟩
  | setStatus => exact .inr ⟨by simp, rfl, rfl⟩
  | setUpcall => exact .inr ⟨by simp, rfl, rfl⟩
  | enqueue => exact .inr ⟨by simp, rfl, rfl⟩
  | full => exact .inr ⟨by simp, rfl, rfl⟩
  | deliver _ _ page => exact .inr ⟨by simp, page.sameCpus.cpus, page.sameCpus.kern⟩
  | refuse _ _ page => exact .inr ⟨by simp, page.sameCpus⟩
  | recv _ wake sched => exact .inl ⟨rfl, sched.cpuStep.after
      ⟨wake.sameCpus.cpus, wake.sameCpus.kern⟩⟩
  | recvStale _ wake => exact .inr ⟨by simp, wake.sameCpus.cpus, wake.sameCpus.kern⟩

theorem Trapped.cpuStep {tf : Trapframe} {io : Inputs} (hc : k.curenv c = some cur)
    (h : Trapped k c cur tf io k') : CpuStep k c k' := by
  cases h with
  | zombie _ free sched => exact cpuStep_freeSelf hc free sched
  | destroy _ _ free sched =>
    exact (cpuStep_freeSelf (k := saved k cur tf) hc free sched).after ⟨rfl, rfl⟩
  | upcall _ _ _ _ _ store run => exact run.cpuStep.after ⟨rfl, kstoreWords_kern store⟩
  | nosys _ _ _ ret => exact ret.cpuStep.after ⟨rfl, rfl⟩
  | call _ _ _ called ret =>
    obtain ⟨h, -⟩ | ⟨-, h⟩ := called.cpus
    · cases h
    · exact ret.cpuStep.after ⟨h.cpus, h.kern⟩
  | leave _ _ _ called =>
    obtain ⟨-, h⟩ | ⟨h, -⟩ := called.cpus
    · exact h.after ⟨rfl, rfl⟩
    · exact absurd rfl h
  | spurious _ _ ret => exact ret.cpuStep.after ⟨rfl, rfl⟩
  | timer _ _ sched => exact sched.cpuStep.after ⟨rfl, rfl⟩

/-- The CPU that makes a step. -/
def Action.cpu : Action → Cpu
  | .trap c _ _ => c
  | .wake c _ => c
  | .start c => c
  | .access c _ _ => c

/-- A step is a kernel entry, or an access that moves no CPU. -/
theorem step_cpus {a : Action} (h : Step k a k') :
    (CpuStep k a.cpu k' ∧ LockFree k) ∨
      ((∃ c va store, a = .access c va store) ∧ SameCpus k k') := by
  cases a with
  | trap c tf io =>
    obtain ⟨-, hl, cur, hc, ht⟩ := step_trap h
    exact .inl ⟨ht.cpuStep hc, hl⟩
  | wake c no =>
    obtain ⟨-, hl, hs | hs⟩ := step_wake h
    · exact .inl ⟨hs.cpuStep, hl⟩
    · exact .inl ⟨hs.cpuStep, hl⟩
  | start c =>
    obtain ⟨-, hl, hs⟩ := step_start h
    exact .inl ⟨hs.cpuStep, hl⟩
  | access c va store =>
    refine .inr ⟨⟨c, va, store, rfl⟩, ?_⟩
    obtain ⟨-, -, rfl | ⟨m, hacc, rfl⟩⟩ := step_access h
    · exact ⟨rfl, rfl⟩
    · exact ⟨rfl, userAccess_kern hacc⟩

/-! ## CR3 -/

/-- CPUs in user mode do not run on the kernel's directory, and only they have an environment. -/
structure CrInv (k : Kernel n) : Prop where
  user : ∀ c, (k.cpus c).cpuMode = .user → (k.cpus c).cr3 ≠ k.mem.kernPgdir
  idle : ∀ c, (k.cpus c).cpuMode ≠ .user → (k.cpus c).cpuMode ≠ .monitor → k.curenv c = none

/-- A CPU in user mode has the directory of its environment in CR3. -/
theorem CrInv.dir (h : CrInv k) (inv : KInv S x k) (hu : (k.cpus c).cpuMode = .user) :
    ∃ e, k.curenv c = some e ∧ k.dirs e = some (k.cpus c).cr3 :=
  (inv.cr3 c).resolve_left (h.user c hu)

theorem MemInv.dir_ne_kern {ι : Type} [Fintype ι] {dirs : ι → Option (Fin n)} {m : Mem n} {i : ι}
    {g : Fin n} (inv : MemInv S dirs x ∅ m) (hi : dirs i = some g) : g ≠ m.kernPgdir := by
  rintro rfl
  exact inv.kern (inv.target_mem (s := .dir i) hi)

theorem CrInv.step {a : Action} (h : CrInv k) (inv' : KInv S x k') (hs : Step k a k') :
    CrInv k' := by
  rcases step_cpus hs with ⟨hstep, hl⟩ | ⟨-, hsame⟩
  · refine ⟨fun c hu => ?_, fun c hu hm => ?_⟩
    · by_cases hc : c = a.cpu
      · subst hc
        cases hstep.self with
        | stay hcur _ _ hcr3 =>
          rw [hcr3, hstep.kern]
          refine h.user _ ?_
          by_contra hn
          simp [h.idle _ hn (hl _)] at hcur
        | switch _ _ _ hdir => exact inv'.mem.dir_ne_kern hdir
        | halt _ hm => simp [hm] at hu
        | monitor hm => simp [hm] at hu
      · rw [hstep.other c hc] at hu ⊢
        rw [hstep.kern]
        exact h.user c hu
    · by_cases hc : c = a.cpu
      · subst hc
        cases hstep.self with
        | stay _ _ hm' => exact absurd hm' hu
        | switch _ _ hm' => exact absurd hm' hu
        | halt hc' => exact hc'
        | monitor hm' => exact absurd hm' hm
      · rw [hstep.other c hc] at hu hm
        simpa [Kernel.curenv, hstep.other c hc] using h.idle c hu hm
  · exact ⟨fun c => by rw [hsame.cpus, hsame.kern]; exact h.user c,
      fun c => by simpa [Kernel.curenv, hsame.cpus] using h.idle c⟩

theorem CrInv.created (h : Created S k) : CrInv k := by
  suffices h : ∀ c, ((k.cpus c).cpuMode = .off ∨ (k.cpus c).cpuMode = .boot) ∧
      k.curenv c = none by
    refine ⟨fun c hu => ?_, fun c _ _ => (h c).2⟩
    rcases (h c).1 with hm | hm <;> simp [hm] at hu
  induction h with
  | init _ _ mode idle _ => exact fun c => ⟨mode c, idle c⟩
  | create _ alloc _ _ ih =>
    obtain ⟨g, m, -, -, rfl⟩ := envAlloc_ok alloc
    exact ih

/-- Both invariants hold in the states of runs that meet `StepOk`. -/
theorem invs_of_reachable
    (h : Reachable (Boot S) (fun k a k' => StepOk k a ∧ Step k a k') k) :
    ∃ x, KInv S x k ∧ CrInv k := by
  refine h.invariant (P := fun k => ∃ x, KInv S x k ∧ CrInv k)
    (fun _ hb => ⟨0, (boot_kInv hb).1, .created hb.1⟩) ?_
  rintro k a k' ⟨x, inv, hcr⟩ ⟨ok, hs⟩
  obtain ⟨x', inv'⟩ := (inv.step ok hs).1.kInv
  exact ⟨x', inv', hcr.step inv' hs⟩

end JosKernel
