import JosKernel.Env.KernelSpace
import JosKernel.Env.LoadIcode
import JosKernel.Pmap.Mmio

/-!
# The start of the kernel

`i386_init` sets up memory, maps the registers of the local APIC for one CPU after the other, and
creates environments for the programs that are linked into the kernel. What it leaves behind is a
state of `Created`, in which every environment has the image of its program.
-/
namespace JosKernel

open Lib

variable {n : Nat}

/-! ## The functions -/

/-- `lapic_init` maps the registers of the local APIC. -/
def lapicInit (lapicaddr : Word) (s : Mmio n) : OptionT (Except Panic) (Mmio n) :=
  if lapicaddr = 0 then pure s
  else do
    let (_, s) ← OptionT.mk (mmioMapRegion s lapicaddr pgsize)
    pure s

/-- The calls of `lapic_init` in `mp_main`, on one CPU after the other. -/
def mpMains (lapicaddr : Word) : Nat → Mmio n → OptionT (Except Panic) (Mmio n)
  | 0, s => pure s
  | aps + 1, s => do
    let s ← lapicInit lapicaddr s
    mpMains lapicaddr aps s

def mpentryPaddr : Word := 0x7000

/-- `boot_aps`: the entry code, which fits into a page, is copied for the other CPUs, and these are
started. -/
def bootAps (code : List Byte) (lapicaddr : Word) (aps : Nat) (s : Mmio n) :
    OptionT (Except Panic) (Mmio n) := do
  let pp ← kaddr n mpentryPaddr
  let m := s.mem.setFrame pp fun o => code.getD o (s.mem.frame pp o)
  mpMains lapicaddr aps { s with mem := m }

/-- `env_create`. If there is no environment left, `penv` is not set. -/
def envCreate (k : Kernel n) (c : Cpu) (binary : Word) : Except Panic (Kernel n) := do
  match ← envAlloc k 0 with
  | (.ok e, k) => loadIcode k c e binary
  | (.error _, _) => throw .outOfBounds

/-- The environments that `i386_init` creates. -/
def envCreates (c : Cpu) : List Word → Kernel n → Except Panic (Kernel n)
  | [], k => pure k
  | binary :: binaries, k => do envCreates c binaries (← envCreate k c binary)

/-- What `mp_init` finds. -/
structure MpInfo where
  ncpu : Nat
  bootcpu : Cpu
  lapicaddr : Word

/-- `i386_init`, up to `sched_yield`. `envs` is what the memory holds in which `mem_init` puts the
environment table. -/
def i386Init (img : KernelImage) (mp : MpInfo) (code : List Byte) (binaries : List Word)
    (envs : EnvIx → Env n) (m : Mem n) (pp1 pp2 : Option (Fin n)) :
    OptionT (Except Panic) (Kernel n) := do
  let m ← memInit img m pp1 pp2
  -- the test `check_page` has reserved three pages for devices
  let s ← lapicInit mp.lapicaddr ⟨m, mmiobase + 3 * pgsize⟩
  let s ← bootAps code mp.lapicaddr (mp.ncpu - 1) s
  let cpus : Cpu → CpuInfo n := fun c =>
    ⟨if (c : Nat) < mp.ncpu then .boot else .off, none, s.mem.kernPgdir⟩
  envCreates mp.bootcpu binaries ⟨s.mem, envInit envs, .env 0, cpus⟩

/-! ## The registers of the local APIC -/

/-- `base` after `check_page` and `i` calls of `lapic_init`. -/
def lapicVa (i : Nat) : Word := mmiobase + BitVec.ofNat 32 (4096 * (3 + i))

/-- The page for the CPU that is the `i`-th to call `lapic_init`. -/
def lapicRegion (lapicaddr : Word) (i : Nat) : BootRegion :=
  ⟨lapicVa i, pgsize, lapicaddr, mmioPerm⟩

section
variable {first : Nat} {m₀ m : Mem n} {g : Fin n} {rs : List BootRegion} {lapicaddr : Word}
  {d t : Fin 1024} {i : Nat}

theorem toNat_lapicVa (hi : i < 10) : (lapicVa i).toNat = 0xef800000 + 4096 * (3 + i) := by
  have hbase : mmiobase.toNat = 0xef800000 := rfl
  rw [lapicVa, BitVec.toNat_add, BitVec.toNat_ofNat, hbase]
  omega

theorem lapicVa_succ (i : Nat) : lapicVa i + pgsize = lapicVa (i + 1) := by
  have hsucc : 4096 * (3 + (i + 1)) = 4096 * (3 + i) + 4096 := by omega
  rw [lapicVa, lapicVa, BitVec.add_assoc, hsucc, BitVec.ofNat_add]
  rfl

theorem lapicRegion_ok (hi : i < 9) (hpa : lapicaddr.toNat % 4096 = 0) :
    (lapicRegion lapicaddr i).Ok := by
  have hva := toNat_lapicVa (i := i) (by omega)
  have hpg : pgsize.toNat = 4096 := rfl
  have hu : uvpt.toNat = 0xef400000 := rfl
  refine KernelImage.bootRegion_ok mmioPerm (by omega) hpa (by decide) (by omega) ?_
    (.inr (by omega))
  rw [toNat_utop]
  omega

/-- All of them have the same page table. -/
theorem covers_lapicRegion (hi : i < 9) (h : (lapicRegion lapicaddr i).Covers d t) :
    d = mmioPde := by
  have hva := toNat_lapicVa (i := i) (by omega)
  have hpg : pgsize.toNat = 4096 := rfl
  have hend : (bootMapEnd (lapicVa i) pgsize).toNat = _ :=
    (toNat_bootMapEnd (by omega) (by decide) (by omega)).1 (.inr (.inl (by omega)))
  obtain ⟨h₁, h₂⟩ := h
  change (lapicVa i).toNat ≤ _ at h₁
  change _ < (bootMapEnd (lapicVa i) pgsize).toNat at h₂
  rw [toNat_pgaddr_zero] at h₁ h₂
  have := t.isLt
  refine Fin.ext ?_
  show (d : Nat) = 958
  omega

/-- The region is the next one in the part of the address space for devices. -/
theorem KernMap.mmioMapRegion (h : KernMap first m₀ g rs m) (hi : i < 9)
    (hpa : lapicaddr.toNat % 4096 = 0) : ∃ m',
    JosKernel.mmioMapRegion ⟨m, lapicVa i⟩ lapicaddr pgsize =
      .ok (some (lapicVa i, ⟨m', lapicVa (i + 1)⟩)) ∧
    KernMap first m₀ g (lapicRegion lapicaddr i :: rs) m' := by
  obtain ⟨m', h', hrun⟩ := h.bootMap (lapicRegion_ok hi hpa)
  have hva := toNat_lapicVa (i := i + 1) (by omega)
  have hlim : mmiolim.toNat = 0xefc00000 := rfl
  have hpg : roundUp pgsize pgsize = pgsize := by decide
  have hfit : ¬lapicVa i + pgsize > mmiolim := by
    rw [lapicVa_succ, gt_iff_lt, BitVec.lt_def]
    omega
  have hmap := congrArg OptionT.run hrun
  unfold JosKernel.bootMap lapicRegion at hmap
  rw [OptionT.run_mk, OptionT.run_mk] at hmap
  refine ⟨m', ?_, h'⟩
  rw [JosKernel.mmioMapRegion]
  dsimp only
  rw [if_neg hfit, hpg, hmap]
  refine congrArg (fun a => Except.ok (some a)) (Prod.ext ?_ ?_)
  · exact BitVec.add_sub_cancel _ _
  · exact congrArg (Mmio.mk m') (lapicVa_succ i)

/-- A region for a device, in the page table that is kept for these. -/
structure BootRegion.Device (r : BootRegion) : Prop where
  ok : r.Ok
  perm : r.perm = mmioPerm
  pde : ∀ d t, r.Covers d t → d = mmioPde

theorem lapicRegion_device (hi : i < 9) (hpa : lapicaddr.toNat % 4096 = 0) :
    (lapicRegion lapicaddr i).Device :=
  ⟨lapicRegion_ok hi hpa, rfl, fun _ _ h => covers_lapicRegion hi h⟩

/-- The regions `rs` are mapped, and devices. -/
def DeviceMap (first : Nat) (m₀ : Mem n) (g : Fin n) (rs : List BootRegion) (m : Mem n) : Prop :=
  ∃ ws, (∀ r ∈ ws, r.Device) ∧ KernMap first m₀ g (ws ++ rs) m

theorem DeviceMap.lapicInit (h : DeviceMap first m₀ g rs m) (hi : i < 9)
    (hpa : lapicaddr.toNat % 4096 = 0) : ∃ m' j,
    JosKernel.lapicInit lapicaddr ⟨m, lapicVa i⟩ =
      OptionT.mk (.ok (some ⟨m', lapicVa j⟩)) ∧ j ≤ i + 1 ∧ DeviceMap first m₀ g rs m' := by
  by_cases hz : lapicaddr = 0
  · exact ⟨m, i, if_pos hz, by omega, h⟩
  obtain ⟨ws, hws, hmap⟩ := h
  obtain ⟨m', hcall, h'⟩ := hmap.mmioMapRegion hi hpa
  refine ⟨m', i + 1, ?_, le_rfl, lapicRegion lapicaddr i :: ws,
    List.forall_mem_cons.mpr ⟨lapicRegion_device hi hpa, hws⟩, h'⟩
  rw [JosKernel.lapicInit, if_neg hz, hcall]
  rfl

theorem DeviceMap.mpMains {aps : Nat} (h : DeviceMap first m₀ g rs m) (hi : i + aps ≤ 9)
    (hpa : lapicaddr.toNat % 4096 = 0) : ∃ m' j,
    JosKernel.mpMains lapicaddr aps ⟨m, lapicVa i⟩ =
      OptionT.mk (.ok (some ⟨m', lapicVa j⟩)) ∧ DeviceMap first m₀ g rs m' := by
  induction aps generalizing m i with
  | zero => exact ⟨m, i, rfl, h⟩
  | succ aps ih =>
    obtain ⟨m₁, j, hrun, hj, h₁⟩ := h.lapicInit (i := i) (by omega) hpa
    obtain ⟨m', j', hrun', h'⟩ := ih (i := j) h₁ (by omega)
    refine ⟨m', j', ?_, h'⟩
    rw [JosKernel.mpMains, mk_bind hrun]
    exact hrun'

/-- A page of the kernel is written. -/
theorem KernMap.setFrame {q : Fin n} (h : KernMap first m₀ g rs m) (hq : Reserved first q)
    (hne : q ≠ g) (f : Frame) :
    KernMap first (m₀.setFrame q f) g rs (m.setFrame q f) := by
  obtain ⟨free, ht⟩ := h.tables
  obtain rfl := h.kern
  have hframe : ∀ p, p ≠ q → (m.setFrame q f).frame p = m.frame p := fun p hp =>
    Function.update_of_ne hp _ _
  have hkern : (m.setFrame q f).kernPgdir = m.kernPgdir := rfl
  have hentry : ∀ d, (m.setFrame q f).entry m.kernPgdir d = m.entry m.kernPgdir d := fun d => by
    rw [Mem.entry, hframe _ hne.symm, Mem.entry]
  have htab : ∀ d, (m.setFrame q f).table m.kernPgdir d = m.table m.kernPgdir d := fun d => by
    rw [Mem.table, hentry, Mem.table]
  refine ⟨rfl, ⟨free, ht.congr hkern hentry (fun _ => rfl) (fun _ => Iff.rfl) ht.low ht.tables.list
    ht.tables.nodup⟩, fun p hp hpg => ?_, fun d t hd => ?_⟩
  · by_cases hpq : p = q
    · subst hpq
      simp [Mem.setFrame]
    · rw [hframe p hpq, h.same p hp hpg]
      exact (Function.update_of_ne hpq _ _).symm
  · rw [← h.map d t hd]
    cases hpt : m.table m.kernPgdir d with
    | none => rw [Mem.pteAt_of_no_table ((htab d).trans hpt), Mem.pteAt_of_no_table hpt]
    | some pt =>
      have hptq : pt ≠ q := fun hc => (ht.pde d pt hd hpt).2.2 (hc ▸ hq)
      rw [Mem.pteAt_of_table ((htab d).trans hpt), Mem.pteAt_of_table hpt, Mem.entry,
        hframe pt hptq, Mem.entry]

/-- There are more low pages than page tables. -/
theorem KernTables.length {free : List (Fin n)} (h : KernTables first free m) (hlo : 160 ≤ first)
    (hn : first < n) : n ≤ first + free.length := by
  have h8 : 8 < n := by omega
  have h160 : 160 < n := by omega
  -- unreserved pages are free or tables
  have hsub : Finset.Ici (⟨first, hn⟩ : Fin n) ∪ Finset.Ico (⟨8, h8⟩ : Fin n) ⟨160, h160⟩ ⊆
      free.toFinset ∪ (kernTables m).biUnion fun d => (m.table m.kernPgdir d).toFinset := by
    intro p hp
    have hres : ¬Reserved first p := by
      rw [Finset.mem_union, Finset.mem_Ici, Finset.mem_Ico] at hp
      simp only [Fin.le_def, Fin.lt_def] at hp
      unfold Reserved mpentryPage ioPage
      omega
    rw [Finset.mem_union, List.mem_toFinset, h.mem, Finset.mem_biUnion, or_iff_not_imp_left]
    intro hfree
    push Not at hfree
    obtain ⟨d, hd, hpt⟩ := hfree hres
    refine ⟨d, ?_, by rw [hpt, Option.toFinset_some, Finset.mem_singleton]⟩
    rw [kernTables, Finset.mem_filter, hpt]
    exact ⟨Finset.mem_univ d, hd, Option.some_ne_none p⟩
  have hdis : Disjoint (Finset.Ici (⟨first, hn⟩ : Fin n))
      (Finset.Ico (⟨8, h8⟩ : Fin n) ⟨160, h160⟩) := by
    refine Finset.disjoint_left.mpr fun p hp hp' => ?_
    rw [Finset.mem_Ici, Fin.le_def] at hp
    rw [Finset.mem_Ico, Fin.lt_def] at hp'
    exact absurd (hlo.trans hp) (not_le.mpr hp'.2)
  have hcard := Finset.card_le_card hsub
  rw [Finset.card_union_of_disjoint hdis, Fin.card_Ici, Fin.card_Ico] at hcard
  have hfree : free.toFinset.card ≤ free.length := List.toFinset_card_le free
  have htab : ((kernTables m).biUnion fun d => (m.table m.kernPgdir d).toFinset).card ≤
      (kernTables m).card := by
    refine Finset.card_biUnion_le.trans ((Finset.sum_le_card_nsmul _ _ 1 fun d _ => ?_).trans
      (by simp))
    cases m.table m.kernPgdir d <;> simp
  have hunion := Finset.card_union_le free.toFinset
    ((kernTables m).biUnion fun d => (m.table m.kernPgdir d).toFinset)
  have hfew := card_kernTables m
  simp only at hcard
  omega

end

/-! ## Memory before the first environment -/

section
variable {img : KernelImage} {m₀ m : Mem n}

/-- The kernel's half of the address space is mapped as the layout says, apart from devices. -/
structure KernelImage.KernelHalf (img : KernelImage) (m : Mem n) : Prop where
  kern : (m.kernPgdir : Nat) = img.kernPage
  map : ∀ d t, KernPdes d → d ≠ mmioPde → m.pteAt m.kernPgdir d t = img.pte n (pgaddr d t 0)
  device : ∀ t, m.pteAt m.kernPgdir mmioPde t &&& pteU = 0
  pde : ∀ d pt, KernPdes d → m.table m.kernPgdir d = some pt → UserPde (m.entry m.kernPgdir d)

/-- Memory when the environments are created. The kernel is as it was loaded. -/
structure KernelImage.Ready (img : KernelImage) (m₀ m : Mem n) : Prop
    extends img.KernelHalf m where
  same : ∀ q : Fin n, 160 ≤ (q : Nat) → (q : Nat) < img.kernPage → m.frame q = m₀.frame q
  init : MemInit (img.freePages m) m
  free : ∀ free, m.FreeList free → n ≤ img.nextPage n + free.length

/-- All of it is in pages that the allocator does not have. -/
theorem KernelImage.KernelHalf.congr {m' : Mem n} (h : img.KernelHalf m)
    (hk : m'.kernPgdir = m.kernPgdir) (hkern : m.kernPgdir ∉ img.freePages m)
    (hf : ∀ q, q ∉ img.freePages m → m'.frame q = m.frame q) :
    img.KernelHalf m' ∧ img.freePages m' = img.freePages m := by
  have htab : ∀ d, m'.table m'.kernPgdir d = m.table m.kernPgdir d := fun d => by
    rw [hk, Mem.table, Mem.entry, hf _ hkern, Mem.table, Mem.entry]
  have hpte : ∀ d t, KernPdes d → m'.pteAt m'.kernPgdir d t = m.pteAt m.kernPgdir d t := by
    intro d t hd
    cases hpt : m.table m.kernPgdir d with
    | none => rw [Mem.pteAt_of_no_table ((htab d).trans hpt), Mem.pteAt_of_no_table hpt]
    | some pt =>
      rw [Mem.pteAt_of_table ((htab d).trans hpt), Mem.pteAt_of_table hpt, Mem.entry,
        hf pt fun hc => hc.2 d hd hpt, Mem.entry]
  refine ⟨⟨by rw [hk]; exact h.kern, fun d t hd hne => ?_, fun t => ?_, fun d pt hd hpt => ?_⟩, ?_⟩
  · rw [hpte d t hd]
    exact h.map d t hd hne
  · rw [hpte mmioPde t ⟨by decide, by decide⟩]
    exact h.device t
  · rw [hk, Mem.entry, hf _ hkern]
    exact h.pde d pt hd ((htab d).symm.trans hpt)
  · ext p
    simp only [KernelImage.freePages, htab]

/-- Devices do not get in the way of the rest. -/
theorem layoutPte_device {ws rs : List BootRegion} {d t : Fin 1024} (hws : ∀ r ∈ ws, r.Device)
    (hd : d ≠ mmioPde) : layoutPte (ws ++ rs) d t = layoutPte rs d t :=
  layoutPte_append_of_not fun r hr hc => hd ((hws r hr).pde d t hc)

/-- User code has no access to devices. -/
theorem regionPte_device {r : BootRegion} (hr : r.Device) (d t : Fin 1024) :
    regionPte r.va r.pa r.perm d t &&& pteU = 0 := by
  have hva := hr.ok.va
  have hpa := hr.ok.pa
  have haddr := toNat_pgaddr_zero d t
  have halign : (r.pa + (pgaddr d t 0 - r.va)).toNat % 4096 = 0 := by
    rw [BitVec.toNat_add, BitVec.toNat_sub]
    omega
  rw [regionPte, hr.perm, ← pteAddr_of_aligned halign, pteAddr_or_and (by decide)]
  decide

theorem layoutPte_mmioPde {ws : List BootRegion} (fits : img.Fits n) (hws : ∀ r ∈ ws, r.Device)
    (t : Fin 1024) : layoutPte (ws ++ img.regions n) mmioPde t &&& pteU = 0 := by
  induction ws with
  | nil =>
    have hpde : (mmioPde : Nat) = 958 := rfl
    have haddr := toNat_pgaddr_zero mmioPde t
    have hsmall := fits.small
    have hl : sizeofPageInfo * n = 8 * n := rfl
    have ht := t.isLt
    have hdepth := stackDepth_eq (pgaddr mmioPde t 0)
    have hlay := layout_rest img n (pgaddr mmioPde t 0) (by omega) (by omega)
    rw [if_neg fun hc => by
        have := (inKstack_iff _).mp hc
        omega,
      if_neg fun hc => by
        have := phys_iff.mp hc
        omega] at hlay
    rw [List.nil_append, layoutPte_regions fits _ _ ⟨by decide, by decide⟩,
      pte_of_layout_none hlay]
    exact BitVec.zero_and
  | cons r ws ih =>
    obtain ⟨hr, hws⟩ := List.forall_mem_cons.mp hws
    rw [List.cons_append, layoutPte]
    split_ifs
    · exact regionPte_device hr _ _
    · exact ih hws

theorem DeviceMap.ready {g : Fin n} (fits : img.Fits n) (hg : (g : Nat) = img.kernPage)
    (h : DeviceMap (img.nextPage n) m₀ g (img.regions n) m) : img.Ready m₀ m := by
  obtain ⟨ws, hws, hmap⟩ := h
  obtain ⟨free, ht⟩ := hmap.tables
  obtain rfl := hmap.kern
  have hnext : img.kernPage < img.nextPage n := by
    unfold KernelImage.nextPage KernelImage.envsPage KernelImage.pagesPage
    omega
  refine ⟨⟨hg, fun d t hd hne => ?_, fun t => ?_, fun d pt hd hpt => ?_⟩, fun q hlo hhi => ?_,
    ht.memInit, fun free' hfree' => ?_⟩
  · rw [hmap.map d t hd, layoutPte_device hws hne, layoutPte_regions fits d t hd]
  · rw [hmap.map mmioPde t ⟨by decide, by decide⟩]
    exact layoutPte_mmioPde fits hws t
  · rw [(ht.pde d pt hd hpt).1]
    exact MemInv.userPde_newPde pt
  · refine hmap.same q (.inr (.inr ⟨hlo, hhi.trans hnext⟩)) ?_
    rintro rfl
    omega
  · rw [hfree'.unique ht.tables.list]
    exact ht.length (by have := fits.kernPage; omega) fits.room

/-- The entry code of the other CPUs. -/
def EntryCode (code : List Byte) (m : Mem n) : Prop :=
  ∀ p : Fin n, (p : Nat) = mpentryPage → ∀ o : Fin 4096, ∀ b, code[(o : Nat)]? = some b →
    m.frame p o = b

/-- `boot_aps` writes to the page that is reserved for it. -/
theorem DeviceMap.bootAps {g : Fin n} {rs : List BootRegion} {lapicaddr : Word} {i aps : Nat}
    (fits : img.Fits n) (hg : (g : Nat) = img.kernPage)
    (h : DeviceMap (img.nextPage n) m₀ g rs m) (hi : i + aps ≤ 9)
    (hpa : lapicaddr.toNat % 4096 = 0) (code : List Byte) : ∃ m₁ m' j,
    JosKernel.bootAps code lapicaddr aps ⟨m, lapicVa i⟩ =
      OptionT.mk (.ok (some ⟨m', lapicVa j⟩)) ∧ DeviceMap (img.nextPage n) m₁ g rs m' ∧
      (∀ q : Fin n, (q : Nat) ≠ mpentryPage → m₁.frame q = m₀.frame q) ∧ EntryCode code m' := by
  obtain ⟨hkern, -, -⟩ := fits.kernPage
  have hroom := fits.room
  have hnext : img.kernPage < img.nextPage n := by
    unfold KernelImage.nextPage KernelImage.envsPage KernelImage.pagesPage
    omega
  have h7 : pgnum mpentryPaddr < n := by
    rw [show pgnum mpentryPaddr = 7 from rfl]
    omega
  obtain ⟨pp, hpp⟩ : ∃ pp : Fin n, pp = ⟨pgnum mpentryPaddr, h7⟩ := ⟨_, rfl⟩
  have hkaddr : kaddr n mpentryPaddr = .ok pp := by
    rw [hpp]
    exact dif_pos h7
  have hval : (pp : Nat) = mpentryPage := by
    rw [hpp]
    rfl
  have hres : Reserved (img.nextPage n) pp := .inr (.inl hval)
  have hne : pp ≠ g := by
    rintro rfl
    rw [hval, mpentryPage] at hg
    omega
  obtain ⟨ws, hws, hmap⟩ := h
  have hwritten : DeviceMap (img.nextPage n)
      (m₀.setFrame pp fun o => code.getD o (m.frame pp o)) g rs
      (m.setFrame pp fun o => code.getD o (m.frame pp o)) :=
    ⟨ws, hws, hmap.setFrame hres hne _⟩
  obtain ⟨m', j, hrun, h'⟩ := hwritten.mpMains hi hpa
  refine ⟨_, m', j, ?_, h', fun q hq => ?_, fun p hp o b hb => ?_⟩
  · rw [JosKernel.bootAps, lift_bind hkaddr]
    exact hrun
  · have hqp : q ≠ pp := by
      rintro rfl
      exact hq hval
    exact Function.update_of_ne hqp _ _
  · obtain rfl : p = pp := Fin.ext (hp.trans hval.symm)
    obtain ⟨ws', -, hmap'⟩ := h'
    rw [hmap'.same p hres hne]
    show Function.update m₀.frame p (fun o => code.getD o (m.frame p o)) p o = b
    rw [Function.update_self, List.getD, hb]
    rfl

/-- `i386_init` until the environments are created. -/
theorem i386Init_eq (fits : img.Fits n) (mp : MpInfo) (hcpu : mp.ncpu ≤ 8)
    (hlapic : mp.lapicaddr.toNat % 4096 = 0) (code : List Byte) (binaries : List Word)
    (envs : EnvIx → Env n) (m₀ : Mem n) (pp1 pp2 : Option (Fin n)) :
    ∃ m, img.Ready m₀ m ∧ EntryCode code m ∧
      i386Init img mp code binaries envs m₀ pp1 pp2 = liftM (envCreates mp.bootcpu binaries
        ⟨m, envInit envs, .env 0,
          fun c => ⟨if (c : Nat) < mp.ncpu then .boot else .off, none, m.kernPgdir⟩⟩) := by
  obtain ⟨g, m₁, hg, hmap, hrun₁⟩ := memInit_kernMap fits m₀ pp1 pp2
  have hbase : mmiobase + 3 * pgsize = lapicVa 0 := by decide
  have h₁ : DeviceMap (img.nextPage n) m₀ g (img.regions n) m₁ := ⟨[], by simp, hmap⟩
  obtain ⟨m₂, j, hrun₂, hj, h₂⟩ := h₁.lapicInit (i := 0) (by omega) hlapic
  obtain ⟨m₀', m, j', hrun₃, h₃, hsame, hcode⟩ :=
    h₂.bootAps fits hg (show j + (mp.ncpu - 1) ≤ 9 by omega) hlapic code
  have hready := h₃.ready fits hg
  refine ⟨m, ⟨hready.toKernelHalf, fun q hlo hhi => ?_, hready.init, hready.free⟩, hcode, ?_⟩
  · rw [hready.same q hlo hhi, hsame q]
    unfold mpentryPage
    omega
  · rw [i386Init, mk_bind hrun₁, hbase, mk_bind hrun₂, mk_bind hrun₃]

end

end JosKernel
