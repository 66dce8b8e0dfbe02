import JosKernel.Env.MemInit

/-!
# The kernel's address space

What `mem_init` leaves behind. Physical memory holds the kernel, its page directory and the two
arrays, one after the other; the rest is free, except for what the machine reserves and for page
tables. In virtual memory, user code can read the arrays at `UENVS` and `UPAGES`, and the kernel
has its stacks and all of physical memory. The window at `UENVS` has the size of a page table and
not that of the array: what follows the array in memory can be seen there as well.
-/
namespace JosKernel

open Lib

variable {n : Nat}

/-! ## The layout of physical memory -/

/-- The kernel address of page `p`. -/
def kva (p : Nat) : Word := kernbase + BitVec.ofNat 32 (p * 4096)

theorem toNat_kva {p : Nat} (hp : p < 2 ^ 16) : (kva p).toNat = kernbase.toNat + p * 4096 := by
  have hbase : kernbase.toNat = 0xf0000000 := rfl
  rw [kva, BitVec.toNat_add, BitVec.toNat_ofNat, hbase]
  omega

theorem paddr_kva {p : Nat} (hp : p < 2 ^ 16) :
    paddr (kva p) = .ok (BitVec.ofNat 32 (p * 4096)) := by
  have hbase : kernbase.toNat = 0xf0000000 := rfl
  have hkva := toNat_kva hp
  unfold paddr
  rw [if_neg]
  · congr 1
    rw [kva, BitVec.add_comm, BitVec.add_sub_cancel]
  · rw [BitVec.lt_def, hkva]
    omega

theorem pgnum_ofNat {p : Nat} (hp : p < 2 ^ 20) : pgnum (BitVec.ofNat 32 (p * 4096)) = p := by
  rw [pgnum, BitVec.toNat_ofNat]
  omega

/-- Whole pages from the allocator. -/
theorem bootAlloc_kva {p : Nat} {len : Word} (hlen : len ≠ 0)
    (hp : p + (len.toNat + 4095) / 4096 < 2 ^ 16) :
    bootAlloc (kva p) len = (kva p, kva (p + (len.toNat + 4095) / 4096)) := by
  have hbase : kernbase.toNat = 0xf0000000 := rfl
  have hkva := toNat_kva (p := p) (by omega)
  have hkva' := toNat_kva hp
  have hsum : (kva p + len).toNat = (kva p).toNat + len.toNat := by
    rw [BitVec.toNat_add, hkva]
    omega
  unfold bootAlloc
  rw [if_pos hlen, (roundUp_eq_self_iff _).mpr (by omega), Prod.mk.injEq]
  refine ⟨rfl, BitVec.eq_of_toNat_eq ?_⟩
  rw [toNat_roundUp, hsum, hkva']
  omega

/-- Without a size `boot_alloc` allocates nothing. -/
theorem bootAlloc_zero (nextfree : Word) : bootAlloc nextfree 0 = (nextfree, nextfree) := by
  simp [bootAlloc]

namespace KernelImage

variable (img : KernelImage) (n : Nat)

/-- The page of `kern_pgdir`. -/
def kernPage : Nat := pgnum (roundUp img.endAddr pgsize - kernbase)

/-- The first page of the array `pages`. -/
def pagesPage : Nat := img.kernPage + 1

/-- The first page of the array `envs`. -/
def envsPage : Nat := img.pagesPage + (sizeofPageInfo * n + 4095) / 4096

/-- The first page behind the arrays. -/
def nextPage : Nat := img.envsPage n + 60

/-- The kernel is linked to be loaded at `EXTPHYSMEM`, what it allocates with `boot_alloc` lies in
the first 4 MB, and there is some memory after that. -/
structure Fits : Prop where
  small : n ≤ 2 ^ 16
  loaded : kernbase.toNat + extphysmem.toNat ≤ img.endAddr.toNat
  early : img.nextPage n ≤ 1024
  room : img.nextPage n < n
  bootstack : kernbase ≤ img.bootstack ∧ img.bootstack.toNat % 4096 = 0
  percpuKstacks : kernbase ≤ img.percpuKstacks ∧ img.percpuKstacks.toNat % 4096 = 0 ∧
    img.percpuKstacks.toNat + 8 * kstksize.toNat ≤ img.endAddr.toNat

/-- The stack of CPU `i`. -/
def kstack (i : Fin 8) : BootRegion :=
  ⟨kstackVa i, kstksize, img.percpuKstacks + BitVec.ofNat 32 i * kstksize - kernbase, pteW⟩

/-- What `mem_init` maps, the last region first. -/
def regions : List BootRegion :=
  ((List.finRange 8).map img.kstack).reverse ++
    [⟨kernbase, 0xffffffff - kernbase + 1, 0, pteW⟩,
     ⟨kstacktop - kstksize, kstksize, img.bootstack - kernbase, pteW⟩,
     ⟨uenvs, ptsize, BitVec.ofNat 32 (img.envsPage n * 4096), pteU⟩,
     ⟨upages, roundUp (BitVec.ofNat 32 (n * sizeofPageInfo)) pgsize,
       BitVec.ofNat 32 (img.pagesPage * 4096), pteU⟩]

variable {img n}

theorem Fits.kernPage (h : img.Fits n) : 256 ≤ img.kernPage ∧ img.kernPage < 1024 ∧
    roundUp img.endAddr pgsize = kva img.kernPage := by
  have hbase : kernbase.toNat = 0xf0000000 := rfl
  have hext : extphysmem.toNat = 0x100000 := rfl
  have hearly := h.early
  have hloaded := h.loaded
  have hlt := img.endAddr.isLt
  have hround := toNat_roundUp img.endAddr
  have hp : img.kernPage < 1024 := by
    unfold nextPage envsPage pagesPage at hearly
    omega
  have hval : img.kernPage = (roundUp img.endAddr pgsize - kernbase).toNat / 4096 := rfl
  rw [BitVec.toNat_sub, hbase] at hval
  have hkva := toNat_kva (p := img.kernPage) (by omega)
  refine ⟨by omega, hp, BitVec.eq_of_toNat_eq ?_⟩
  omega

/-- The entries of addresses above `UTOP`, except for those in the window. -/
theorem kernPdes_of_inRegion {lo hi : Nat} {d t : Fin 1024} (hlo : utop.toNat ≤ lo)
    (huvpt : hi ≤ uvpt.toNat ∨ uvpt.toNat + 2 ^ 22 ≤ lo) (h : InRegion lo hi d t) :
    KernPdes d := by
  have hu : uvpt.toNat = 0xef400000 := rfl
  obtain ⟨h₁, h₂⟩ := h
  rw [toNat_pgaddr, Fin.val_zero] at h₁ h₂
  rw [toNat_utop] at hlo
  have := t.isLt
  refine ⟨by unfold userPdes; omega, fun hd => ?_⟩
  have hd : (d : Nat) = 957 := by rw [hd]; decide
  omega

/-- A region whose end is computed right. -/
theorem bootRegion_ok {va size pa : Word} (perm : Word) (hva : va.toNat % 4096 = 0)
    (hpa : pa.toNat % 4096 = 0) (hsize : size.toNat % 4096 = 0)
    (hfit : va.toNat + 2 * size.toNat ≤ 2 ^ 32) (hlo : utop.toNat ≤ va.toNat)
    (huvpt : va.toNat + size.toNat ≤ uvpt.toNat ∨ uvpt.toNat + 2 ^ 22 ≤ va.toNat) :
    BootRegion.Ok ⟨va, size, pa, perm⟩ := by
  have hend := (toNat_bootMapEnd hva hsize (by omega)).1 (.inr (.inl hfit))
  refine ⟨hva, hpa, ⟨size.toNat / 4096, by simp only; omega⟩, fun d t hin => ?_⟩
  change InRegion va.toNat (bootMapEnd va size).toNat d t at hin
  rw [hend] at hin
  exact kernPdes_of_inRegion hlo huvpt hin

theorem toNat_kstackVa (i : Fin 8) : (kstackVa i).toNat = 0xefff8000 - 0x10000 * (i : Nat) := by
  revert i
  decide

theorem toNat_sub_kernbase {a : Word} (h : kernbase ≤ a) :
    (a - kernbase).toNat = a.toNat - 0xf0000000 := by
  have hbase : kernbase.toNat = 0xf0000000 := rfl
  rw [BitVec.le_def, hbase] at h
  have := a.isLt
  rw [BitVec.toNat_sub, hbase]
  omega

variable {img : KernelImage} {n : Nat}

theorem Fits.toNat_percpuKstack (h : img.Fits n) (i : Fin 8) :
    (img.percpuKstacks + BitVec.ofNat 32 i * kstksize).toNat =
      img.percpuKstacks.toNat + 0x8000 * (i : Nat) := by
  have hend := h.percpuKstacks.2.2
  have hlt := img.endAddr.isLt
  have hsz : kstksize.toNat = 0x8000 := rfl
  have hi := i.isLt
  rw [BitVec.toNat_add, BitVec.toNat_mul, BitVec.toNat_ofNat, hsz]
  omega

theorem Fits.kstack_ok (h : img.Fits n) (i : Fin 8) : (img.kstack i).Ok ∧
    paddr (img.percpuKstacks + BitVec.ofNat 32 i * kstksize) = .ok (img.kstack i).pa := by
  obtain ⟨hlo, halign, hend⟩ := h.percpuKstacks
  have hbase : kernbase.toNat = 0xf0000000 := rfl
  have hu : uvpt.toNat = 0xef400000 := rfl
  have hsz : kstksize.toNat = 0x8000 := rfl
  have hva := toNat_kstackVa i
  have hpa := h.toNat_percpuKstack i
  have hi := i.isLt
  have hge : kernbase ≤ img.percpuKstacks + BitVec.ofNat 32 i * kstksize := by
    rw [BitVec.le_def] at hlo ⊢
    omega
  have hsub := toNat_sub_kernbase hge
  rw [BitVec.le_def, hbase] at hlo
  refine ⟨bootRegion_ok pteW ?_ ?_ (by decide) ?_ ?_ (.inr ?_), if_neg ?_⟩
  · rw [hva]
    omega
  · rw [hsub, hpa]
    omega
  · rw [hva, hsz]
    omega
  · rw [hva, toNat_utop]
    omega
  · rw [hva, hu]
    omega
  · rw [BitVec.lt_def, hpa, hbase]
    omega

theorem Fits.regions_ok (h : img.Fits n) : ∀ r ∈ img.regions n, r.Ok := by
  have hbase : kernbase.toNat = 0xf0000000 := rfl
  have hearly := h.early
  have hsmall := h.small
  have hpages : img.pagesPage < 1024 ∧ img.envsPage n < 1024 := by
    unfold nextPage envsPage at *
    omega
  have hpa : ∀ p, p < 1024 → (BitVec.ofNat 32 (p * 4096)).toNat % 4096 = 0 := by
    intro p hp
    rw [BitVec.toNat_ofNat]
    omega
  intro r hr
  simp only [regions, List.mem_append, List.mem_reverse, List.mem_map, List.mem_cons,
    List.not_mem_nil, or_false] at hr
  rcases hr with ⟨i, -, rfl⟩ | rfl | rfl | rfl | rfl
  · exact (h.kstack_ok i).1
  · -- the topmost region loses a page
    have hend : (bootMapEnd kernbase (0xffffffff - kernbase + 1)).toNat = bootMapLast := by decide
    refine ⟨by decide, by decide, ⟨65535, hend.trans (by decide)⟩, fun d t hin => ?_⟩
    exact kernPdes_of_inRegion (by decide) (.inr (by decide)) hin
  · obtain ⟨hlo, halign⟩ := h.bootstack
    have hsub := toNat_sub_kernbase hlo
    rw [BitVec.le_def, hbase] at hlo
    refine bootRegion_ok pteW (by decide) ?_ (by decide) (by decide) (by decide)
      (.inr (by decide))
    rw [hsub]
    omega
  · exact bootRegion_ok pteU (by decide) (hpa _ hpages.2) (by decide) (by decide) (by decide)
      (.inl (by decide))
  · have hround := toNat_roundUp (BitVec.ofNat 32 (n * sizeofPageInfo))
    have hva : upages.toNat = 0xef000000 := rfl
    have hu : uvpt.toNat = 0xef400000 := rfl
    rw [BitVec.toNat_ofNat, show sizeofPageInfo = 8 from rfl] at hround
    refine bootRegion_ok pteU (by decide) (hpa _ hpages.1) ?_ ?_ (by decide) (.inl ?_)
    all_goals
      rw [show sizeofPageInfo = 8 from rfl]
      omega

end KernelImage

/-! ## The result -/

section
variable {first : Nat} {g : Fin n} {rs : List BootRegion} {m₀ m : Mem n} {img : KernelImage}

theorem KernMap.memInitMp (fits : img.Fits n) (is : List (Fin 8)) (h : KernMap first m₀ g rs m) :
    ∃ m', KernMap first m₀ g ((is.map img.kstack).reverse ++ rs) m' ∧
      JosKernel.memInitMp img is m = OptionT.mk (.ok (some m')) := by
  induction is generalizing m rs with
  | nil => exact ⟨m, h, rfl⟩
  | cons i is ih =>
    obtain ⟨hok, hpa⟩ := fits.kstack_ok i
    obtain ⟨m₁, h₁, hrun₁⟩ := h.bootMap hok
    obtain ⟨m', h', hrun'⟩ := ih h₁
    refine ⟨m', by simpa using h', ?_⟩
    rw [JosKernel.memInitMp, lift_bind hpa]
    exact (mk_bind hrun₁ _).trans hrun'

/-- The directory as `mem_init` makes it, with the free list in order. -/
theorem kernMap_init {free : List (Fin n)} (small : n ≤ 2 ^ 16) (hkern : m.kernPgdir = g)
    (hdir : ∀ d, m.entry g d = if d = pdx uvpt then page2pa g ||| pteU ||| pteP else 0)
    (hlist : m.FreeList (lowFirst free)) (hnd : free.Nodup)
    (hmem : ∀ p, p ∈ free ↔ ¬Reserved first p) (href : ∀ p ∈ free, (m.pages p).ppRef = 0)
    (hg : Reserved first g) (hlow : 108 ≤ n)
    (hsame : ∀ q, Reserved first q → q ≠ g → m.frame q = m₀.frame q) :
    KernMap first m₀ g [] m := by
  subst hkern
  have hperm := lowFirst_perm free
  have hself : m.table m.kernPgdir (pdx uvpt) = some m.kernPgdir := by
    rw [Mem.table, hdir, if_pos rfl, BitVec.or_assoc]
    exact pageOf_selfPde (by omega) _ (by decide) (by decide)
  have hnone : ∀ d, d ≠ pdx uvpt → m.table m.kernPgdir d = none := fun d hd => by
    rw [Mem.table, hdir, if_neg hd]
    exact pageOf_zero
  have hgfree : m.kernPgdir ∉ lowFirst free := fun hc => (hmem _).mp (hperm.mem_iff.mp hc) hg
  have hentry : ∀ d, d ≠ pdx uvpt → present (m.entry m.kernPgdir d) = false := fun d hd => by
    rw [hdir, if_neg hd]
    rfl
  refine ⟨rfl, ⟨lowFirst free, ⟨⟨by omega, hlist, lowFirst_nodup hnd, fun _ _ _ _ _ => rfl,
    fun e g' hg' => ?_, fun e g' d pt hg' hpt => ?_, fun e g' d hg' hd hp => ?_,
    fun e e' g' g'' d d' pt hg' hg'' hd hpt => ?_, fun e e' g' d hg' hd => ?_⟩,
    fun p hp => href p (hperm.mem_iff.mp hp), fun p => ?_, fun d hd => hentry d ?_, ?_,
    fun d pt hd hpt => ?_, ?_⟩⟩, hsame, fun d t hd => Mem.pteAt_of_no_table (hnone d hd.2)⟩
  · cases hg'
    exact hgfree
  · cases hg'
    by_cases hd : d = pdx uvpt
    · subst hd
      cases hself.symm.trans hpt
      exact hgfree
    · cases (hnone d hd).symm.trans hpt
  · cases hg'
    cases (hentry d hd.2).symm.trans hp
  · cases hg'
    cases (hnone d hd.2).symm.trans hpt
  · cases hg'
    rw [hnone d hd.2]
    exact .inl fun h => by cases h
  · rw [hperm.mem_iff, hmem]
    refine ⟨fun hr => ⟨hr, fun d hd hc => ?_⟩, And.left⟩
    cases (hnone d hd.2).symm.trans hc
  · rintro rfl
    exact absurd hd (by decide)
  · rw [hdir, if_pos rfl]
  · cases (hnone d hd.2).symm.trans hpt
  · -- the pages 8 to 107 are low
    refine ⟨_, _, rfl, fun p hp => ?_, ?_⟩
    · have hp := of_decide_eq_true (List.mem_filter.mp hp).2
      have hlt := p.isLt
      simp only [pdx, page2pa, BitVec.toNat_ofNat] at hp
      omega
    · have hlt : ∀ i : Fin 100, 8 + (i : Nat) < n := fun i => by
        have := i.isLt
        omega
      have hsub : (List.finRange 100).map (fun i : Fin 100 => (⟨8 + (i : Nat), hlt i⟩ : Fin n)) ⊆
          free.filter fun pp => (pdx (page2pa pp) : Nat) < 1 := by
        intro p hp
        obtain ⟨i, -, rfl⟩ := List.mem_map.mp hp
        have hi := i.isLt
        refine List.mem_filter.mpr ⟨(hmem _).mpr ?_, decide_eq_true ?_⟩
        · unfold Reserved mpentryPage ioPage
          simp only
          omega
        · simp only [pdx, page2pa, BitVec.toNat_ofNat]
          omega
      have hinj : ((List.finRange 100).map
          (fun i : Fin 100 => (⟨8 + (i : Nat), hlt i⟩ : Fin n))).Nodup := by
        refine (List.nodup_finRange 100).map fun i j hij => ?_
        have hij := congrArg Fin.val hij
        exact Fin.ext (by simpa using hij)
      have hlen := (List.subperm_of_subset hinj hsub).length_le
      rw [List.length_map, List.length_finRange] at hlen
      omega

/-- The contents of free pages do not matter. -/
theorem KernMap.checkPageFreeList (h : KernMap first m₀ g rs m) (pp1 pp2 : Option (Fin n)) :
    ∃ m', KernMap first m₀ g rs m' ∧
      JosKernel.checkPageFreeList false pp1 pp2 m = OptionT.mk (.ok (some m')) := by
  obtain ⟨free, ht⟩ := h.tables
  obtain rfl := h.kern
  obtain ⟨m', hrun, hlist, href, hk, hframe⟩ :=
    checkPageFreeList_spec ht.tables.list ht.ne_nil false pp1 pp2
  have hdir : ∀ d, m'.entry m.kernPgdir d = m.entry m.kernPgdir d := fun d => by
    rw [Mem.entry, hframe _ (ht.tables.dirFree () _ rfl), Mem.entry]
  refine ⟨m', ⟨hk, ⟨free, ht.congr hk hdir (fun p => BitVec.eq_of_toNat_eq (href p))
    (fun _ => Iff.rfl) ht.low hlist ht.tables.nodup⟩, fun q hq hne => ?_, fun d t hd => ?_⟩, hrun⟩
  · rw [hframe q fun hc => ((ht.mem q).mp hc).1 hq, h.same q hq hne]
  have htab : m'.table m.kernPgdir d = m.table m.kernPgdir d := by
    rw [Mem.table, hdir, Mem.table]
  rw [← h.map d t hd]
  cases hpt : m.table m.kernPgdir d with
  | none => rw [Mem.pteAt_of_no_table (htab.trans hpt), Mem.pteAt_of_no_table hpt]
  | some pt =>
    rw [Mem.pteAt_of_table (htab.trans hpt), Mem.pteAt_of_table hpt, Mem.entry,
      hframe pt (ht.tables.tableFree () _ d pt rfl hpt), Mem.entry]

/-- `mem_init` succeeds, and maps its regions and nothing else. -/
theorem memInit_kernMap (fits : img.Fits n) (m : Mem n) (pp1 pp2 : Option (Fin n)) :
    ∃ (g : Fin n) (m' : Mem n), (g : Nat) = img.kernPage ∧
      KernMap (img.nextPage n) m g (img.regions n) m' ∧
      memInit img m pp1 pp2 = OptionT.mk (.ok (some m')) := by
  obtain ⟨hkern, hkern', hend⟩ := fits.kernPage
  have hearly := fits.early
  have hroom := fits.room
  have hsmall := fits.small
  have hpi : sizeofPageInfo * n = 8 * n := rfl
  have hnext : img.nextPage n =
      img.kernPage + 1 + (sizeofPageInfo * n + 4095) / 4096 + 60 := rfl
  have henvs : img.nextPage n = img.envsPage n + 60 := rfl
  have hgn : img.kernPage < n := by omega
  have hpage : (BitVec.ofNat 32 (sizeofPageInfo * n)).toNat = sizeofPageInfo * n := by
    rw [BitVec.toNat_ofNat]
    omega
  have hpos : BitVec.ofNat 32 (sizeofPageInfo * n) ≠ 0 := by
    intro hc
    rw [hc] at hpage
    change 0 = _ at hpage
    omega
  -- the calls of `boot_alloc`
  have halloc₁ : bootAlloc (kva img.kernPage) pgsize = (kva img.kernPage, kva img.pagesPage) :=
    bootAlloc_kva (by decide) (show img.kernPage + 1 < 2 ^ 16 by omega)
  have halloc₂ : bootAlloc (kva img.pagesPage) (BitVec.ofNat 32 (sizeofPageInfo * n)) =
      (kva img.pagesPage, kva (img.envsPage n)) := by
    rw [bootAlloc_kva hpos (by rw [hpage, KernelImage.pagesPage]; omega), hpage]
    rfl
  have halloc₃ : bootAlloc (kva (img.envsPage n)) (BitVec.ofNat 32 (sizeofEnv * 1024)) =
      (kva (img.envsPage n), kva (img.nextPage n)) := by
    have hlen : ((BitVec.ofNat 32 (sizeofEnv * 1024)).toNat + 4095) / 4096 = 60 := by decide
    rw [bootAlloc_kva (by decide) (by rw [hlen]; omega), hlen, henvs]
  have hnum : pgnum (BitVec.ofNat 32 (img.kernPage * 4096)) = img.kernPage :=
    pgnum_ofNat (by omega)
  have hkaddr : kaddr n (BitVec.ofNat 32 (img.kernPage * 4096)) = .ok ⟨img.kernPage, hgn⟩ := by
    unfold kaddr
    simp only [hnum]
    exact dif_pos hgn
  -- the directory
  set g : Fin n := ⟨img.kernPage, hgn⟩ with hg
  set m₁ := ({ m with kernPgdir := g }.setFrame g fun _ => 0).setEntry g (pdx uvpt)
    (BitVec.ofNat 32 (img.kernPage * 4096) ||| pteU ||| pteP) with hm₁
  have hdir : ∀ d, m₁.entry g d = if d = pdx uvpt then page2pa g ||| pteU ||| pteP else 0 := by
    intro d
    rw [hm₁, Mem.entry_setEntry]
    by_cases hd : d = pdx uvpt
    · rw [if_pos ⟨rfl, hd⟩, if_pos hd]
      rfl
    · rw [if_neg fun hc => hd hc.2, if_neg hd, Mem.entry]
      simp only [Mem.setFrame, Function.update_self]
      exact rd32_zero d
  -- the free list
  obtain ⟨m₂, hinit, hlist₂, href₂⟩ := pageInit_spec { m₁ with pages := fun _ => ⟨none, 0⟩ }
    (show ioPage < img.nextPage n by unfold ioPage; omega) hroom
  obtain ⟨hframe₂, hk₂⟩ := pageInit_frame hinit
  have hnd := nodup_unreserved n (img.nextPage n) n
  have hmem : ∀ p : Fin n, p ∈ unreserved n (img.nextPage n) n ↔
      ¬Reserved (img.nextPage n) p := fun p => by
    rw [mem_unreserved]
    exact and_iff_right p.isLt
  have hgres : Reserved (img.nextPage n) g := by
    refine .inr (.inr ⟨?_, ?_⟩)
    · show 160 ≤ img.kernPage
      omega
    · show img.kernPage < _
      omega
  have hne : unreserved n (img.nextPage n) n ≠ [] := by
    have h8 : (⟨8, by omega⟩ : Fin n) ∈ unreserved n (img.nextPage n) n := by
      rw [hmem]
      unfold Reserved mpentryPage ioPage
      simp
    exact List.ne_nil_of_mem h8
  obtain ⟨m₃, hcheck, hlist₃, href₃, hk₃, hframe₃⟩ :=
    checkPageFreeList_spec hlist₂ hne true pp1 pp2
  have h₃ : KernMap (img.nextPage n) m g [] m₃ := by
    refine kernMap_init hsmall (hk₃.trans hk₂) (fun d => ?_) hlist₃ hnd hmem (fun p hp => ?_) hgres
      (by omega) fun q hq hne => ?_
    · rw [← hdir d, Mem.entry, hframe₃ g fun hc => (hmem g).mp hc hgres, hframe₂, Mem.entry]
    · refine BitVec.eq_of_toNat_eq ?_
      rw [show ((m₃.pages p).ppRef).toNat = m₃.ref p from rfl, href₃, Mem.ref, href₂,
        if_neg ((hmem p).mp hp)]
    · rw [hframe₃ q fun hc => (hmem q).mp hc hq, hframe₂]
      show m₁.frame q = _
      rw [hm₁, Mem.frame_setEntry_of_ne hne]
      exact Function.update_of_ne hne _ _
  -- the regions
  have hregions := fits.regions_ok
  obtain ⟨m₄, h₄, hrun₄⟩ := h₃.bootMap (hregions _ (List.mem_append_right _
    (.tail _ (.tail _ (.tail _ (.head _))))))
  obtain ⟨m₅, h₅, hrun₅⟩ := h₄.bootMap (hregions _ (List.mem_append_right _
    (.tail _ (.tail _ (.head _)))))
  obtain ⟨m₆, h₆, hrun₆⟩ := h₅.bootMap (hregions _ (List.mem_append_right _
    (.tail _ (.head _))))
  obtain ⟨m₇, h₇, hrun₇⟩ := h₆.bootMap (hregions _ (List.mem_append_right _ (.head _)))
  obtain ⟨m₈, h₈, hrun₈⟩ := h₇.memInitMp fits (List.finRange 8)
  obtain ⟨m₉, h₉, hrun₉⟩ := h₈.checkPageFreeList pp1 pp2
  have hstack : paddr img.bootstack = .ok (img.bootstack - kernbase) :=
    if_neg (BitVec.not_lt.mpr fits.bootstack.1)
  refine ⟨g, m₉, rfl, h₉, ?_⟩
  unfold memInit
  rw [hend, halloc₁]
  simp only [halloc₂, halloc₃, bootAlloc_zero]
  rw [lift_bind (paddr_kva (by omega)), lift_bind hkaddr]
  rw [lift_bind (paddr_kva (by omega)), pgnum_ofNat (by omega)]
  rw [lift_bind hinit, mk_bind hcheck]
  rw [lift_bind (paddr_kva (by unfold KernelImage.pagesPage; omega)), mk_bind hrun₄]
  rw [lift_bind (paddr_kva (by omega)), mk_bind hrun₅]
  rw [lift_bind hstack, mk_bind hrun₆, mk_bind hrun₇, mk_bind hrun₈]
  exact hrun₉

end

/-! ## The address space -/

/-- How many bytes there are between an address and the top of the kernel stacks. -/
def stackDepth (va : Word) : Nat := kstacktop.toNat - 1 - va.toNat

/-- The address belongs to the stack of a CPU: each is followed by a gap of the same size. -/
def InKstack (va : Word) : Prop :=
  va < kstacktop ∧ stackDepth va / 0x10000 < 8 ∧ stackDepth va % 0x10000 < 0x8000

instance (va : Word) : Decidable (InKstack va) := inferInstanceAs (Decidable (_ ∧ _ ∧ _))

/-- The physical page at an address of the kernel's half, outside of the window at `UVPT`, and its
permissions: `envs` with all that follows it in 4 MB, `pages`, the stacks of the CPUs, and all of
physical memory but for the topmost page of the address space. -/
def KernelImage.layout (img : KernelImage) (n : Nat) (va : Word) : Option (Nat × Word) :=
  if uenvs ≤ va ∧ va < upages then
    some (img.envsPage n + (va.toNat - uenvs.toNat) / 4096, pteU)
  else if upages ≤ va ∧ va.toNat < upages.toNat + (sizeofPageInfo * n + 4095) / 4096 * 4096 then
    some (img.pagesPage + (va.toNat - upages.toNat) / 4096, pteU)
  else if InKstack va then
    some (pgnum (img.percpuKstacks - kernbase) + 8 * (stackDepth va / 0x10000) + 7 -
      stackDepth va % 0x10000 / 4096, pteW)
  else if kernbase ≤ va ∧ va < 0xfffff000 then some ((va.toNat - kernbase.toNat) / 4096, pteW)
  else none

/-- The table entry for an address. -/
def KernelImage.pte (img : KernelImage) (n : Nat) (va : Word) : Word :=
  (img.layout n va).elim 0 fun x => BitVec.ofNat 32 (x.1 * 4096) ||| x.2 ||| pteP

section
variable {rs rs' : List BootRegion} {r : BootRegion} {d t : Fin 1024} {img : KernelImage}

theorem layoutPte_cons_of (h : r.Covers d t) :
    layoutPte (r :: rs) d t = regionPte r.va r.pa r.perm d t := if_pos h

theorem layoutPte_append_of_not (h : ∀ r ∈ rs, ¬r.Covers d t) :
    layoutPte (rs ++ rs') d t = layoutPte rs' d t := by
  induction rs with
  | nil => rfl
  | cons r rs ih =>
    rw [List.cons_append, layoutPte, if_neg (h r List.mem_cons_self)]
    exact ih fun r' hr' => h r' (List.mem_cons_of_mem r hr')

/-- The order does not matter where only one region has the page. -/
theorem layoutPte_append_of (hr : r ∈ rs) (hc : r.Covers d t)
    (h : ∀ r' ∈ rs, r'.Covers d t → r' = r) :
    layoutPte (rs ++ rs') d t = regionPte r.va r.pa r.perm d t := by
  induction rs with
  | nil => cases hr
  | cons r' rs ih =>
    rw [List.cons_append]
    by_cases hc' : r'.Covers d t
    · obtain rfl := h r' List.mem_cons_self hc'
      exact layoutPte_cons_of hc'
    · rw [layoutPte, if_neg hc']
      have hne : r ≠ r' := fun he => hc' (he ▸ hc)
      exact ih ((List.mem_cons.mp hr).resolve_left hne) fun r'' hr'' =>
        h r'' (List.mem_cons_of_mem r' hr'')

/-- The address of an entry, taken apart. -/
theorem regionPte_eq {va pa perm : Word} {p : Nat} (hva : va.toNat ≤ (pgaddr d t 0).toNat)
    (hp : pa.toNat + ((pgaddr d t 0).toNat - va.toNat) = p * 4096) :
    regionPte va pa perm d t = BitVec.ofNat 32 (p * 4096) ||| perm ||| pteP := by
  have haddr : pa + (pgaddr d t 0 - va) = BitVec.ofNat 32 (p * 4096) := by
    refine BitVec.eq_of_toNat_eq ?_
    have := pa.isLt
    have := (pgaddr d t 0).isLt
    rw [BitVec.toNat_add, BitVec.toNat_sub, BitVec.toNat_ofNat]
    omega
  rw [regionPte, haddr]

theorem covers_kstack {i : Fin 8} : (img.kstack i).Covers d t ↔
    0xefff8000 - 0x10000 * (i : Nat) ≤ (pgaddr d t 0).toNat ∧
      (pgaddr d t 0).toNat < 0xf0000000 - 0x10000 * (i : Nat) := by
  have hend : ∀ i : Fin 8, (bootMapEnd (kstackVa i) kstksize).toNat =
      0xf0000000 - 0x10000 * (i : Nat) := by decide
  show InRegion (kstackVa i).toNat (bootMapEnd (kstackVa i) kstksize).toNat d t ↔ _
  rw [hend, KernelImage.toNat_kstackVa]
  rfl

theorem toNat_pgaddr_zero (d t : Fin 1024) :
    (pgaddr d t 0).toNat = (d : Nat) * 2 ^ 22 + (t : Nat) * 4096 := by
  rw [toNat_pgaddr, Fin.val_zero, Nat.add_zero]

/-! ### What the regions cover -/

theorem covers_kernbase : BootRegion.Covers ⟨kernbase, 0xffffffff - kernbase + 1, 0, pteW⟩ d t ↔
    0xf0000000 ≤ (pgaddr d t 0).toNat ∧ (pgaddr d t 0).toNat < 0xfffff000 := by
  have hend : (bootMapEnd kernbase (0xffffffff - kernbase + 1)).toNat = 0xfffff000 := by decide
  have hva : kernbase.toNat = 0xf0000000 := rfl
  rw [BootRegion.Covers, InRegion, hend, hva]

theorem covers_bootstack {pa : Word} :
    BootRegion.Covers ⟨kstacktop - kstksize, kstksize, pa, pteW⟩ d t ↔
      0xefff8000 ≤ (pgaddr d t 0).toNat ∧ (pgaddr d t 0).toNat < 0xf0000000 := by
  have hend : (bootMapEnd (kstacktop - kstksize) kstksize).toNat = 0xf0000000 := by decide
  have hva : (kstacktop - kstksize).toNat = 0xefff8000 := by decide
  rw [BootRegion.Covers, InRegion, hend, hva]

theorem covers_uenvs {pa : Word} : BootRegion.Covers ⟨uenvs, ptsize, pa, pteU⟩ d t ↔
    0xeec00000 ≤ (pgaddr d t 0).toNat ∧ (pgaddr d t 0).toNat < 0xef000000 := by
  have hend : (bootMapEnd uenvs ptsize).toNat = 0xef000000 := by decide
  have hva : uenvs.toNat = 0xeec00000 := rfl
  rw [BootRegion.Covers, InRegion, hend, hva]

theorem covers_upages {pa : Word} (small : n ≤ 2 ^ 16) :
    BootRegion.Covers ⟨upages, roundUp (BitVec.ofNat 32 (n * sizeofPageInfo)) pgsize, pa, pteU⟩
        d t ↔
      0xef000000 ≤ (pgaddr d t 0).toNat ∧
        (pgaddr d t 0).toNat < 0xef000000 + (sizeofPageInfo * n + 4095) / 4096 * 4096 := by
  have hva : upages.toNat = 0xef000000 := rfl
  have hl : sizeofPageInfo * n = 8 * n := rfl
  have hr : n * sizeofPageInfo = n * 8 := rfl
  have hsize := toNat_roundUp (BitVec.ofNat 32 (n * sizeofPageInfo))
  rw [BitVec.toNat_ofNat] at hsize
  have hend : (bootMapEnd upages (roundUp (BitVec.ofNat 32 (n * sizeofPageInfo)) pgsize)).toNat =
      0xef000000 + (sizeofPageInfo * n + 4095) / 4096 * 4096 := by
    rw [(toNat_bootMapEnd (by decide) (by omega) (by omega)).1 (.inr (.inl (by omega)))]
    omega
  rw [BootRegion.Covers, InRegion, hend, hva]

/-! ### What the layout says -/

theorem stackDepth_eq (va : Word) : stackDepth va = 0xf0000000 - 1 - va.toNat := by
  have hstacktop : kstacktop.toNat = 0xf0000000 := rfl
  rw [stackDepth, hstacktop]

theorem inKstack_iff (va : Word) : InKstack va ↔ va.toNat < 0xf0000000 ∧
    stackDepth va / 0x10000 < 8 ∧ stackDepth va % 0x10000 < 0x8000 := by
  have hstacktop : kstacktop.toNat = 0xf0000000 := rfl
  rw [InKstack, BitVec.lt_def, hstacktop]

section
variable {va : Word}

theorem layout_envs (hlo : 0xeec00000 ≤ va.toNat) (hhi : va.toNat < 0xef000000) :
    img.layout n va = some (img.envsPage n + (va.toNat - 0xeec00000) / 4096, pteU) := by
  have henvs : uenvs.toNat = 0xeec00000 := rfl
  have hpages : upages.toNat = 0xef000000 := rfl
  rw [KernelImage.layout, if_pos, henvs]
  rw [BitVec.le_def, BitVec.lt_def, henvs, hpages]
  exact ⟨hlo, hhi⟩

theorem not_envs (hlo : 0xef000000 ≤ va.toNat) : ¬(uenvs ≤ va ∧ va < upages) := by
  have hpages : upages.toNat = 0xef000000 := rfl
  rw [BitVec.lt_def, hpages]
  omega

theorem layout_pages (hlo : 0xef000000 ≤ va.toNat)
    (hhi : va.toNat < 0xef000000 + (sizeofPageInfo * n + 4095) / 4096 * 4096) :
    img.layout n va = some (img.pagesPage + (va.toNat - 0xef000000) / 4096, pteU) := by
  have hpages : upages.toNat = 0xef000000 := rfl
  rw [KernelImage.layout, if_neg (not_envs hlo), if_pos, hpages]
  rw [BitVec.le_def, hpages]
  exact ⟨hlo, hhi⟩

/-- Behind the arrays. -/
theorem layout_rest (img : KernelImage) (n : Nat) (va : Word) (hlo : 0xef000000 ≤ va.toNat)
    (hhi : 0xef000000 + (sizeofPageInfo * n + 4095) / 4096 * 4096 ≤ va.toNat) :
    img.layout n va =
      if InKstack va then
        some (pgnum (img.percpuKstacks - kernbase) + 8 * (stackDepth va / 0x10000) + 7 -
          stackDepth va % 0x10000 / 4096, pteW)
      else if kernbase ≤ va ∧ va < 0xfffff000 then
        some ((va.toNat - kernbase.toNat) / 4096, pteW)
      else none := by
  have hpages : upages.toNat = 0xef000000 := rfl
  rw [KernelImage.layout, if_neg (not_envs hlo), if_neg]
  rw [hpages]
  omega

theorem phys_iff : kernbase ≤ va ∧ va < 0xfffff000 ↔
    0xf0000000 ≤ va.toNat ∧ va.toNat < 0xfffff000 := by
  have hkern : kernbase.toNat = 0xf0000000 := rfl
  have htop : (0xfffff000 : Word).toNat = 0xfffff000 := rfl
  rw [BitVec.le_def, BitVec.lt_def, hkern, htop]

theorem pte_of_layout {p : Nat} {perm : Word} (h : img.layout n va = some (p, perm)) :
    img.pte n va = BitVec.ofNat 32 (p * 4096) ||| perm ||| pteP := by
  rw [KernelImage.pte, h]
  rfl

theorem pte_of_layout_none (h : img.layout n va = none) : img.pte n va = 0#32 := by
  rw [KernelImage.pte, h]
  rfl

end

/-! ### The two agree -/

theorem toNat_kstack_pa (fits : img.Fits n) (i : Fin 8) : (img.kstack i).pa.toNat =
    (pgnum (img.percpuKstacks - kernbase) + 8 * (i : Nat)) * 4096 := by
  have hkern : kernbase.toNat = 0xf0000000 := rfl
  obtain ⟨hlo, halign, -⟩ := fits.percpuKstacks
  have hpa := fits.toNat_percpuKstack i
  have hge : kernbase ≤ img.percpuKstacks + BitVec.ofNat 32 i * kstksize := by
    rw [BitVec.le_def, hpa]
    exact (BitVec.le_def.mp hlo).trans (Nat.le_add_right ..)
  rw [KernelImage.kstack, KernelImage.toNat_sub_kernbase hge, hpa, pgnum,
    KernelImage.toNat_sub_kernbase hlo]
  rw [BitVec.le_def, hkern] at hlo
  omega

/-- On the stacks. -/
theorem layoutPte_kstack (fits : img.Fits n) (hs : InKstack (pgaddr d t 0)) :
    layoutPte (img.regions n) d t = img.pte n (pgaddr d t 0) := by
  have hsmall := fits.small
  have hdepth := stackDepth_eq (pgaddr d t 0)
  have hl : sizeofPageInfo * n = 8 * n := rfl
  have ha := toNat_pgaddr_zero d t
  obtain ⟨h₁, h₂, h₃⟩ := (inKstack_iff _).mp hs
  obtain ⟨i, hi⟩ : ∃ i : Fin 8, (i : Nat) = stackDepth (pgaddr d t 0) / 0x10000 :=
    ⟨⟨_, h₂⟩, rfl⟩
  have hcov : (img.kstack i).Covers d t := by
    rw [covers_kstack]
    omega
  have huniq : ∀ r ∈ ((List.finRange 8).map img.kstack).reverse, r.Covers d t →
      r = img.kstack i := by
    intro r hr hc
    obtain ⟨j, -, rfl⟩ := List.mem_map.mp (List.mem_reverse.mp hr)
    rw [covers_kstack] at hc
    have hij : j = i := Fin.ext (by omega)
    rw [hij]
  have hmem : img.kstack i ∈ ((List.finRange 8).map img.kstack).reverse :=
    List.mem_reverse.mpr (List.mem_map_of_mem (List.mem_finRange i))
  have hva : (img.kstack i).va.toNat = 0xefff8000 - 0x10000 * (i : Nat) :=
    KernelImage.toNat_kstackVa i
  have hlay := layout_rest img n (pgaddr d t 0) (by omega) (by omega)
  rw [if_pos hs] at hlay
  rw [pte_of_layout hlay, KernelImage.regions, layoutPte_append_of hmem hcov huniq]
  refine regionPte_eq (by omega) ?_
  rw [toNat_kstack_pa fits, hva]
  omega

/-- The map that the calls of `boot_map_region` make. -/
theorem layoutPte_regions (fits : img.Fits n) (d t : Fin 1024) (hd : KernPdes d) :
    layoutPte (img.regions n) d t = img.pte n (pgaddr d t 0) := by
  by_cases hs : InKstack (pgaddr d t 0)
  · exact layoutPte_kstack fits hs
  have henvs : uenvs.toNat = 0xeec00000 := rfl
  have hpages : upages.toNat = 0xef000000 := rfl
  have hkern : kernbase.toNat = 0xf0000000 := rfl
  have hl : sizeofPageInfo * n = 8 * n := rfl
  have hsmall := fits.small
  have hearly := fits.early
  have hbound : img.pagesPage < 1024 ∧ img.envsPage n < 1024 := by
    unfold KernelImage.nextPage KernelImage.envsPage at *
    omega
  have hdepth := stackDepth_eq (pgaddr d t 0)
  have hin := inKstack_iff (pgaddr d t 0)
  have ha := toNat_pgaddr_zero d t
  have hdlt := d.isLt
  have htlt := t.isLt
  have huser : 955 ≤ (d : Nat) := hd.1
  have hnot : ∀ r ∈ ((List.finRange 8).map img.kstack).reverse, ¬r.Covers d t := by
    intro r hr hc
    obtain ⟨j, -, rfl⟩ := List.mem_map.mp (List.mem_reverse.mp hr)
    rw [covers_kstack] at hc
    have := j.isLt
    exact hs (hin.mpr (by omega))
  rw [KernelImage.regions, layoutPte_append_of_not hnot, layoutPte, layoutPte, layoutPte, layoutPte,
    layoutPte]
  -- the first stack is mapped again, as that of CPU 0
  rw [if_neg (c := BootRegion.Covers ⟨kstacktop - kstksize, _, _, _⟩ _ _) fun hc => by
    rw [covers_bootstack] at hc
    exact hs (hin.mpr (by omega))]
  by_cases hphys : 0xf0000000 ≤ (pgaddr d t 0).toNat
  · have hlay := layout_rest img n (pgaddr d t 0) (by omega) (by omega)
    rw [if_neg hs] at hlay
    by_cases hlast : (pgaddr d t 0).toNat < 0xfffff000
    · rw [if_pos (covers_kernbase.mpr ⟨hphys, hlast⟩)]
      rw [if_pos (phys_iff.mpr ⟨hphys, hlast⟩)] at hlay
      rw [pte_of_layout hlay]
      refine regionPte_eq (hkern.le.trans hphys) ?_
      rw [hkern, show (0 : Word).toNat = 0 from rfl]
      omega
    · rw [if_neg fun hc => hlast (covers_kernbase.mp hc).2,
        if_neg fun hc => by have := covers_uenvs.mp hc; omega,
        if_neg fun hc => by have := (covers_upages hsmall).mp hc; omega]
      rw [if_neg fun hc => hlast (phys_iff.mp hc).2] at hlay
      exact (pte_of_layout_none hlay).symm
  rw [if_neg fun hc => hphys (covers_kernbase.mp hc).1]
  by_cases he : (pgaddr d t 0).toNat < 0xef000000
  · rw [if_pos (covers_uenvs.mpr (by omega)), pte_of_layout (layout_envs (by omega) he)]
    refine regionPte_eq (henvs.le.trans (by omega)) ?_
    rw [BitVec.toNat_ofNat, henvs]
    omega
  rw [if_neg fun hc => he (covers_uenvs.mp hc).2]
  by_cases hp : (pgaddr d t 0).toNat < 0xef000000 + (sizeofPageInfo * n + 4095) / 4096 * 4096
  · rw [if_pos ((covers_upages hsmall).mpr (by omega)),
      pte_of_layout (layout_pages (by omega) hp)]
    refine regionPte_eq (hpages.le.trans (by omega)) ?_
    rw [BitVec.toNat_ofNat, hpages]
    omega
  · rw [if_neg fun hc => hp ((covers_upages hsmall).mp hc).2]
    have hlay := layout_rest img n (pgaddr d t 0) (by omega) (by omega)
    rw [if_neg hs, if_neg fun hc => hphys (phys_iff.mp hc).1] at hlay
    exact (pte_of_layout_none hlay).symm

end

/-! ## The result of `mem_init` -/

section
variable {img : KernelImage}

/-- What `mem_init` makes of the kernel's half of the address space. The page tables lie in the
first 4 MB, all that `entry_pgdir` maps while they are written. -/
structure KernelImage.LaidOut (img : KernelImage) (m : Mem n) : Prop where
  kern : (m.kernPgdir : Nat) = img.kernPage
  window : m.entry m.kernPgdir (pdx uvpt) = page2pa m.kernPgdir ||| pteU ||| pteP
  map : ∀ d t, KernPdes d → m.pteAt m.kernPgdir d t = img.pte n (pgaddr d t 0)
  low : ∀ d pt, KernPdes d → m.table m.kernPgdir d = some pt → (pt : Nat) < 1024

/-- The pages that are neither reserved nor page tables of the kernel. -/
def KernelImage.freePages (img : KernelImage) (m : Mem n) : Set (Fin n) :=
  {p | ¬Reserved (img.nextPage n) p ∧ ∀ d, KernPdes d → m.table m.kernPgdir d ≠ some p}

theorem KernTables.memInit {m : Mem n} {free : List (Fin n)}
    (ht : KernTables (img.nextPage n) free m) : MemInit (img.freePages m) m := by
  refine ⟨ht.tables.small, ⟨free, ht.tables.list, ht.tables.nodup, ht.mem⟩,
    fun p hp => ht.ref p ((ht.mem p).mpr hp), fun hc => ?_, ht.user, fun d hlo hne hp => ?_⟩
  · exact ht.tables.dirFree () _ rfl ((ht.mem _).mpr hc)
  · obtain ⟨pt, hpt⟩ := ht.tables.table_of_present (e := ()) rfl ⟨hlo, hne⟩ hp
    refine ⟨ht.tables.inRange () _ d rfl ⟨hlo, hne⟩ hp, fun _ => ?_⟩
    rw [(ht.pde d pt ⟨hlo, hne⟩ hpt).1]
    exact MemInv.userPde_newPde pt

theorem KernMap.laidOut {g : Fin n} {m₀ m : Mem n} (fits : img.Fits n)
    (hg : (g : Nat) = img.kernPage) (h : KernMap (img.nextPage n) m₀ g (img.regions n) m) :
    img.LaidOut m ∧ MemInit (img.freePages m) m := by
  obtain ⟨free, ht⟩ := h.tables
  obtain rfl := h.kern
  refine ⟨⟨hg, ht.self, fun d t hd => ?_, fun d pt hd hpt => (ht.pde d pt hd hpt).2.1⟩, ht.memInit⟩
  rw [h.map d t hd, layoutPte_regions fits d t hd]

/-- `mem_init` succeeds. It maps what the layout says and nothing else, and the pages that it has
not used are free. -/
theorem memInit_laidOut (fits : img.Fits n) (m : Mem n) (pp1 pp2 : Option (Fin n)) :
    ∃ m', memInit img m pp1 pp2 = OptionT.mk (.ok (some m')) ∧ img.LaidOut m' ∧
      MemInit (img.freePages m') m' := by
  obtain ⟨g, m', hg, hmap, hrun⟩ := memInit_kernMap fits m pp1 pp2
  exact ⟨m', hrun, hmap.laidOut fits hg⟩

/-- A kernel of 512 KB. -/
def smallImage : KernelImage := ⟨0xf0180000, 0xf0110000, 0xf0140000⟩

theorem fits_smallImage : smallImage.Fits (i386DetectMemory 640 3072).1 where
  small := i386DetectMemory_le _ _
  loaded := by decide
  early := by decide
  room := by decide
  bootstack := by decide
  percpuKstacks := by decide

/-- A machine with 4 MB of memory. -/
def resetMem : Mem (i386DetectMemory 640 3072).1 where
  pages _ := ⟨none, 0⟩
  pageFreeList := none
  frame _ _ := 0
  kernPgdir := ⟨0, by decide⟩

theorem memInit_laidOut_smallImage :
    ∃ m', memInit smallImage resetMem none none = OptionT.mk (.ok (some m')) ∧
      smallImage.LaidOut m' ∧ MemInit (smallImage.freePages m') m' :=
  memInit_laidOut fits_smallImage resetMem none none

end

end JosKernel
