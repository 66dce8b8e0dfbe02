import JosKernel.Env.Boot
import JosKernel.Env.SelfMap
import JosKernel.Pmap.PageInit
import JosKernel.Pmap.Relink

/-!
# Setting up memory

`mem_init` of `kern/pmap.c`. The kernel's directory, the array `pages` and the array `envs` come
from `boot_alloc`, which hands out the memory behind the kernel; then `page_init` makes the free
list, and `boot_map_region` fills the kernel's half of the address space. The page tables for it
are the first pages that come from the free list, and only the first 4 MB of memory are mapped at
that point. `check_page_free_list` puts those pages first.

The arrays are kept apart from the frames that hold them. The self-tests other than
`check_page_free_list` are left out. They give back the pages that they take, but for one:
`check_page` leaves an empty page table for `MMIOBASE` in the directory.
-/
namespace JosKernel

open Lib

variable {n : Nat}

/-! ## The functions -/

/-- The addresses that the linker decides on. -/
structure KernelImage where
  /-- `end`, behind the last section of the kernel. -/
  endAddr : Word
  bootstack : Word
  percpuKstacks : Word

def extphysmem : Word := 0x100000
def ptsize : Word := 0x400000
def kstacktop : Word := kernbase
def kstksize : Word := 8 * pgsize
def kstkgap : Word := 8 * pgsize

/-- `sizeof(struct PageInfo)`. -/
def sizeofPageInfo : Nat := 8

/-- `sizeof(struct Env)`. -/
def sizeofEnv : Nat := 240

/-- `i386_detect_memory`: `npages` and `npages_basemem`, from the sizes in KB that the NVRAM has for
base memory and extended memory. -/
def i386DetectMemory (baselo extlo : BitVec 16) : Nat × Nat :=
  let npagesBasemem := baselo.toNat * 1024 / 4096
  let npagesExtmem := extlo.toNat * 1024 / 4096
  (if npagesExtmem ≠ 0 then 0x100000 / 4096 + npagesExtmem else npagesBasemem, npagesBasemem)

/-- Sizes of sixteen bits are less than the 256 MB that fit above `KERNBASE`. -/
theorem i386DetectMemory_le (baselo extlo : BitVec 16) :
    (i386DetectMemory baselo extlo).1 ≤ 2 ^ 16 := by
  have := baselo.isLt
  have := extlo.isLt
  unfold i386DetectMemory
  dsimp only
  split_ifs <;> omega

/-- `PADDR`. -/
def paddr (kva : Word) : Except Panic Word :=
  if kva < kernbase then .error .paddr else .ok (kva - kernbase)

/-- `boot_alloc`: the address of the memory, and the new value of `nextfree`. -/
def bootAlloc (nextfree len : Word) : Word × Word :=
  if len ≠ 0 then (roundUp nextfree pgsize, roundUp (nextfree + len) pgsize)
  else (nextfree, nextfree)

/-- `memset(page2kva(pp), 0x97, 128)`. -/
def scrubbed (f : Frame) : Frame := fun o => if (o : Nat) < 128 then 0x97 else f o

/-- The loop of `check_page_free_list` that marks the free pages below the limit. -/
def scrubLoop (pdxLimit : Nat) : Nat → Option (Fin n) → Mem n → Option (Mem n)
  | 0, _, _ => none
  | _ + 1, none, m => some m
  | fuel + 1, some pp, m =>
    let m := if (pdx (page2pa pp) : Nat) < pdxLimit then m.setFrame pp (scrubbed (m.frame pp))
      else m
    scrubLoop pdxLimit fuel (m.pages pp).ppLink m

/-- `check_page_free_list`, up to the assertions. -/
def checkPageFreeList (onlyLowMemory : Bool) (pp1 pp2 : Option (Fin n)) (m : Mem n) :
    OptionT (Except Panic) (Mem n) :=
  match relinkFreeList onlyLowMemory pp1 pp2 (n + 1) m with
  | none => OptionT.mk (pure none)
  | some .nullList => OptionT.mk (.error .assertion)
  | some (.done m) =>
    OptionT.mk (pure (scrubLoop (if onlyLowMemory then 1 else 1024) (n + 1) m.pageFreeList m))

/-- `boot_map_region` in `kern_pgdir`. -/
def bootMap (m : Mem n) (va size pa perm : Word) : OptionT (Except Panic) (Mem n) :=
  OptionT.mk (bootMapRegion m m.kernPgdir va size pa perm)

/-- The lowest address of a CPU's kernel stack. -/
def kstackVa (i : Fin 8) : Word :=
  kstacktop - BitVec.ofNat 32 i * (kstksize + kstkgap) - kstksize

/-- The loop of `mem_init_mp`. -/
def memInitMp (img : KernelImage) : List (Fin 8) → Mem n → OptionT (Except Panic) (Mem n)
  | [], m => pure m
  | i :: is, m => do
    let pa ← paddr (img.percpuKstacks + BitVec.ofNat 32 i * kstksize)
    memInitMp img is (← bootMap m (kstackVa i) kstksize pa pteW)

/-- `mem_init` for a machine with `n` pages. The last two arguments are what `pp1` and `pp2` of
`check_page_free_list` hold before they are set. -/
def memInit (img : KernelImage) (m : Mem n) (pp1 pp2 : Option (Fin n)) :
    OptionT (Except Panic) (Mem n) := do
  let (pgdir, nextfree) := bootAlloc (roundUp img.endAddr pgsize) pgsize
  let pa ← paddr pgdir
  let g ← kaddr n pa
  let m := ({ m with kernPgdir := g }.setFrame g fun _ => 0).setEntry g (pdx uvpt)
    (pa ||| pteU ||| pteP)
  let (pages, nextfree) := bootAlloc nextfree (BitVec.ofNat 32 (sizeofPageInfo * n))
  let m := { m with pages := fun _ => ⟨none, 0⟩ }
  let (envs, nextfree) := bootAlloc nextfree (BitVec.ofNat 32 (sizeofEnv * 1024))
  let m ← pageInit m (pgnum (← paddr (bootAlloc nextfree 0).1))
  let m ← checkPageFreeList true pp1 pp2 m
  let m ← bootMap m upages (roundUp (BitVec.ofNat 32 (n * sizeofPageInfo)) pgsize) (← paddr pages)
    pteU
  let m ← bootMap m uenvs ptsize (← paddr envs) pteU
  let m ← bootMap m (kstacktop - kstksize) kstksize (← paddr img.bootstack) pteW
  let m ← bootMap m kernbase (0xffffffff - kernbase + 1) 0 pteW
  let m ← memInitMp img (List.finRange 8) m
  checkPageFreeList false pp1 pp2 m

theorem mk_bind {α β : Type} {x : OptionT (Except Panic) α} {a : α}
    (h : x = OptionT.mk (.ok (some a))) (f : α → OptionT (Except Panic) β) :
    (x >>= f) = f a := by
  subst h
  rfl

theorem lift_bind {α β : Type} {x : Except Panic α} {a : α} (h : x = .ok a)
    (f : α → OptionT (Except Panic) β) : (liftM x >>= f) = f a := by
  subst h
  rfl

/-! ## The page tables -/

instance (d : Fin 1024) : Decidable (KernPdes d) := inferInstanceAs (Decidable (_ ∧ _))

/-- The entries for the kernel that have a table. -/
def kernTables (m : Mem n) : Finset (Fin 1024) :=
  Finset.univ.filter fun d => KernPdes d ∧ m.table m.kernPgdir d ≠ none

/-- There are not so many. -/
theorem card_kernTables (m : Mem n) : (kernTables m).card < 100 := by
  have hlt : userPdes < 1024 := by decide
  have hsub : kernTables m ⊆ Finset.Ici ⟨userPdes, hlt⟩ :=
    fun d hd => Finset.mem_Ici.mpr (Finset.mem_filter.mp hd).2.1.1
  have hcard := Finset.card_le_card hsub
  rw [Fin.card_Ici] at hcard
  have hlt : 1024 - userPdes < 100 := by decide
  exact hcard.trans_lt hlt

/-- The pages that `boot_alloc` leaves to `page_init`, except for the page tables that have been
made. Those come from the first 4 MB, and there are enough pages left there. -/
structure KernTables (first : Nat) (free : List (Fin n)) (m : Mem n) : Prop where
  tables : Tables (fun _ d => KernPdes d) m (fun _ : Unit => some m.kernPgdir) free
  ref : ∀ p ∈ free, (m.pages p).ppRef = 0
  mem : ∀ p, p ∈ free ↔ ¬Reserved first p ∧ ∀ d, KernPdes d → m.table m.kernPgdir d ≠ some p
  user : ∀ d : Fin 1024, (d : Nat) < userPdes → present (m.entry m.kernPgdir d) = false
  self : m.entry m.kernPgdir (pdx uvpt) = page2pa m.kernPgdir ||| pteU ||| pteP
  pde : ∀ d pt, KernPdes d → m.table m.kernPgdir d = some pt →
    m.entry m.kernPgdir d = page2pa pt ||| pteP ||| pteW ||| pteU ∧ (pt : Nat) < 1024 ∧
      ¬Reserved first pt
  low : ∃ lo hi, free = lo ++ hi ∧ (∀ p ∈ lo, (p : Nat) < 1024) ∧
    100 ≤ lo.length + (kernTables m).card

/-- The pages that are reserved, apart from the directory, have not been written. -/
def SameReserved (first : Nat) (m m' : Mem n) : Prop :=
  ∀ q, Reserved first q → q ≠ m.kernPgdir → m'.frame q = m.frame q

namespace KernTables

variable {first fuel : Nat} {free : List (Fin n)} {m m' : Mem n} {p pt : Fin n}
  {d t : Fin 1024} {va vend pa perm w : Word} {r : Option (Fin n × Fin 1024)}

theorem ne_nil (h : KernTables first free m) : free ≠ [] := by
  obtain ⟨lo, hi, rfl, -, hroom⟩ := h.low
  intro hnil
  have hlo : lo = [] := (List.append_eq_nil_iff.mp hnil).1
  have := card_kernTables m
  simp only [hlo, List.length_nil] at hroom
  omega

theorem kern_ne (h : KernTables first free m) (hd : KernPdes d)
    (ht : m.table m.kernPgdir d = some pt) : pt ≠ m.kernPgdir :=
  h.tables.table_ne_dir (e := ()) (i := ()) rfl hd ht rfl

/-- Only the directory, the counters and the free list matter. -/
theorem congr (h : KernTables first free m) (hk : m'.kernPgdir = m.kernPgdir)
    (hdir : ∀ d, m'.entry m.kernPgdir d = m.entry m.kernPgdir d)
    (hpages : ∀ p, (m'.pages p).ppRef = (m.pages p).ppRef) {free' : List (Fin n)}
    (hperm : ∀ p, p ∈ free' ↔ p ∈ free)
    (hlow : ∃ lo hi, free' = lo ++ hi ∧ (∀ p ∈ lo, (p : Nat) < 1024) ∧
      100 ≤ lo.length + (kernTables m).card)
    (hlist : m'.FreeList free') (hnd : free'.Nodup) : KernTables first free' m' := by
  have htab : ∀ d, m'.table m.kernPgdir d = m.table m.kernPgdir d := fun d => by
    rw [Mem.table, hdir, Mem.table]
  have ok := h.tables
  refine ⟨⟨ok.small, hlist, hnd, fun _ _ _ _ _ => rfl, fun e g hg => ?_, fun e g d pt hg => ?_,
    fun e g d hg hd => ?_, fun e e' g g' d d' pt hg hg' hd => ?_, fun e e' g d hg hd => ?_⟩,
    fun p hp => ?_, fun p => ?_, fun d hd => ?_, ?_, fun d pt hd => ?_, ?_⟩
  · obtain rfl := Option.some.inj hg
    rw [hk, hperm]
    exact ok.dirFree () _ rfl
  · obtain rfl := Option.some.inj hg
    rw [hk, htab, hperm]
    exact ok.tableFree () _ d pt rfl
  · obtain rfl := Option.some.inj hg
    rw [hk, hdir]
    exact ok.inRange () _ d rfl hd
  · obtain rfl := Option.some.inj hg
    obtain rfl := Option.some.inj hg'
    rw [hk, htab, htab]
    exact ok.tableInj () () _ _ d d' pt rfl rfl hd
  · obtain rfl := Option.some.inj hg
    rw [hk, htab]
    exact ok.notDir () () _ d rfl hd
  · rw [hpages]
    exact h.ref p ((hperm p).mp hp)
  · rw [hperm, h.mem, hk]
    simp only [htab]
  · rw [hk, hdir]
    exact h.user d hd
  · rw [hk, hdir]
    exact h.self
  · rw [hk, hdir, htab]
    exact h.pde d pt hd
  · simpa only [kernTables, hk, htab] using hlow

/-- An entry of a table is written. -/
theorem setTable (h : KernTables first free m) (hd : KernPdes d)
    (ht : m.table m.kernPgdir d = some pt) (t : Fin 1024) (w : Word) :
    KernTables first free (m.setEntry pt t w) := by
  have hkern : (m.setEntry pt t w).kernPgdir = m.kernPgdir := rfl
  refine h.congr hkern (fun d' => ?_) (fun _ => rfl) (fun _ => Iff.rfl) h.low h.tables.list
    h.tables.nodup
  rw [Mem.entry_setEntry, if_neg fun hc => h.kern_ne hd ht hc.1.symm]

/-- A table is found, or it is made from the first free page. -/
theorem walk (h : KernTables first free m) (hd : KernPdes (pdx va)) :
    ∃ pt m₁ free₁, m.pgdirWalk m.kernPgdir va true = .ok (some (pt, ptx va), m₁) ∧
      KernTables first free₁ m₁ ∧ m₁.table m₁.kernPgdir (pdx va) = some pt ∧
      m₁.kernPgdir = m.kernPgdir ∧ SameReserved first m m₁ := by
  obtain ⟨lo, hi, hfree, hlo, hroom⟩ := h.low
  have hpos : lo ≠ [] := by
    rintro rfl
    have := card_kernTables m
    simp only [List.length_nil] at hroom
    omega
  obtain ⟨pt, m₁, free₁, hwalk, ok₁, ht₁, hcase, hrest⟩ := h.tables.walk (e := ()) rfl hd
    fun _ hnil => by simp [hpos, hfree] at hnil
  rcases hcase with ⟨-, rfl, rfl⟩ | ⟨hnone, hcons, made⟩
  · exact ⟨pt, m₁, free₁, hwalk, h, ht₁, rfl, fun _ _ _ => rfl⟩
  obtain ⟨p, lo, rfl⟩ := List.exists_cons_of_ne_nil hpos
  rw [hcons, List.cons_append, List.cons.injEq] at hfree
  obtain ⟨rfl, hfree⟩ := hfree
  have hk := made.kern
  have htab : ∀ d, m₁.table m.kernPgdir d =
      if d = pdx va then some pt else m.table m.kernPgdir d := fun d => by
    rw [(hrest () _ rfl).1]
    simp
  have hptfree : pt ∈ free := hcons ▸ List.mem_cons_self
  have hnd : pt ∉ free₁ := (List.nodup_cons.mp (hcons ▸ h.tables.nodup)).1
  refine ⟨pt, m₁, free₁, hwalk, ⟨by rw [hk]; exact ok₁, fun p hp => ?_, fun p => ?_,
    fun d hd' => ?_, ?_, fun d q hd' => ?_, lo, hi, hfree, fun p hp => ?_, ?_⟩,
    by rw [hk]; exact ht₁, hk, fun q hq hne => ?_⟩
  · rw [made.link (ne_of_mem_of_not_mem hp hnd)]
    exact h.ref p (hcons ▸ List.mem_cons_of_mem pt hp)
  · have hmem := h.mem p
    rw [hcons, List.mem_cons] at hmem
    rw [hk]
    simp only [htab]
    constructor
    · intro hp
      obtain ⟨hr, hne⟩ := hmem.mp (.inr hp)
      refine ⟨hr, fun d hd' => ?_⟩
      split_ifs
      · exact fun hc => hnd (Option.some.inj hc ▸ hp)
      · exact hne d hd'
    · rintro ⟨hr, hne⟩
      have hpt : p ≠ pt := by
        rintro rfl
        exact hne (pdx va) hd (if_pos rfl)
      refine (hmem.mpr ⟨hr, fun d hd' hc => ?_⟩).resolve_left hpt
      refine hne d hd' ?_
      rw [if_neg]
      · exact hc
      · rintro rfl
        cases hnone.symm.trans hc
  · rw [hk, made.other d]
    · exact h.user d hd'
    · rintro rfl
      exact absurd hd.1 (not_le.mpr hd')
  · rw [hk, made.other _ (Ne.symm hd.2)]
    exact h.self
  · rw [hk, htab]
    split_ifs with hdv
    · subst hdv
      intro hq
      cases hq
      exact ⟨made.entry, hlo _ List.mem_cons_self, ((h.mem pt).mp hptfree).1⟩
    · rw [made.other d hdv]
      exact h.pde d q hd'
  · exact hlo p (List.mem_cons_of_mem pt hp)
  · -- one table more, one page less
    have hset : kernTables m₁ = insert (pdx va) (kernTables m) := by
      ext d
      simp only [kernTables, hk, htab, Finset.mem_filter, Finset.mem_univ, true_and,
        Finset.mem_insert]
      by_cases hdv : d = pdx va
      · subst hdv
        simp [hd]
      · simp [hdv]
    rw [hset, Finset.card_insert_of_notMem (by simp [kernTables, hnone])]
    simp only [List.length_cons] at hroom
    omega
  · refine made.frame q ?_ hne
    rintro rfl
    exact ((h.mem q).mp hptfree).1 hq

/-- `boot_map_region` above `UTOP`. -/
theorem bootMapLoop (h : KernTables first free m)
    (hD : ∀ d t, InRegion va.toNat vend.toNat d t → KernPdes d)
    (hva : va.toNat % 4096 = 0) {k : Nat} (hend : vend.toNat = va.toNat + k * 4096)
    (hr : JosKernel.bootMapLoop m m.kernPgdir vend perm fuel va pa = .ok (some m')) :
    (∃ free', KernTables first free' m') ∧ SameReserved first m m' := by
  induction fuel generalizing m va pa free k with
  | zero =>
    unfold JosKernel.bootMapLoop at hr
    split_ifs at hr
    · cases hr
      exact ⟨⟨free, h⟩, fun _ _ _ => rfl⟩
    · cases hr
  | succ fuel ih =>
    unfold JosKernel.bootMapLoop at hr
    split_ifs at hr with hstop
    · cases hr
      exact ⟨⟨free, h⟩, fun _ _ _ => rfl⟩
    have hvend := vend.isLt
    have hne : va.toNat ≠ vend.toNat := fun hc => hstop (BitVec.eq_of_toNat_eq hc)
    have hlt : va.toNat < vend.toNat := by omega
    have hself := hD _ _ ((inRegion_cons hva hlt).mpr (.inl ⟨rfl, rfl⟩))
    have hva' : (va + pgsize).toNat = va.toNat + 4096 := by
      rw [BitVec.toNat_add, show pgsize.toNat = 4096 from rfl]
      omega
    obtain ⟨pt, m₁, free₁, hwalk, h₁, ht, hk, hsame⟩ := h.walk hself
    have h₂ := h₁.setTable hself ht (ptx va) (pteAddr pa ||| perm ||| pteP)
    rw [hwalk] at hr
    have hr' : JosKernel.bootMapLoop (m₁.setEntry pt (ptx va) (pteAddr pa ||| perm ||| pteP))
        m₁.kernPgdir vend perm fuel (va + pgsize) (pa + pgsize) = .ok (some m') := hk ▸ hr
    have hD' : ∀ d t, InRegion (va + pgsize).toNat vend.toNat d t → KernPdes d := fun d t hin => by
      rw [hva'] at hin
      exact hD d t ((inRegion_cons hva hlt).mpr (.inr hin))
    have hend' : vend.toNat = (va + pgsize).toNat + (k - 1) * 4096 := by omega
    obtain ⟨h', hsame'⟩ := ih h₂ hD' (by omega) hend' hr'
    refine ⟨h', fun q hq hne => ?_⟩
    have hpt : q ≠ pt := by
      rintro rfl
      exact (h₁.pde _ q hself ht).2.2 hq
    have hkern : q ≠ (m₁.setEntry pt (ptx va) (pteAddr pa ||| perm ||| pteP)).kernPgdir := hk ▸ hne
    rw [hsame' q hq hkern, Mem.frame_setEntry_of_ne hpt]
    exact hsame q hq hne

end KernTables

/-! ## The map -/

/-- The page with the indices lies in the region. -/
def BootRegion.Covers (r : BootRegion) (d t : Fin 1024) : Prop :=
  InRegion r.va.toNat (bootMapEnd r.va r.size).toNat d t

instance (r : BootRegion) (d t : Fin 1024) : Decidable (r.Covers d t) :=
  inferInstanceAs (Decidable (InRegion _ _ d t))

/-- Table entries after regions were mapped, the last one first. -/
def layoutPte : List BootRegion → Fin 1024 → Fin 1024 → Word
  | [], _, _ => 0
  | r :: rs, d, t =>
    if r.Covers d t then regionPte r.va r.pa r.perm d t else layoutPte rs d t

/-- A region above `UTOP` that leaves the window at `UVPT` alone. -/
structure BootRegion.Ok (r : BootRegion) : Prop where
  va : r.va.toNat % 4096 = 0
  pa : r.pa.toNat % 4096 = 0
  fits : ∃ k, (bootMapEnd r.va r.size).toNat = r.va.toNat + k * 4096
  kern : ∀ d t, r.Covers d t → KernPdes d

/-- The regions `rs` are mapped, and nothing else is. The kernel is as it was in `m₀`. -/
structure KernMap (first : Nat) (m₀ : Mem n) (g : Fin n) (rs : List BootRegion) (m : Mem n) :
    Prop where
  kern : m.kernPgdir = g
  tables : ∃ free, KernTables first free m
  same : ∀ q, Reserved first q → q ≠ g → m.frame q = m₀.frame q
  map : ∀ d t, KernPdes d → m.pteAt g d t = layoutPte rs d t

/-- There is memory for all tables that are missing. -/
theorem KernTables.room {first lo hi : Nat} {free : List (Fin n)} {m : Mem n}
    (h : KernTables first free m) (hD : ∀ d t, InRegion lo hi d t → KernPdes d) :
    (missing m m.kernPgdir lo hi).card ≤ free.length := by
  obtain ⟨low, high, rfl, -, hroom⟩ := h.low
  have hlt : userPdes < 1024 := by decide
  have hdis : Disjoint (missing m m.kernPgdir lo hi) (kernTables m) := by
    refine Finset.disjoint_left.mpr fun d hd hd' => ?_
    exact (Finset.mem_filter.mp hd').2.2 (mem_missing.mp hd).1
  have hsub : missing m m.kernPgdir lo hi ∪ kernTables m ⊆ Finset.Ici ⟨userPdes, hlt⟩ := by
    intro d hd
    rw [Finset.mem_Ici]
    rcases Finset.mem_union.mp hd with hd | hd
    · obtain ⟨-, t, ht⟩ := mem_missing.mp hd
      exact (hD d t ht).1
    · exact (Finset.mem_filter.mp hd).2.1.1
  have hcard := Finset.card_le_card hsub
  rw [Finset.card_union_of_disjoint hdis, Fin.card_Ici] at hcard
  have hsmall : 1024 - userPdes < 100 := by decide
  rw [List.length_append]
  change _ ≤ 1024 - userPdes at hcard
  omega

theorem KernTables.table_ne {first : Nat} {free : List (Fin n)} {m : Mem n} {d : Fin 1024}
    (h : KernTables first free m) (hd : KernPdes d) : m.table m.kernPgdir d ≠ some m.kernPgdir :=
  fun hc => h.kern_ne hd hc rfl

section
variable {first : Nat} {g : Fin n} {rs : List BootRegion} {m₀ m : Mem n} {α : Type}

/-- One more region. -/
theorem KernMap.bootMap (h : KernMap first m₀ g rs m) {r : BootRegion} (hr : r.Ok) :
    ∃ m', KernMap first m₀ g (r :: rs) m' ∧
      JosKernel.bootMap m r.va r.size r.pa r.perm = OptionT.mk (.ok (some m')) := by
  obtain ⟨free, ht⟩ := h.tables
  obtain ⟨k, hk⟩ := hr.fits
  obtain ⟨m', -, hrun, -, hkern, hmap⟩ := @bootMapRegion_spec _ _ _ _ _ _ _ r.perm _ k ht.tables
    hr.va hr.pa hk hr.kern (ht.room hr.kern)
  obtain ⟨ht', hsame⟩ := ht.bootMapLoop hr.kern hr.va hk hrun
  refine ⟨m', ⟨hkern.trans h.kern, ht', fun q hq hne => ?_, fun d t hd => ?_⟩,
    congrArg OptionT.mk hrun⟩
  · rw [hsame q hq (h.kern ▸ hne), h.same q hq hne]
  rw [← h.kern, hmap d t (ht.table_ne hd), h.kern, h.map d t hd]
  rfl

end

/-! ## The parts of `mem_init` -/

/-- `page_init` writes to the array `pages` only. -/
theorem pageInit_frame {first : Nat} {m m' : Mem n} (h : pageInit m first = .ok m') :
    m'.frame = m.frame ∧ m'.kernPgdir = m.kernPgdir := by
  have hloop : ∀ (is : List (Fin n)) (m : Mem n), (pageInitLoop m is).frame = m.frame ∧
      (pageInitLoop m is).kernPgdir = m.kernPgdir := by
    intro is
    induction is with
    | nil => exact fun m => ⟨rfl, rfl⟩
    | cons i is ih => exact fun m => ih _
  have hmod : ∀ {m m' : Mem n} {i : Nat} {f : PageInfo n → PageInfo n},
      m.modPage i f = .ok m' → m'.frame = m.frame ∧ m'.kernPgdir = m.kernPgdir := by
    intro m m' i f h
    unfold Mem.modPage at h
    split_ifs at h
    cases h
    exact ⟨rfl, rfl⟩
  have hreserve : ∀ (is : List Nat) {m m' : Mem n}, reserveLoop m is = .ok m' →
      m'.frame = m.frame ∧ m'.kernPgdir = m.kernPgdir := by
    intro is
    induction is with
    | nil =>
      intro m m' h
      cases h
      exact ⟨rfl, rfl⟩
    | cons i is ih =>
      intro m m' h
      obtain ⟨m₁, h₁, h⟩ := bind_ok.mp h
      obtain ⟨hf, hk⟩ := ih h
      exact ⟨hf.trans (hmod h₁).1, hk.trans (hmod h₁).2⟩
  simp only [pageInit, bind_ok] at h
  obtain ⟨m₁, h₁, prev, -, m₂, h₂, m₃, h₃, m₄, h₄, tmp, -, m₅, h₅, h₆⟩ := h
  have h₀ := hloop (List.finRange n) m
  constructor
  · rw [(hmod h₆).1, (hreserve _ h₅).1, (hmod h₄).1, (hmod h₃).1, (hmod h₂).1, (hmod h₁).1, h₀.1]
  · rw [(hmod h₆).2, (hreserve _ h₅).2, (hmod h₄).2, (hmod h₃).2, (hmod h₂).2, (hmod h₁).2, h₀.2]

/-- Only the contents of the given pages have changed. -/
structure SameButFrames (l : List (Fin n)) (m m' : Mem n) : Prop where
  pages : m'.pages = m.pages
  list : m'.pageFreeList = m.pageFreeList
  kern : m'.kernPgdir = m.kernPgdir
  frame : ∀ q, q ∉ l → m'.frame q = m.frame q

theorem scrubLoop_spec (pdxLimit : Nat) {m : Mem n} {l : List (Fin n)} {fuel : Nat}
    {head : Option (Fin n)} (h : ListSeg some (fun p => (m.pages p).ppLink) head l none)
    (hf : l.length < fuel) :
    ∃ m', scrubLoop pdxLimit fuel head m = some m' ∧ SameButFrames l m m' := by
  induction l generalizing m head fuel with
  | nil =>
    obtain ⟨fuel, rfl⟩ : ∃ f, fuel = f + 1 := ⟨fuel - 1, by omega⟩
    obtain rfl : head = none := h
    exact ⟨m, rfl, rfl, rfl, rfl, fun _ _ => rfl⟩
  | cons pp l ih =>
    obtain ⟨fuel, rfl⟩ : ∃ f, fuel = f + 1 := ⟨fuel - 1, by omega⟩
    obtain ⟨rfl, hseg⟩ := h
    set m₁ := if (pdx (page2pa pp) : Nat) < pdxLimit then m.setFrame pp (scrubbed (m.frame pp))
      else m with hm₁
    have h₁ : SameButFrames [pp] m m₁ := by
      rw [hm₁]
      split_ifs
      · refine ⟨rfl, rfl, rfl, fun q hq => Function.update_of_ne (fun hc => hq ?_) ..⟩
        exact List.mem_singleton.mpr hc
      · exact ⟨rfl, rfl, rfl, fun _ _ => rfl⟩
    have hseg₁ : ListSeg some (fun p => (m₁.pages p).ppLink) (m₁.pages pp).ppLink l none := by
      rw [h₁.pages]
      exact hseg
    obtain ⟨m', hrun, h₂⟩ := ih hseg₁ (Nat.lt_of_succ_lt_succ hf)
    refine ⟨m', hrun, h₂.pages.trans h₁.pages, h₂.list.trans h₁.list, h₂.kern.trans h₁.kern,
      fun q hq => ?_⟩
    rw [List.mem_cons, not_or] at hq
    rw [h₂.frame q hq.2, h₁.frame q fun hc => hq.1 (List.mem_singleton.mp hc)]

/-- The free list is put in order, and the contents of its pages are overwritten. -/
theorem checkPageFreeList_spec {m : Mem n} {free : List (Fin n)} (h : m.FreeList free)
    (hne : free ≠ []) (onlyLowMemory : Bool) (pp1 pp2 : Option (Fin n)) :
    ∃ m', checkPageFreeList onlyLowMemory pp1 pp2 m = OptionT.mk (.ok (some m')) ∧
      m'.FreeList (if onlyLowMemory then lowFirst free else free) ∧
      (∀ p, m'.ref p = m.ref p) ∧ m'.kernPgdir = m.kernPgdir ∧
      ∀ q, q ∉ free → m'.frame q = m.frame q := by
  have hnd : free.Nodup := ListSeg.nodup (Option.some_injective _) (by simp) h
  have hlen : free.length < n + 1 := by
    have := hnd.length_le_card
    rw [Fintype.card_fin] at this
    omega
  have hhead : m.pageFreeList ≠ none := by
    intro hnone
    unfold Mem.FreeList at h
    rw [hnone] at h
    exact hne (h.eq_nil (by simp))
  cases onlyLowMemory with
  | false =>
    obtain ⟨m', hrun, same⟩ := scrubLoop_spec 1024 h hlen
    refine ⟨m', ?_, ?_, fun p => by rw [Mem.ref, same.pages, Mem.ref], same.kern, same.frame⟩
    · simp only [checkPageFreeList, relinkFreeList, if_neg hhead, Bool.false_eq_true, if_false,
        hrun]
      rfl
    · simp only [Bool.false_eq_true, if_false]
      rw [Mem.FreeList, same.list, same.pages]
      exact h
  | true =>
    obtain ⟨s, hs, hsplits⟩ := (Relink.Splits.init h pp1 pp2).loop rfl hnd hlen
    obtain ⟨hlist, hsame⟩ := hsplits.finish hnd
    rw [← lowFirst_eq] at hlist
    have hlen' : (lowFirst free).length < n + 1 := by
      rwa [(lowFirst_perm free).length_eq]
    obtain ⟨m', hrun, same⟩ := scrubLoop_spec 1 hlist hlen'
    refine ⟨m', ?_, ?_, fun p => ?_, same.kern.trans hsame.kern, fun q hq => ?_⟩
    · simp only [checkPageFreeList, relinkFreeList, if_neg hhead, if_true, hs, Option.map_some,
        hrun]
      rfl
    · simp only [if_true]
      rw [Mem.FreeList, same.list, same.pages]
      exact hlist
    · rw [Mem.ref, same.pages]
      exact hsame.ref p
    · rw [same.frame q fun hc => hq ((lowFirst_perm free).mem_iff.mp hc), hsame.frame]

end JosKernel
