import JosKernel.Pmap.Tables

/-!
# Mappings at boot

`boot_map_region` of `kern/pmap.c`, which fills the kernel's part of the address space. The end of
the region is a 32-bit address, and the end of the topmost region is `0`. A comparison is there
to repair this: it replaces the end by the last page of the address space whenever the region is
longer than what follows it. So the topmost region loses its last page, and a large region
elsewhere grows up to there.

The claims are about one directory. An entry of it that refers to the directory itself, as the
window at `UVPT` does, maps the page tables, so what it shows changes with every table.
-/
namespace JosKernel

open Lib

variable {n : Nat}

/-! ## The function -/

/-- `vend_ptr`, after the comparison. -/
def bootMapEnd (va size : Word) : Word :=
  if size > 0xffffffff - (va + size) + 1 then roundUp 0xfffff000 pgsize else va + size

/-- The loop of `boot_map_region`, for a number of rounds; `none` when the end is not reached. -/
def bootMapLoop (m : Mem n) (pgdir : Fin n) (vend perm : Word) :
    Nat → Word → Word → Except Panic (Option (Mem n))
  | 0, va, _ => pure (if va = vend then some m else none)
  | rounds + 1, va, pa =>
    if va = vend then pure (some m)
    else do
      match ← m.pgdirWalk pgdir va true with
      | (none, _) => throw .bootMapRegion
      | (some (pt, i), m) =>
        bootMapLoop (m.setEntry pt i (pteAddr pa ||| perm ||| pteP)) pgdir vend perm rounds
          (va + pgsize) (pa + pgsize)

/-- After `2 ^ 20` rounds the loop is back at `va`: it never ends, and there is no result. -/
def bootMapRegion (m : Mem n) (pgdir : Fin n) (va size pa perm : Word) :
    Except Panic (Option (Mem n)) :=
  bootMapLoop m pgdir (bootMapEnd va size) perm (2 ^ 20) va pa

/-! ## Regions -/

/-- The page with the given indices lies in `[lo, hi)`. -/
def InRegion (lo hi : Nat) (d t : Fin 1024) : Prop :=
  lo ≤ (pgaddr d t 0).toNat ∧ (pgaddr d t 0).toNat < hi

instance (lo hi : Nat) (d t : Fin 1024) : Decidable (InRegion lo hi d t) :=
  inferInstanceAs (Decidable (_ ∧ _))

/-- The entry for a page of a region that starts at `va` and is mapped to `pa`. -/
def regionPte (va pa perm : Word) (d t : Fin 1024) : Word :=
  (pa + (pgaddr d t 0 - va)) ||| perm ||| pteP

theorem toNat_pgaddr_eq {va : Word} (hva : va.toNat % 4096 = 0) {d t : Fin 1024} :
    (pgaddr d t 0).toNat = va.toNat ↔ d = pdx va ∧ t = ptx va := by
  have hd := d.isLt
  have ht := t.isLt
  rw [toNat_pgaddr, Fin.ext_iff, Fin.ext_iff]
  simp only [pdx, ptx, Fin.val_zero]
  omega

/-- The first page of a region, and the rest. -/
theorem inRegion_cons {va : Word} {hi : Nat} (hva : va.toNat % 4096 = 0) (hlt : va.toNat < hi)
    {d t : Fin 1024} : InRegion va.toNat hi d t ↔
      (d = pdx va ∧ t = ptx va) ∨ InRegion (va.toNat + 4096) hi d t := by
  rw [← toNat_pgaddr_eq hva]
  have h := toNat_pgaddr d t 0
  simp only [InRegion, h, Fin.val_zero]
  omega

theorem regionPte_step (va pa perm : Word) (d t : Fin 1024) :
    regionPte (va + pgsize) (pa + pgsize) perm d t = regionPte va pa perm d t := by
  have : (pa + pgsize) + (pgaddr d t 0 - (va + pgsize)) = pa + (pgaddr d t 0 - va) := by
    bv_omega
  rw [regionPte, this, regionPte]

theorem pteAddr_of_aligned {pa : Word} (hpa : pa.toNat % 4096 = 0) : pteAddr pa = pa := by
  have hpg : (pteAddr pa).toNat / 4096 = pa.toNat / 4096 := pgnum_pteAddr pa
  have hlow := toNat_pteAddr_mod pa
  refine BitVec.eq_of_toNat_eq ?_
  omega

/-! ## The loop -/

/-- Directory entries without a table that a region needs. -/
def missing (m : Mem n) (g : Fin n) (lo hi : Nat) : Finset (Fin 1024) :=
  Finset.univ.filter fun d => m.table g d = none ∧ ∃ t, InRegion lo hi d t

variable {m m' : Mem n} {g : Fin n} {free : List (Fin n)} {va pa size perm vend : Word}

theorem mem_missing {lo hi : Nat} {d : Fin 1024} :
    d ∈ missing m g lo hi ↔ m.table g d = none ∧ ∃ t, InRegion lo hi d t := by
  simp [missing]

/-- A round may need a page, and then the rest of the loop needs one page less. -/
theorem card_missing_step {m₂ : Mem n} {pt : Fin n} {hi : Nat} (hva : va.toNat % 4096 = 0)
    (hlt : va.toNat < hi)
    (htab : ∀ d, m₂.table g d = if d = pdx va then some pt else m.table g d) :
    (missing m₂ g (va.toNat + 4096) hi).card + (if m.table g (pdx va) = none then 1 else 0) ≤
      (missing m g va.toNat hi).card := by
  have hsub : missing m₂ g (va.toNat + 4096) hi ⊆ (missing m g va.toNat hi).erase (pdx va) := by
    intro d hd
    obtain ⟨hnone, t, ht⟩ := mem_missing.mp hd
    rw [htab] at hnone
    split_ifs at hnone with hne
    exact Finset.mem_erase.mpr
      ⟨hne, mem_missing.mpr ⟨hnone, t, (inRegion_cons hva hlt).mpr (.inr ht)⟩⟩
  have hle := Finset.card_le_card hsub
  split_ifs with hnone
  · have hmem : pdx va ∈ missing m g va.toNat hi :=
      mem_missing.mpr ⟨hnone, ptx va, (inRegion_cons hva hlt).mpr (.inl ⟨rfl, rfl⟩)⟩
    rw [Finset.card_erase_of_mem hmem] at hle
    have := Finset.card_pos.mpr ⟨_, hmem⟩
    omega
  · have := Finset.card_le_card (Finset.erase_subset (pdx va) (missing m g va.toNat hi))
    omega

/-- The loop fills the pages from `va` up to its end, in so many rounds. -/
theorem bootMapLoop_spec {own : Unit → Fin 1024 → Prop} (rounds fuel : Nat)
    (ok : Tables own m (fun _ => some g) free) (hva : va.toNat % 4096 = 0)
    (hpa : pa.toNat % 4096 = 0) (hend : vend.toNat = va.toNat + rounds * 4096)
    (hfuel : rounds ≤ fuel) (hown : ∀ d t, InRegion va.toNat vend.toNat d t → own () d)
    (hfree : (missing m g va.toNat vend.toNat).card ≤ free.length) :
    ∃ m' free', bootMapLoop m g vend perm fuel va pa = .ok (some m') ∧
      Tables own m' (fun _ => some g) free' ∧ m'.kernPgdir = m.kernPgdir ∧
      ∀ d t, m.table g d ≠ some g → m'.pteAt g d t =
        if InRegion va.toNat vend.toNat d t then regionPte va pa perm d t else m.pteAt g d t := by
  induction rounds generalizing m va pa free fuel with
  | zero =>
    obtain rfl : va = vend := BitVec.eq_of_toNat_eq (by omega)
    refine ⟨m, free, ?_, ok, rfl, fun d t _ => ?_⟩
    · cases fuel <;> simp [bootMapLoop, pure, Except.pure]
    · rw [if_neg]
      rintro ⟨h₁, h₂⟩
      omega
  | succ rounds ih =>
    obtain ⟨fuel, rfl⟩ : ∃ f, fuel = f + 1 := ⟨fuel - 1, by omega⟩
    have hvend := vend.isLt
    have hlt : va.toNat < vend.toNat := by omega
    have hne : va ≠ vend := fun h => by rw [h] at hlt; omega
    have hva' : (va + pgsize).toNat = va.toNat + 4096 := by
      rw [BitVec.toNat_add, show pgsize.toNat = 4096 from rfl]
      omega
    have hpa' : (pa + pgsize).toNat % 4096 = 0 := by
      rw [BitVec.toNat_add, show pgsize.toNat = 4096 from rfl]
      omega
    have hdir : (fun _ : Unit => some g) () = some g := rfl
    have hself := hown _ _ ((inRegion_cons hva hlt).mpr (.inl ⟨rfl, rfl⟩))
    -- a table for the first page
    obtain ⟨pt, m₁, free₁, hwalk, ok₁, ht₁, hcase, hrest⟩ := ok.walk hdir hself
      fun hnone => by
        have hmem := mem_missing.mpr ⟨hnone, ptx va, (inRegion_cons hva hlt).mpr (.inl ⟨rfl, rfl⟩)⟩
        have := Finset.card_pos.mpr ⟨_, hmem⟩
        rintro rfl
        simp only [List.length_nil] at hfree
        omega
    obtain ⟨ok₂, hset⟩ := ok₁.setTable hdir hself ht₁ (ptx va) (pteAddr pa ||| perm ||| pteP)
    set m₂ := m₁.setEntry pt (ptx va) (pteAddr pa ||| perm ||| pteP) with hm₂
    have htab : ∀ d, m₂.table g d = if d = pdx va then some pt else m.table g d := fun d => by
      rw [(hset () g rfl).1, (hrest () g rfl).1]
      simp
    have hpte : ∀ d t, m.table g d ≠ some g → m₂.pteAt g d t =
        if d = pdx va ∧ t = ptx va then regionPte va pa perm d t else m.pteAt g d t := by
      intro d t hd
      rw [(hset () g rfl).2, (hrest () g rfl).2 d t hd]
      by_cases hc : d = pdx va ∧ t = ptx va
      · rw [if_pos ⟨rfl, hc⟩, if_pos hc, regionPte]
        have hself : pgaddr d t 0 = va := BitVec.eq_of_toNat_eq ((toNat_pgaddr_eq hva).mpr hc)
        rw [hself, BitVec.sub_self, pteAddr_of_aligned hpa, BitVec.add_zero]
      · rw [if_neg fun h => hc h.2, if_neg hc]
    have hcard := card_missing_step (m := m) hva hlt htab
    have hown₂ : ∀ d t, InRegion (va + pgsize).toNat vend.toNat d t → own () d := by
      intro d t hin
      rw [hva'] at hin
      exact hown d t ((inRegion_cons hva hlt).mpr (.inr hin))
    have hfree₂ : (missing m₂ g (va + pgsize).toNat vend.toNat).card ≤ free₁.length := by
      rw [hva']
      rcases hcase with ⟨hsome, -, rfl⟩ | ⟨hnone, rfl, -⟩
      · omega
      · rw [if_pos hnone] at hcard
        simp only [List.length_cons] at hfree
        omega
    have hkern : m₂.kernPgdir = m.kernPgdir := by
      rcases hcase with ⟨-, rfl, -⟩ | ⟨-, -, hmade⟩
      · rfl
      · exact hmade.kern
    obtain ⟨m', free', hloop, ok', hkern', hfinal⟩ :=
      ih fuel ok₂ (by omega) hpa' (by omega) (by omega) hown₂ hfree₂
    refine ⟨m', free', ?_, ok', hkern'.trans hkern, fun d t hd => ?_⟩
    · simp only [bootMapLoop, if_neg hne, hwalk, bind, Except.bind]
      exact hloop
    · have hd₂ : m₂.table g d ≠ some g := by
        rw [htab]
        split_ifs with hc
        · exact fun h => ok₁.table_ne_dir hdir hself ht₁ (i := ()) rfl (Option.some.inj h)
        · exact hd
      rw [hfinal d t hd₂, regionPte_step, hpte d t hd, hva']
      by_cases hc : d = pdx va ∧ t = ptx va
      · simp [hc, inRegion_cons hva hlt]
      · simp [hc, inRegion_cons hva hlt]

/-- The same for the function, whose loop has enough rounds for any region. -/
theorem bootMapRegion_spec {own : Unit → Fin 1024 → Prop} (rounds : Nat)
    (ok : Tables own m (fun _ => some g) free) (hva : va.toNat % 4096 = 0)
    (hpa : pa.toNat % 4096 = 0)
    (hend : (bootMapEnd va size).toNat = va.toNat + rounds * 4096)
    (hown : ∀ d t, InRegion va.toNat (bootMapEnd va size).toNat d t → own () d)
    (hfree : (missing m g va.toNat (bootMapEnd va size).toNat).card ≤ free.length) :
    ∃ m' free', bootMapRegion m g va size pa perm = .ok (some m') ∧
      Tables own m' (fun _ => some g) free' ∧ m'.kernPgdir = m.kernPgdir ∧
      ∀ d t, m.table g d ≠ some g → m'.pteAt g d t =
        if InRegion va.toNat (bootMapEnd va size).toNat d t then regionPte va pa perm d t
        else m.pteAt g d t :=
  bootMapLoop_spec rounds (2 ^ 20) ok hva hpa hend
    (by have := (bootMapEnd va size).isLt; omega) hown hfree

/-! ## Exactness -/

/-- The address `0xfffff000` of the last page. -/
def bootMapLast : Nat := 0xfffff000

/-- The comparison finds no reason to replace the end, or replaces it by itself. -/
def RegionOk (va size : Word) : Prop :=
  size = 0 ∨ va.toNat + 2 * size.toNat ≤ 2 ^ 32 ∨ va.toNat + size.toNat = bootMapLast

theorem toNat_bootMapEnd (hva : va.toNat % 4096 = 0) (hsize : size.toNat % 4096 = 0)
    (hend : va.toNat + size.toNat ≤ 2 ^ 32) :
    (RegionOk va size → (bootMapEnd va size).toNat = va.toNat + size.toNat) ∧
      (¬RegionOk va size → (bootMapEnd va size).toNat = bootMapLast) ∧ va.toNat ≤ bootMapLast := by
  have hlast : (roundUp 0xfffff000 pgsize).toNat = bootMapLast := by decide
  have hlast' : bootMapLast = 4294963200 := rfl
  have hvlt := va.isLt
  have hslt := size.isLt
  have hzero : size = 0 ↔ size.toNat = 0 := by
    rw [← BitVec.toNat_inj]
    rfl
  -- the room above the end
  have hroom : (0xffffffff - (va + size) + 1 : Word).toNat =
      if va.toNat + size.toNat = 0 ∨ va.toNat + size.toNat = 2 ^ 32 then 0
      else 2 ^ 32 - (va.toNat + size.toNat) := by
    have hones : (0xffffffff : Word).toNat = 4294967295 := by decide
    have hone : (1 : Word).toNat = 1 := by decide
    rw [BitVec.toNat_add, BitVec.toNat_sub, BitVec.toNat_add, hones, hone]
    split_ifs <;> omega
  have hsum : (va + size).toNat = (va.toNat + size.toNat) % 2 ^ 32 := BitVec.toNat_add ..
  unfold bootMapEnd RegionOk
  simp only [gt_iff_lt, BitVec.lt_def, hroom, hzero]
  split_ifs <;> omega

/-- Every page of the region has its entry, and all others have the entries of before. The
window of an entry that refers to the directory itself shows the tables, and is left out. -/
def MapsExactly (m m' : Mem n) (g : Fin n) (va size pa perm : Word) : Prop :=
  ∀ d t, m.table g d ≠ some g → m'.pteAt g d t =
    if InRegion va.toNat (va.toNat + size.toNat) d t then regionPte va pa perm d t
    else m.pteAt g d t

/-- The pages between the end of the region and the last page, or the last page itself if the
region contains it, have the entries of the region already. -/
def AlreadyMapped (m : Mem n) (g : Fin n) (va size pa perm : Word) : Prop :=
  ∀ d t, m.table g d ≠ some g →
    InRegion (min (va.toNat + size.toNat) bootMapLast)
        (max (va.toNat + size.toNat) bootMapLast) d t →
    m.pteAt g d t = regionPte va pa perm d t

/-- `boot_map_region` maps exactly the region that it is given if and only if the end that it
computes is right, or it makes no difference. -/
theorem mapsExactly_iff_regionOk
    (ok : Tables (fun _ d => m.table g d ≠ some g) m (fun _ : Unit => some g) free)
    (hva : va.toNat % 4096 = 0) (hpa : pa.toNat % 4096 = 0) (hsize : size.toNat % 4096 = 0)
    (hend : va.toNat + size.toNat ≤ 2 ^ 32)
    (hrec : ∀ d t, InRegion va.toNat (bootMapEnd va size).toNat d t → m.table g d ≠ some g)
    (hfree : (missing m g va.toNat (bootMapEnd va size).toNat).card ≤ free.length) :
    (∃ m', bootMapRegion m g va size pa perm = .ok (some m') ∧
        MapsExactly m m' g va size pa perm) ↔
      RegionOk va size ∨ AlreadyMapped m g va size pa perm := by
  obtain ⟨hgood, hbad, hle⟩ := toNat_bootMapEnd hva hsize hend
  have hlast : bootMapLast = 4294963200 := rfl
  obtain ⟨N, hN⟩ : ∃ N, (bootMapEnd va size).toNat = va.toNat + N * 4096 := by
    by_cases h : RegionOk va size
    · exact ⟨size.toNat / 4096, by rw [hgood h]; omega⟩
    · exact ⟨(bootMapLast - va.toNat) / 4096, by rw [hbad h]; omega⟩
  obtain ⟨m₁, -, hrun, -, -, hmap⟩ := bootMapRegion_spec N ok hva hpa hN hrec hfree
  have hexact : (∃ m', bootMapRegion m g va size pa perm = .ok (some m') ∧
      MapsExactly m m' g va size pa perm) ↔ MapsExactly m m₁ g va size pa perm := by
    constructor
    · rintro ⟨m', hrun', h⟩
      cases hrun.symm.trans hrun'
      exact h
    · exact fun h => ⟨m₁, hrun, h⟩
  rw [hexact]
  by_cases hr : RegionOk va size
  · refine iff_of_true (fun d t hd => ?_) (.inl hr)
    rw [hmap d t hd, hgood hr]
  · rw [hbad hr] at hmap
    simp only [hr, false_or]
    constructor
    · intro h d t hd hin
      have hboth := (hmap d t hd).symm.trans (h d t hd)
      by_cases hend' : va.toNat + size.toNat ≤ bootMapLast
      · -- a page too many
        rw [min_eq_left hend', max_eq_right hend'] at hin
        rw [if_pos ⟨by have := hin.1; omega, hin.2⟩,
          if_neg fun h => by have := h.2; have := hin.1; omega]
          at hboth
        exact hboth.symm
      · -- the last page is missing
        rw [min_eq_right (by omega), max_eq_left (by omega)] at hin
        rw [if_neg fun h => by have := h.2; have := hin.1; omega,
          if_pos ⟨by have := hin.1; omega, hin.2⟩] at hboth
        exact hboth
    · intro h d t hd
      rw [hmap d t hd]
      have hin := h d t hd
      by_cases h₁ : InRegion va.toNat bootMapLast d t <;>
        by_cases h₂ : InRegion va.toNat (va.toNat + size.toNat) d t
      · rw [if_pos h₁, if_pos h₂]
      · rw [if_pos h₁, if_neg h₂]
        refine (hin ?_).symm
        unfold InRegion at *
        omega
      · rw [if_neg h₁, if_pos h₂]
        refine hin ?_
        unfold InRegion at *
        omega
      · rw [if_neg h₁, if_neg h₂]

/-! ## A directory without tables -/

/-- The directory is page 0, all other pages are free. -/
def bareMem : Mem 128 where
  pages p :=
    { ppLink := if h : 0 < (p : Nat) ∧ (p : Nat) + 1 < 128 then some ⟨p + 1, h.2⟩ else none
      ppRef := if p = 0 then 1 else 0 }
  pageFreeList := some 1
  frame := fun _ _ => 0
  kernPgdir := 0

theorem table_bareMem (d : Fin 1024) : bareMem.table 0 d = none := by
  rw [Mem.table, Mem.entry, show bareMem.frame 0 = fun _ => 0 from rfl, rd32_zero]
  rfl

theorem tables_bareMem : Tables (fun _ d => bareMem.table 0 d ≠ some 0) bareMem
    (fun _ : Unit => some 0) (List.finRange 128).tail where
  small := by decide
  list := by decide +kernel
  nodup := by decide +kernel
  dirInj _ _ _ _ _ := rfl
  dirFree := by
    intro e g hg
    cases hg
    decide +kernel
  tableFree := by
    intro e g d pt hg ht
    cases hg
    rw [table_bareMem] at ht
    cases ht
  inRange := by
    intro e g d hg _ hp
    cases hg
    rw [Mem.entry, show bareMem.frame 0 = fun _ => 0 from rfl, rd32_zero] at hp
    cases hp
  tableInj := by
    intro e e' g g' d d' pt hg hg' _ ht
    cases hg
    rw [table_bareMem] at ht
    cases ht
  notDir := by
    intro e e' g d hg _
    cases hg
    rw [table_bareMem]
    exact .inl (by simp)

theorem card_missing_bareMem {lo hi : Nat} (hlo : 0xef800000 ≤ lo) :
    (missing bareMem 0 lo hi).card ≤ (List.finRange 128).tail.length := by
  have hsub : missing bareMem 0 lo hi ⊆ Finset.univ.filter fun d : Fin 1024 => 958 ≤ d.val := by
    intro d hd
    obtain ⟨-, t, ht⟩ := mem_missing.mp hd
    have h := ht.1
    have := t.isLt
    rw [toNat_pgaddr] at h
    simp only [Fin.val_zero] at h
    simp only [Finset.mem_filter, Finset.mem_univ, true_and]
    omega
  exact (Finset.card_le_card hsub).trans (by decide +kernel)

/-- Two pages above `ULIM`. -/
theorem mapsExactly_bareMem : ∃ m', bootMapRegion bareMem 0 0xef800000 0x2000 0x5000 pteW =
    .ok (some m') ∧ MapsExactly bareMem m' 0 0xef800000 0x2000 0x5000 pteW :=
  (mapsExactly_iff_regionOk tables_bareMem (by decide) (by decide) (by decide) (by decide)
    (fun d _ _ => by rw [table_bareMem]; simp) (card_missing_bareMem (by decide))).mpr
    (.inl (.inr (.inl (by decide))))

/-- The kernel's mapping of physical memory ends one page early. -/
theorem not_mapsExactly_kernbase :
    Tables (fun _ d => bareMem.table 0 d ≠ some 0) bareMem (fun _ : Unit => some 0)
      (List.finRange 128).tail ∧
    (missing bareMem 0 kernbase.toNat (2 ^ 32)).card ≤ (List.finRange 128).tail.length ∧
    ¬∃ m', bootMapRegion bareMem 0 kernbase 0x10000000 0 pteW = .ok (some m') ∧
      MapsExactly bareMem m' 0 kernbase 0x10000000 0 pteW := by
  refine ⟨tables_bareMem, card_missing_bareMem (by decide), ?_⟩
  rintro ⟨m', hrun, hmap⟩
  obtain ⟨m₁, -, hrun₁, -, -, hmap₁⟩ := @bootMapRegion_spec _ _ _ _ kernbase 0 0x10000000 pteW _
    65535 tables_bareMem (by decide) (by decide) (by decide)
    (fun d _ _ => by rw [table_bareMem]; simp)
    (card_missing_bareMem (by decide))
  cases hrun₁.symm.trans hrun
  have hnone : bareMem.table 0 1023 ≠ some 0 := by rw [table_bareMem]; simp
  have hboth := (hmap₁ 1023 1023 hnone).symm.trans (hmap 1023 1023 hnone)
  rw [if_neg (by decide), if_pos (by decide), Mem.pteAt_of_no_table (table_bareMem _)] at hboth
  exact absurd hboth (by decide)

end JosKernel
