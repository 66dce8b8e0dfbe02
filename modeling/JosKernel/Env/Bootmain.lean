import JosKernel.Env.Programs
import JosKernel.Lib.Loop
import JosKernel.Machine.Words

/-!
# The boot loader

`boot/main.c`: the kernel's ELF file lies on the disk from the second sector on. The loader reads
its first 4 KB to a scratch page, takes the program headers from there and reads one segment after
the other to its physical address. It reads whole sectors, so the bytes around a segment change
too, and of two segments that meet in a sector the later one wins.
-/
namespace JosKernel

open Lib

/-- `ELFHDR`. -/
def elfhdr : Word := 0x10000

/-- `insl` from the sector `offset`, of whose number the disk takes 28 bits. -/
def readsect (disk : ℕ → Byte) (m : Word → Byte) (dst offset : Word) : Word → Byte := fun a =>
  if (a - dst).toNat < 512 then disk (512 * (offset.toNat % 2 ^ 28) + (a - dst).toNat) else m a

/-- One turn of the loop of `readseg`. -/
def readsegStep (disk : ℕ → Byte) (endPa : Word) :
    (Word → Byte) × Word × Word → (Word → Byte) ⊕ (Word → Byte) × Word × Word
  | (m, pa, offset) =>
    if pa < endPa then .inr (readsect disk m pa offset, pa + 512, offset + 1) else .inl m

/-- A multiple of 512 has 2 ^ 23 values, so a loop that makes more turns does not end. -/
def readseg (disk : ℕ → Byte) (m : Word → Byte) (pa count offset : Word) :
    Option (Word → Byte) :=
  loop (readsegStep disk (pa + count)) (2 ^ 23 + 1) (m, pa &&& ~~~511#32, offset / 512 + 1)

/-- The fields of `struct Proghdr` that the loader uses. -/
structure LoadHdr where
  pPa : Word
  pMemsz : Word
  pOffset : Word
  deriving DecidableEq

def readLoadHdr (m : Word → Byte) (ph : Word) : LoadHdr :=
  ⟨loadWord m (ph + 12), loadWord m (ph + 20), loadWord m (ph + 4)⟩

/-- One turn of the loop of `bootmain`. -/
def bootStep (disk : ℕ → Byte) (eph : Word) :
    (Word → Byte) × Word → Option (Word → Byte) ⊕ (Word → Byte) × Word
  | (m, ph) =>
    if ph < eph then
      let hdr := readLoadHdr m ph
      match readseg disk m hdr.pPa hdr.pMemsz hdr.pOffset with
      | none => .inl none
      | some m => .inr (m, ph + 32)
    else .inl (some m)

/-- The entry point that is called, and the memory then. There is none where the loader comes to
`bad` or reads a segment without end. -/
def bootmain (disk : ℕ → Byte) (m : Word → Byte) : Option (Word × (Word → Byte)) := do
  let m ← readseg disk m elfhdr (512 * 8) 0
  if loadWord m elfhdr = elfMagic then
    let ph := elfhdr + loadWord m (elfhdr + 28)
    let phnum := m (elfhdr + 45) ++ m (elfhdr + 44)
    let m ← (loop (bootStep disk (ph + 32 * phnum.setWidth 32)) (2 ^ 16) (m, ph)).join
    pure (loadWord m (elfhdr + 24), m)
  else none

/-! ## What is loaded -/

/-- The kernel's file. -/
def bootFile (disk : ℕ → Byte) (o : ℕ) : Byte := disk (512 + o)

def loadHdrAt (file : ℕ → Byte) (o : ℕ) : LoadHdr :=
  ⟨fileWord file (o + 12), fileWord file (o + 20), fileWord file (o + 4)⟩

def loadHdrs (file : ℕ → Byte) : List LoadHdr := (offsets file).map (loadHdrAt file)

/-- The sectors that are read for a segment. -/
def LoadHdr.Covers (h : LoadHdr) (a : Word) : Prop :=
  h.pPa.toNat / 512 * 512 ≤ a.toNat ∧ a.toNat / 512 * 512 < h.pPa.toNat + h.pMemsz.toNat

instance (h : LoadHdr) (a : Word) : Decidable (h.Covers a) := inferInstanceAs (Decidable (_ ∧ _))

/-- The memory after a segment has been read. -/
def LoadHdr.load (file : ℕ → Byte) (h : LoadHdr) (m : Word → Byte) : Word → Byte := fun a =>
  if h.Covers a then
    file (h.pOffset.toNat / 512 * 512 + (a.toNat - h.pPa.toNat / 512 * 512))
  else m a

/-- The first page of the file, where the loader looks at it. -/
def scratch : LoadHdr := ⟨elfhdr, 4096, 0⟩

/-- A kernel that can be loaded on a machine with `n` pages. Its segments are in extended memory:
below that are the loader itself with its stack, the scratch page and devices. -/
structure Bootable (n : ℕ) (file : ℕ → Byte) : Prop where
  magic : fileWord file 0 = elfMagic
  table : (ePhoff file).toNat + 32 * (ePhnum file).toNat ≤ 4096
  lo : ∀ h ∈ loadHdrs file, extphysmem.toNat ≤ h.pPa.toNat
  hi : ∀ h ∈ loadHdrs file, h.pPa.toNat + h.pMemsz.toNat ≤ 4096 * n

/-- The memory of the loaded kernel. -/
structure BootLoaded (file : ℕ → Byte) (m m' : Word → Byte) : Prop where
  /-- Later segments win. -/
  segment : ∀ l₁ h l₂, loadHdrs file = l₁ ++ h :: l₂ →
    h.pPa.toNat % 512 = h.pOffset.toNat % 512 → ∀ i < h.pMemsz.toNat,
      (∀ h' ∈ l₂, ¬h'.Covers (h.pPa + BitVec.ofNat 32 i)) →
        m' (h.pPa + BitVec.ofNat 32 i) = file (h.pOffset.toNat + i)
  header : ∀ i < 4096, m' (elfhdr + BitVec.ofNat 32 i) = file i
  outside : ∀ a, ¬scratch.Covers a → (∀ h ∈ loadHdrs file, ¬h.Covers a) → m' a = m a

variable {n : ℕ} {disk file : ℕ → Byte} {m m' : Word → Byte} {h : LoadHdr} {hs : List LoadHdr}
  {a : Word} {i : ℕ}

/-! ## Reading -/

theorem toNat_roundSect (pa : Word) : (pa &&& ~~~511#32).toNat = pa.toNat / 512 * 512 := by
  have h : pa &&& ~~~511#32 = pa >>> 9 <<< 9 := by
    ext i hi
    have hmask : (511#32)[i] = decide (i < 9) := by
      rw [BitVec.getElem_eq_testBit_toNat]
      exact Nat.testBit_two_pow_sub_one 9 i
    rw [BitVec.getElem_and, BitVec.getElem_not, hmask, BitVec.getElem_shiftLeft]
    by_cases hlt : i < 9
    · simp [hlt]
    · simp [hlt, Nat.add_sub_cancel' (Nat.not_lt.mp hlt), BitVec.getLsbD_eq_getElem hi]
  have := pa.isLt
  rw [h, BitVec.toNat_shiftLeft, BitVec.toNat_ushiftRight, Nat.shiftLeft_eq,
    Nat.shiftRight_eq_div_pow]
  omega

/-- Sectors of the file, from the one with number `s` on, at `base`. -/
def sectors (file : ℕ → Byte) (base s : ℕ) (m : Word → Byte) (i : ℕ) : Word → Byte := fun a =>
  if base ≤ a.toNat ∧ a.toNat < base + 512 * i then file (512 * s + (a.toNat - base)) else m a

theorem readsect_sectors {base s : ℕ} {dst offset : Word} (hdst : dst.toNat = base + 512 * i)
    (hoff : offset.toNat = s + 1 + i) (hs : s + 1 + i < 2 ^ 28)
    (hfit : base + 512 * (i + 1) ≤ 2 ^ 32) :
    readsect disk (sectors (bootFile disk) base s m i) dst offset =
      sectors (bootFile disk) base s m (i + 1) := by
  funext a
  have ha := a.isLt
  have hsub : (a - dst).toNat = (2 ^ 32 - (base + 512 * i) + a.toNat) % 2 ^ 32 := by
    rw [BitVec.toNat_sub, hdst]
  unfold readsect sectors
  rw [hsub, hoff, Nat.mod_eq_of_lt hs]
  by_cases hin : base + 512 * i ≤ a.toNat ∧ a.toNat < base + 512 * (i + 1)
  · rw [if_pos (by omega), if_pos (by omega), bootFile]
    congr 1
    omega
  · rw [if_neg (by omega)]
    exact if_congr (by omega) rfl rfl

/-- The number of sectors that are read for a segment. -/
def LoadHdr.count (h : LoadHdr) : ℕ := (h.pPa.toNat % 512 + h.pMemsz.toNat + 511) / 512

theorem LoadHdr.load_eq_sectors (h : LoadHdr) (file : ℕ → Byte) (m : Word → Byte) :
    h.load file m =
      sectors file (h.pPa.toNat / 512 * 512) (h.pOffset.toNat / 512) m h.count := by
  funext a
  have hcov : h.Covers a ↔ h.pPa.toNat / 512 * 512 ≤ a.toNat ∧
      a.toNat < h.pPa.toNat / 512 * 512 + 512 * h.count := by
    unfold LoadHdr.Covers LoadHdr.count
    omega
  unfold sectors LoadHdr.load
  rw [Nat.mul_comm 512 (h.pOffset.toNat / 512)]
  exact if_congr hcov rfl rfl

/-- The loop of `readseg` reads the sectors of the segment. -/
theorem readseg_eq (hfit : h.pPa.toNat + h.pMemsz.toNat ≤ 2 ^ 32 - 512) (m : Word → Byte) :
    readseg disk m h.pPa h.pMemsz h.pOffset = some (h.load (bootFile disk) m) := by
  have hload := h.load_eq_sectors (bootFile disk) m
  obtain ⟨base, hbase⟩ : ∃ base, base = h.pPa.toNat / 512 * 512 := ⟨_, rfl⟩
  obtain ⟨s, hs⟩ : ∃ s, s = h.pOffset.toNat / 512 := ⟨_, rfl⟩
  obtain ⟨k, hk⟩ : ∃ k, k = h.count := ⟨_, rfl⟩
  rw [← hbase, ← hs, ← hk] at hload
  rw [LoadHdr.count] at hk
  have hlen := h.pOffset.isLt
  have hpa : (h.pPa &&& ~~~511#32).toNat = base := hbase ▸ toNat_roundSect h.pPa
  have hend : (h.pPa + h.pMemsz).toNat = h.pPa.toNat + h.pMemsz.toNat := by
    rw [BitVec.toNat_add]
    omega
  have hdst : ∀ i ≤ k, ((h.pPa &&& ~~~511#32) + 512 * BitVec.ofNat 32 i).toNat =
      base + 512 * i := by
    intro i hi
    rw [BitVec.toNat_add, BitVec.toNat_mul, hpa, BitVec.toNat_ofNat,
      show (512 : Word).toNat = 512 from rfl]
    omega
  have hoff : ∀ i ≤ k, (h.pOffset / 512 + 1 + BitVec.ofNat 32 i).toNat = s + 1 + i := by
    intro i hi
    rw [BitVec.toNat_add, BitVec.toNat_add, BitVec.toNat_udiv, BitVec.toNat_ofNat,
      show (512 : Word).toNat = 512 from rfl, show (1 : Word).toNat = 1 from rfl, ← hs]
    omega
  have hzero : sectors (bootFile disk) base s m 0 = m := by
    funext a
    exact if_neg (by omega)
  have hloop : loop (readsegStep disk (h.pPa + h.pMemsz)) (2 ^ 23 + 1)
      (sectors (bootFile disk) base s m 0, (h.pPa &&& ~~~511#32) + 512 * BitVec.ofNat 32 0,
        h.pOffset / 512 + 1 + BitVec.ofNat 32 0) = some (h.load (bootFile disk) m) := by
    refine loop_of_states (k := k) (x := fun i => (sectors (bootFile disk) base s m i,
      (h.pPa &&& ~~~511#32) + 512 * BitVec.ofNat 32 i, h.pOffset / 512 + 1 + BitVec.ofNat 32 i))
      (fun i hi => ?_) ?_ (by omega)
    · have hlt : (h.pPa &&& ~~~511#32) + 512 * BitVec.ofNat 32 i < h.pPa + h.pMemsz := by
        rw [BitVec.lt_def, hdst i hi.le, hend]
        omega
      simp only [readsegStep, if_pos hlt, readsect_sectors (hdst i hi.le) (hoff i hi.le)
        (by omega) (by omega)]
      rw [BitVec.ofNat_add, BitVec.mul_add, ← BitVec.add_assoc, ← BitVec.add_assoc]
      rfl
    · have hle : ¬(h.pPa &&& ~~~511#32) + 512 * BitVec.ofNat 32 k < h.pPa + h.pMemsz := by
        rw [BitVec.lt_def, hdst k le_rfl, hend]
        omega
      simp only [readsegStep, if_neg hle, hload]
  unfold readseg
  simpa only [hzero, BitVec.mul_zero, BitVec.add_zero] using hloop

/-! ## All segments -/

/-- The memory after the segments `hs` have been read. -/
def loadAll (file : ℕ → Byte) (m : Word → Byte) (hs : List LoadHdr) : Word → Byte :=
  hs.foldl (fun m h => h.load file m) m

theorem loadAll_append (l₁ l₂ : List LoadHdr) :
    loadAll file m (l₁ ++ l₂) = loadAll file (loadAll file m l₁) l₂ := List.foldl_append ..

theorem loadAll_of_not (hs : List LoadHdr) (hnot : ∀ h ∈ hs, ¬h.Covers a) :
    loadAll file m hs a = m a := by
  induction hs generalizing m with
  | nil => rfl
  | cons h hs ih =>
    rw [List.forall_mem_cons] at hnot
    exact (ih hnot.2).trans (if_neg hnot.1)

theorem toNat_elfhdr_add (hi : i ≤ 4096) : (elfhdr + BitVec.ofNat 32 i).toNat = 65536 + i := by
  rw [BitVec.toNat_add, BitVec.toNat_ofNat, show elfhdr.toNat = 65536 from rfl]
  omega

theorem scratch_covers (a : Word) : scratch.Covers a ↔ 65536 ≤ a.toNat ∧ a.toNat < 69632 := by
  unfold LoadHdr.Covers
  rw [show scratch.pPa.toNat = 65536 from rfl, show scratch.pMemsz.toNat = 4096 from rfl]
  omega

/-- The first page of the file stays where it is. -/
theorem loadAll_scratch (file : ℕ → Byte) (hs : List LoadHdr)
    (hclear : ∀ h ∈ hs, ∀ a, h.Covers a → ¬scratch.Covers a) (hi : i < 4096) :
    loadAll file (scratch.load file m) hs (elfhdr + BitVec.ofNat 32 i) = file i := by
  have hnum := toNat_elfhdr_add hi.le
  have hin : scratch.Covers (elfhdr + BitVec.ofNat 32 i) := by
    rw [scratch_covers]
    omega
  rw [loadAll_of_not hs fun h hh hc => hclear h hh _ hc hin, LoadHdr.load, if_pos hin, hnum]
  refine congrArg file ?_
  rw [show scratch.pOffset.toNat = 0 from rfl, show scratch.pPa.toNat = 65536 from rfl]
  omega

theorem elfhdr_add (i j : ℕ) : elfhdr + BitVec.ofNat 32 i + BitVec.ofNat 32 j =
    elfhdr + BitVec.ofNat 32 (i + j) := by rw [BitVec.ofNat_add, BitVec.add_assoc]

theorem loadWord_scratch (hm : ∀ j < 4096, m (elfhdr + BitVec.ofNat 32 j) = file j)
    (hi : i + 4 ≤ 4096) : loadWord m (elfhdr + BitVec.ofNat 32 i) = fileWord file i := by
  unfold loadWord fileWord
  rw [show (3 : Word) = BitVec.ofNat 32 3 from rfl, show (2 : Word) = BitVec.ofNat 32 2 from rfl,
    show (1 : Word) = BitVec.ofNat 32 1 from rfl, elfhdr_add, elfhdr_add, elfhdr_add]
  rw [hm _ (by omega), hm _ (by omega), hm _ (by omega), hm _ (by omega)]

theorem readLoadHdr_scratch (hm : ∀ j < 4096, m (elfhdr + BitVec.ofNat 32 j) = file j)
    (hi : i + 32 ≤ 4096) :
    readLoadHdr m (elfhdr + BitVec.ofNat 32 i) = loadHdrAt file i := by
  unfold readLoadHdr loadHdrAt
  rw [show (12 : Word) = BitVec.ofNat 32 12 from rfl,
    show (20 : Word) = BitVec.ofNat 32 20 from rfl, show (4 : Word) = BitVec.ofNat 32 4 from rfl,
    elfhdr_add, elfhdr_add, elfhdr_add]
  rw [loadWord_scratch hm (by omega), loadWord_scratch hm (by omega),
    loadWord_scratch hm (by omega)]

/-- Where the loader finds the program header number `i`. -/
def phAddr (file : ℕ → Byte) (i : ℕ) : Word :=
  elfhdr + BitVec.ofNat 32 ((ePhoff file).toNat + 32 * i)

theorem phAddr_zero (file : ℕ → Byte) : phAddr file 0 = elfhdr + ePhoff file := by
  rw [phAddr, Nat.mul_zero, Nat.add_zero, BitVec.ofNat_toNat, BitVec.setWidth_eq]

theorem phAddr_succ (file : ℕ → Byte) (i : ℕ) : phAddr file (i + 1) = phAddr file i + 32 := by
  rw [phAddr, phAddr, Nat.mul_succ, ← Nat.add_assoc, BitVec.ofNat_add _ 32, ← BitVec.add_assoc]
  rfl

/-- The end of the program headers. -/
theorem phAddr_ePhnum (file : ℕ → Byte) : phAddr file (ePhnum file).toNat =
    elfhdr + ePhoff file + 32 * (ePhnum file).setWidth 32 := by
  rw [phAddr, BitVec.ofNat_add, BitVec.ofNat_mul, BitVec.ofNat_toNat, BitVec.ofNat_toNat,
    BitVec.setWidth_eq, BitVec.add_assoc]
  rfl

/-- Loading a segment does not change the scratch page. -/
theorem Bootable.clear (hb : Bootable n file) (hh : h ∈ loadHdrs file) (a : Word)
    (hc : h.Covers a) : ¬scratch.Covers a := by
  have hlo : 0x100000 ≤ h.pPa.toNat := hb.lo h hh
  have ha := hc.1
  rw [scratch_covers]
  omega

theorem Bootable.toNat_phAddr (hb : Bootable n file) (hi : i ≤ (ePhnum file).toNat) :
    (phAddr file i).toNat = 65536 + (ePhoff file).toNat + 32 * i := by
  have htable := hb.table
  rw [phAddr, toNat_elfhdr_add (by omega), Nat.add_assoc]

theorem getElem?_loadHdrs (hi : i < (ePhnum file).toNat) :
    (loadHdrs file)[i]? = some (loadHdrAt file ((ePhoff file).toNat + 32 * i)) := by
  simp [loadHdrs, offsets, hi]

theorem length_loadHdrs (file : ℕ → Byte) : (loadHdrs file).length = (ePhnum file).toNat := by
  simp [loadHdrs, offsets]

/-- The memory after the first `i` segments have been read. -/
def loadedUpTo (file : ℕ → Byte) (m : Word → Byte) (i : ℕ) : Word → Byte :=
  loadAll file (scratch.load file m) ((loadHdrs file).take i)

theorem loadedUpTo_zero (file : ℕ → Byte) (m : Word → Byte) :
    loadedUpTo file m 0 = scratch.load file m := by
  rw [loadedUpTo, List.take_zero, loadAll, List.foldl_nil]

/-- One turn of the loop of `bootmain` reads one segment. -/
theorem Bootable.bootStep_turn (hb : Bootable n (bootFile disk)) (hn : n < 2 ^ 20) (m : Word → Byte)
    (hi : i < (ePhnum (bootFile disk)).toNat) :
    bootStep disk (phAddr (bootFile disk) (ePhnum (bootFile disk)).toNat)
        (loadedUpTo (bootFile disk) m i, phAddr (bootFile disk) i) =
      .inr (loadedUpTo (bootFile disk) m (i + 1), phAddr (bootFile disk) (i + 1)) := by
  have htable := hb.table
  have hget := getElem?_loadHdrs hi
  have hlt : phAddr (bootFile disk) i <
      phAddr (bootFile disk) (ePhnum (bootFile disk)).toNat := by
    rw [BitVec.lt_def, hb.toNat_phAddr hi.le, hb.toNat_phAddr le_rfl]
    omega
  -- the scratch page still has the headers
  have hread : readLoadHdr (loadedUpTo (bootFile disk) m i) (phAddr (bootFile disk) i) =
      loadHdrAt (bootFile disk) ((ePhoff (bootFile disk)).toNat + 32 * i) :=
    readLoadHdr_scratch (fun _ hj => loadAll_scratch _ _
      (fun _ hh => hb.clear (List.mem_of_mem_take hh)) hj) (by omega)
  have hhi := hb.hi _ (List.mem_of_getElem? hget)
  simp only [bootStep, if_pos hlt, hread, readseg_eq (hhi.trans (by omega))]
  rw [phAddr_succ, loadedUpTo, loadedUpTo, List.take_add_one, hget, Option.toList_some,
    loadAll_append]
  rfl

/-- The loop of `bootmain` reads the segments in the order of their headers. -/
theorem bootLoop_eq (hb : Bootable n (bootFile disk)) (hn : n < 2 ^ 20) (m : Word → Byte) :
    loop (bootStep disk (elfhdr + ePhoff (bootFile disk) +
        32 * (ePhnum (bootFile disk)).setWidth 32)) (2 ^ 16)
      (scratch.load (bootFile disk) m, elfhdr + ePhoff (bootFile disk)) =
    some (some (loadAll (bootFile disk) (scratch.load (bootFile disk) m)
      (loadHdrs (bootFile disk)))) := by
  have hall : loadedUpTo (bootFile disk) m (ePhnum (bootFile disk)).toNat =
      loadAll (bootFile disk) (scratch.load (bootFile disk) m) (loadHdrs (bootFile disk)) := by
    rw [loadedUpTo, List.take_of_length_le (length_loadHdrs _).le]
  have hfuel : (ePhnum (bootFile disk)).toNat < 2 ^ 16 := (ePhnum (bootFile disk)).isLt
  rw [← phAddr_ePhnum, ← phAddr_zero, ← hall, ← loadedUpTo_zero]
  generalize 2 ^ 16 = fuel at hfuel ⊢
  exact loop_of_states
    (x := fun i => (loadedUpTo (bootFile disk) m i, phAddr (bootFile disk) i))
    (fun i hi => hb.bootStep_turn hn m hi) (if_neg (BitVec.lt_irrefl _)) hfuel

theorem bootLoaded_loadAll (hb : Bootable n file) (hn : n < 2 ^ 20) (m : Word → Byte) :
    BootLoaded file m (loadAll file (scratch.load file m) (loadHdrs file)) where
  segment l₁ h l₂ heq hmod i hi hlast := by
    have hmem : h ∈ loadHdrs file := heq ▸ List.mem_append_right _ List.mem_cons_self
    have hfit := hb.hi h hmem
    have hnum : (h.pPa + BitVec.ofNat 32 i).toNat = h.pPa.toNat + i := by
      rw [BitVec.toNat_add, BitVec.toNat_ofNat]
      omega
    have hcov : h.Covers (h.pPa + BitVec.ofNat 32 i) := by
      unfold LoadHdr.Covers
      omega
    rw [heq, loadAll_append]
    refine (loadAll_of_not l₂ hlast).trans ((if_pos hcov).trans (congrArg file ?_))
    rw [hnum]
    omega
  header i hi := loadAll_scratch file _ (fun _ hh => hb.clear hh) hi
  outside a hout hnot := (loadAll_of_not _ hnot).trans (if_neg hout)

/-- The boot loader loads a kernel that fits and calls its entry point. -/
theorem bootmain_loads (hb : Bootable n (bootFile disk)) (hn : n < 2 ^ 20) (m : Word → Byte) :
    ∃ m', bootmain disk m = some (eEntry (bootFile disk), m') ∧
      BootLoaded (bootFile disk) m m' := by
  have hpage : readseg disk m elfhdr (512 * 8) 0 = some (scratch.load (bootFile disk) m) :=
    readseg_eq (h := scratch) (by decide) m
  have hfirst : ∀ j < 4096, scratch.load (bootFile disk) m (elfhdr + BitVec.ofNat 32 j) =
      bootFile disk j := fun j hj => by
    simpa only [loadAll, List.foldl_nil] using
      loadAll_scratch (m := m) (bootFile disk) [] (by simp) hj
  have hmagic : loadWord (scratch.load (bootFile disk) m) elfhdr = elfMagic :=
    (loadWord_scratch (i := 0) hfirst (by omega)).trans hb.magic
  have hphoff : loadWord (scratch.load (bootFile disk) m) (elfhdr + 28) =
      ePhoff (bootFile disk) := loadWord_scratch (i := 28) hfirst (by omega)
  have hphnum : scratch.load (bootFile disk) m (elfhdr + 45) ++
      scratch.load (bootFile disk) m (elfhdr + 44) = ePhnum (bootFile disk) :=
    congrArg₂ _ (hfirst 45 (by omega)) (hfirst 44 (by omega))
  have hloaded := bootLoaded_loadAll hb hn m
  have hentry : loadWord (loadAll (bootFile disk) (scratch.load (bootFile disk) m)
      (loadHdrs (bootFile disk))) (elfhdr + 24) = eEntry (bootFile disk) :=
    loadWord_scratch (i := 24) hloaded.header (by omega)
  refine ⟨_, ?_, hloaded⟩
  simp only [bootmain, hpage, hmagic, hphoff, hphnum, bootLoop_eq hb hn, hentry,
    Option.bind_eq_bind, Option.bind_some, Option.join_some, if_true, Option.pure_def]

/-! ## From the disk to the first environments -/

/-- `memset(edata, 0, end - edata)`, with which `i386_init` begins, at the physical addresses. -/
def KernelImage.clearBss (img : KernelImage) (edata : Word) (m : Word → Byte) : Word → Byte :=
  fun a => if edata - kernbase ≤ a ∧ a < img.endAddr - kernbase then 0 else m a

/-- The memory when `mem_init` is called. At the addresses `own` the kernel has written by then:
its stack and its variables. -/
def KernelImage.Cleared (img : KernelImage) (edata : Word) (own : Set Word) (m : Word → Byte)
    (m₀ : Mem n) : Prop :=
  ∀ (p : Fin n) (o : Fin 4096), page2pa p + BitVec.ofNat 32 o ∉ own →
    m₀.frame p o = img.clearBss edata m (page2pa p + BitVec.ofNat 32 o)

/-- The program is in a segment of the kernel, before BSS, and no later segment is read over it. -/
structure Program.InSegment (file : ℕ → Byte) (edata : Word) (own : Set Word) (prog : Program) :
    Prop where
  lo : kernbase.toNat + extphysmem.toNat ≤ prog.binary.toNat
  hi : prog.binary.toNat + prog.len ≤ edata.toNat
  segment : ∃ l₁ h l₂ j, loadHdrs file = l₁ ++ h :: l₂ ∧
    h.pPa.toNat % 512 = h.pOffset.toNat % 512 ∧
    prog.binary.toNat = kernbase.toNat + (h.pPa.toNat + j) ∧ j + prog.len ≤ h.pMemsz.toNat ∧
    ∀ i < prog.len, file (h.pOffset.toNat + (j + i)) = prog.file i ∧
      ∀ h' ∈ l₂, ¬h'.Covers (h.pPa + BitVec.ofNat 32 (j + i))
  apart : ∀ i < prog.len, prog.binary - kernbase + BitVec.ofNat 32 i ∉ own

section
variable {img : KernelImage} {edata : Word} {own : Set Word} {m₀ : Mem n} {prog : Program}

/-- What the boot loader has read is what the kernel finds. -/
theorem BootLoaded.linked (hl : BootLoaded file m m') (hend : edata ≤ img.endAddr)
    (hclear : img.Cleared edata own m' m₀) (hp : prog.InSegment file edata own) :
    img.Linked m₀ prog where
  lo := hp.lo
  hi := hp.hi.trans hend
  bytes i hi p hpage := by
    obtain ⟨l₁, h, l₂, j, heq, hmod, hbin, hlen, hbytes⟩ := hp.segment
    have hbase : kernbase.toNat = 0xf0000000 := rfl
    have hlo := hp.lo
    have hhi := hp.hi
    have hlt := edata.isLt
    have hpa : (prog.binary - kernbase).toNat = h.pPa.toNat + j := by
      rw [BitVec.toNat_sub_of_le (by rw [BitVec.le_def]; omega), hbin]
      omega
    have haddr : prog.binary - kernbase + BitVec.ofNat 32 i = h.pPa + BitVec.ofNat 32 (j + i) := by
      apply BitVec.eq_of_toNat_eq
      rw [BitVec.toNat_add, BitVec.toNat_add, BitVec.toNat_ofNat, BitVec.toNat_ofNat, hpa]
      omega
    have hnum : (prog.binary - kernbase + BitVec.ofNat 32 i).toNat =
        prog.binary.toNat + i - kernbase.toNat := by
      rw [BitVec.toNat_add, BitVec.toNat_ofNat, hpa]
      omega
    have hoff : (pgoff (prog.binary + BitVec.ofNat 32 i) : ℕ) = (prog.binary.toNat + i) % 4096 := by
      simp only [pgoff, BitVec.toNat_add, BitVec.toNat_ofNat]
      omega
    have hcell : page2pa p + BitVec.ofNat 32 (pgoff (prog.binary + BitVec.ofNat 32 i)) =
        prog.binary - kernbase + BitVec.ofNat 32 i := by
      apply BitVec.eq_of_toNat_eq
      rw [hnum, BitVec.toNat_add, BitVec.toNat_ofNat, page2pa, BitVec.toNat_ofNat, hoff, hpage]
      omega
    have hbss : ¬(edata - kernbase ≤ prog.binary - kernbase + BitVec.ofNat 32 i ∧
        prog.binary - kernbase + BitVec.ofNat 32 i < img.endAddr - kernbase) := by
      intro hc
      have hle := hc.1
      rw [BitVec.le_def, hnum, BitVec.toNat_sub_of_le (by rw [BitVec.le_def]; omega)] at hle
      omega
    rw [hclear p _ (by rw [hcell]; exact hp.apart i hi), hcell, KernelImage.clearBss, if_neg hbss,
      haddr, ← (hbytes i hi).1]
    exact hl.segment l₁ h l₂ heq hmod (j + i) (by omega) (hbytes i hi).2

/-- From a disk with a kernel that fits, the boot loader calls its entry point, and `i386_init`
then creates an environment for each program in the kernel, if the memory behind the kernel is
zero. -/
theorem bootmain_booted {envs : EnvIx → Env n} (zero : ZeroEnvs envs)
    (hb : Bootable n (bootFile disk)) (m : Word → Byte) (fits : img.Fits n)
    (mp : MpInfo) (hcpu : mp.ncpu ≤ 8) (hlapic : mp.lapicaddr.toNat % 4096 = 0)
    (code : List Byte) (progs : List Program) (hlen : progs.length ≤ 1024)
    (room : img.nextPage n + (progs.map Program.cost).sum < n) (hend : edata ≤ img.endAddr)
    (hprogs : ∀ prog ∈ progs, prog.InSegment (bootFile disk) edata own) :
    ∃ m', bootmain disk m = some (eEntry (bootFile disk), m') ∧ BootLoaded (bootFile disk) m m' ∧
      ∀ m₀ : Mem n, img.Cleared edata own m' m₀ → ∀ pp1 pp2, ∃ k,
        i386Init img mp code (progs.map Program.binary) envs m₀ pp1 pp2 =
          OptionT.mk (.ok (some k)) ∧ img.Booted mp code progs k := by
  obtain ⟨m', hrun, hloaded⟩ := bootmain_loads hb (fits.small.trans_lt (by decide)) m
  refine ⟨m', hrun, hloaded, fun m₀ hclear pp1 pp2 => ?_⟩
  have linked : ∀ prog ∈ progs, img.Linked m₀ prog := fun prog hp =>
    hloaded.linked hend hclear (hprogs prog hp)
  obtain ⟨m₁, hready, hcode, hinit⟩ :=
    i386Init_ok zero fits mp hcpu hlapic code (progs.map Program.binary) m₀ pp1 pp2
  obtain ⟨k, hk, hbooted⟩ := hready.envCreates fits mp hcode linked hlen room
  exact ⟨k, hinit k hk, hbooted⟩

/-- A disk whose kernel has one segment, which is a program. -/
def tinyDisk (o : ℕ) : Byte :=
  if o < 4608 then
    (([elfMagic, 0, 0, 0, 0, 0, 0x10000c, 52, 0, 0, 0, 1, 0, 1, 4096, 0xf0120000, 0x120000, 156,
      156] : List Word).getD ((o - 512) / 4) 0).extractLsb' (8 * (o % 4)) 8
  else tinyFile (o - 4608)

theorem loadHdrs_tinyDisk : loadHdrs (bootFile tinyDisk) = [⟨0x120000, 156, 4096⟩] := by decide

theorem bootable_tinyDisk : Bootable (i386DetectMemory 640 3072).1 (bootFile tinyDisk) where
  magic := by decide
  table := by decide
  lo := by
    rw [loadHdrs_tinyDisk]
    decide
  hi := by
    rw [loadHdrs_tinyDisk]
    decide

/-- It lies between the kernel's stack and BSS. -/
theorem inSegment_tinyProgram : tinyProgram.InSegment (bootFile tinyDisk) 0xf0130000
    {a | 0x110000 ≤ a.toNat ∧ a.toNat < 0x118000} where
  lo := by decide
  hi := by decide
  segment := by
    refine ⟨[], _, [], 0, loadHdrs_tinyDisk, rfl, rfl, by decide, fun i _ => ⟨?_, nofun⟩⟩
    have hoff : (4096 : Word).toNat = 4096 := rfl
    rw [bootFile, tinyDisk, hoff, if_neg (by omega)]
    exact congrArg tinyFile (by omega)
  apart i hi hc := by
    have hlt : i < 156 := hi
    have hpa : (tinyProgram.binary - kernbase).toNat = 1179648 := rfl
    have hhi := hc.2
    rw [BitVec.toNat_add, BitVec.toNat_ofNat, hpa] at hhi
    omega

/-- Memory of 4 MB whose BSS has been cleared. -/
def clearedMem (m : Word → Byte) : Mem (i386DetectMemory 640 3072).1 :=
  { resetMem with
    frame := fun p o =>
      smallImage.clearBss 0xf0130000 m (page2pa p + BitVec.ofNat 32 o) }

theorem bootmain_booted_tiny : ∃ m' k, bootmain tinyDisk (fun _ => 0) = some (0x10000c, m') ∧
    BootLoaded (bootFile tinyDisk) (fun _ => 0) m' ∧
      i386Init smallImage ⟨2, 0, 0xfee00000⟩ [0xfa, 0xf4] [tinyProgram.binary] (fun _ => .zero)
        (clearedMem m') none none = OptionT.mk (.ok (some k)) ∧
      smallImage.Booted ⟨2, 0, 0xfee00000⟩ [0xfa, 0xf4] [tinyProgram] k := by
  obtain ⟨m', hrun, hloaded, hstart⟩ := bootmain_booted (fun _ => rfl) bootable_tinyDisk
    (fun _ => 0) fits_smallImage ⟨2, 0, 0xfee00000⟩ (by decide) (by decide) [0xfa, 0xf4]
    [tinyProgram] (by decide) (by rw [List.map_singleton, cost_tinyProgram]; decide) (by decide)
    (List.forall_mem_singleton.mpr inSegment_tinyProgram)
  obtain ⟨k, hk, hbooted⟩ := hstart (clearedMem m') (fun _ _ _ => rfl) none none
  exact ⟨m', k, hrun, hloaded, hk, hbooted⟩

end

end JosKernel
