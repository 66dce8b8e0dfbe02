import JosKernel.Env.Loaded
import JosKernel.Env.Regions
import JosKernel.Env.SelfMap

/-!
# Loading a program

`load_icode` of `kern/env.c`. The binary is part of the kernel image. Its headers are read from
there through the page directory in force, which is that of the new environment while the segments
are loaded.

`file` gives the bytes of the binary; the headers and segments of a file are parsed from it. The
code builds the image that they describe, one segment after the other: what is mapped and stored
for a segment stays as it is, since the pages of the others are different ones.
-/
namespace JosKernel

open Lib

variable {n : Nat}

/-! ## The code -/

/-- A page fault of the kernel is fatal. -/
def orFault {α : Type} : Option α → Except Panic α
  | some a => .ok a
  | none => .error .kernelPageFault

/-- A load of two bytes, least byte first. -/
def Mem.loadHalf (m : Mem n) (cr3 : Fin n) (va : Word) (user : Bool) : Option (BitVec 16) := do
  let b0 ← m.loadByte cr3 va user
  let b1 ← m.loadByte cr3 (va + 1) user
  pure (b1 ++ b0)

def readWord (m : Mem n) (cr3 : Fin n) (a : Word) : Except Panic Word :=
  orFault (m.loadWord cr3 a false)

def readHalf (m : Mem n) (cr3 : Fin n) (a : Word) : Except Panic (BitVec 16) :=
  orFault (m.loadHalf cr3 a false)

def elfMagic : Word := 0x464C457F
def elfProgLoad : Word := 1

/-- The fields of `struct Proghdr` that the kernel uses. -/
structure Proghdr where
  pType : Word
  pOffset : Word
  pVa : Word
  pFilesz : Word
  pMemsz : Word
  deriving DecidableEq

def readProghdr (m : Mem n) (cr3 : Fin n) (ph : Word) : Except Panic Proghdr := do
  let pType ← readWord m cr3 ph
  let pOffset ← readWord m cr3 (ph + 4)
  let pVa ← readWord m cr3 (ph + 8)
  let pFilesz ← readWord m cr3 (ph + 16)
  let pMemsz ← readWord m cr3 (ph + 20)
  pure ⟨pType, pOffset, pVa, pFilesz, pMemsz⟩

/-- The body of the loop over the program headers. The header is read again after each call, which
could have overwritten it. -/
def loadSegment (m : Mem n) (pgdir : Fin n) (binary ph : Word) : Except Panic (Mem n) := do
  let h ← readProghdr m pgdir ph
  if h.pFilesz > h.pMemsz then throw .loadIcode
  else if h.pType = elfProgLoad then do
    let m ← regionAlloc m pgdir h.pVa h.pMemsz
    let h ← readProghdr m pgdir ph
    let m ← orFault (m.memset pgdir h.pVa 0 h.pMemsz)
    let h ← readProghdr m pgdir ph
    orFault (m.memcpy pgdir h.pVa (binary + h.pOffset) h.pFilesz)
  else pure m

def loadSegments (m : Mem n) (pgdir : Fin n) (binary : Word) : List Word → Except Panic (Mem n)
  | [] => pure m
  | ph :: phs => do
    let m ← loadSegment m pgdir binary ph
    loadSegments m pgdir binary phs

/-- The addresses visited by `for (; ph < eph; ph++)`. -/
def proghdrs (ph eph : Word) : List Word :=
  (List.range ((eph.toNat - ph.toNat) / 32)).map fun i => ph + BitVec.ofNat 32 (32 * i)

/-- `load_icode` on CPU `c`. -/
def loadIcode (k : Kernel n) (c : Cpu) (e : EnvIx) (binary : Word) : Except Panic (Kernel n) := do
  let cr3 := (k.cpus c).cr3
  -- `e_magic`, `e_phoff` and `e_phnum`
  let magic ← readWord k.mem cr3 binary
  if magic ≠ elfMagic then throw .loadIcode
  else do
    let phoff ← readWord k.mem cr3 (binary + 28)
    let phnum ← readHalf k.mem cr3 (binary + 44)
    let ph := binary + phoff
    let eph := ph + 32 * phnum.setWidth 32
    match (k.envs e).envPgdir with
    | none => throw .paddr
    | some pgdir => do
      let k := k.modCpu c fun cpu => { cpu with cr3 := pgdir }
      let m ← loadSegments k.mem pgdir binary (proghdrs ph eph)
      let k := { k with mem := m }.modCpu c fun cpu => { cpu with cr3 := m.kernPgdir }
      -- `e_entry`
      let entry ← readWord k.mem m.kernPgdir (binary + 24)
      let k := k.modEnv e fun env => { env with envTf := { env.envTf with tfEip := entry } }
      let m ← regionAlloc k.mem pgdir (ustacktop - pgsize) pgsize
      pure { k with mem := m }

/-! ## Binaries -/

def fileWord (file : ℕ → Byte) (i : ℕ) : Word :=
  file (i + 3) ++ file (i + 2) ++ file (i + 1) ++ file i

def fileHalf (file : ℕ → Byte) (i : ℕ) : BitVec 16 := file (i + 1) ++ file i

def ePhoff (file : ℕ → Byte) : Word := fileWord file 28
def ePhnum (file : ℕ → Byte) : BitVec 16 := fileHalf file 44
def eEntry (file : ℕ → Byte) : Word := fileWord file 24

/-- The program header at the offset `o`. -/
def proghdrAt (file : ℕ → Byte) (o : ℕ) : Proghdr :=
  ⟨fileWord file o, fileWord file (o + 4), fileWord file (o + 8), fileWord file (o + 16),
    fileWord file (o + 20)⟩

/-- The offsets of the program headers. -/
def offsets (file : ℕ → Byte) : List ℕ :=
  (List.range (ePhnum file).toNat).map fun i => (ePhoff file).toNat + 32 * i

def headers (file : ℕ → Byte) : List Proghdr := (offsets file).map (proghdrAt file)

/-- The segments whose headers are at the offsets `os`. -/
def segmentsAt (file : ℕ → Byte) (os : List ℕ) : List Proghdr :=
  (os.map (proghdrAt file)).filter fun ph => ph.pType = elfProgLoad

def segments (file : ℕ → Byte) : List Proghdr := segmentsAt file (offsets file)

namespace Proghdr

/-- The page with these indices holds a byte of the segment. -/
def Touches (ph : Proghdr) (d t : Fin 1024) : Prop :=
  ∃ k < ph.pMemsz.toNat, d = pdx (ph.pVa + BitVec.ofNat 32 k) ∧ t = ptx (ph.pVa + BitVec.ofNat 32 k)

/-- The addresses of the pages that `region_alloc` maps for the segment. -/
def pages (ph : Proghdr) : List Word :=
  Mem.pageRange (roundDown ph.pVa pgsize) (roundUp (ph.pVa + ph.pMemsz) pgsize)

/-- The segment is in user memory: first its bytes in the file, then zeros. -/
structure LoadedIn (ph : Proghdr) (m : Mem n) (g : Fin n) (file : ℕ → Byte) : Prop where
  copied : ∀ k < ph.pFilesz.toNat,
    m.loadByte g (ph.pVa + BitVec.ofNat 32 k) true = some (file (ph.pOffset.toNat + k))
  cleared : ∀ k < ph.pMemsz.toNat, ph.pFilesz.toNat ≤ k →
    m.loadByte g (ph.pVa + BitVec.ofNat 32 k) true = some 0

end Proghdr

/-- The segment lies below the stack page and takes at least one byte. -/
structure Proghdr.Ok (ph : Proghdr) (len : ℕ) : Prop where
  pos : 0 < ph.pMemsz.toNat
  user : ph.pVa.toNat + ph.pMemsz.toNat ≤ (ustacktop - pgsize).toNat
  contents : ph.pFilesz ≤ ph.pMemsz → ph.pOffset.toNat + ph.pFilesz.toNat ≤ len

/-- No page belongs to both segments. -/
def Proghdr.Apart (ph ph' : Proghdr) : Prop := ∀ d t, ph.Touches d t → ¬ph'.Touches d t

theorem Proghdr.Apart.symm {ph ph' : Proghdr} (h : ph.Apart ph') : ph'.Apart ph :=
  fun d t hdt hdt' => h d t hdt' hdt

/-- A file of `len` bytes with headers as `load_icode` expects them. -/
structure Layout (file : ℕ → Byte) (len : ℕ) : Prop where
  magic : fileWord file 0 = elfMagic
  header : 52 ≤ len
  table : (ePhoff file).toNat + 32 * (ePhnum file).toNat ≤ len
  ok : ∀ ph ∈ segments file, ph.Ok len
  apart : (segments file).Pairwise Proghdr.Apart

/-- The addresses of all pages that are mapped for the program. -/
def filePages (file : ℕ → Byte) : List Word :=
  (segments file).flatMap Proghdr.pages ++ [ustacktop - pgsize]

/-- A page of the program: it belongs to a segment, or it is the stack. -/
def OfProgram (file : ℕ → Byte) (d t : Fin 1024) : Prop :=
  (∃ ph ∈ segments file, ph.Touches d t) ∨
    d = pdx (ustacktop - pgsize) ∧ t = ptx (ustacktop - pgsize)

/-- The address space that the file describes. -/
structure Image (file : ℕ → Byte) (m : Mem n) (g : Fin n) (v : Fin 1024 → Fin 1024 → Word) :
    Prop where
  loaded : ∀ ph ∈ segments file, ph.LoadedIn m g file
  mapped : ∀ d t, OfProgram file d t → ∃ pp : Fin n, v d t = newPte pp (pteW ||| pteU)
  others : ∀ d t, ¬OfProgram file d t → present (v d t) = false

/-- The file is in the kernel image at the address `binary`. -/
structure KernelFile (S : Set (Fin n)) (m : Mem n) (binary : Word) (file : ℕ → Byte) (len : ℕ) :
    Prop where
  top : binary.toNat + len < 2 ^ 32
  bytes : ∀ i < len, ∃ p, InKernel S m (binary + BitVec.ofNat 32 i) p ∧
    m.frame p (pgoff (binary + BitVec.ofNat 32 i)) = file i

/-- Stores are part of loading. -/
theorem Load.stores {g : Fin n} {m m₁ m₂ : Mem n} (h : Load g m m₁) (hs : Stores g m₁ m₂) :
    Load g m m₂ := by
  induction hs with
  | refl => exact h
  | tail _ hst ih =>
    obtain ⟨a, ha, b, hok⟩ := hst
    exact .store ih ha hok

/-! ## Pages of a segment -/

theorem indices_iff {a : Word} {d t : Fin 1024} :
    d = pdx a ∧ t = ptx a ↔ (d : ℕ) * 1024 + t = a.toNat / 4096 := by
  simp only [Fin.ext_iff, pdx, ptx]
  omega

/-- The pages that `region_alloc` visits. -/
theorem mem_region {va len a : Word} (h : va.toNat + len.toNat ≤ 0xfffff000) :
    a ∈ Mem.pageRange (roundDown va pgsize) (roundUp (va + len) pgsize) ↔
      a.toNat % 4096 = 0 ∧ va.toNat / 4096 ≤ a.toNat / 4096 ∧ a.toNat < va.toNat + len.toNat := by
  have hsum : (va + len).toNat = va.toNat + len.toNat := by
    rw [BitVec.toNat_add]
    omega
  have ha := a.isLt
  have hva := va.isLt
  simp only [Mem.pageRange, List.mem_map, List.mem_range, toNat_roundUp, toNat_roundDown, hsum]
  constructor
  · rintro ⟨i, hi, rfl⟩
    rw [BitVec.toNat_add, toNat_roundDown, BitVec.toNat_ofNat]
    omega
  · rintro ⟨hal, hlo, hhi⟩
    refine ⟨a.toNat / 4096 - va.toNat / 4096, by omega, BitVec.eq_of_toNat_eq ?_⟩
    rw [BitVec.toNat_add, toNat_roundDown, BitVec.toNat_ofNat]
    omega

/-- No page is visited twice. -/
theorem pairwise_region {va len : Word} (h : va.toNat + len.toNat ≤ 0xfffff000) :
    (Mem.pageRange (roundDown va pgsize) (roundUp (va + len) pgsize)).Pairwise
      fun a a' => ¬(pdx a = pdx a' ∧ ptx a = ptx a') := by
  have hsum : (va + len).toNat = va.toNat + len.toNat := by
    rw [BitVec.toNat_add]
    omega
  refine List.pairwise_map.mpr (List.pairwise_lt_range.imp_of_mem fun {i j} hi hj hij => ?_)
  rw [List.mem_range, toNat_roundUp, toNat_roundDown, hsum] at hi hj
  rw [indices_iff]
  simp only [pdx, ptx, BitVec.toNat_add, toNat_roundDown, BitVec.toNat_ofNat]
  omega

namespace Proghdr

variable {ph ph' : Proghdr} {len : ℕ} {d t : Fin 1024} {a : Word} {k : ℕ}

theorem Ok.le (ok : ph.Ok len) : ph.pVa.toNat + ph.pMemsz.toNat ≤ 0xeebfd000 := ok.user

theorem Ok.toNat_add (ok : ph.Ok len) (hk : k < ph.pMemsz.toNat) :
    (ph.pVa + BitVec.ofNat 32 k).toNat = ph.pVa.toNat + k := by
  have := ok.le
  rw [BitVec.toNat_add, BitVec.toNat_ofNat]
  omega

theorem Ok.lt_utop (ok : ph.Ok len) (hk : k < ph.pMemsz.toNat) :
    ph.pVa + BitVec.ofNat 32 k < utop := by
  have := ok.le
  rw [BitVec.lt_def, ok.toNat_add hk, toNat_utop]
  omega

theorem Ok.mem_pages (ok : ph.Ok len) : a ∈ ph.pages ↔ a.toNat % 4096 = 0 ∧
    ph.pVa.toNat / 4096 ≤ a.toNat / 4096 ∧ a.toNat < ph.pVa.toNat + ph.pMemsz.toNat := by
  have hle := ok.le
  exact mem_region (by omega)

/-- The pages that are mapped for a segment are those that it touches. -/
theorem Ok.touches_iff (ok : ph.Ok len) :
    ph.Touches d t ↔ ∃ a ∈ ph.pages, d = pdx a ∧ t = ptx a := by
  have hle := ok.le
  have hpos := ok.pos
  simp only [ok.mem_pages, Touches, indices_iff]
  constructor
  · rintro ⟨k, hk, hdt⟩
    rw [ok.toNat_add hk] at hdt
    refine ⟨BitVec.ofNat 32 ((ph.pVa.toNat + k) / 4096 * 4096), ?_⟩
    rw [BitVec.toNat_ofNat]
    omega
  · rintro ⟨a, ⟨hal, hlo, hhi⟩, hdt⟩
    have hk : a.toNat - ph.pVa.toNat < ph.pMemsz.toNat := by omega
    refine ⟨a.toNat - ph.pVa.toNat, hk, ?_⟩
    rw [ok.toNat_add hk]
    omega

theorem Ok.lt_of_mem_pages (ok : ph.Ok len) (ha : a ∈ ph.pages) : a < utop := by
  have hle := ok.le
  obtain ⟨-, -, hlt⟩ := ok.mem_pages.mp ha
  rw [BitVec.lt_def, toNat_utop]
  omega

theorem Ok.pairwise_pages (ok : ph.Ok len) :
    ph.pages.Pairwise fun a a' => ¬(pdx a = pdx a' ∧ ptx a = ptx a') := by
  have hle := ok.le
  exact pairwise_region (by omega)

/-- An address in the segment is given by its offset. -/
theorem Ok.offset (ok : ph.Ok len) (hk : k < ph.pMemsz.toNat) :
    (ph.pVa + BitVec.ofNat 32 k - ph.pVa).toNat = k := by
  have := ok.le
  rw [BitVec.toNat_sub, ok.toNat_add hk]
  omega

/-- Addresses of other segments are not in this one. -/
theorem not_lt_of_apart (apart : ph.Apart ph') (hk : k < ph'.pMemsz.toNat) :
    ¬(ph'.pVa + BitVec.ofNat 32 k - ph.pVa).toNat < ph.pMemsz.toNat := by
  intro hlt
  refine apart (pdx (ph'.pVa + BitVec.ofNat 32 k)) (ptx (ph'.pVa + BitVec.ofNat 32 k))
    ⟨_, hlt, ?_⟩ ⟨k, hk, rfl, rfl⟩
  rw [BitVec.ofNat_toNat, BitVec.setWidth_eq, BitVec.add_comm ph.pVa, BitVec.sub_add_cancel]
  exact ⟨rfl, rfl⟩

end Proghdr

/-! ## Reading the binary -/

section
variable {ι : Type} [Fintype ι] {S : Set (Fin n)} {dirs : ι → Option (Fin n)} {m m' : Mem n}
  {g : Fin n} {binary : Word} {file : ℕ → Byte} {len i : ℕ}

namespace KernelFile

omit [Fintype ι] in
theorem congr (h : KernelFile S m binary file len) (hk : m'.kernPgdir = m.kernPgdir)
    (hkern : m.kernPgdir ∉ S) (hf : ∀ q, q ∉ S → m'.frame q = m.frame q) :
    KernelFile S m' binary file len := by
  refine ⟨h.top, fun i hi => ?_⟩
  obtain ⟨p, hp, hbyte⟩ := h.bytes i hi
  exact ⟨p, hp.congr hk hkern hf, by rw [hf p hp.page, hbyte]⟩

theorem loadByte (h : KernelFile S m binary file len) (inv : MemInv S dirs 0 ∅ m)
    (hg : g = m.kernPgdir ∨ ∃ e, dirs e = some g) (hi : i < len) :
    m.loadByte g (binary + BitVec.ofNat 32 i) false = some (file i) := by
  obtain ⟨p, hp, hbyte⟩ := h.bytes i hi
  rw [inv.loadByte_kernel hg hp, hbyte]

theorem readWord (h : KernelFile S m binary file len) (inv : MemInv S dirs 0 ∅ m)
    (hg : g = m.kernPgdir ∨ ∃ e, dirs e = some g) (hi : i + 4 ≤ len) :
    JosKernel.readWord m g (binary + BitVec.ofNat 32 i) = .ok (fileWord file i) := by
  have hbyte : ∀ j < 4, m.loadByte g (binary + BitVec.ofNat 32 i + BitVec.ofNat 32 j) false =
      some (file (i + j)) := by
    intro j hj
    rw [BitVec.add_assoc, ← BitVec.ofNat_add]
    exact h.loadByte inv hg (by omega)
  have h0 := hbyte 0 (by decide)
  rw [BitVec.add_zero, Nat.add_zero] at h0
  have h1 : m.loadByte g (binary + BitVec.ofNat 32 i + 1) false = _ := hbyte 1 (by decide)
  have h2 : m.loadByte g (binary + BitVec.ofNat 32 i + 2) false = _ := hbyte 2 (by decide)
  have h3 : m.loadByte g (binary + BitVec.ofNat 32 i + 3) false = _ := hbyte 3 (by decide)
  simp only [JosKernel.readWord, Mem.loadWord, h0, h1, h2, h3]
  rfl

theorem readHalf (h : KernelFile S m binary file len) (inv : MemInv S dirs 0 ∅ m)
    (hg : g = m.kernPgdir ∨ ∃ e, dirs e = some g) (hi : i + 2 ≤ len) :
    JosKernel.readHalf m g (binary + BitVec.ofNat 32 i) = .ok (fileHalf file i) := by
  have h0 := h.loadByte inv hg (i := i) (by omega)
  have h1 : m.loadByte g (binary + BitVec.ofNat 32 i + 1) false = some (file (i + 1)) := by
    have hnext := h.loadByte inv hg (i := i + 1) (by omega)
    rwa [BitVec.ofNat_add, ← BitVec.add_assoc] at hnext
  simp only [JosKernel.readHalf, Mem.loadHalf, h0, h1]
  rfl

theorem readProghdr (h : KernelFile S m binary file len) (inv : MemInv S dirs 0 ∅ m)
    (hg : g = m.kernPgdir ∨ ∃ e, dirs e = some g) (hi : i + 24 ≤ len) :
    JosKernel.readProghdr m g (binary + BitVec.ofNat 32 i) = .ok (proghdrAt file i) := by
  have hword : ∀ j, j + 4 ≤ 24 →
      JosKernel.readWord m g (binary + BitVec.ofNat 32 i + BitVec.ofNat 32 j) =
        .ok (fileWord file (i + j)) := by
    intro j hj
    rw [BitVec.add_assoc, ← BitVec.ofNat_add]
    exact h.readWord inv hg (by omega)
  have h0 := hword 0 (by decide)
  rw [BitVec.add_zero, Nat.add_zero] at h0
  have h4 : JosKernel.readWord m g (binary + BitVec.ofNat 32 i + 4) = _ := hword 4 (by decide)
  have h8 : JosKernel.readWord m g (binary + BitVec.ofNat 32 i + 8) = _ := hword 8 (by decide)
  have h16 : JosKernel.readWord m g (binary + BitVec.ofNat 32 i + 16) = _ := hword 16 (by decide)
  have h20 : JosKernel.readWord m g (binary + BitVec.ofNat 32 i + 20) = _ := hword 20 (by decide)
  simp only [JosKernel.readProghdr, h0, h4, h8, h16, h20]
  rfl

end KernelFile

/-! ## One segment after the other -/

variable [DecidableEq ι] {m₀ : Mem n} {e : ι} {done : List Proghdr} {ph : Proghdr} {o : ℕ}
  {free : List (Fin n)} {rest : List Word} {pp : Fin n} {a : Word}

omit [Fintype ι] [DecidableEq ι] in
theorem allows_image (pp : Fin n) (user write : Bool) :
    Mem.allows user write (newPte pp (pteW ||| pteU)) = true := by
  refine Mem.allows_userPde ?_ user write
  have hor : newPte pp (pteW ||| pteU) =
      pteAddr (page2pa pp) ||| (pteP ||| pteW ||| pteU) := by
    rw [newPte, BitVec.or_assoc, BitVec.or_comm _ pteP, ← BitVec.or_assoc pteP]
  rw [hor, UserPde]
  exact or_and_right _ _

namespace MemInv

omit [DecidableEq ι] in
/-- User code and the kernel read the pages of a program alike. -/
theorem loadByte_image (inv : MemInv S dirs 0 ∅ m) (he : dirs e = some g) (ha : a < utop)
    (hpte : m.spaces dirs e (pdx a) (ptx a) = newPte pp (pteW ||| pteU)) (user : Bool) :
    m.loadByte g a user = some (m.frame pp (pgoff a)) := by
  have hw : pageOf n (newPte pp (pteW ||| pteU)) = some pp := inv.pageOf_newPte (by decide) pp
  rw [Mem.spaces_of_dir he] at hpte
  rw [inv.loadByte_eq he ha, hpte, if_pos (allows_image ..), hw]
  rfl

omit [DecidableEq ι] in
/-- Pages in use are not touched by the functions that map fresh ones. -/
theorem frame_image (inv : MemInv S dirs 0 ∅ m) (he : dirs e = some g)
    (hpte : m.spaces dirs e (pdx a) (ptx a) = newPte pp (pteW ||| pteU))
    (hev : Evolves dirs m m') : m'.frame pp = m.frame pp := by
  have hw : pageOf n (m.pte g (pdx a) (ptx a)) = some pp := by
    rw [← Mem.spaces_of_dir he, hpte]
    exact inv.pageOf_newPte (by decide) pp
  exact hev.frame pp (inv.not_onFreeList ((Mem.target_pte he).trans hw))
    (inv.notStruct_of_pte he hw)

omit [DecidableEq ι] in
/-- Neither are pages that the allocator does not have. -/
theorem frame_outside (inv : MemInv S dirs 0 ∅ m) (hev : Evolves dirs m m') {q : Fin n}
    (hq : q ∉ S) : m'.frame q = m.frame q :=
  hev.frame q (fun hc => hq (inv.onFreeList_iff.mp hc).1) fun _ _ hs => hq (inv.target_mem hs)

end MemInv

/-- The segments `done` are loaded, and no other page is mapped. -/
structure Built (S : Set (Fin n)) (dirs : ι → Option (Fin n)) (e : ι) (g : Fin n)
    (file : ℕ → Byte) (done : List Proghdr) (m₀ m : Mem n) : Prop where
  inv : MemInv S dirs 0 ∅ m
  kern : m.kernPgdir = m₀.kernPgdir
  outside : ∀ q, q ∉ S → m.frame q = m₀.frame q
  load : Load g m₀ m
  once : MappedOnce n (m.spaces dirs e)
  mapped : ∀ ph ∈ done, ∀ d t, ph.Touches d t →
    ∃ pp : Fin n, m.spaces dirs e d t = newPte pp (pteW ||| pteU)
  others : ∀ d t, (∀ ph ∈ done, ¬ph.Touches d t) → present (m.spaces dirs e d t) = false
  sizes : ∀ ph ∈ done, ph.pFilesz ≤ ph.pMemsz
  loaded : ∀ ph ∈ done, ph.LoadedIn m g file

namespace Built

omit [DecidableEq ι] in
theorem congr {done' : List Proghdr} (b : Built S dirs e g file done m₀ m)
    (h : ∀ ph, ph ∈ done' ↔ ph ∈ done) : Built S dirs e g file done' m₀ m where
  inv := b.inv
  kern := b.kern
  outside := b.outside
  load := b.load
  once := b.once
  mapped ph hph := b.mapped ph ((h ph).mp hph)
  others d t hdt := b.others d t fun ph hph => hdt ph ((h ph).mpr hph)
  sizes ph hph := b.sizes ph ((h ph).mp hph)
  loaded ph hph := b.loaded ph ((h ph).mp hph)

/-- The pages of the next segment. -/
theorem region (b : Built S dirs e g file done m₀ m) (he : dirs e = some g) (ok : ph.Ok len)
    (apart : ∀ q ∈ done, ph.Apart q) (hfree : m.FreeList free)
    (room : m.need g (ph.pages ++ rest) ≤ free.length) :
    ∃ m' free', regionAlloc m g ph.pVa ph.pMemsz = .ok m' ∧ MemInv S dirs 0 ∅ m' ∧
      Populated dirs e ph.pages m m' ∧ m'.FreeList free' ∧ m'.need g rest ≤ free'.length := by
  obtain ⟨m', free', hok, inv', hpop, hfree', -, hroom⟩ := b.inv.regionAllocLoop he
    (fun a ha => ok.lt_of_mem_pages ha)
    (fun a ha => b.others _ _ fun q hq =>
      apart q hq _ _ (ok.touches_iff.mpr ⟨a, ha, rfl, rfl⟩))
    ok.pairwise_pages hfree room
  exact ⟨m', free', hok, inv', hpop, hfree', hroom⟩

/-- The calls for one segment. -/
theorem segment (b : Built S dirs e g file done m₀ m) (he : dirs e = some g)
    (bin : KernelFile S m₀ binary file len) (ho : o + 24 ≤ len) (hph : proghdrAt file o = ph)
    (hload : ph.pType = elfProgLoad) (hsz : ph.pFilesz ≤ ph.pMemsz) (ok : ph.Ok len)
    (oks : ∀ q ∈ done, q.Ok len) (apart : ∀ q ∈ done, ph.Apart q) (hfree : m.FreeList free)
    (room : m.need g (ph.pages ++ rest) ≤ free.length) :
    ∃ m' free', loadSegment m g binary (binary + BitVec.ofNat 32 o) = .ok m' ∧
      Built S dirs e g file (ph :: done) m₀ m' ∧ m'.FreeList free' ∧
      m'.need g rest ≤ free'.length := by
  have hle := ok.le
  have hkern₀ : m₀.kernPgdir ∉ S := b.kern ▸ b.inv.kern
  obtain ⟨m₁, free₁, hreg, inv₁, hpop, hfree₁, hroom₁⟩ := b.region he ok apart hfree room
  have hout₁ : ∀ q, q ∉ S → m₁.frame q = m₀.frame q := fun q hq =>
    (b.inv.frame_outside hpop.evolves hq).trans (b.outside q hq)
  have hkern₁ : m₁.kernPgdir = m₀.kernPgdir := hpop.evolves.kern.trans b.kern
  have once₁ := hpop.once b.once
  have hpage : ∀ k < ph.pMemsz.toNat, ∃ pp : Fin n,
      m₁.spaces dirs e (pdx (ph.pVa + BitVec.ofNat 32 k)) (ptx (ph.pVa + BitVec.ofNat 32 k)) =
        newPte pp (pteW ||| pteU) := by
    intro k hk
    obtain ⟨a, ha, hd, ht⟩ := ok.touches_iff.mp ⟨k, hk, rfl, rfl⟩
    rw [hd, ht]
    exact hpop.new a ha
  -- the segment is cleared
  have hstore : ∀ k < ph.pMemsz.toNat, CanStore dirs e m₁ (ph.pVa + BitVec.ofNat 32 k) := by
    intro k hk
    obtain ⟨pp, hpp⟩ := hpage k hk
    exact ⟨ok.lt_utop hk, by rw [hpp]; exact allows_image ..⟩
  obtain ⟨m₂, hset, inv₂, same₂, stores₂, hload₂⟩ := inv₁.memset he once₁ (by omega) hstore 0
  -- the contents of the file are copied
  have bin₁ : KernelFile S m₁ binary file len := bin.congr hkern₁ hkern₀ hout₁
  have bin₂ : KernelFile S m₂ binary file len := bin₁.congr same₂.kern inv₁.kern same₂.outside
  have hcontents := ok.contents hsz
  have htop := bin.top
  have hsrc : ∀ i, binary + ph.pOffset + BitVec.ofNat 32 i =
      binary + BitVec.ofNat 32 (ph.pOffset.toNat + i) := by
    intro i
    rw [BitVec.ofNat_add, BitVec.ofNat_toNat, BitVec.setWidth_eq, BitVec.add_assoc]
  have hfilesz : ph.pFilesz.toNat ≤ ph.pMemsz.toNat := hsz
  have hno : ¬ph.pFilesz > ph.pMemsz := BitVec.not_lt.mpr hsz
  have hdst : ∀ i < ph.pFilesz.toNat, CanStore dirs e m₂ (ph.pVa + BitVec.ofNat 32 i) := by
    intro i hi
    have hst := hstore i (hi.trans_le hfilesz)
    unfold CanStore at hst ⊢
    rwa [same₂.spaces]
  have hfrom : ∀ i < ph.pFilesz.toNat,
      CanLoad S dirs e m₂ (binary + ph.pOffset + BitVec.ofNat 32 i) := by
    intro i hi
    rw [hsrc]
    obtain ⟨p, hp, -⟩ := bin₂.bytes (ph.pOffset.toNat + i) (by omega)
    exact .inr ⟨p, hp⟩
  obtain ⟨m₃, hcpy, inv₃, same₃, stores₃, hload₃⟩ := inv₂.memcpy he (same₂.spaces ▸ once₁)
    (by omega) (by rw [BitVec.toNat_add]; omega) hdst hfrom
  have same : SameMaps S dirs m₁ m₃ := same₂.trans same₃
  -- what is read in the end
  have hread : ∀ {a : Word} {pp : Fin n}, a < utop →
      m₁.spaces dirs e (pdx a) (ptx a) = newPte pp (pteW ||| pteU) →
      m₃.loadByte g a true = if (a - ph.pVa).toNat < ph.pFilesz.toNat then
          m₂.loadByte g (binary + ph.pOffset + (a - ph.pVa)) false
        else if (a - ph.pVa).toNat < ph.pMemsz.toNat then some 0
        else m₁.loadByte g a false := by
    intro a pp ha hpp
    have hpres : present (m₁.spaces dirs e (pdx a) (ptx a)) = true := by
      rw [hpp]
      exact Mem.present_of_allows (allows_image pp false false)
    have hpp₃ : m₃.spaces dirs e (pdx a) (ptx a) = newPte pp (pteW ||| pteU) := by
      rw [same.spaces, hpp]
    have hcan₂ : CanLoad S dirs e m₂ a := .inl ⟨ha, by rwa [same₂.spaces]⟩
    rw [inv₃.loadByte_image he ha hpp₃ true, ← inv₃.loadByte_image he ha hpp₃ false,
      hload₃ a hcan₂, hload₂ a (.inl ⟨ha, hpres⟩)]
    rfl
  -- the segments before this one
  have hfar : ∀ q ∈ done, ∀ d t, q.Touches d t →
      m₁.spaces dirs e d t = m.spaces dirs e d t := fun q hq d t hqt =>
    hpop.old d t fun a ha hdt => apart q hq d t (ok.touches_iff.mpr ⟨a, ha, hdt⟩) hqt
  have hold : ∀ q ∈ done, ∀ k < q.pMemsz.toNat,
      m₃.loadByte g (q.pVa + BitVec.ofNat 32 k) true =
        m.loadByte g (q.pVa + BitVec.ofNat 32 k) true := by
    intro q hq k hk
    have hqt : q.Touches (pdx (q.pVa + BitVec.ofNat 32 k)) (ptx (q.pVa + BitVec.ofNat 32 k)) :=
      ⟨k, hk, rfl, rfl⟩
    have ha := (oks q hq).lt_utop hk
    have hno := Proghdr.not_lt_of_apart (apart q hq) hk
    obtain ⟨pp, hpp⟩ := b.mapped q hq _ _ hqt
    have hpp₁ := (hfar q hq _ _ hqt).trans hpp
    rw [hread ha hpp₁, if_neg (by omega), if_neg hno, inv₁.loadByte_image he ha hpp₁,
      b.inv.loadByte_image he ha hpp, b.inv.frame_image he hpp hpop.evolves]
  have load : Load g m₀ m₃ :=
    ((b.load.region (ok.user.trans (by decide)) hreg).stores stores₂).stores stores₃
  refine ⟨m₃, free₁, ?_, ⟨inv₃, same.kern.trans hkern₁,
    fun q hq => (same.outside q hq).trans (hout₁ q hq), load, same.spaces ▸ once₁,
    fun q hq d t hdt => ?_, fun d t hdt => ?_, fun q hq => ?_, fun q hq => ?_⟩, ?_, ?_⟩
  · have hh : ∀ {m'}, MemInv S dirs 0 ∅ m' → KernelFile S m' binary file len →
        readProghdr m' g (binary + BitVec.ofNat 32 o) = .ok ph := fun inv' bin' =>
      hph ▸ bin'.readProghdr inv' (.inr ⟨e, he⟩) ho
    have bin₀ : KernelFile S m binary file len := bin.congr b.kern hkern₀ b.outside
    simp only [loadSegment, hh b.inv bin₀, hh inv₁ bin₁, hh inv₂ bin₂, bind, Except.bind,
      if_neg hno, if_pos hload, hreg, hset, hcpy, orFault]
  · rw [same.spaces]
    rcases List.mem_cons.mp hq with rfl | hq
    · obtain ⟨a, ha, rfl, rfl⟩ := ok.touches_iff.mp hdt
      exact hpop.new a ha
    · rw [hfar q hq d t hdt]
      exact b.mapped q hq d t hdt
  · rw [same.spaces, hpop.old d t fun a ha hat =>
      hdt ph List.mem_cons_self (ok.touches_iff.mpr ⟨a, ha, hat⟩)]
    exact b.others d t fun q hq => hdt q (List.mem_cons_of_mem ph hq)
  · rcases List.mem_cons.mp hq with rfl | hq
    · exact hsz
    · exact b.sizes q hq
  · rcases List.mem_cons.mp hq with rfl | hq
    · have hat : ∀ k < q.pMemsz.toNat, m₃.loadByte g (q.pVa + BitVec.ofNat 32 k) true =
          if k < q.pFilesz.toNat then some (file (q.pOffset.toNat + k)) else some 0 := by
        intro k hk
        obtain ⟨pp, hpp⟩ := hpage k hk
        rw [hread (ok.lt_utop hk) hpp, ok.offset hk, if_pos hk]
        split_ifs with hlt
        · have hadd : q.pVa + BitVec.ofNat 32 k - q.pVa = BitVec.ofNat 32 k := by
            rw [BitVec.add_comm, BitVec.add_sub_cancel]
          rw [hadd, hsrc, bin₂.loadByte inv₂ (.inr ⟨e, he⟩) (by omega)]
        · rfl
      exact ⟨fun k hk => by rw [hat k (by omega), if_pos hk],
        fun k hk hge => by rw [hat k hk, if_neg (by omega)]⟩
    · have hle' : q.pFilesz.toNat ≤ q.pMemsz.toNat := b.sizes q hq
      exact ⟨fun k hk => (hold q hq k (by omega)).trans ((b.loaded q hq).copied k hk),
        fun k hk hge => (hold q hq k hk).trans ((b.loaded q hq).cleared k hk hge)⟩
  · unfold Mem.FreeList at hfree₁ ⊢
    rw [same.list]
    exact hfree₁.congr fun p _ => by rw [same.pages]
  · have hneed : m₃.need g rest = m₁.need g rest := by
      simp only [Mem.need, same.ptab e g _ he]
    rw [hneed]
    exact hroom₁

/-- The loop over the program headers. -/
theorem loop (b : Built S dirs e g file done m₀ m) (he : dirs e = some g)
    (bin : KernelFile S m₀ binary file len) {os : List ℕ} (hos : ∀ o ∈ os, o + 24 ≤ len)
    (ok : ∀ ph ∈ segmentsAt file os, ph.Ok len) (oks : ∀ q ∈ done, q.Ok len)
    (apart : (segmentsAt file os).Pairwise Proghdr.Apart)
    (before : ∀ ph ∈ segmentsAt file os, ∀ q ∈ done, ph.Apart q) (hfree : m.FreeList free)
    (room : m.need g ((segmentsAt file os).flatMap Proghdr.pages ++ rest) ≤ free.length) :
    ((∀ o ∈ os, (proghdrAt file o).pFilesz ≤ (proghdrAt file o).pMemsz) →
      ∃ m' free', loadSegments m g binary (os.map fun o => binary + BitVec.ofNat 32 o) = .ok m' ∧
        Built S dirs e g file (segmentsAt file os ++ done) m₀ m' ∧ m'.FreeList free' ∧
        m'.need g rest ≤ free'.length) ∧
    ((∃ o ∈ os, (proghdrAt file o).pFilesz > (proghdrAt file o).pMemsz) →
      loadSegments m g binary (os.map fun o => binary + BitVec.ofNat 32 o) =
        .error .loadIcode) := by
  induction os generalizing m done free with
  | nil => exact ⟨fun _ => ⟨m, free, rfl, b, hfree, room⟩, by simp⟩
  | cons o os ih =>
    have hos' := fun o ho => hos o (List.mem_cons_of_mem _ ho)
    have hread : readProghdr m g (binary + BitVec.ofNat 32 o) = .ok (proghdrAt file o) :=
      (bin.congr b.kern (b.kern ▸ b.inv.kern) b.outside).readProghdr b.inv (.inr ⟨e, he⟩)
        (hos o List.mem_cons_self)
    rw [List.map_cons, List.forall_mem_cons, List.exists_mem_cons_iff]
    by_cases hsz : (proghdrAt file o).pFilesz > (proghdrAt file o).pMemsz
    · -- the header is refused
      refine ⟨fun hle => absurd hle.1 (BitVec.not_le.mpr hsz), fun _ => ?_⟩
      simp only [loadSegments, loadSegment, hread, bind, Except.bind, if_pos hsz]
      rfl
    have hle : (proghdrAt file o).pFilesz ≤ (proghdrAt file o).pMemsz := BitVec.not_lt.mp hsz
    by_cases hload : (proghdrAt file o).pType = elfProgLoad
    · have hcons : segmentsAt file (o :: os) = proghdrAt file o :: segmentsAt file os := by
        simp [segmentsAt, hload]
      rw [hcons] at ok apart before room ⊢
      rw [List.flatMap_cons, List.append_assoc] at room
      obtain ⟨hfirst, apart'⟩ := List.pairwise_cons.mp apart
      obtain ⟨ok₁, ok'⟩ := List.forall_mem_cons.mp ok
      obtain ⟨before₁, before'⟩ := List.forall_mem_cons.mp before
      obtain ⟨m₁, free₁, hseg, b₁, hfree₁, room₁⟩ :=
        b.segment he bin (hos o List.mem_cons_self) rfl hload hle ok₁ oks before₁ hfree room
      obtain ⟨hall, hsome⟩ := ih b₁ hos' ok' (List.forall_mem_cons.mpr ⟨ok₁, oks⟩) apart'
        (fun ph hph => List.forall_mem_cons.mpr ⟨(hfirst ph hph).symm, before' ph hph⟩) hfree₁ room₁
      simp only [loadSegments, hseg, bind, Except.bind]
      refine ⟨fun h => ?_, fun h => hsome (h.resolve_left hsz)⟩
      obtain ⟨m', free', hok, b', hfree', room'⟩ := hall h.2
      exact ⟨m', free', hok, b'.congr fun ph => by simp [or_left_comm], hfree', room'⟩
    · have hcons : segmentsAt file (o :: os) = segmentsAt file os := by simp [segmentsAt, hload]
      rw [hcons] at ok apart before room ⊢
      obtain ⟨hall, hsome⟩ := ih b hos' ok oks apart before hfree room
      have hseg : loadSegment m g binary (binary + BitVec.ofNat 32 o) = .ok m := by
        simp only [loadSegment, hread, bind, Except.bind, if_neg hsz, if_neg hload]
        rfl
      simp only [loadSegments, hseg, bind, Except.bind]
      exact ⟨fun h => hall h.2, fun h => hsome (h.resolve_left hsz)⟩

/-- The stack page comes last. -/
theorem stack (b : Built S dirs e g file (segments file) m₀ m) (he : dirs e = some g)
    (oks : ∀ q ∈ segments file, q.Ok len) (hfree : m.FreeList free)
    (room : m.need g [ustacktop - pgsize] ≤ free.length) :
    ∃ m', regionAlloc m g (ustacktop - pgsize) pgsize = .ok m' ∧ m'.kernPgdir = m₀.kernPgdir ∧
      Load g m₀ m' ∧ Image file m' g (m'.spaces dirs e) := by
  have hvas : Mem.pageRange (roundDown (ustacktop - pgsize) pgsize)
      (roundUp (ustacktop - pgsize + pgsize) pgsize) = [ustacktop - pgsize] := by decide
  have hu : ustacktop - pgsize < utop := by decide
  have hstack : ∀ q ∈ segments file,
      ¬q.Touches (pdx (ustacktop - pgsize)) (ptx (ustacktop - pgsize)) := by
    rintro q hq ⟨k, hk, hdt⟩
    have hle := (oks q hq).le
    rw [indices_iff, (oks q hq).toNat_add hk] at hdt
    have hpdx : (pdx (ustacktop - pgsize) : ℕ) = 954 := rfl
    have hptx : (ptx (ustacktop - pgsize) : ℕ) = 1021 := rfl
    omega
  obtain ⟨m', free', hok, inv', hpop, -, -, -⟩ := b.inv.regionAllocLoop he
    (List.forall_mem_singleton.mpr hu) (List.forall_mem_singleton.mpr (b.others _ _ hstack))
    (List.pairwise_singleton ..) hfree
    (show m.need g ([ustacktop - pgsize] ++ []) ≤ free.length from room)
  have hreg : regionAlloc m g (ustacktop - pgsize) pgsize = .ok m' := by
    rw [regionAlloc, hvas]
    exact hok
  have hold : ∀ d t, ¬(d = pdx (ustacktop - pgsize) ∧ t = ptx (ustacktop - pgsize)) →
      m'.spaces dirs e d t = m.spaces dirs e d t := fun d t hdt =>
    hpop.old d t (List.forall_mem_singleton.mpr hdt)
  have hkeep : ∀ q ∈ segments file, ∀ d t, q.Touches d t →
      m'.spaces dirs e d t = m.spaces dirs e d t := by
    intro q hq d t hdt
    refine hold d t fun hc => hstack q hq ?_
    rwa [← hc.1, ← hc.2]
  have hbyte : ∀ q ∈ segments file, ∀ k < q.pMemsz.toNat,
      m'.loadByte g (q.pVa + BitVec.ofNat 32 k) true =
        m.loadByte g (q.pVa + BitVec.ofNat 32 k) true := by
    intro q hq k hk
    have ha := (oks q hq).lt_utop hk
    have hqt : q.Touches (pdx (q.pVa + BitVec.ofNat 32 k)) (ptx (q.pVa + BitVec.ofNat 32 k)) :=
      ⟨k, hk, rfl, rfl⟩
    obtain ⟨pp, hpp⟩ := b.mapped q hq _ _ hqt
    rw [inv'.loadByte_image he ha ((hkeep q hq _ _ hqt).trans hpp), b.inv.loadByte_image he ha hpp,
      b.inv.frame_image he hpp hpop.evolves]
  refine ⟨m', hreg, hpop.evolves.kern.trans b.kern, b.load.region (by decide) hreg,
    fun q hq => ?_, fun d t hdt => ?_, fun d t hdt => ?_⟩
  · have hle : q.pFilesz.toNat ≤ q.pMemsz.toNat := b.sizes q hq
    exact ⟨fun k hk => (hbyte q hq k (by omega)).trans ((b.loaded q hq).copied k hk),
      fun k hk hge => (hbyte q hq k hk).trans ((b.loaded q hq).cleared k hk hge)⟩
  · rcases hdt with ⟨q, hq, hqt⟩ | ⟨rfl, rfl⟩
    · rw [hkeep q hq d t hqt]
      exact b.mapped q hq d t hqt
    · exact hpop.new _ (List.mem_singleton.mpr rfl)
  · rw [hold d t fun hc => hdt (.inr hc)]
    exact b.others d t fun q hq hqt => hdt (.inl ⟨q, hq, hqt⟩)

end Built

end

/-! ## The whole program -/

section
variable {file : ℕ → Byte} {len : ℕ} {binary : Word} {S : Set (Fin n)} {k k₁ : Kernel n} {c : Cpu}
  {e : EnvIx} {g : Fin n} {free : List (Fin n)}

/-- The headers that the loop visits. -/
theorem proghdrs_eq (layout : Layout file len) (htop : binary.toNat + len < 2 ^ 32) :
    proghdrs (binary + ePhoff file) (binary + ePhoff file + 32 * (ePhnum file).setWidth 32) =
      (offsets file).map fun o => binary + BitVec.ofNat 32 o := by
  have htable := layout.table
  have hph : (binary + ePhoff file).toNat = binary.toNat + (ePhoff file).toNat := by
    rw [BitVec.toNat_add]
    omega
  have hmul : (32 * (ePhnum file).setWidth 32 : Word).toNat = 32 * (ePhnum file).toNat := by
    have h32 : (32 : Word).toNat = 32 := rfl
    rw [BitVec.toNat_mul, BitVec.toNat_setWidth, h32]
    omega
  have heph : (binary + ePhoff file + 32 * (ePhnum file).setWidth 32).toNat =
      binary.toNat + (ePhoff file).toNat + 32 * (ePhnum file).toNat := by
    rw [BitVec.toNat_add, hph, hmul]
    omega
  have hcount : (binary.toNat + (ePhoff file).toNat + 32 * (ePhnum file).toNat -
      (binary.toNat + (ePhoff file).toNat)) / 32 = (ePhnum file).toNat := by omega
  rw [proghdrs, offsets, List.map_map, hph, heph, hcount]
  refine List.map_congr_left fun i _ => ?_
  rw [Function.comp_apply, BitVec.ofNat_add, BitVec.ofNat_toNat, BitVec.setWidth_eq,
    BitVec.add_assoc]

/-- The call of `load_icode` for an environment without mappings. -/
theorem loadIcode_spec (inv : MemInv S k.dirs 0 ∅ k.mem) (he : k.dirs e = some g)
    (hempty : ∀ d t, present (k.spaces e d t) = false) (hcr3 : (k.cpus c).cr3 = k.mem.kernPgdir)
    (bin : KernelFile S k.mem binary file len) (layout : Layout file len)
    (hfree : k.mem.FreeList free) (room : k.mem.need g (filePages file) ≤ free.length) :
    ((∀ ph ∈ headers file, ph.pFilesz ≤ ph.pMemsz) →
      ∃ m, loadIcode k c e binary = .ok (entered { k with mem := m } e (eEntry file)) ∧
        Load g k.mem m ∧ Image file m g (m.spaces k.dirs e)) ∧
    ((∃ ph ∈ headers file, ph.pFilesz > ph.pMemsz) →
      loadIcode k c e binary = .error .loadIcode) := by
  have htable := layout.table
  have hheader := layout.header
  have hg : ∀ {m : Mem n}, g = m.kernPgdir ∨ ∃ e, k.dirs e = some g := .inr ⟨e, he⟩
  have hmagic : readWord k.mem (k.cpus c).cr3 binary = .ok elfMagic := by
    have hread := bin.readWord inv (.inl hcr3) (i := 0) (by omega)
    rwa [BitVec.add_zero, layout.magic] at hread
  have hphoff : readWord k.mem (k.cpus c).cr3 (binary + 28) = .ok (ePhoff file) :=
    bin.readWord inv (.inl hcr3) (i := 28) (by omega)
  have hphnum : readHalf k.mem (k.cpus c).cr3 (binary + 44) = .ok (ePhnum file) :=
    bin.readHalf inv (.inl hcr3) (i := 44) (by omega)
  have hpgdir : (k.envs e).envPgdir = some g := he
  have b : Built S k.dirs e g file [] k.mem k.mem := by
    refine ⟨inv, rfl, fun _ _ => rfl, .done, fun d t d' t' p hp => ?_, by simp,
      fun d t _ => hempty d t, by simp, by simp⟩
    cases (pageOf_of_not_present (hempty d t)).symm.trans hp
  have hos : ∀ o ∈ offsets file, o + 24 ≤ len := fun o ho => by
    obtain ⟨i, hi, rfl⟩ := List.mem_map.mp ho
    have := List.mem_range.mp hi
    omega
  obtain ⟨hall, hsome⟩ := b.loop he bin hos layout.ok (by simp) layout.apart (by simp) hfree
    (show k.mem.need g ((segments file).flatMap Proghdr.pages ++ [ustacktop - pgsize]) ≤
      free.length from room)
  rw [← proghdrs_eq layout bin.top] at hall hsome
  refine ⟨fun hle => ?_, fun hgt => ?_⟩
  · obtain ⟨m, free', hok, bm, hfree', room'⟩ := hall (List.forall_mem_map.mp hle)
    rw [List.append_nil] at bm
    have hentry : readWord m m.kernPgdir (binary + 24) = .ok (eEntry file) :=
      (bin.congr bm.kern inv.kern bm.outside).readWord bm.inv (.inl rfl) (i := 24) (by omega)
    obtain ⟨m', hreg, hk', hload, himage⟩ := bm.stack he layout.ok hfree' room'
    refine ⟨m', ?_, hload, himage⟩
    -- the directory of the kernel is in force again
    have hcpus : Function.update (Function.update k.cpus c { k.cpus c with cr3 := g }) c
        { k.cpus c with cr3 := m.kernPgdir } = k.cpus := by
      rw [Function.update_idem, bm.kern, ← hcr3]
      exact Function.update_eq_self c k.cpus
    simp only [loadIcode, hmagic, hphoff, hphnum, hpgdir, bind, Except.bind, ne_eq,
      not_true_eq_false, if_false, Kernel.modCpu_mem, hok, hentry, Kernel.modEnv_mem, hreg]
    simp [entered, Kernel.modEnv, Kernel.modCpu, hcpus, pure, Except.pure]
  · obtain ⟨ph, hph, hgt⟩ := hgt
    obtain ⟨o, ho, rfl⟩ := List.mem_map.mp hph
    simp only [loadIcode, hmagic, hphoff, hphnum, hpgdir, bind, Except.bind, ne_eq,
      not_true_eq_false, if_false, Kernel.modCpu_mem, hsome ⟨o, ho, hgt⟩]

/-- What `env_alloc` makes for `env_create`. -/
theorem created_envAlloc (h : Created S k) (alloc : envAlloc k 0 = .ok (.ok e, k₁)) :
    ∃ g, k₁.dirs e = some g ∧ MemInv S k₁.dirs 0 ∅ k₁.mem ∧
      (∀ d t, present (k₁.spaces e d t) = false) ∧ ∀ c, (k₁.cpus c).cr3 = k₁.mem.kernPgdir := by
  obtain ⟨hcr3, hinv⟩ := created_kInv h
  obtain ⟨g, m₁, hfree, hvm, rfl⟩ := envAlloc_ok alloc
  obtain ⟨inv, -⟩ := hinv.resolve_left fun hl => by
    simp [envSetupVm, Mem.pageAlloc, hl] at hvm
  obtain ⟨inv₁, hsp, -, hnone⟩ := inv.addEnv (allocated k e g m₁ 0) hfree hvm rfl rfl rfl
    (fun i hi => by simp [allocated, hi]) (by simp [allocated, Kernel.dirs])
    (by simp [allocated, Kernel.status])
  have hkern : m₁.kernPgdir = k.mem.kernPgdir := by
    rw [← envSetupVm_kernPgdir k.mem, hvm]
  refine ⟨g, by simp [allocated, Kernel.dirs], inv₁.mem, fun d t => ?_,
    fun c => (hcr3 c).trans hkern.symm⟩
  rw [hsp]
  simp [Kernel.spaces, Mem.spaces, hnone]

/-- The count of pages before any table has been made. -/
theorem need_filePages {m : Mem n}
    (room : (filePages file).length + ((filePages file).map pdx).toFinset.card ≤ free.length) :
    m.need g (filePages file) ≤ free.length := by
  refine le_trans (Nat.add_le_add_left (Finset.card_le_card (Finset.filter_subset ..)) _) room

/-- `load_icode` builds the image that the file describes, and panics if a header is wrong. -/
theorem loadIcode_loads (h : Created S k) (alloc : envAlloc k 0 = .ok (.ok e, k₁))
    (bin : KernelFile S k₁.mem binary file len) (layout : Layout file len)
    (hfree : k₁.mem.FreeList free)
    (room : (filePages file).length + ((filePages file).map pdx).toFinset.card ≤ free.length) :
    ((∀ ph ∈ headers file, ph.pFilesz ≤ ph.pMemsz) →
      ∃ k₂ g, loadIcode k₁ c e binary = .ok k₂ ∧ k₂.dirs e = some g ∧
        Image file k₂.mem g (k₂.spaces e) ∧ (k₂.envs e).envTf.tfEip = eEntry file) ∧
    ((∃ ph ∈ headers file, ph.pFilesz > ph.pMemsz) →
      loadIcode k₁ c e binary = .error .loadIcode) := by
  obtain ⟨g, he, inv, hempty, hcr3⟩ := created_envAlloc h alloc
  obtain ⟨hall, hsome⟩ := loadIcode_spec inv he hempty (hcr3 c) bin layout hfree
    (need_filePages room)
  refine ⟨fun hle => ?_, hsome⟩
  obtain ⟨m, hok, -, himage⟩ := hall hle
  have hdirs : (entered { k₁ with mem := m } e (eEntry file)).dirs = k₁.dirs :=
    Kernel.dirs_modEnv _ rfl
  refine ⟨_, g, hok, by rw [hdirs]; exact he, ?_, by simp [entered]⟩
  rw [Kernel.spaces, hdirs]
  exact himage

/-- The kernel is then as `Created` describes it. -/
theorem created_loadIcode {k₂ : Kernel n} (h : Created S k)
    (alloc : envAlloc k 0 = .ok (.ok e, k₁)) (bin : KernelFile S k₁.mem binary file len)
    (layout : Layout file len) (hfree : k₁.mem.FreeList free)
    (room : (filePages file).length + ((filePages file).map pdx).toFinset.card ≤ free.length)
    (hok : loadIcode k₁ c e binary = .ok k₂) : Created S k₂ := by
  obtain ⟨g, he, inv, hempty, hcr3⟩ := created_envAlloc h alloc
  obtain ⟨hall, hsome⟩ := loadIcode_spec inv he hempty (hcr3 c) bin layout hfree
    (need_filePages room)
  have hle : ∀ ph ∈ headers file, ph.pFilesz ≤ ph.pMemsz := fun ph hph => by
    by_contra hc
    cases (hsome ⟨ph, hph, BitVec.not_le.mp hc⟩).symm.trans hok
  obtain ⟨m, hok', hload, -⟩ := hall hle
  cases hok'.symm.trans hok
  exact .create h alloc he hload

end

/-! ## A small program -/

/-- One byte in the file and one more in memory, at the end of a page; a header of another type;
and a word of data with four bytes behind it. -/
def tinyWords : List Word :=
  [elfMagic, 0, 0, 0, 0, 0, 0x800020, 52, 0, 0, 0, 3, 0,
    elfProgLoad, 148, 0x800fff, 0, 1, 2, 0, 0,
    4, 148, 0, 0, 4, 4, 0, 0,
    elfProgLoad, 152, 0x804000, 0, 4, 8, 0, 0,
    0xc3, 0x2a]

def tinyFile (i : ℕ) : Byte := (tinyWords.getD (i / 4) 0).extractLsb' (8 * (i % 4)) 8

/-- `kern_pgdir` maps page 2, which has the file, with page 1 as its table. -/
def tinyMem : Mem 12 :=
  ({ pages p :=
      { ppLink := if h : 3 ≤ (p : Nat) ∧ (p : Nat) + 1 < 12 then some ⟨p + 1, h.2⟩ else none
        ppRef := if (p : Nat) < 3 then 1 else 0 }
     pageFreeList := some 3
     frame p o := if p = 2 then tinyFile o else 0
     kernPgdir := 0 } : Mem 12).setEntry 0 960 (page2pa (1 : Fin 12) ||| pteW ||| pteP)
    |>.setEntry 1 2 (page2pa (2 : Fin 12) ||| pteW ||| pteP)

def tinyInit : Kernel 12 :=
  ⟨tinyMem, envInit fun _ => .zero, .env 0, fun c => ⟨if c < 2 then .boot else .off, none, 0⟩⟩

/-- The machine with an environment for the program. -/
def tiny : Kernel 12 := allocated tinyInit 0 3 (envSetupVm tinyMem).2 0

theorem tinyMem_entry (d : Fin 1024) : tinyMem.entry 0 d =
    if d = 960 then page2pa (1 : Fin 12) ||| pteW ||| pteP else 0 := by
  rw [tinyMem, Mem.entry_setEntry, if_neg fun hc => absurd hc.1 (by decide), Mem.entry_setEntry]
  by_cases hd : d = 960
  · rw [if_pos ⟨rfl, hd⟩, if_pos hd]
  · rw [if_neg fun hc => hd hc.2, if_neg hd]
    exact rd32_zero d

theorem memInit_tinyMem : MemInit {p : Fin 12 | 3 ≤ p} tinyMem where
  small := by decide
  free := ⟨(List.finRange 12).drop 3, by decide, by decide, by decide⟩
  ref := by decide
  kern := by decide
  kernUser d hd := by
    have hd' : d ≠ 960 := by
      rintro rfl
      exact absurd hd (by decide)
    rw [show tinyMem.kernPgdir = 0 from rfl, tinyMem_entry, if_neg hd']
    rfl
  kernHigh d _ _ hp := by
    rw [show tinyMem.kernPgdir = 0 from rfl, tinyMem_entry] at hp ⊢
    split_ifs at hp ⊢ with hd
    · subst hd
      exact ⟨by decide, fun hlt => absurd hlt (by decide)⟩
    · cases hp

theorem created_tinyInit : Created {p : Fin 12 | 3 ≤ p} tinyInit :=
  .init memInit_tinyMem (fun _ => rfl) (by decide) (by decide) (by decide)

theorem toNat_tiny {i : ℕ} (hi : i < 156) :
    ((0xf0002000 : Word) + BitVec.ofNat 32 i).toNat = 0xf0002000 + i := by
  have hbin : (0xf0002000 : Word).toNat = 0xf0002000 := rfl
  rw [BitVec.toNat_add, BitVec.toNat_ofNat, hbin]
  omega

theorem kernelFile_tiny : KernelFile {p : Fin 12 | 3 ≤ p} tiny.mem 0xf0002000 tinyFile 156 := by
  refine ⟨by decide, fun i hi => ⟨2, ?_, ?_⟩⟩
  · have hadd := toNat_tiny hi
    have hpdx : pdx (0xf0002000 + BitVec.ofNat 32 i) = 960 := by
      simp only [Fin.ext_iff, pdx, hadd]
      omega
    have hptx : ptx (0xf0002000 + BitVec.ofNat 32 i) = 2 := by
      simp only [Fin.ext_iff, ptx, hadd]
      omega
    refine ⟨by rw [hpdx]; decide, by rw [hpdx]; decide, ⟨1, by decide, ?_, ?_⟩, by decide⟩
    · rw [hpdx]
      decide +kernel
    · rw [hptx]
      decide +kernel
  · have hoff : pgoff (0xf0002000 + BitVec.ofNat 32 i) = ⟨i, by omega⟩ := by
      simp only [Fin.ext_iff, pgoff, toNat_tiny hi]
      omega
    rw [hoff]
    rfl

theorem segments_tinyFile :
    segments tinyFile = [⟨1, 148, 0x800fff, 1, 2⟩, ⟨1, 152, 0x804000, 4, 8⟩] := by decide

theorem layout_tinyFile : Layout tinyFile 156 where
  magic := by decide
  header := by decide
  table := by decide
  ok ph hph := by
    rw [segments_tinyFile, List.mem_pair] at hph
    rcases hph with rfl | rfl
    · exact ⟨by decide, by decide, fun _ => by decide⟩
    · exact ⟨by decide, by decide, fun _ => by decide⟩
  apart := by
    have hapart : Proghdr.Apart ⟨1, 148, 0x800fff, 1, 2⟩ ⟨1, 152, 0x804000, 4, 8⟩ := by
      rintro _ t ⟨i, hi, -, rfl⟩ ⟨j, hj, -, ht⟩
      have hi : i < 2 := hi
      have hj : j < 8 := hj
      have hva : (0x800fff : Word).toNat = 0x800fff ∧ (0x804000 : Word).toNat = 0x804000 :=
        ⟨rfl, rfl⟩
      have ht : ((0x800fff : Word) + BitVec.ofNat 32 i).toNat / 4096 % 1024 =
          ((0x804000 : Word) + BitVec.ofNat 32 j).toNat / 4096 % 1024 := congrArg Fin.val ht
      rw [BitVec.toNat_add, BitVec.toNat_add, BitVec.toNat_ofNat, BitVec.toNat_ofNat, hva.1,
        hva.2] at ht
      omega
    rw [segments_tinyFile]
    simpa using hapart

theorem loadIcode_loads_tiny : ∃ k₂ g, loadIcode tiny 0 0 0xf0002000 = .ok k₂ ∧
    k₂.dirs 0 = some g ∧ Image tinyFile k₂.mem g (k₂.spaces 0) ∧
    (k₂.envs 0).envTf.tfEip = eEntry tinyFile := by
  have hpages : filePages tinyFile = [0x800000, 0x801000, 0x804000, 0xeebfd000] := by
    rw [filePages, segments_tinyFile]
    decide
  exact (loadIcode_loads created_tinyInit rfl kernelFile_tiny layout_tinyFile
    (show tiny.mem.FreeList ((List.finRange 12).drop 4) by decide) (by rw [hpages]; decide)).1
    (by decide)

end JosKernel
