import Mathlib.Data.BitVec
import Mathlib.Data.Fin.Basic
import Mathlib.Data.Nat.Bitwise
import Mathlib.Tactic

/-!
# Words, addresses and page-table entries

The 32-bit machine of `inc/mmu.h`, `inc/memlayout.h` and `inc/types.h`. Addresses and
page-table entries are `BitVec 32`; the index of a directory or table entry is a `Fin 1024` and
an offset in a page a `Fin 4096`, so that an entry outside its table cannot be named.

A physical page frame is a function from offsets to bytes. Page tables live in such frames as
little-endian words, read by `rd32` and written by `wr32`.
-/
namespace JosKernel

abbrev Word := BitVec 32
abbrev Byte := BitVec 8
abbrev Frame := Fin 4096 → Byte

-- named, so that literals of these types need no proof of their own
instance neZeroTwo : NeZero 2 := ⟨by decide⟩
instance neZeroCpus : NeZero 8 := ⟨by decide⟩
instance neZeroVectors : NeZero 32 := ⟨by decide⟩
instance neZeroEntries : NeZero 1024 := ⟨by decide⟩
instance neZeroBytes : NeZero 4096 := ⟨by decide⟩

/-! ## Linear addresses -/

def pgsize : Word := 4096

/-- `PGNUM`: the page number field of an address. -/
def pgnum (la : Word) : Nat := la.toNat / 4096

/-- `PDX`: the page directory index. -/
def pdx (la : Word) : Fin 1024 := ⟨la.toNat / 2 ^ 22, by omega⟩

/-- `PTX`: the page table index. -/
def ptx (la : Word) : Fin 1024 := ⟨la.toNat / 4096 % 1024, by omega⟩

/-- `PGOFF`: the offset in the page. -/
def pgoff (la : Word) : Fin 4096 := ⟨la.toNat % 4096, by omega⟩

/-- `PGADDR`: the address with the given indices; the three fields do not overlap. -/
def pgaddr (d t : Fin 1024) (o : Fin 4096) : Word :=
  BitVec.ofNat 32 (d * 2 ^ 22 + t * 4096 + o)

theorem toNat_pgaddr (d t : Fin 1024) (o : Fin 4096) :
    (pgaddr d t o).toNat = d * 2 ^ 22 + t * 4096 + o := by
  simp only [pgaddr, BitVec.toNat_ofNat]
  omega

@[simp] theorem pdx_pgaddr (d t : Fin 1024) (o : Fin 4096) : pdx (pgaddr d t o) = d := by
  ext; simp only [pdx, toNat_pgaddr]; omega

@[simp] theorem ptx_pgaddr (d t : Fin 1024) (o : Fin 4096) : ptx (pgaddr d t o) = t := by
  ext; simp only [ptx, toNat_pgaddr]; omega

/-- `ROUNDDOWN`, in 32-bit arithmetic. -/
def roundDown (a n : Word) : Word := a - a % n

/-- `ROUNDUP`, in 32-bit arithmetic: both the sum and the result can wrap around. -/
def roundUp (a n : Word) : Word := roundDown (a + n - 1) n

theorem toNat_roundDown (a : Word) : (roundDown a pgsize).toNat = a.toNat / 4096 * 4096 := by
  have h : (a % pgsize).toNat = a.toNat % 4096 := by simp [pgsize, BitVec.toNat_umod]
  have := a.isLt
  simp only [roundDown, BitVec.toNat_sub, h]
  omega

theorem toNat_roundUp (a : Word) :
    (roundUp a pgsize).toNat = (a.toNat + 4095) % 2 ^ 32 / 4096 * 4096 := by
  have := a.isLt
  have hs : (a + pgsize - 1).toNat = (a.toNat + 4095) % 2 ^ 32 := by
    simp only [BitVec.toNat_sub, BitVec.toNat_add, pgsize]; simp; omega
  rw [roundUp, toNat_roundDown, hs]

/-- The code's alignment test. -/
theorem roundUp_eq_self_iff (a : Word) : roundUp a pgsize = a ↔ a.toNat % 4096 = 0 := by
  have := a.isLt
  rw [← BitVec.toNat_inj, toNat_roundUp]
  omega

/-! ## Memory layout -/

/-- Top of the memory that user code can manipulate, and start of the read-only windows. -/
def utop : Word := 0xeec00000
def uenvs : Word := 0xeec00000
def upages : Word := 0xef000000
def uvpt : Word := 0xef400000
/-- User code has no access from here on. -/
def ulim : Word := 0xef800000
def mmiobase : Word := 0xef800000
def mmiolim : Word := 0xefc00000
def kernbase : Word := 0xf0000000
def uxstacktop : Word := 0xeec00000
def ustacktop : Word := 0xeebfe000
def utext : Word := 0x00800000
def utemp : Word := 0x00400000
def pftemp : Word := 0x007ff000

/-- `PDX(UTOP)`: directory entries below it map user memory. -/
def userPdes : Nat := 955

theorem toNat_utop : utop.toNat = 0xeec00000 := rfl

theorem toNat_ulim : ulim.toNat = 0xef800000 := rfl

theorem pdx_lt_userPdes {va : Word} (h : va < utop) : (pdx va : Nat) < userPdes := by
  rw [BitVec.lt_def, toNat_utop] at h
  simp only [pdx, userPdes]
  omega

/-! ## Page-table entries -/

def pteP : Word := 0x001
def pteW : Word := 0x002
def pteU : Word := 0x004
def ptePWT : Word := 0x008
def ptePCD : Word := 0x010
def pteA : Word := 0x020
def pteD : Word := 0x040
/-- Bits that neither the kernel nor the hardware interprets. -/
def pteAvail : Word := 0xE00
/-- The flags that system calls may use. -/
def pteSyscall : Word := pteAvail ||| pteP ||| pteW ||| pteU

/-- `PTE_ADDR`: the address in an entry. -/
def pteAddr (pte : Word) : Word := pte &&& ~~~0xFFF#32

/-- The present bit is set. -/
def present (pte : Word) : Bool := pte &&& pteP != 0

theorem present_eq_getLsbD (w : Word) : present w = w.getLsbD 0 := by
  have h : w &&& pteP = if w.getLsbD 0 then 1#32 else 0#32 := by
    ext i hi
    by_cases h0 : i = 0
    · subst h0; cases h : w.getLsbD 0 <;> simp_all [pteP, BitVec.getLsbD_eq_getElem]
    · cases h : w.getLsbD 0 <;> simp [pteP, h0]
  unfold present
  rw [h]
  cases w.getLsbD 0 <;> decide

@[simp] theorem present_or (a b : Word) : present (a ||| b) = (present a || present b) := by
  simp [present_eq_getLsbD]

@[simp] theorem present_pteP : present pteP = true := by decide

@[simp] theorem present_zero : present 0#32 = false := by decide

theorem pgnum_or (a b : Word) : pgnum (a ||| b) = pgnum a ||| pgnum b := by
  simp only [pgnum, BitVec.toNat_or]
  exact Nat.or_div_two_pow (n := 12)

theorem pgnum_eq_zero {a : Word} (h : a.toNat < 4096) : pgnum a = 0 := Nat.div_eq_of_lt h

@[simp] theorem pgnum_pteAddr (w : Word) : pgnum (pteAddr w) = pgnum w := by
  simp only [pgnum, pteAddr, BitVec.toNat_and]
  have := Nat.and_div_two_pow (a := w.toNat) (b := (~~~0xFFF#32 : Word).toNat) (n := 12)
  rw [show (4096 : Nat) = 2 ^ 12 from rfl, this,
    show (~~~0xFFF#32 : Word).toNat / 2 ^ 12 = 2 ^ 20 - 1 from by decide,
    Nat.and_two_pow_sub_one_eq_mod]
  exact Nat.mod_eq_of_lt (by omega)

/-- The address part of an entry has no flags. -/
theorem pteAddr_and {b : Word} (hb : ~~~0xFFF#32 &&& b = 0#32) (w : Word) :
    pteAddr w &&& b = 0#32 := by
  rw [pteAddr, BitVec.and_assoc, hb, BitVec.and_zero]

/-- The flags of an entry. -/
theorem pteAddr_or_and {b : Word} (hb : ~~~0xFFF#32 &&& b = 0#32) (pa perm : Word) :
    (pteAddr pa ||| perm ||| pteP) &&& b = (perm ||| pteP) &&& b := by
  rw [BitVec.or_assoc, BitVec.and_or_distrib_right, pteAddr_and hb, BitVec.zero_or]

theorem toNat_pteAddr_mod (w : Word) : (pteAddr w).toNat % 4096 = 0 := by
  rw [show 4096 = 2 ^ 12 from rfl, ← Nat.and_two_pow_sub_one_eq_mod]
  have h : pteAddr w &&& 0xFFF#32 = 0#32 := pteAddr_and (by decide) w
  have h' := congrArg BitVec.toNat h
  rwa [BitVec.toNat_and] at h'

/-! ## Words in a frame -/

theorem four_mul_lt (i : Fin 1024) : 4 * (i : Nat) < 4096 := by omega

/-- The little-endian word `i` of a frame. -/
def rd32 (f : Frame) (i : Fin 1024) : Word :=
  f ⟨4 * i + 3, by omega⟩ ++ f ⟨4 * i + 2, by omega⟩ ++ f ⟨4 * i + 1, by omega⟩ ++
    f ⟨4 * i, four_mul_lt i⟩

/-- Overwrite the little-endian word `i` of a frame. -/
def wr32 (f : Frame) (i : Fin 1024) (w : Word) : Frame :=
  fun j => if (j : Nat) / 4 = i then w.extractLsb' (8 * (j % 4)) 8 else f j

@[simp] theorem rd32_wr32_self (f : Frame) (i : Fin 1024) (w : Word) :
    rd32 (wr32 f i w) i = w := by
  have h0 : (4 * (i : Nat)) / 4 = i := by omega
  have h1 : (4 * (i : Nat) + 1) / 4 = i := by omega
  have h2 : (4 * (i : Nat) + 2) / 4 = i := by omega
  have h3 : (4 * (i : Nat) + 3) / 4 = i := by omega
  have m1 : (4 * (i : Nat) + 1) % 4 = 1 := by omega
  have m2 : (4 * (i : Nat) + 2) % 4 = 2 := by omega
  have m3 : (4 * (i : Nat) + 3) % 4 = 3 := by omega
  simp only [rd32, wr32, h0, h1, h2, h3, m1, m2, m3, Nat.mul_mod_right, if_true]
  ext j hj
  simp only [BitVec.getElem_append, BitVec.getElem_extractLsb']
  grind

theorem rd32_wr32_of_ne (f : Frame) {i j : Fin 1024} (h : j ≠ i) (w : Word) :
    rd32 (wr32 f i w) j = rd32 f j := by
  have hne : (j : Nat) ≠ i := fun e => h (Fin.ext e)
  have h0 : (4 * (j : Nat)) / 4 ≠ i := by omega
  have h1 : (4 * (j : Nat) + 1) / 4 ≠ i := by omega
  have h2 : (4 * (j : Nat) + 2) / 4 ≠ i := by omega
  have h3 : (4 * (j : Nat) + 3) / 4 ≠ i := by omega
  simp only [rd32, wr32, h0, h1, h2, h3, if_false]

@[simp] theorem rd32_zero (i : Fin 1024) : rd32 (fun _ => 0) i = 0#32 := by
  simp only [rd32]; decide

end JosKernel
