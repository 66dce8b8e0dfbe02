import JosKernel.Machine.MemMove
import JosKernel.Pmap.Access

/-!
# `memset` and `memmove` in an address space

The functions of `lib/string.c` as the kernel runs them, on the memory that a directory maps. Each
byte is translated on its own, and an access that the tables do not allow ends the run. Where
single loads and stores through the tables behave like those of a flat memory, so do the functions.
-/
namespace JosKernel

variable {n : Nat}

namespace Mem

/-! ## String instructions -/

/-- Stores at rising addresses; `none` is a page fault. -/
def storeBytes (m : Mem n) (cr3 : Fin n) (d : Word) (f : Nat → Byte) : Nat → Option (Mem n)
  | 0 => some m
  | w + 1 => (m.storeBytes cr3 d f w).bind fun m =>
      m.storeByte cr3 (d + BitVec.ofNat 32 w) (f w) false

/-- `movs`: one element of `w` bytes is read, then written. -/
def movs (w : Nat) (m : Mem n) (cr3 : Fin n) (d s : Word) : Option (Mem n) :=
  if ∀ i < w, (m.loadByte cr3 (s + BitVec.ofNat 32 i) false).isSome = true then
    m.storeBytes cr3 d (fun i => (m.loadByte cr3 (s + BitVec.ofNat 32 i) false).getD 0) w
  else none

/-- `stos`: the low `w` bytes of `c` are written. -/
def stos (w : Nat) (m : Mem n) (cr3 : Fin n) (d c : Word) : Option (Mem n) :=
  m.storeBytes cr3 d (fun i => c.extractLsb' (8 * i) 8) w

/-- `rep movs` for `k` elements. -/
def repMovs (df : Bool) (w : Nat) : Nat → Mem n → Fin n → Word → Word → Option (Mem n)
  | 0, m, _, _, _ => some m
  | k + 1, m, cr3, d, s =>
    (movs w m cr3 d s).bind fun m => repMovs df w k m cr3 (nextElem df w d) (nextElem df w s)

/-- `rep stos` for `k` elements, at rising addresses. -/
def repStos (w : Nat) : Nat → Mem n → Fin n → Word → Word → Option (Mem n)
  | 0, m, _, _, _ => some m
  | k + 1, m, cr3, d, c =>
    (stos w m cr3 d c).bind fun m => repStos w k m cr3 (nextElem false w d) c

/-! ## The functions -/

def memset (m : Mem n) (cr3 : Fin n) (v c len : Word) : Option (Mem n) :=
  if len = 0 then some m
  else if aligned v ∧ len.toNat % 4 = 0 then
    let c := c &&& 0xFF
    let c := c <<< 24 ||| c <<< 16 ||| c <<< 8 ||| c
    repStos 4 (len.toNat / 4) m cr3 v c
  else repStos 1 len.toNat m cr3 v c

def memmove (m : Mem n) (cr3 : Fin n) (dst src len : Word) : Option (Mem n) :=
  if src < dst ∧ src + len > dst then
    let s := src + len
    let d := dst + len
    if aligned s ∧ aligned d ∧ len.toNat % 4 = 0 then
      repMovs true 4 (len.toNat / 4) m cr3 (d - 4) (s - 4)
    else repMovs true 1 len.toNat m cr3 (d - 1) (s - 1)
  else if aligned src ∧ aligned dst ∧ len.toNat % 4 = 0 then
    repMovs false 4 (len.toNat / 4) m cr3 dst src
  else repMovs false 1 len.toNat m cr3 dst src

def memcpy (m : Mem n) (cr3 : Fin n) (dst src len : Word) : Option (Mem n) :=
  m.memmove cr3 dst src len

/-! ## Flat memories -/

/-- Related memories stay related under stores to `W`, and agree on what `R` loads. -/
structure Mirrors (cr3 : Fin n) (P : Mem n → (Word → Byte) → Prop) (R W : Word → Prop) : Prop where
  load : ∀ {m f a}, P m f → R a → m.loadByte cr3 a false = some (f a)
  store : ∀ {m f a}, P m f → W a → ∀ b,
    ∃ m', m.storeByte cr3 a b false = some m' ∧ P m' (Function.update f a b)

/-- The element that `rep` processes after `j` others. -/
def elemAt (df : Bool) (w : Nat) (d : Word) : Nat → Word
  | 0 => d
  | j + 1 => elemAt df w (nextElem df w d) j

theorem elemAt_up (w : Nat) (d : Word) (j : Nat) :
    elemAt false w d j = d + BitVec.ofNat 32 (w * j) := by
  induction j generalizing d with
  | zero => simp [elemAt]
  | succ j ih =>
    rw [elemAt, ih, Nat.mul_succ, Nat.add_comm (w * j), BitVec.ofNat_add, ← BitVec.add_assoc]
    rfl

theorem elemAt_down (w : Nat) (d : Word) (j : Nat) :
    elemAt true w d j = d - BitVec.ofNat 32 (w * j) := by
  induction j generalizing d with
  | zero => simp [elemAt]
  | succ j ih =>
    rw [elemAt, ih, Nat.mul_succ, Nat.add_comm (w * j), BitVec.ofNat_add]
    exact sub_sub ..

/-- Going down from the last of `k` elements. -/
theorem elemAt_last {w k j : Nat} (d : Word) (hj : j < k) :
    elemAt true w (d + BitVec.ofNat 32 (w * k) - BitVec.ofNat 32 w) j =
      d + BitVec.ofNat 32 (w * (k - 1 - j)) := by
  have hk : w * k = w * (k - 1 - j) + w * j + w := by
    rw [← Nat.mul_add, ← Nat.mul_succ]
    congr 1
    omega
  rw [elemAt_down, hk, BitVec.ofNat_add, BitVec.ofNat_add, ← BitVec.add_assoc, ← BitVec.add_assoc,
    BitVec.add_sub_cancel, BitVec.add_sub_cancel]

namespace Mirrors

variable {cr3 : Fin n} {P : Mem n → (Word → Byte) → Prop} {R W : Word → Prop} {m : Mem n}
  {f : Word → Byte} {w k : Nat} {d s c len : Word} {df : Bool}

theorem storeBytes (sim : Mirrors cr3 P R W) (bytes : Nat → Byte) (hw : w ≤ 2 ^ 32)
    (hW : ∀ i < w, W (d + BitVec.ofNat 32 i)) (hP : P m f) :
    ∃ m', m.storeBytes cr3 d bytes w = some m' ∧
      P m' fun a => if (a - d).toNat < w then bytes (a - d).toNat else f a := by
  induction w with
  | zero => exact ⟨m, rfl, by simpa using hP⟩
  | succ w ih =>
    obtain ⟨m₁, hok₁, hP₁⟩ := ih (Nat.le_of_succ_le hw) fun i hi => hW i (Nat.lt_succ_of_lt hi)
    obtain ⟨m₂, hok₂, hP₂⟩ := sim.store hP₁ (hW w (Nat.lt_succ_self w)) (bytes w)
    refine ⟨m₂, by rw [Mem.storeBytes, hok₁, Option.bind_some, hok₂], ?_⟩
    convert hP₂ using 1
    funext a
    have hat : a = d + BitVec.ofNat 32 w ↔ (a - d).toNat = w := by
      have := a.isLt
      have := d.isLt
      rw [← BitVec.toNat_inj, BitVec.toNat_add, BitVec.toNat_sub, BitVec.toNat_ofNat]
      omega
    rw [Function.update_apply]
    by_cases ha : (a - d).toNat = w
    · rw [if_pos (by omega), if_pos (hat.mpr ha), ha]
    · rw [if_neg (hat.not.mpr ha)]
      by_cases hlt : (a - d).toNat < w
      · rw [if_pos (by omega), if_pos hlt]
      · rw [if_neg (by omega), if_neg hlt]

theorem stos (sim : Mirrors cr3 P R W) (hw : w ≤ 2 ^ 32)
    (hW : ∀ i < w, W (d + BitVec.ofNat 32 i)) (hP : P m f) :
    ∃ m', Mem.stos w m cr3 d c = some m' ∧ P m' (JosKernel.stos w f d c) :=
  sim.storeBytes (fun i => c.extractLsb' (8 * i) 8) hw hW hP

theorem movs (sim : Mirrors cr3 P R W) (hw : w ≤ 2 ^ 32)
    (hW : ∀ i < w, W (d + BitVec.ofNat 32 i)) (hR : ∀ i < w, R (s + BitVec.ofNat 32 i))
    (hP : P m f) :
    ∃ m', Mem.movs w m cr3 d s = some m' ∧ P m' (JosKernel.movs w f d s) := by
  have hload : ∀ i < w, m.loadByte cr3 (s + BitVec.ofNat 32 i) false =
      some (f (s + BitVec.ofNat 32 i)) := fun i hi => sim.load hP (hR i hi)
  obtain ⟨m', hok, hP'⟩ := sim.storeBytes
    (fun i => (m.loadByte cr3 (s + BitVec.ofNat 32 i) false).getD 0) hw hW hP
  refine ⟨m', ?_, ?_⟩
  · rw [Mem.movs, if_pos fun i hi => by rw [hload i hi]; rfl, hok]
  · convert hP' using 1
    funext a
    unfold JosKernel.movs
    split_ifs with ha
    · rw [hload _ ha, BitVec.ofNat_toNat, BitVec.setWidth_eq, Option.getD_some]
    · rfl

theorem repStos (sim : Mirrors cr3 P R W) (hw : w ≤ 2 ^ 32)
    (hW : ∀ i < w * k, W (d + BitVec.ofNat 32 i)) (hP : P m f) :
    ∃ m', Mem.repStos w k m cr3 d c = some m' ∧ P m' (JosKernel.repStos w k f d c) := by
  induction k generalizing m f d with
  | zero => exact ⟨m, rfl, hP⟩
  | succ k ih =>
    rw [Nat.mul_succ] at hW
    obtain ⟨m₁, hok₁, hP₁⟩ := sim.stos (c := c) hw (fun i hi => hW i (by omega)) hP
    have hnext : ∀ i < w * k, W (nextElem false w d + BitVec.ofNat 32 i) := by
      intro i hi
      have hi' := hW (w + i) (by omega)
      rwa [BitVec.ofNat_add, ← BitVec.add_assoc] at hi'
    obtain ⟨m₂, hok₂, hP₂⟩ := ih hnext hP₁
    exact ⟨m₂, by rw [Mem.repStos, hok₁, Option.bind_some, hok₂], hP₂⟩

theorem repMovs (sim : Mirrors cr3 P R W) (hw : w ≤ 2 ^ 32)
    (hW : ∀ j < k, ∀ i < w, W (elemAt df w d j + BitVec.ofNat 32 i))
    (hR : ∀ j < k, ∀ i < w, R (elemAt df w s j + BitVec.ofNat 32 i)) (hP : P m f) :
    ∃ m', Mem.repMovs df w k m cr3 d s = some m' ∧ P m' (JosKernel.repMovs df w k f d s) := by
  induction k generalizing m f d s with
  | zero => exact ⟨m, rfl, hP⟩
  | succ k ih =>
    obtain ⟨m₁, hok₁, hP₁⟩ := sim.movs (d := d) (s := s) hw (hW 0 k.succ_pos) (hR 0 k.succ_pos) hP
    obtain ⟨m₂, hok₂, hP₂⟩ := ih (fun j hj => hW (j + 1) (Nat.succ_lt_succ hj))
      (fun j hj => hR (j + 1) (Nat.succ_lt_succ hj)) hP₁
    exact ⟨m₂, by rw [Mem.repMovs, hok₁, Option.bind_some, hok₂], hP₂⟩

theorem memset (sim : Mirrors cr3 P R W) (hW : ∀ i < len.toNat, W (d + BitVec.ofNat 32 i))
    (hP : P m f) : ∃ m', m.memset cr3 d c len = some m' ∧ P m' (JosKernel.memset f d c len) := by
  unfold Mem.memset JosKernel.memset
  dsimp only
  split_ifs with h0 h4
  · exact ⟨m, rfl, hP⟩
  · exact sim.repStos (by decide) (fun i hi => hW i (by omega)) hP
  · exact sim.repStos (by decide) (fun i hi => hW i (by omega)) hP

/-- The elements of a move, in either direction, are parts of the block. -/
theorem elems {Q : Word → Prop} (hQ : ∀ i < w * k, Q (d + BitVec.ofNat 32 i)) :
    (∀ j < k, ∀ i < w, Q (elemAt false w d j + BitVec.ofNat 32 i)) ∧
    ∀ j < k, ∀ i < w,
      Q (elemAt true w (d + BitVec.ofNat 32 (w * k) - BitVec.ofNat 32 w) j +
        BitVec.ofNat 32 i) := by
  have hin : ∀ j < k, ∀ i < w, Q (d + BitVec.ofNat 32 (w * j) + BitVec.ofNat 32 i) := by
    intro j hj i hi
    rw [BitVec.add_assoc, ← BitVec.ofNat_add]
    refine hQ _ ?_
    calc w * j + i < w * j + w := by omega
      _ = w * (j + 1) := (Nat.mul_succ w j).symm
      _ ≤ w * k := Nat.mul_le_mul_left w hj
  refine ⟨fun j hj i hi => ?_, fun j hj i hi => ?_⟩
  · rw [elemAt_up]
    exact hin j hj i hi
  · rw [elemAt_last d hj]
    exact hin _ (by omega) i hi

theorem memmove (sim : Mirrors cr3 P R W) (hW : ∀ i < len.toNat, W (d + BitVec.ofNat 32 i))
    (hR : ∀ i < len.toNat, R (s + BitVec.ofNat 32 i)) (hP : P m f) :
    ∃ m', m.memmove cr3 d s len = some m' ∧ P m' (JosKernel.memmove f d s len) := by
  have bytes : ∀ {Q : Word → Prop} {a : Word}, (∀ i < len.toNat, Q (a + BitVec.ofNat 32 i)) →
      _ := fun hQ => elems (w := 1) (k := len.toNat) (by rwa [Nat.one_mul])
  have words : ∀ {Q : Word → Prop} {a : Word}, (∀ i < len.toNat, Q (a + BitVec.ofNat 32 i)) → _ :=
    fun hQ => elems (w := 4) (k := len.toNat / 4) fun i hi => hQ i (by omega)
  unfold Mem.memmove JosKernel.memmove
  dsimp only
  split_ifs with hover h4 h4
  · have hdiv : 4 * (len.toNat / 4) = len.toNat := by omega
    refine sim.repMovs (by decide) ?_ ?_ hP
    · simpa [hdiv] using (words hW).2
    · simpa [hdiv] using (words hR).2
  · refine sim.repMovs (by decide) ?_ ?_ hP
    · simpa using (bytes hW).2
    · simpa using (bytes hR).2
  · exact sim.repMovs (by decide) (words hW).1 (words hR).1 hP
  · exact sim.repMovs (by decide) (bytes hW).1 (bytes hR).1 hP

end Mirrors

end Mem

/-! ## Live address spaces -/

/-- Every page of an address space is mapped at one address only. -/
def MappedOnce (n : Nat) (v : Fin 1024 → Fin 1024 → Word) : Prop :=
  ∀ d t d' t' (p : Fin n), pageOf n (v d t) = some p → pageOf n (v d' t') = some p →
    d' = d ∧ t' = t

/-- The kernel's directory maps `a` to the page `p`, and neither the page nor the table belongs to
the allocator. -/
structure InKernel (S : Set (Fin n)) (m : Mem n) (a : Word) (p : Fin n) : Prop where
  high : userPdes ≤ (pdx a : Nat)
  window : pdx a ≠ pdx uvpt
  table : ∃ pt, pt ∉ S ∧ pageOf n (m.entry m.kernPgdir (pdx a)) = some pt ∧
    pageOf n (m.entry pt (ptx a)) = some p
  page : p ∉ S

section
variable {ι : Type} {S : Set (Fin n)} {dirs : ι → Option (Fin n)} {m₀ m m' m'' : Mem n} {e : ι}
  {g p : Fin n} {a b v src len c : Word} {f : Word → Byte}

/-- Only the contents of mapped pages differ. -/
structure SameMaps (S : Set (Fin n)) (dirs : ι → Option (Fin n)) (m m' : Mem n) : Prop where
  spaces : m'.spaces dirs = m.spaces dirs
  ptab : ∀ e g d, dirs e = some g → m'.ptab g d = m.ptab g d
  pages : m'.pages = m.pages
  list : m'.pageFreeList = m.pageFreeList
  kern : m'.kernPgdir = m.kernPgdir
  outside : ∀ q, q ∉ S → m'.frame q = m.frame q

theorem SameMaps.refl (m : Mem n) : SameMaps S dirs m m :=
  ⟨rfl, fun _ _ _ _ => rfl, rfl, rfl, rfl, fun _ _ => rfl⟩

theorem SameMaps.trans (h : SameMaps S dirs m m') (h' : SameMaps S dirs m' m'') :
    SameMaps S dirs m m'' :=
  ⟨h'.spaces.trans h.spaces, fun e g d he => (h'.ptab e g d he).trans (h.ptab e g d he),
    h'.pages.trans h.pages, h'.list.trans h.list, h'.kern.trans h.kern,
    fun q hq => (h'.outside q hq).trans (h.outside q hq)⟩

/-- The kernel's part of memory depends on pages that are not the allocator's. -/
theorem InKernel.congr (h : InKernel S m a p) (hk : m'.kernPgdir = m.kernPgdir)
    (hkern : m.kernPgdir ∉ S) (hf : ∀ q, q ∉ S → m'.frame q = m.frame q) : InKernel S m' a p := by
  obtain ⟨pt, hpt, hpde, hpte⟩ := h.table
  refine ⟨h.high, h.window, ⟨pt, hpt, ?_, ?_⟩, h.page⟩
  · rwa [hk, Mem.entry, hf _ hkern]
  · rwa [Mem.entry, hf _ hpt]

/-- The kernel can read an address of user memory, or of its own. -/
def CanLoad (S : Set (Fin n)) (dirs : ι → Option (Fin n)) (e : ι) (m : Mem n) (a : Word) : Prop :=
  (a < utop ∧ present (m.spaces dirs e (pdx a) (ptx a)) = true) ∨ ∃ p, InKernel S m a p

/-- The kernel can write an address of user memory. -/
def CanStore (dirs : ι → Option (Fin n)) (e : ι) (m : Mem n) (a : Word) : Prop :=
  a < utop ∧ Mem.allows false true (m.spaces dirs e (pdx a) (ptx a)) = true

/-- Bytes of user memory have been stored. -/
def Stores (g : Fin n) : Mem n → Mem n → Prop :=
  Relation.ReflTransGen fun m m' => ∃ a < utop, ∃ b, m.storeByte g a b false = some m'

variable [Fintype ι]

namespace MemInv

/-- A load from user memory. -/
theorem loadByte_eq (inv : MemInv S dirs 0 ∅ m) (he : dirs e = some g) (ha : a < utop)
    (user : Bool) : m.loadByte g a user =
      if Mem.allows user false (m.pte g (pdx a) (ptx a)) then
        (pageOf n (m.pte g (pdx a) (ptx a))).map fun p => m.frame p (pgoff a)
      else none := by
  rw [Mem.loadByte, inv.translate_eq he ha]
  split_ifs
  · rw [Option.map_map]
    rfl
  · rfl

/-- A load by the kernel from its own memory, through any directory. -/
theorem loadByte_kernel (inv : MemInv S dirs 0 ∅ m) (hg : g = m.kernPgdir ∨ ∃ e, dirs e = some g)
    (h : InKernel S m a p) : m.loadByte g a false = some (m.frame p (pgoff a)) := by
  have hpde : m.entry g (pdx a) = m.entry m.kernPgdir (pdx a) := by
    rcases hg with rfl | ⟨e, he⟩
    · rfl
    · rw [inv.dirHigh e g _ he h.high, highPde, if_neg h.window]
  obtain ⟨pt, -, hpt, hp⟩ := h.table
  obtain ⟨hpt₁, hpt₂⟩ := pageOf_eq_some.mp hpt
  obtain ⟨hp₁, hp₂⟩ := pageOf_eq_some.mp hp
  have hlt : pgnum (m.entry m.kernPgdir (pdx a)) < n := hpt₂ ▸ pt.isLt
  have htab : (⟨pgnum (m.entry m.kernPgdir (pdx a)), hlt⟩ : Fin n) = pt := Fin.ext hpt₂
  have hlt' : pgnum (m.entry pt (ptx a)) < n := hp₂ ▸ p.isLt
  have hpage : (⟨pgnum (m.entry pt (ptx a)), hlt'⟩ : Fin n) = p := Fin.ext hp₂
  have allows : ∀ w, present w = true → Mem.allows false false w = true := fun w hw => by
    simp [Mem.allows, hw]
  simp only [Mem.loadByte, Mem.translate, hpde, allows _ hpt₁, if_true, hlt, dif_pos, htab,
    allows _ hp₁, hlt', hpage, Option.map_some]

end MemInv

/-- `f` is what the kernel reads through `g`, and the mappings are those of `m₀`. -/
structure Shows (S : Set (Fin n)) (dirs : ι → Option (Fin n)) (e : ι) (g : Fin n) (m₀ m : Mem n)
    (f : Word → Byte) : Prop where
  inv : MemInv S dirs 0 ∅ m
  same : SameMaps S dirs m₀ m
  stores : Stores g m₀ m
  load : ∀ a, CanLoad S dirs e m₀ a → m.loadByte g a false = some (f a)

/-- The same page, and the same offset in it. -/
theorem eq_of_indices (hd : pdx a = pdx b) (ht : ptx a = ptx b) (ho : pgoff a = pgoff b) :
    a = b := by
  have := a.isLt
  have := b.isLt
  simp only [pdx, ptx, pgoff, Fin.mk.injEq] at hd ht ho
  exact BitVec.eq_of_toNat_eq (by omega)

/-- An address space in which every page is mapped once is a flat memory. -/
theorem mirrors_space (he : dirs e = some g) (once : MappedOnce n (m₀.spaces dirs e)) :
    Mem.Mirrors g (Shows S dirs e g m₀) (CanLoad S dirs e m₀) (CanStore dirs e m₀) := by
  refine ⟨fun hs ha => hs.load _ ha, fun {m f a} hs ha b => ?_⟩
  obtain ⟨hva, hallow⟩ := ha
  have hpte : ∀ a, m.pte g (pdx a) (ptx a) = m₀.spaces dirs e (pdx a) (ptx a) := fun a => by
    rw [← hs.same.spaces, Mem.spaces_of_dir he]
  obtain ⟨p, hp, -⟩ := hs.inv.page_of_present he (by rw [hpte]; exact Mem.present_of_allows hallow)
  have hst : m.storeByte g a b false =
      some (m.setFrame p (Function.update (m.frame p) (pgoff a) b)) := by
    rw [Mem.storeByte, hs.inv.translate_eq he hva, hp, hpte, if_pos hallow]
    rfl
  obtain ⟨inv', hsp', hk', -⟩ := hs.inv.storeByte he hva hst
  have hns := hs.inv.notStruct_of_pte he hp
  have hS := hs.inv.target_mem ((Mem.target_pte he).trans hp)
  set m' := m.setFrame p (Function.update (m.frame p) (pgoff a) b) with hm'
  have hframe : ∀ q, q ≠ p → m'.frame q = m.frame q := fun q hq => Function.update_of_ne hq ..
  have hframe_p : m'.frame p = Function.update (m.frame p) (pgoff a) b := Function.update_self ..
  have hsame : SameMaps S dirs m m' := by
    refine ⟨hsp', fun e' g' d he' => ?_, rfl, rfl, rfl, fun q hq => hframe q fun c => hq (c ▸ hS)⟩
    have hg' : g' ≠ p := fun c => hns (.dir e') trivial (c ▸ he')
    simp only [Mem.ptab, Mem.entry, hframe g' hg']
  refine ⟨m', hst, inv', hs.same.trans hsame, hs.stores.tail ⟨a, hva, b, hst⟩, fun a' ha' => ?_⟩
  have hold := hs.load a' ha'
  rcases ha' with ⟨hva', hpr⟩ | ⟨q, hq⟩
  · have hpte' : m'.pte g (pdx a') (ptx a') = m.pte g (pdx a') (ptx a') := by
      rw [← Mem.spaces_of_dir he, hsp', Mem.spaces_of_dir he]
    obtain ⟨p', hp', -⟩ := hs.inv.page_of_present he (by rw [hpte]; exact hpr)
    rw [hs.inv.loadByte_eq he hva', hp'] at hold
    rw [inv'.loadByte_eq he hva', hpte', hp']
    split_ifs at hold ⊢ with hall
    · rw [Option.map_some, Option.some.injEq] at hold ⊢
      by_cases hpp : p' = p
      · subst hpp
        rw [hpte] at hp hp'
        obtain ⟨hd, ht⟩ := once _ _ _ _ _ hp hp'
        rw [hframe_p, Function.update_apply, Function.update_apply]
        by_cases ho : pgoff a' = pgoff a
        · rw [if_pos ho, if_pos (eq_of_indices hd ht ho)]
        · rw [if_neg ho, if_neg fun c => ho (by rw [c])]
          exact hold
      · have hne : a' ≠ a := by
          rintro rfl
          exact hpp (Option.some.inj (hp'.symm.trans hp))
        rw [hframe p' hpp, Function.update_of_ne hne]
        exact hold
  · have hne : a' ≠ a := by
      rintro rfl
      exact absurd hq.high (Nat.not_le.mpr (pdx_lt_userPdes hva))
    have hkern : m₀.kernPgdir ∉ S := hs.same.kern ▸ hs.inv.kern
    have hq₁ := hq.congr hs.same.kern hkern hs.same.outside
    have hq₂ : InKernel S m' a' q := hq₁.congr rfl hs.inv.kern hsame.outside
    rw [hs.inv.loadByte_kernel (.inr ⟨e, he⟩) hq₁] at hold
    rw [inv'.loadByte_kernel (.inr ⟨e, he⟩) hq₂, hframe q fun c => hq.page (c ▸ hS), hold,
      Function.update_of_ne hne]

/-- What the kernel reads before anything is stored. -/
theorem shows_self (inv : MemInv S dirs 0 ∅ m) (he : dirs e = some g) :
    Shows S dirs e g m m fun a => (m.loadByte g a false).getD 0 := by
  refine ⟨inv, .refl m, .refl, fun a ha => ?_⟩
  rcases ha with ⟨hva, hpr⟩ | ⟨p, hp⟩
  · rw [Mem.spaces_of_dir he] at hpr
    obtain ⟨p, hp, -⟩ := inv.page_of_present he hpr
    have hall : Mem.allows false false (m.pte g (pdx a) (ptx a)) = true := by
      simp [Mem.allows, hpr]
    rw [inv.loadByte_eq he hva, if_pos hall, hp]
    rfl
  · rw [inv.loadByte_kernel (.inr ⟨e, he⟩) hp]
    rfl

namespace MemInv

/-- `memset` in an address space in which every page is mapped once. -/
theorem memset (inv : MemInv S dirs 0 ∅ m) (he : dirs e = some g)
    (once : MappedOnce n (m.spaces dirs e)) (hv : v.toNat + len.toNat ≤ 2 ^ 32)
    (hW : ∀ i < len.toNat, CanStore dirs e m (v + BitVec.ofNat 32 i)) (c : Word) :
    ∃ m', m.memset g v c len = some m' ∧ MemInv S dirs 0 ∅ m' ∧ SameMaps S dirs m m' ∧
      Stores g m m' ∧ ∀ a, CanLoad S dirs e m a → m'.loadByte g a false =
        if (a - v).toNat < len.toNat then some (c.setWidth 8) else m.loadByte g a false := by
  have hself := shows_self inv he
  obtain ⟨m', hok, hs⟩ := (mirrors_space he once).memset (c := c) hW hself
  refine ⟨m', hok, hs.inv, hs.same, hs.stores, fun a ha => ?_⟩
  rw [hs.load a ha, memset_eq_filled hv, filled, hself.load a ha]
  split_ifs <;> rfl

/-- `memcpy` in such an address space, from user memory or from the kernel's. -/
theorem memcpy (inv : MemInv S dirs 0 ∅ m) (he : dirs e = some g)
    (once : MappedOnce n (m.spaces dirs e)) (hv : v.toNat + len.toNat ≤ 2 ^ 32)
    (hsrc : src.toNat + len.toNat ≤ 2 ^ 32)
    (hW : ∀ i < len.toNat, CanStore dirs e m (v + BitVec.ofNat 32 i))
    (hR : ∀ i < len.toNat, CanLoad S dirs e m (src + BitVec.ofNat 32 i)) :
    ∃ m', m.memcpy g v src len = some m' ∧ MemInv S dirs 0 ∅ m' ∧ SameMaps S dirs m m' ∧
      Stores g m m' ∧ ∀ a, CanLoad S dirs e m a → m'.loadByte g a false =
        if (a - v).toNat < len.toNat then m.loadByte g (src + (a - v)) false
        else m.loadByte g a false := by
  have hself := shows_self inv he
  obtain ⟨m', hok, hs⟩ := (mirrors_space he once).memmove hW hR hself
  refine ⟨m', hok, hs.inv, hs.same, hs.stores, fun a ha => ?_⟩
  rw [hs.load a ha, memmove_eq_copied hv hsrc, copied]
  split_ifs with hlt
  · have hread := hself.load _ (hR _ hlt)
    rw [BitVec.ofNat_toNat, BitVec.setWidth_eq] at hread
    exact hread.symm
  · exact (hself.load a ha).symm

end MemInv

end

end JosKernel
