import JosKernel.Machine.Mmu

/-!
# Moving and filling memory

`memset` and `memmove` of `lib/string.c`, which use the string instructions of the processor. An
instruction with the prefix `rep` processes one element after the other, at rising or falling
addresses, and an element is a byte or a doubleword. Addresses wrap around at the end of memory.
-/
namespace JosKernel

/-! ## String instructions -/

/-- The address of the next element of `w` bytes; `df` is the direction flag. -/
def nextElem (df : Bool) (w : Nat) (a : Word) : Word :=
  if df then a - BitVec.ofNat 32 w else a + BitVec.ofNat 32 w

/-- `movs`: one element of `w` bytes is read, then written. -/
def movs (w : Nat) (m : Word → Byte) (d s : Word) : Word → Byte := fun a =>
  if (a - d).toNat < w then m (s + (a - d)) else m a

/-- `stos`: the low `w` bytes of `c` are written. -/
def stos (w : Nat) (m : Word → Byte) (d c : Word) : Word → Byte := fun a =>
  if (a - d).toNat < w then c.extractLsb' (8 * (a - d).toNat) 8 else m a

/-- `rep movs` for `n` elements. -/
def repMovs (df : Bool) (w : Nat) : Nat → (Word → Byte) → Word → Word → Word → Byte
  | 0, m, _, _ => m
  | n + 1, m, d, s => repMovs df w n (movs w m d s) (nextElem df w d) (nextElem df w s)

/-- `rep stos` for `n` elements, at rising addresses. -/
def repStos (w : Nat) : Nat → (Word → Byte) → Word → Word → Word → Byte
  | 0, m, _, _ => m
  | n + 1, m, d, c => repStos w n (stos w m d c) (nextElem false w d) c

/-! ## The functions -/

/-- `(int)a%4 == 0`. -/
def aligned (a : Word) : Prop := a.toInt.tmod 4 = 0

instance (a : Word) : Decidable (aligned a) := inferInstanceAs (Decidable (_ = _))

def memset (m : Word → Byte) (v c n : Word) : Word → Byte :=
  if n = 0 then m
  else if aligned v ∧ n.toNat % 4 = 0 then
    let c := c &&& 0xFF
    let c := c <<< 24 ||| c <<< 16 ||| c <<< 8 ||| c
    repStos 4 (n.toNat / 4) m v c
  else repStos 1 n.toNat m v c

def memmove (m : Word → Byte) (dst src n : Word) : Word → Byte :=
  if src < dst ∧ src + n > dst then
    let s := src + n
    let d := dst + n
    if aligned s ∧ aligned d ∧ n.toNat % 4 = 0 then
      repMovs true 4 (n.toNat / 4) m (d - 4) (s - 4)
    else repMovs true 1 n.toNat m (d - 1) (s - 1)
  else if aligned src ∧ aligned dst ∧ n.toNat % 4 = 0 then
    repMovs false 4 (n.toNat / 4) m dst src
  else repMovs false 1 n.toNat m dst src

def memcpy (m : Word → Byte) (dst src n : Word) : Word → Byte := memmove m dst src n

/-! ## Blocks of bytes -/

/-- The `k` bytes at `d` are those that were at `s`. -/
def copied (m : Word → Byte) (d s : Word) (k : Nat) : Word → Byte := fun a =>
  if (a - d).toNat < k then m (s + (a - d)) else m a

/-- The `k` bytes at `d` are `b`. -/
def filled (m : Word → Byte) (d : Word) (k : Nat) (b : Byte) : Word → Byte := fun a =>
  if (a - d).toNat < k then b else m a

variable {m : Word → Byte} {d s c : Word} {w n k l : Nat} {b : Byte}

theorem copied_zero : copied m d s 0 = m := by
  funext a
  simp [copied]

theorem filled_zero : filled m d 0 b = m := by
  funext a
  simp [filled]

/-- The offset of an address from the next element. -/
theorem toNat_sub_add (a d : Word) (hk : k < 2 ^ 32) : (a - (d + BitVec.ofNat 32 k)).toNat =
    if k ≤ (a - d).toNat then (a - d).toNat - k else (a - d).toNat + 2 ^ 32 - k := by
  have := a.isLt
  have := d.isLt
  simp only [BitVec.toNat_sub, BitVec.toNat_add, BitVec.toNat_ofNat, Nat.mod_eq_of_lt hk]
  split_ifs <;> omega

/-- The second of two blocks starts where the first one ends. -/
theorem add_sub_add (a s d k : Word) : s + k + (a - (d + k)) = s + (a - d) := by
  apply BitVec.eq_of_toNat_eq
  simp only [BitVec.toNat_sub, BitVec.toNat_add]
  omega

/-- Blocks next to each other, when the first does not overwrite the source of the second. -/
theorem copied_append (hk : k < 2 ^ 32) (hkl : k + l ≤ 2 ^ 32)
    (safe : ∀ i : Word, k ≤ i.toNat → i.toNat < k + l → k ≤ (s + i - d).toNat) :
    copied (copied m d s k) (d + BitVec.ofNat 32 k) (s + BitVec.ofNat 32 k) l =
      copied m d s (k + l) := by
  funext a
  have hlt := (a - d).isLt
  simp only [copied, toNat_sub_add a d hk, add_sub_add]
  by_cases hlo : (a - d).toNat < k
  · have hout : ¬ (a - d).toNat + 2 ^ 32 - k < l := by omega
    simp only [if_neg hlo.not_ge, hout, hlo, if_true, if_false, Nat.lt_add_right l hlo]
  · rw [if_pos (not_lt.mp hlo)]
    by_cases hhi : (a - d).toNat < k + l
    · have hin : (a - d).toNat - k < l := by omega
      have hsafe := safe (a - d) (not_lt.mp hlo) hhi
      simp only [hin, hhi, if_true, if_neg hsafe.not_gt]
    · have hin : ¬ (a - d).toNat - k < l := by omega
      simp only [hin, hhi, hlo, if_false]

/-- The same with the second block written first. -/
theorem copied_append_rev (hk : k < 2 ^ 32)
    (safe : ∀ i : Word, i.toNat < k → (s + i - (d + BitVec.ofNat 32 k)).toNat ≥ l) :
    copied (copied m (d + BitVec.ofNat 32 k) (s + BitVec.ofNat 32 k) l) d s k =
      copied m d s (k + l) := by
  funext a
  have hlt := (a - d).isLt
  simp only [copied, toNat_sub_add a d hk, add_sub_add]
  by_cases hlo : (a - d).toNat < k
  · have hsafe := safe (a - d) hlo
    simp only [hlo, if_true, if_neg hsafe.not_gt, Nat.lt_add_right l hlo]
  · rw [if_neg hlo, if_pos (not_lt.mp hlo)]
    have hiff : (a - d).toNat - k < l ↔ (a - d).toNat < k + l := by omega
    simp only [hiff]

theorem filled_append (hk : k < 2 ^ 32) :
    filled (filled m d k b) (d + BitVec.ofNat 32 k) l b = filled m d (k + l) b := by
  funext a
  have hlt := (a - d).isLt
  simp only [filled, toNat_sub_add a d hk]
  grind

/-! ## Whole moves -/

theorem movs_eq_copied : movs w m d s = copied m d s w := rfl

/-- At rising addresses the source may lie above the destination. -/
theorem repMovs_up (hw : 0 < w) (hd : d.toNat + w * n ≤ 2 ^ 32) (hs : s.toNat + w * n ≤ 2 ^ 32)
    (safe : d ≤ s ∨ s.toNat + w * n ≤ d.toNat) :
    repMovs false w n m d s = copied m d s (w * n) := by
  induction n generalizing m d s with
  | zero => rw [repMovs, Nat.mul_zero, copied_zero]
  | succ n ih =>
    rw [Nat.mul_succ] at hd hs safe ⊢
    rcases Nat.eq_zero_or_pos n with rfl | hn
    · simp only [repMovs, Nat.mul_zero, Nat.zero_add, movs_eq_copied]
    have hpos : 0 < w * n := Nat.mul_pos hw hn
    have hstep : ∀ a : Word, a.toNat + (w * n + w) ≤ 2 ^ 32 →
        (a + BitVec.ofNat 32 w).toNat = a.toNat + w := by
      intro a ha
      simp only [BitVec.toNat_add, BitVec.toNat_ofNat]
      omega
    rw [BitVec.le_def] at safe
    rw [repMovs, movs_eq_copied]
    simp only [nextElem, Bool.false_eq_true, if_false]
    rw [ih, copied_append, Nat.add_comm]
    · omega
    · omega
    · intro i hlo hhi
      simp only [BitVec.toNat_sub, BitVec.toNat_add]
      omega
    · rw [hstep d hd]
      omega
    · rw [hstep s hs]
      omega
    · rw [BitVec.le_def, hstep d hd, hstep s hs]
      omega

/-- At falling addresses the source may lie below the destination. The pointers start at the last
element. -/
theorem repMovs_down (hw : 0 < w) (hd : d.toNat + w * n ≤ 2 ^ 32) (hs : s.toNat + w * n ≤ 2 ^ 32)
    (safe : s ≤ d) :
    repMovs true w n m (d + BitVec.ofNat 32 (w * n) - BitVec.ofNat 32 w)
      (s + BitVec.ofNat 32 (w * n) - BitVec.ofNat 32 w) = copied m d s (w * n) := by
  induction n generalizing m with
  | zero => rw [repMovs, Nat.mul_zero, copied_zero]
  | succ n ih =>
    rw [Nat.mul_succ] at hd hs ⊢
    have hback : ∀ a : Word, a + BitVec.ofNat 32 (w * n + w) - BitVec.ofNat 32 w =
        a + BitVec.ofNat 32 (w * n) := by
      intro a
      rw [BitVec.ofNat_add, ← BitVec.add_assoc, BitVec.add_sub_cancel]
    rw [BitVec.le_def] at safe
    rw [hback, hback, repMovs, movs_eq_copied]
    simp only [nextElem, if_true]
    rw [ih (by omega) (by omega), copied_append_rev (by omega)]
    intro i hi
    simp only [BitVec.toNat_sub, BitVec.toNat_add, BitVec.toNat_ofNat]
    omega

theorem repStos_eq (hw : 0 < w) (hd : d.toNat + w * n ≤ 2 ^ 32)
    (hc : ∀ i < w, c.extractLsb' (8 * i) 8 = b) :
    repStos w n m d c = filled m d (w * n) b := by
  have hstos : ∀ (m : Word → Byte) (d : Word), stos w m d c = filled m d w b := by
    intro m d
    funext a
    unfold stos filled
    split_ifs with h
    · exact hc _ h
    · rfl
  induction n generalizing m d with
  | zero => rw [repStos, Nat.mul_zero, filled_zero]
  | succ n ih =>
    rw [Nat.mul_succ] at hd ⊢
    rcases Nat.eq_zero_or_pos n with rfl | hn
    · simp only [repStos, Nat.mul_zero, Nat.zero_add, hstos]
    have hpos : 0 < w * n := Nat.mul_pos hw hn
    rw [repStos, hstos]
    simp only [nextElem, Bool.false_eq_true, if_false]
    rw [ih, filled_append (by omega), Nat.add_comm]
    simp only [BitVec.toNat_add, BitVec.toNat_ofNat]
    omega

/-! ## The specification -/

/-- The doubleword whose four bytes are the low byte of `c`. -/
theorem byte_spread (c : Word) {i : Nat} (hi : i < 4) :
    ((c &&& 0xFF) <<< 24 ||| (c &&& 0xFF) <<< 16 ||| (c &&& 0xFF) <<< 8 |||
      (c &&& 0xFF)).extractLsb' (8 * i) 8 = c.setWidth 8 := by
  ext j hj
  interval_cases i <;> interval_cases j <;> simp

theorem memset_eq_filled {v n : Word} (hv : v.toNat + n.toNat ≤ 2 ^ 32) :
    memset m v c n = filled m v n.toNat (c.setWidth 8) := by
  unfold memset
  split_ifs with h0 h4
  · rw [h0]
    exact filled_zero.symm
  · rw [repStos_eq (by decide) (by omega) fun i hi => byte_spread c hi]
    congr 1
    omega
  · rw [repStos_eq Nat.one_pos (by omega), Nat.one_mul]
    intro i hi
    obtain rfl : i = 0 := by omega
    rfl

theorem memmove_eq_copied {dst src n : Word} (hd : dst.toNat + n.toNat ≤ 2 ^ 32)
    (hs : src.toNat + n.toNat ≤ 2 ^ 32) : memmove m dst src n = copied m dst src n.toNat := by
  have hdiv : n.toNat % 4 = 0 → 4 * (n.toNat / 4) = n.toNat := by omega
  unfold memmove
  dsimp only
  by_cases hover : src < dst ∧ src + n > dst
  · -- falling addresses, since the source begins below the destination
    rw [if_pos hover]
    have hle : src ≤ dst := BitVec.le_of_lt hover.1
    split_ifs with h4
    · have hdown := repMovs_down (m := m) (d := dst) (s := src) (w := 4)
        (n := n.toNat / 4) (by decide)
        (by omega) (by omega) hle
      rw [hdiv h4.2.2] at hdown
      simpa using hdown
    · have hdown := repMovs_down (m := m) (d := dst) (s := src) (w := 1)
        (n := n.toNat) (by decide)
        (by omega) (by omega) hle
      simpa using hdown
  · rw [if_neg hover]
    have safe : dst ≤ src ∨ src.toNat + n.toNat ≤ dst.toNat := by
      rw [BitVec.le_def]
      by_contra hc
      refine hover ⟨BitVec.lt_def.mpr (by omega), BitVec.lt_def.mpr ?_⟩
      rw [BitVec.toNat_add]
      omega
    split_ifs with h4
    · have hup := repMovs_up (m := m) (w := 4) (n := n.toNat / 4) (d := dst) (s := src)
        (by decide) (by omega) (by omega) (by rwa [hdiv h4.2.2])
      rwa [hdiv h4.2.2] at hup
    · simpa using repMovs_up (m := m) (w := 1) (n := n.toNat) (d := dst) (s := src)
        (by decide) (by omega) (by omega) (by rwa [Nat.one_mul])

/-- The bytes at `dst` are those that were at `src`, and nothing else has changed. -/
structure BytesMoved (m : Word → Byte) (dst src n : Word) (m' : Word → Byte) : Prop where
  bytes : ∀ i < n.toNat, m' (dst + BitVec.ofNat 32 i) = m (src + BitVec.ofNat 32 i)
  others : ∀ a, (∀ i < n.toNat, a ≠ dst + BitVec.ofNat 32 i) → m' a = m a

/-- The bytes at `v` are `b`, and nothing else has changed. -/
structure BytesFilled (m : Word → Byte) (v n : Word) (b : Byte) (m' : Word → Byte) : Prop where
  bytes : ∀ i < n.toNat, m' (v + BitVec.ofNat 32 i) = b
  others : ∀ a, (∀ i < n.toNat, a ≠ v + BitVec.ofNat 32 i) → m' a = m a

theorem add_ofNat_sub_self (d : Word) {i : Nat} (n : Word) (hi : i < n.toNat) :
    (d + BitVec.ofNat 32 i - d).toNat = i := by
  simp only [BitVec.toNat_sub, BitVec.toNat_add, BitVec.toNat_ofNat]
  omega

/-- An address at none of the offsets. -/
theorem le_toNat_sub {a d n : Word} (h : ∀ i < n.toNat, a ≠ d + BitVec.ofNat 32 i) :
    ¬(a - d).toNat < n.toNat := by
  intro hlt
  apply h _ hlt
  rw [BitVec.ofNat_toNat, BitVec.setWidth_eq, BitVec.add_comm, BitVec.sub_add_cancel]

theorem bytesMoved_copied {dst src n : Word} :
    BytesMoved m dst src n (copied m dst src n.toNat) := by
  constructor
  · intro i hi
    rw [copied, add_ofNat_sub_self dst n hi, if_pos hi, BitVec.add_comm dst,
      BitVec.add_sub_cancel]
  · intro a ha
    rw [copied, if_neg (le_toNat_sub ha)]

theorem bytesFilled_filled {v n : Word} : BytesFilled m v n b (filled m v n.toNat b) := by
  constructor
  · intro i hi
    rw [filled, add_ofNat_sub_self v n hi, if_pos hi]
  · intro a ha
    rw [filled, if_neg (le_toNat_sub ha)]

/-- The functions meet the bytewise specification. -/
theorem bytesMoved_memmove {dst n : Word} (hd : dst.toNat + n.toNat ≤ 2 ^ 32) (m : Word → Byte) :
    (∀ src : Word, src.toNat + n.toNat ≤ 2 ^ 32 →
      BytesMoved m dst src n (memmove m dst src n) ∧ BytesMoved m dst src n (memcpy m dst src n)) ∧
    ∀ c, BytesFilled m dst n (c.setWidth 8) (memset m dst c n) := by
  constructor
  · intro src hs
    rw [memcpy, memmove_eq_copied hd hs]
    exact ⟨bytesMoved_copied, bytesMoved_copied⟩
  · intro c
    rw [memset_eq_filled hd]
    exact bytesFilled_filled

/-- A move by one byte up, at the end of a memory whose bytes count their addresses. -/
theorem bytesMoved_memmove_top : BytesMoved (BitVec.setWidth 8) 0xfffffff9 0xfffffff8 7
    (memmove (BitVec.setWidth 8) 0xfffffff9 0xfffffff8 7) :=
  ((bytesMoved_memmove (by decide) _).1 _ (by decide)).1

end JosKernel
