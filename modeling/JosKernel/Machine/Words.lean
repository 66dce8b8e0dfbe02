import JosKernel.Machine.MemMove

/-!
# Words in a flat memory

A word is stored at four consecutive addresses, its lowest byte first, and addresses wrap around
at the end of memory. Two words do not overlap when each of them starts four bytes or more after
the other, going up.
-/
namespace JosKernel

/-- The word at `a`. -/
def loadWord (m : Word → Byte) (a : Word) : Word :=
  m (a + 3) ++ m (a + 2) ++ m (a + 1) ++ m a

/-- The memory after a word has been stored at `a`. -/
def storeWord (m : Word → Byte) (a w : Word) : Word → Byte := stos 4 m a w

def storeWords (m : Word → Byte) (a : Word) : List Word → Word → Byte
  | [] => m
  | w :: ws => storeWords (storeWord m a w) (a + 4) ws

/-- The four addresses of the word at `a`. -/
def InWord (a x : Word) : Prop := (x - a).toNat < 4

variable {m m' : Word → Byte} {a b w x : Word} {ws : List Word}

/-! ## Single words -/

theorem storeWord_of_not (h : ¬InWord a x) : storeWord m a w x = m x := if_neg h

theorem inWord_iff : InWord a x ↔ x = a ∨ x = a + 1 ∨ x = a + 2 ∨ x = a + 3 := by
  unfold InWord
  bv_omega

theorem loadWord_congr (h : ∀ x, InWord a x → m x = m' x) : loadWord m a = loadWord m' a := by
  unfold loadWord
  rw [h a (inWord_iff.mpr (by simp)), h (a + 1) (inWord_iff.mpr (by simp)),
    h (a + 2) (inWord_iff.mpr (by simp)), h (a + 3) (inWord_iff.mpr (by simp))]

theorem loadWord_storeWord : loadWord (storeWord m a w) a = w := by
  have h0 : (a - a).toNat = 0 := by rw [BitVec.sub_self]; rfl
  have h1 : (a + 1 - a).toNat = 1 := by bv_omega
  have h2 : (a + 2 - a).toNat = 2 := by bv_omega
  have h3 : (a + 3 - a).toNat = 3 := by bv_omega
  simp only [loadWord, storeWord, stos, h0, h1, h2, h3]
  ext i hi
  simp only [Nat.reduceLT, if_true, BitVec.getElem_append, BitVec.getElem_extractLsb']
  grind

/-- A word is stored byte by byte. -/
theorem storeWord_eq_update : storeWord m a w =
    Function.update (Function.update (Function.update (Function.update m
      a (w.extractLsb' 0 8)) (a + 1) (w.extractLsb' 8 8)) (a + 2) (w.extractLsb' 16 8))
      (a + 3) (w.extractLsb' 24 8) := by
  funext x
  by_cases hx : InWord a x
  · rcases inWord_iff.mp hx with rfl | rfl | rfl | rfl
    · simp [storeWord, stos]
    · simp [storeWord, stos]
    · simp [storeWord, stos]
    · simp [storeWord, stos]
  · rw [storeWord_of_not hx]
    simp only [inWord_iff, not_or] at hx
    obtain ⟨n0, n1, n2, n3⟩ := hx
    rw [Function.update_of_ne n3, Function.update_of_ne n2, Function.update_of_ne n1,
      Function.update_of_ne n0]

/-- A word that does not overlap the one that is stored. -/
theorem loadWord_storeWord_of_apart (h : ∀ x, InWord b x → ¬InWord a x) :
    loadWord (storeWord m a w) b = loadWord m b :=
  loadWord_congr fun x hx => storeWord_of_not (h x hx)

/-! ## Consecutive words -/

theorem storeWords_of_not (hlen : 4 * ws.length ≤ 2 ^ 32) (h : 4 * ws.length ≤ (x - a).toNat) :
    storeWords m a ws x = m x := by
  induction ws generalizing m a with
  | nil => rfl
  | cons w ws ih =>
    rw [List.length_cons] at hlen h
    have hx : (x - (a + 4)).toNat = (x - a).toNat - 4 := by bv_omega
    rw [storeWords, ih (by omega) (by omega), storeWord_of_not (by unfold InWord; omega)]

theorem loadWord_storeWords (hlen : 4 * ws.length ≤ 2 ^ 32) {i : ℕ} (hi : i < ws.length) :
    loadWord (storeWords m a ws) (a + BitVec.ofNat 32 (4 * i)) = ws.getD i 0 := by
  induction ws generalizing m a i with
  | nil => exact absurd hi (Nat.not_lt_zero i)
  | cons w ws ih =>
    rw [List.length_cons] at hlen hi
    cases i with
    | zero =>
      rw [Nat.mul_zero, BitVec.add_zero, storeWords, List.getD_cons_zero,
        loadWord_congr fun x hx => storeWords_of_not (by omega) ?_, loadWord_storeWord]
      unfold InWord at hx
      have hx' : (x - (a + 4)).toNat = (x - a).toNat + (2 ^ 32 - 4) := by bv_omega
      omega
    | succ i =>
      have ha : a + BitVec.ofNat 32 (4 * (i + 1)) = a + 4 + BitVec.ofNat 32 (4 * i) := by
        rw [Nat.mul_succ, Nat.add_comm (4 * i), BitVec.ofNat_add, ← BitVec.add_assoc]
        rfl
      rw [storeWords, List.getD_cons_succ, ha, ih (by omega) (by omega)]

end JosKernel
