import JosKernel.Lib.Traced
import JosKernel.Machine.Mmu

/-!
# The search for a stab

`stab_binsearch` of `kern/kdebug.c`. The table is in memory, an entry is twelve bytes. The search
looks for the entry of a type that contains an address, among entries of other types too.
-/
namespace JosKernel

open Lib

/-- What the debugger does with memory. -/
inductive Probe where
  /-- `user_mem_check` has accepted a range. -/
  | checked (va len : Word)
  | read (va : Word) (len : Nat)
  deriving DecidableEq, Repr

/-- The doubleword at an address. -/
def word32 (mem : Word → Byte) (a : Word) : Word :=
  mem (a + 3) ++ mem (a + 2) ++ mem (a + 1) ++ mem a

def word16 (mem : Word → Byte) (a : Word) : BitVec 16 := mem (a + 1) ++ mem a

def load8 (mem : Word → Byte) (a : Word) : Traced Probe Byte := ⟨[.read a 1], some (mem a)⟩

def load16 (mem : Word → Byte) (a : Word) : Traced Probe (BitVec 16) :=
  ⟨[.read a 2], some (word16 mem a)⟩

def load32 (mem : Word → Byte) (a : Word) : Traced Probe Word :=
  ⟨[.read a 4], some (word32 mem a)⟩

/-- `&stabs[m]`. -/
def stabAt (stabs : Word) (m : Int) : Word := stabs + BitVec.ofInt 32 (12 * m)

def nStrx (mem : Word → Byte) (stabs : Word) (m : Int) : Word := word32 mem (stabAt stabs m)

def nType (mem : Word → Byte) (stabs : Word) (m : Int) : Byte := mem (stabAt stabs m + 4)

def nDesc (mem : Word → Byte) (stabs : Word) (m : Int) : BitVec 16 :=
  word16 mem (stabAt stabs m + 6)

def nValue (mem : Word → Byte) (stabs : Word) (m : Int) : Word := word32 mem (stabAt stabs m + 8)

/-- A loop that goes down from `m` to an index where it stops, at the latest below `lo`. -/
def backward (lo : Int) (stop : Int → Traced Probe Bool) : Nat → Int → Traced Probe Int
  | 0, _ => .stuck
  | fuel + 1, m =>
    if m ≥ lo then do
      let found ← stop m
      if found then pure m else backward lo stop fuel (m - 1)
    else pure m

/-- `stabs[m].n_type == type`. -/
def hasType (mem : Word → Byte) (stabs : Word) (type m : Int) : Traced Probe Bool := do
  let t ← load8 mem (stabAt stabs m + 4)
  pure (decide ((t.toNat : Int) = type))

/-- The local variables of the search, and the region. -/
structure Search where
  l : Int
  r : Int
  anyMatches : Bool
  addr : Word
  regionLeft : Int
  regionRight : Int

/-- The body of the loop. -/
def searchBody (mem : Word → Byte) (stabs : Word) (type : Int) (s : Search) :
    Traced Probe Search := do
  let trueM := (s.l + s.r).tdiv 2
  let m ← backward s.l (hasType mem stabs type) ((trueM + 1 - s.l).toNat + 1) trueM
  if m < s.l then pure { s with l := trueM + 1 }
  else do
    let v ← load32 mem (stabAt stabs m + 8)
    if v < s.addr then
      pure { s with anyMatches := true, regionLeft := m, l := trueM + 1 }
    else if v > s.addr then
      pure { s with anyMatches := true, regionRight := m - 1, r := m - 1 }
    else pure { s with anyMatches := true, regionLeft := m, l := m, addr := s.addr + 1 }

def searchLoop (mem : Word → Byte) (stabs : Word) (type : Int) : Nat → Search →
    Traced Probe Search
  | 0, _ => .stuck
  | fuel + 1, s =>
    if s.l ≤ s.r then do
      let s ← searchBody mem stabs type s
      searchLoop mem stabs type fuel s
    else pure s

/-- What comes after the loop. -/
def searchEnd (mem : Word → Byte) (stabs : Word) (type : Int) (s : Search) :
    Traced Probe (Int × Int) :=
  if !s.anyMatches then pure (s.regionLeft, s.regionLeft - 1)
  else do
    let l ← backward (s.regionLeft + 1) (hasType mem stabs type)
      ((s.regionRight - s.regionLeft).toNat + 1) s.regionRight
    pure (l, s.regionRight)

/-- `stab_binsearch`; the result is the new region. No entry is probed more than twice. -/
def stabBinsearch (mem : Word → Byte) (stabs : Word) (left right type : Int) (addr : Word) :
    Traced Probe (Int × Int) := do
  let s ← searchLoop mem stabs type (2 * (right + 1 - left).toNat + 2)
    ⟨left, right, false, addr, left, right⟩
  searchEnd mem stabs type s

/-! ## The specification -/

section Spec

variable (key : Int → Prop) (val : Int → Word) (left right : Int) (addr : Word)

/-- The values of the entries rise. -/
def Rising : Prop :=
  ∀ i j, left ≤ i → i < j → j ≤ right → key i → key j → val i < val j

/-- `l` is the last entry with a value of at most `addr`, and `r` is just before the next entry. -/
structure Encloses (l r : Int) : Prop where
  left_le : left ≤ l
  le : l ≤ r
  le_right : r ≤ right
  isKey : key l
  value : val l ≤ addr
  last : ∀ i, l < i → i ≤ right → key i → addr < val i
  next : ∀ i, l < i → i ≤ r → ¬key i
  ends : r = right ∨ key (r + 1)

/-- The region encloses the address, or it is empty if no entry does. -/
def FoundIn (l r : Int) : Prop :=
  ((∃ i, left ≤ i ∧ i ≤ right ∧ key i ∧ val i ≤ addr) → Encloses key val left right addr l r) ∧
    ((∀ i, left ≤ i → i ≤ right → key i → addr < val i) → r < l)

end Spec

/-- The entries of a type. -/
def IsStab (mem : Word → Byte) (stabs : Word) (type : Int) (i : Int) : Prop :=
  ((nType mem stabs i).toNat : Int) = type

instance (mem : Word → Byte) (stabs : Word) (type : Int) :
    DecidablePred (IsStab mem stabs type) := fun _ => inferInstanceAs (Decidable (_ = _))

variable {mem : Word → Byte} {stabs : Word} {type : Int}

theorem result_hasType (mem : Word → Byte) (stabs : Word) (type m : Int) :
    (hasType mem stabs type m).result = some (decide (IsStab mem stabs type m)) := rfl

/-- Going down ends at the first index where the loop may stop. -/
theorem backward_spec {stop : Int → Traced Probe Bool} {p : Int → Prop} [DecidablePred p]
    (hstop : ∀ i, (stop i).result = some (decide (p i))) (lo : Int) {fuel : Nat} (m : Int)
    (hf : (m + 1 - lo).toNat < fuel) :
    ∃ k, (backward lo stop fuel m).result = some k ∧ k ≤ m ∧ min m (lo - 1) ≤ k ∧
      (lo ≤ k → p k) ∧ ∀ i, k < i → i ≤ m → ¬p i := by
  induction fuel generalizing m with
  | zero => omega
  | succ fuel ih =>
    unfold backward
    by_cases hlo : m ≥ lo
    · rw [if_pos hlo, Traced.result_bind_of_some (hstop m)]
      by_cases hp : p m
      · refine ⟨m, ?_, le_rfl, min_le_left _ _, fun _ => hp, fun i h h' => by omega⟩
        rw [decide_eq_true hp]
        rfl
      · obtain ⟨k, hk, hle, hmin, hpk, hno⟩ := ih (m - 1) (by omega)
        refine ⟨k, ?_, by omega, by omega, hpk, fun i hi him => ?_⟩
        · rw [decide_eq_false hp]
          exact hk
        · by_cases heq : i = m
          · exact heq ▸ hp
          · exact hno i hi (by omega)
    · rw [if_neg hlo]
      exact ⟨m, rfl, le_rfl, min_le_left _ _, fun h => absurd h hlo, fun i h h' => by omega⟩

/-! ## One turn of the loop -/

/-- The index that is probed first. -/
def Search.mid (s : Search) : Int := (s.l + s.r) / 2

theorem Search.tdiv_eq_mid (s : Search) (h : 0 ≤ s.l + s.r ∨ s.l = s.r) :
    (s.l + s.r).tdiv 2 = s.mid := by
  rcases h with h | h
  · exact Int.tdiv_eq_ediv_of_nonneg h
  · have heven : s.l + s.r = s.l * 2 := by omega
    rw [Search.mid, heven, Int.mul_tdiv_cancel _ (by decide), Int.mul_ediv_cancel _ (by decide)]

/-- What a turn of the loop can do. -/
inductive Turn (key : Int → Prop) (val : Int → Word) (s : Search) : Search → Prop
  | none : (∀ i, s.l ≤ i → i ≤ s.mid → ¬key i) → Turn key val s { s with l := s.mid + 1 }
  | lower {m : Int} : s.l ≤ m → m ≤ s.mid → key m → (∀ i, m < i → i ≤ s.mid → ¬key i) →
    val m < s.addr →
    Turn key val s { s with anyMatches := true, regionLeft := m, l := s.mid + 1 }
  | higher {m : Int} : s.l ≤ m → m ≤ s.mid → key m → (∀ i, m < i → i ≤ s.mid → ¬key i) →
    s.addr < val m →
    Turn key val s { s with anyMatches := true, regionRight := m - 1, r := m - 1 }
  | hit {m : Int} : s.l ≤ m → m ≤ s.mid → key m → (∀ i, m < i → i ≤ s.mid → ¬key i) →
    val m = s.addr →
    Turn key val s { s with anyMatches := true, regionLeft := m, l := m, addr := s.addr + 1 }

theorem searchBody_turn (mem : Word → Byte) (stabs : Word) (type : Int) {s : Search}
    (h0 : 0 ≤ s.l ∨ s.r ≤ s.l) (h : s.l ≤ s.r) :
    ∃ s', (searchBody mem stabs type s).result = some s' ∧
      Turn (IsStab mem stabs type) (nValue mem stabs) s s' := by
  have hmid : (s.l + s.r).tdiv 2 = s.mid := s.tdiv_eq_mid (by omega)
  have hle : s.l ≤ s.mid := by unfold Search.mid; omega
  obtain ⟨m, hm, hmle, hmin, hkey, hno⟩ := backward_spec (result_hasType mem stabs type) s.l
    s.mid (Nat.lt_succ_self _)
  unfold searchBody
  simp only [hmid]
  rw [Traced.result_bind_of_some hm]
  by_cases hlt : m < s.l
  · rw [if_pos hlt]
    refine ⟨_, rfl, .none fun i hi him => hno i ?_ him⟩
    omega
  · have hl : s.l ≤ m := not_lt.mp hlt
    rw [if_neg hlt]
    simp only [load32, Traced.bind_some]
    have hv : word32 mem (stabAt stabs m + 8) = nValue mem stabs m := rfl
    simp only [hv]
    by_cases hlow : nValue mem stabs m < s.addr
    · rw [if_pos hlow]
      exact ⟨_, rfl, .lower hl hmle (hkey hl) hno hlow⟩
    rw [if_neg hlow]
    by_cases hhigh : nValue mem stabs m > s.addr
    · rw [if_pos hhigh]
      exact ⟨_, rfl, .higher hl hmle (hkey hl) hno hhigh⟩
    · rw [if_neg hhigh]
      have heq := BitVec.le_antisymm (BitVec.not_lt.mp hhigh) (BitVec.not_lt.mp hlow)
      exact ⟨_, rfl, .hit hl hmle (hkey hl) hno heq⟩

/-! ## Splits -/

/-- The search has found out about the entries outside of `[l, r]` on which side of `t` they
are. -/
structure Search.Splits (key : Int → Prop) (left right t : Int) (s : Search) : Prop where
  left_le : left ≤ s.l
  l_le : s.l ≤ s.r + 1
  r_le : s.r ≤ right
  below : ∀ i, left ≤ i → i < s.l → key i → i < t
  above : ∀ i, s.r < i → i ≤ right → key i → t ≤ i
  le_regionRight : s.r ≤ s.regionRight
  regionRight_le : s.regionRight ≤ right
  gap : ∀ i, s.r < i → i ≤ s.regionRight → ¬key i
  ends : s.regionRight = right ∨ key (s.regionRight + 1)
  regionLeft : s.regionLeft = left ∨
    left ≤ s.regionLeft ∧ s.regionLeft ≤ right ∧ key s.regionLeft ∧ s.regionLeft < t
  unmatched : s.anyMatches = false → s.regionLeft = left ∧
    ∀ i, left ≤ i → i ≤ right → i < s.l ∨ s.r < i → ¬key i
  matched : s.anyMatches = true → ∃ i, left ≤ i ∧ i ≤ right ∧ key i

section Splits

variable {key : Int → Prop} {val : Int → Word} {left right t : Int} {s s' : Search}

/-- The comparison with the address decides on which side of `t` an entry is. -/
def Search.Decides (key : Int → Prop) (val : Int → Word) (t : Int) (s : Search) : Prop :=
  ∀ i, s.l ≤ i → i ≤ s.r → key i → (val i ≤ s.addr ↔ i < t)

theorem Search.le_mid (hle : s.l ≤ s.r) : s.l ≤ s.mid ∧ s.mid ≤ s.r := by
  unfold Search.mid
  omega

namespace Search.Splits

variable {m : Int}

/-- There is no entry in the left half. -/
theorem turn_none (h : s.Splits key left right t) (hle : s.l ≤ s.r)
    (hno : ∀ i, s.l ≤ i → i ≤ s.mid → ¬key i) :
    ({ s with l := s.mid + 1 } : Search).Splits key left right t := by
  have hmid := s.le_mid hle
  have hleft := h.left_le
  refine { h with left_le := ?_, l_le := ?_, below := ?_, unmatched := ?_ }
  · dsimp only
    omega
  · dsimp only
    omega
  · intro i hi hlt hkey
    by_cases hl : i < s.l
    · exact h.below i hi hl hkey
    · exact absurd hkey (hno i (not_lt.mp hl) (Int.lt_add_one_iff.mp hlt))
  · intro hm
    refine ⟨(h.unmatched hm).1, fun i hi hir hout hkey => ?_⟩
    by_cases hl : i < s.l ∨ s.r < i
    · exact (h.unmatched hm).2 i hi hir hl hkey
    · dsimp only at hout
      exact hno i (by omega) (by omega) hkey

/-- The last entry of the left half is below the address. -/
theorem turn_lower (h : s.Splits key left right t) (hle : s.l ≤ s.r) (hl : s.l ≤ m)
    (hm : m ≤ s.mid) (hkey : key m) (hno : ∀ i, m < i → i ≤ s.mid → ¬key i) (ht : m < t) :
    ({ s with anyMatches := true, regionLeft := m, l := s.mid + 1 } : Search).Splits key left
      right t := by
  have hmid := s.le_mid hle
  have hleft := h.left_le
  have hright := h.r_le
  refine { h with left_le := ?_, l_le := ?_, below := ?_, regionLeft := ?_, unmatched := ?_,
                  matched := ?_ }
  · dsimp only
    omega
  · dsimp only
    omega
  · intro i hi hlt hk
    by_cases him : i ≤ m
    · exact him.trans_lt ht
    · exact absurd hk (hno i (not_le.mp him) (Int.lt_add_one_iff.mp hlt))
  · exact .inr ⟨hleft.trans hl, (hm.trans hmid.2).trans hright, hkey, ht⟩
  · intro hfalse
    cases hfalse
  · exact fun _ => ⟨m, by omega, by omega, hkey⟩

/-- The last entry of the left half is above the address. -/
theorem turn_higher (h : s.Splits key left right t) (hle : s.l ≤ s.r) (hl : s.l ≤ m)
    (hm : m ≤ s.mid) (hkey : key m) (ht : t ≤ m) :
    ({ s with anyMatches := true, regionRight := m - 1, r := m - 1 } : Search).Splits key left
      right t := by
  have hmid := s.le_mid hle
  have hleft := h.left_le
  have hright := h.r_le
  refine { h with l_le := ?_, r_le := ?_, above := ?_, le_regionRight := le_rfl,
                  regionRight_le := ?_, gap := ?_, ends := ?_, unmatched := ?_, matched := ?_ }
  · dsimp only
    omega
  · dsimp only
    omega
  · intro i hi _ _
    dsimp only at hi
    omega
  · dsimp only
    omega
  · intro i hi hi'
    exact absurd (hi.trans_le hi') (lt_irrefl _)
  · exact .inr (by simpa using hkey)
  · intro hfalse
    cases hfalse
  · exact fun _ => ⟨m, by omega, by omega, hkey⟩

/-- The last entry of the left half is at the address. -/
theorem turn_hit (h : s.Splits key left right t) (hle : s.l ≤ s.r) (hl : s.l ≤ m)
    (hm : m ≤ s.mid) (hkey : key m) (ht : m < t) (addr : Word) :
    ({ s with anyMatches := true, regionLeft := m, l := m, addr := addr } : Search).Splits key left
      right t := by
  have hmid := s.le_mid hle
  have hleft := h.left_le
  have hright := h.r_le
  refine { h with left_le := hleft.trans hl, l_le := ?_, below := ?_, regionLeft := ?_,
                  unmatched := ?_, matched := ?_ }
  · dsimp only
    omega
  · intro i _ hi _
    exact lt_trans hi ht
  · exact .inr ⟨hleft.trans hl, (hm.trans hmid.2).trans hright, hkey, ht⟩
  · intro hfalse
    cases hfalse
  · exact fun _ => ⟨m, by omega, by omega, hkey⟩

theorem turn (h : s.Splits key left right t) (hd : s.Decides key val t) (hle : s.l ≤ s.r)
    (hturn : Turn key val s s') : s'.Splits key left right t := by
  have hmid := s.le_mid hle
  cases hturn with
  | none hno => exact h.turn_none hle hno
  | lower hl hm hkey hno hval =>
    exact h.turn_lower hle hl hm hkey hno
      ((hd _ hl (hm.trans hmid.2) hkey).mp (BitVec.le_of_lt hval))
  | higher hl hm hkey hno hval =>
    have hnot := mt (hd _ hl (hm.trans hmid.2) hkey).mpr (BitVec.not_le.mpr hval)
    exact h.turn_higher hle hl hm hkey (not_lt.mp hnot)
  | hit hl hm hkey hno hval =>
    exact h.turn_hit hle hl hm hkey ((hd _ hl (hm.trans hmid.2) hkey).mp (BitVec.le_of_eq hval)) _

end Search.Splits

/-- The number of indices that are left. -/
def Search.size (s : Search) : Nat := (s.r + 1 - s.l).toNat

/-- A turn makes the interval smaller unless it comes upon the address. -/
theorem Turn.shrinks (h : Turn key val s s') (hle : s.l ≤ s.r) (hne : s'.addr = s.addr) :
    s'.size < s.size ∧ s.l ≤ s'.l ∧ s'.r ≤ s.r := by
  have hmid : s.l ≤ s.mid ∧ s.mid ≤ s.r := by unfold Search.mid; omega
  unfold Search.size
  cases h with
  | none => grind
  | lower => grind
  | higher => grind
  | hit => exact absurd hne (by simp)

theorem searchLoop_done {fuel : Nat} (h : s.r < s.l) :
    (searchLoop mem stabs type (fuel + 1) s).result = some s := by
  rw [searchLoop, if_neg h.not_ge]
  rfl

theorem searchLoop_turn {fuel : Nat} (hle : s.l ≤ s.r)
    (h : (searchBody mem stabs type s).result = some s') :
    (searchLoop mem stabs type (fuel + 1) s).result =
      (searchLoop mem stabs type fuel s').result := by
  rw [searchLoop, if_pos hle, Traced.result_bind_of_some h]

end Splits

section Loop

variable {val : Int → Word} {left right t e : Int} {s s' : Search} {fuel : Nat}

/-- Without an entry at the address, the search finds the split. -/
theorem Search.Splits.searchLoop (h : s.Splits (IsStab mem stabs type) left right t)
    (hd : s.Decides (IsStab mem stabs type) (nValue mem stabs) t)
    (hne : ∀ i, s.l ≤ i → i ≤ s.r → IsStab mem stabs type i → nValue mem stabs i ≠ s.addr)
    (h0 : 0 ≤ left) (hf : s.size < fuel) :
    ∃ s', (searchLoop mem stabs type fuel s).result = some s' ∧
      s'.Splits (IsStab mem stabs type) left right t ∧ s'.r < s'.l := by
  induction fuel generalizing s with
  | zero => omega
  | succ fuel ih =>
    by_cases hle : s.l ≤ s.r
    · obtain ⟨s', hs', hturn⟩ := searchBody_turn mem stabs type
        (.inl (h0.trans h.left_le)) hle
      have haddr : s'.addr = s.addr := by
        cases hturn with
        | hit hl hm hkey _ hval =>
          have hmid : s.mid ≤ s.r := by unfold Search.mid; omega
          exact absurd hval (hne _ hl (hm.trans hmid) hkey)
        | _ => rfl
      obtain ⟨hsize, hl, hr⟩ := hturn.shrinks hle haddr
      rw [searchLoop_turn hle hs']
      apply ih (h.turn hd hle hturn)
      · intro i hi hir hkey
        rw [haddr]
        exact hd i (hl.trans hi) (hir.trans hr) hkey
      · intro i hi hir hkey
        rw [haddr]
        exact hne i (hl.trans hi) (hir.trans hr) hkey
      · omega
    · exact ⟨s, searchLoop_done (not_le.mp hle), h, not_le.mp hle⟩

/-- After the search, the region begins at the last entry before the split. -/
theorem Search.Splits.searchEnd (h : s.Splits (IsStab mem stabs type) left right t)
    (hend : s.r < s.l) (hkey : IsStab mem stabs type e) (hle : left ≤ e) (het : e < t)
    (hlast : ∀ i, e < i → i ≤ right → IsStab mem stabs type i → t ≤ i) (her : e ≤ right) :
    (searchEnd mem stabs type s).result = some (e, s.regionRight) ∧ e ≤ s.regionRight ∧
      ∀ i, e < i → i ≤ s.regionRight → ¬IsStab mem stabs type i := by
  obtain ⟨h1, h2, h3, h4, h5, h6, h7, h8, h9, h10, h11, h12⟩ := h
  have hel : e ≤ s.r := by
    by_contra hc
    have := h5 e (by omega) her hkey
    omega
  have hany : s.anyMatches = true := by
    by_contra hc
    exact (h11 (by simpa using hc)).2 e hle her (.inl (by omega)) hkey
  have hno : ∀ i, e < i → i ≤ s.regionRight → ¬IsStab mem stabs type i := by
    intro i hi hir hk
    have := hlast i hi (by omega) hk
    by_cases hri : s.r < i
    · exact h8 i hri hir hk
    · have := h4 i (by omega) (by omega) hk
      omega
  obtain ⟨k, hk, hkle, hmin, hkk, hkno⟩ := backward_spec (result_hasType mem stabs type)
    (s.regionLeft + 1) s.regionRight
    (by omega : _ < (s.regionRight - s.regionLeft).toNat + 1)
  have hleft : s.regionLeft ≤ e := by
    rcases h10 with h | ⟨hl, hlr, hk', ht⟩
    · omega
    · by_contra hc
      have := hlast s.regionLeft (by omega) hlr hk'
      omega
  have hke : k = e := by
    rcases lt_trichotomy k e with hlt | heq | hgt
    · exact absurd hkey (hkno e hlt (by omega))
    · exact heq
    · exact absurd (hkk (by omega)) (hno k hgt hkle)
  refine ⟨?_, by omega, hno⟩
  unfold JosKernel.searchEnd
  rw [hany, Bool.not_true, if_neg (by decide), Traced.result_bind_of_some hk, hke]
  rfl

/-- Without any entries the region is empty. -/
theorem Search.Splits.searchEnd_empty (h : s.Splits (IsStab mem stabs type) left right t)
    (hno : ∀ i, left ≤ i → i ≤ right → ¬IsStab mem stabs type i) :
    (JosKernel.searchEnd mem stabs type s).result = some (left, left - 1) := by
  have hany : s.anyMatches = false := by
    by_contra hc
    obtain ⟨i, hl, hr, hk⟩ := h.matched (by simpa using hc)
    exact hno i hl hr hk
  unfold JosKernel.searchEnd
  rw [hany, (h.unmatched hany).1]
  rfl

/-- With no entry before the split, the region is not made empty. -/
theorem Search.Splits.searchEnd_before (h : s.Splits (IsStab mem stabs type) left right left)
    (hend : s.r < s.l) {i : Int} (hl : left ≤ i) (hr : i ≤ right)
    (hk : IsStab mem stabs type i) :
    ∃ l r, (JosKernel.searchEnd mem stabs type s).result = some (l, r) ∧ l ≤ r := by
  have hany : s.anyMatches = true := by
    by_contra hc
    exact (h.unmatched (by simpa using hc)).2 i hl hr (by omega) hk
  obtain ⟨k, hres, hle, -, -, -⟩ := backward_spec (result_hasType mem stabs type)
    (s.regionLeft + 1) s.regionRight
    (by omega : _ < (s.regionRight - s.regionLeft).toNat + 1)
  refine ⟨k, s.regionRight, ?_, hle⟩
  unfold JosKernel.searchEnd
  rw [hany, Bool.not_true, if_neg (by decide), Traced.result_bind_of_some hres]
  rfl

end Loop

/-! ## Exact hits -/

/-- The last index from `lo` to `m` that is a key, if there is one. -/
def lastKey (key : Int → Prop) [DecidablePred key] (lo : Int) : Nat → Int → Int
  | 0, m => m
  | k + 1, m => if key m then m else lastKey key lo k (m - 1)

/-- Whether the bisection of `[l, r]` comes to the key `n` before the key `e` below it. -/
def upperFirst (key : Int → Prop) [DecidablePred key] (e n : Int) : Nat → Int → Int → Bool
  | 0, _, _ => false
  | fuel + 1, l, r =>
    let c := (l + r) / 2
    if c < e then upperFirst key e n fuel (c + 1) r
    else if c < n then false
    else
      let m := lastKey key n (c - n).toNat c
      if m = n then true else upperFirst key e n fuel l (m - 1)

section Hits

variable {left right e n : Int} {s s' : Search} {fuel : Nat}

/-- The search has just come upon its address, at `e`. -/
structure Search.Hit (key : Int → Prop) (val : Int → Word) (left right e : Int) (s : Search) :
    Prop where
  splits : s.Splits key left right (e + 1)
  l_eq : s.l = e
  regionLeft_eq : s.regionLeft = e
  anyMatches : s.anyMatches = true
  addr_eq : s.addr = val e + 1
  le_r : e ≤ s.r
  isKey : key e

theorem lastKey_eq {key : Int → Prop} [DecidablePred key] {lo m c : Int} {k : Nat}
    (hk : key m) (hm : m ≤ c) (hno : ∀ i, m < i → i ≤ c → ¬key i) (hf : (c - m).toNat ≤ k) :
    lastKey key lo k c = m := by
  induction k generalizing c with
  | zero =>
    have : c = m := by omega
    rw [this, lastKey]
  | succ k ih =>
    unfold lastKey
    split_ifs with hc
    · by_contra hne
      exact hno c (by omega) le_rfl hc
    · have hne : c ≠ m := fun h => hc (h ▸ hk)
      exact ih (by omega) (fun i hi hic => hno i hi (by omega)) (by omega)

theorem Search.Splits.decides_of_rising {key : Int → Prop} {val : Int → Word}
    (h : s.Splits key left right (e + 1)) (rise : Rising key val left right) (hkey : key e)
    (hl : s.l ≤ e) (hr : e ≤ s.r) (hval : val e = s.addr) : s.Decides key val (e + 1) := by
  intro i hi hir hk
  have hli := h.left_le
  have hri := h.r_le
  rw [← hval, BitVec.le_def]
  constructor
  · intro hle
    by_contra hc
    have := rise e i (by omega) (by omega) (by omega) hkey hk
    rw [BitVec.lt_def] at this
    omega
  · intro hlt
    rcases eq_or_lt_of_le (Int.lt_add_one_iff.mp hlt) with rfl | hlt
    · exact le_rfl
    · exact Nat.le_of_lt (BitVec.lt_def.mp (rise i e (by omega) hlt (by omega) hk hkey))

theorem Rising.injective {key : Int → Prop} {val : Int → Word} (rise : Rising key val left right)
    {i j : Int} (hi : left ≤ i ∧ i ≤ right ∧ key i) (hj : left ≤ j ∧ j ≤ right ∧ key j)
    (h : val i = val j) : i = j := by
  rcases lt_trichotomy i j with hlt | heq | hgt
  · exact absurd (h ▸ rise i j hi.1 hlt hj.2.1 hi.2.2 hj.2.2) (BitVec.lt_irrefl _)
  · exact heq
  · exact absurd (h ▸ rise j i hj.1 hgt hi.2.1 hj.2.2 hi.2.2) (BitVec.lt_irrefl _)

/-- A turn while the entry at the address is ahead: it goes up, goes down, or comes upon it. -/
theorem Turn.of_ahead {key : Int → Prop} {val : Int → Word} (h : Turn key val s s')
    (hs : s.Splits key left right (e + 1)) (rise : Rising key val left right) (hkey : key e)
    (hl : s.l ≤ e) (hr : e ≤ s.r) (hval : val e = s.addr) :
    (s'.addr = s.addr ∧ s.mid < e ∧ s'.l = s.mid + 1 ∧ s'.r = s.r) ∨
    (s'.addr = s.addr ∧ s'.l = s.l ∧ ∃ m, key m ∧ e < m ∧ m ≤ s.mid ∧
      (∀ i, m < i → i ≤ s.mid → ¬key i) ∧ s'.r = m - 1) ∨
    (e ≤ s.mid ∧ (∀ i, e < i → i ≤ s.mid → ¬key i) ∧
      s' = { s with anyMatches := true, regionLeft := e, l := e, addr := s.addr + 1 }) := by
  have hd := hs.decides_of_rising rise hkey hl hr hval
  have hleft := hs.left_le
  have hright := hs.r_le
  have hmid : s.mid ≤ s.r := by unfold Search.mid; omega
  cases h with
  | none hno =>
    refine .inl ⟨rfl, ?_, rfl, rfl⟩
    by_contra hc
    exact hno e hl (not_lt.mp hc) hkey
  | @lower m hlm hm hk hno hlow =>
    refine .inl ⟨rfl, ?_, rfl, rfl⟩
    have hme := (hd m hlm (hm.trans hmid) hk).mp (BitVec.le_of_lt hlow)
    have hne : m ≠ e := by
      rintro rfl
      exact BitVec.lt_irrefl _ (hval ▸ hlow)
    by_contra hc
    exact hno e (by omega) (not_lt.mp hc) hkey
  | @higher m hlm hm hk hno hhigh =>
    have hme := mt (hd m hlm (hm.trans hmid) hk).mpr (BitVec.not_le.mpr hhigh)
    exact .inr (.inl ⟨rfl, rfl, m, hk, by omega, hm, hno, rfl⟩)
  | @hit m hlm hm hk hno heq =>
    obtain rfl := rise.injective ⟨by omega, by omega, hk⟩ ⟨by omega, by omega, hkey⟩
      (heq.trans hval.symm)
    exact .inr (.inr ⟨hm, hno, rfl⟩)

/-- The search comes upon an entry at its address. -/
theorem Search.Splits.reaches (h : s.Splits (IsStab mem stabs type) left right (e + 1))
    (rise : Rising (IsStab mem stabs type) (nValue mem stabs) left right) (h0 : 0 ≤ left)
    (hkey : IsStab mem stabs type e) (hl : s.l ≤ e) (hr : e ≤ s.r)
    (hval : nValue mem stabs e = s.addr) :
    ∃ k s', s'.Hit (IsStab mem stabs type) (nValue mem stabs) left right e ∧ s'.r ≤ s.r ∧
      k + s'.size ≤ s.size + 1 ∧
      (∀ fuel, (JosKernel.searchLoop mem stabs type (fuel + k) s).result =
        (JosKernel.searchLoop mem stabs type fuel s').result) ∧
      ∀ n, IsStab mem stabs type n → e < n → (∀ i, e < i → i < n → ¬IsStab mem stabs type i) →
        n ≤ s.r → ∀ f, s.size < f →
        (upperFirst (IsStab mem stabs type) e n f s.l s.r ↔ s'.r < n) := by
  induction hsize : s.size using Nat.strong_induction_on generalizing s with
  | h d ih =>
    subst hsize
    have hle : s.l ≤ s.r := hl.trans hr
    have hd := h.decides_of_rising rise hkey hl hr hval
    have hmid : s.l ≤ s.mid ∧ s.mid ≤ s.r := by unfold Search.mid; omega
    obtain ⟨s₁, hs₁, hturn⟩ := searchBody_turn mem stabs type
      (.inl (h0.trans h.left_le)) hle
    have h₁ := h.turn hd hle hturn
    have hup : ∀ n f, upperFirst (IsStab mem stabs type) e n (f + 1) s.l s.r =
        if s.mid < e then upperFirst (IsStab mem stabs type) e n f (s.mid + 1) s.r
        else if s.mid < n then false
        else if lastKey (IsStab mem stabs type) n (s.mid - n).toNat s.mid = n then true
        else upperFirst (IsStab mem stabs type) e n f s.l
          (lastKey (IsStab mem stabs type) n (s.mid - n).toNat s.mid - 1) := fun n f => rfl
    rcases hturn.of_ahead h rise hkey hl hr hval with
      ⟨haddr, hlt, hl₁, hr₁⟩ | ⟨haddr, hl₁, m, hm, hem, hmm, hno, hr₁⟩ | ⟨hge, hno, rfl⟩
    · -- upwards
      obtain ⟨hsize, -, -⟩ := hturn.shrinks hle haddr
      obtain ⟨k, s', hhit, hr', hk, hloop, hfirst⟩ :=
        ih s₁.size hsize h₁ (by omega) (by omega) (hval.trans haddr.symm) rfl
      refine ⟨k + 1, s', hhit, by omega, by omega, fun fuel => ?_, fun n hn hen hgap hnr f hf => ?_⟩
      · rw [← hloop fuel]
        exact searchLoop_turn hle hs₁
      · obtain ⟨f, rfl⟩ : ∃ f', f = f' + 1 := ⟨f - 1, by omega⟩
        rw [hup, if_pos hlt, ← hl₁, ← hr₁]
        exact hfirst n hn hen hgap (by omega) f (by omega)
    · -- downwards
      obtain ⟨hsize, -, -⟩ := hturn.shrinks hle haddr
      obtain ⟨k, s', hhit, hr', hk, hloop, hfirst⟩ :=
        ih s₁.size hsize h₁ (by omega) (by omega) (hval.trans haddr.symm) rfl
      refine ⟨k + 1, s', hhit, by omega, by omega, fun fuel => ?_, fun n hn hen hgap hnr f hf => ?_⟩
      · rw [← hloop fuel]
        exact searchLoop_turn hle hs₁
      · obtain ⟨f, rfl⟩ : ∃ f', f = f' + 1 := ⟨f - 1, by omega⟩
        have hnm : n ≤ m := by
          by_contra hc
          exact hgap m hem (by omega) hm
        rw [hup, if_neg (by omega), if_neg (by omega), lastKey_eq hm hmm hno (by omega)]
        split_ifs with heq
        · exact iff_of_true rfl (by omega)
        · rw [← hl₁, ← hr₁]
          exact hfirst n hn hen hgap (by omega) f (by omega)
    · -- a hit
      refine ⟨1, _, ⟨h₁, rfl, rfl, rfl, ?_, hr, hkey⟩, le_rfl, ?_, fun fuel => ?_,
        fun n hn hen hgap hnr f hf => ?_⟩
      · rw [hval]
      · unfold Search.size
        dsimp only
        omega
      · exact searchLoop_turn hle hs₁
      · obtain ⟨f, rfl⟩ : ∃ f', f = f' + 1 := ⟨f - 1, by omega⟩
        have hmn : s.mid < n := by
          by_contra hc
          exact hno n hen (not_lt.mp hc) hn
        rw [hup, if_neg (by omega), if_pos hmn]
        exact iff_of_false (by decide) hnr.not_gt

/-- After an entry at the highest address, the search looks for zero. -/
theorem Search.Hit.last (h : s.Hit (IsStab mem stabs type) (nValue mem stabs) left right e)
    (rise : Rising (IsStab mem stabs type) (nValue mem stabs) left right) (h0 : 0 ≤ left)
    (hmax : nValue mem stabs e = 0xffffffff) (hf : 1 < fuel) :
    (JosKernel.searchLoop mem stabs type fuel s >>= JosKernel.searchEnd mem stabs type).result =
      some (e - 1, e - 1) := by
  obtain ⟨f, rfl⟩ : ∃ f, fuel = f + 1 + 1 := ⟨fuel - 2, by omega⟩
  obtain ⟨hs, hl, hleft, hany, haddr, hr, hkey⟩ := h
  have hzero : s.addr = 0 := by
    rw [haddr, hmax]
    rfl
  have hlr : s.l ≤ s.r := hl ▸ hr
  have hmid : s.l ≤ s.mid ∧ s.mid ≤ s.r := by unfold Search.mid; omega
  have hrr := hs.r_le
  have hll := hs.left_le
  obtain ⟨s', hs', hturn⟩ := searchBody_turn mem stabs type
    (.inl (h0.trans hs.left_le)) hlr
  have hnat : (0xffffffff : Word).toNat = 4294967295 := rfl
  have hs'eq : s' = { s with anyMatches := true, regionRight := e - 1, r := e - 1 } := by
    have hlast : ∀ m, e ≤ m → m ≤ s.r → IsStab mem stabs type m → m = e := by
      intro m hm hmr hk
      by_contra hne
      have := rise e m (by omega) (by omega) (by omega) hkey hk
      rw [hmax, BitVec.lt_def, hnat] at this
      have := (nValue mem stabs m).isLt
      omega
    cases hturn with
    | none hno => exact absurd hkey (hno e (by omega) (by omega))
    | lower _ _ _ _ hlow =>
      rw [hzero] at hlow
      exact absurd hlow (BitVec.not_lt_zero)
    | @higher m hlm hm hk _ _ => rw [hlast m (by omega) (by omega) hk]
    | @hit m hlm hm hk _ heq =>
      rw [hlast m (by omega) (by omega) hk, hmax, hzero] at heq
      exact absurd heq (by decide)
  rw [Traced.result_bind, searchLoop_turn hlr hs', hs'eq, searchLoop_done (by dsimp only; omega),
    Option.bind_some]
  obtain ⟨k, hk, hkle, hmin, -, -⟩ := backward_spec (result_hasType mem stabs type) (e + 1)
    (e - 1) (by omega : _ < (e - 1 - e).toNat + 1)
  obtain rfl : k = e - 1 := by omega
  unfold JosKernel.searchEnd
  simp only [Bool.not_true, Bool.false_eq_true, if_false, hleft]
  rw [Traced.result_bind_of_some hk]
  rfl

theorem toNat_add_one {v : Word} (h : v ≠ 0xffffffff) : (v + 1).toNat = v.toNat + 1 := by
  have hne : v.toNat ≠ 4294967295 := fun hc => h (BitVec.eq_of_toNat_eq hc)
  have := v.isLt
  rw [BitVec.toNat_add]
  simp
  omega

/-- After an entry at the address, if the next entry does not follow at once, the search ends
with that entry. -/
theorem Search.Hit.alone (h : s.Hit (IsStab mem stabs type) (nValue mem stabs) left right e)
    (rise : Rising (IsStab mem stabs type) (nValue mem stabs) left right) (h0 : 0 ≤ left)
    (hmax : nValue mem stabs e ≠ 0xffffffff)
    (hno : ∀ i, e < i → i ≤ s.r → IsStab mem stabs type i → nValue mem stabs i ≠ s.addr)
    (hf : s.size < fuel) :
    ∃ r, (JosKernel.searchLoop mem stabs type fuel s >>=
        JosKernel.searchEnd mem stabs type).result = some (e, r) ∧ e ≤ r ∧ r ≤ right ∧
      (∀ i, e < i → i ≤ r → ¬IsStab mem stabs type i) ∧
      (r = right ∨ IsStab mem stabs type (r + 1)) := by
  obtain ⟨hs, hl, hleft, hany, haddr, hr, hkey⟩ := h
  have hrr := hs.r_le
  have hll := hs.left_le
  have hnext := toNat_add_one hmax
  rw [← haddr] at hnext
  have hup : ∀ i, e < i → i ≤ s.r → IsStab mem stabs type i →
      s.addr.toNat < (nValue mem stabs i).toNat := by
    intro i hi hir hk
    have hlt := rise e i (by omega) hi (by omega) hkey hk
    have hne : (nValue mem stabs i).toNat ≠ s.addr.toNat := fun hc =>
      hno i hi hir hk (BitVec.eq_of_toNat_eq hc)
    rw [BitVec.lt_def] at hlt
    omega
  have hd : s.Decides (IsStab mem stabs type) (nValue mem stabs) (e + 1) := by
    intro i hi hir hk
    rw [BitVec.le_def]
    by_cases heq : i = e
    · subst heq
      exact iff_of_true (by omega) (by omega)
    · have := hup i (by omega) hir hk
      exact iff_of_false (by omega) (by omega)
  have hne : ∀ i, s.l ≤ i → i ≤ s.r → IsStab mem stabs type i →
      nValue mem stabs i ≠ s.addr := by
    intro i hi hir hk heq
    by_cases hie : i = e
    · have := congrArg BitVec.toNat (hie ▸ heq)
      omega
    · exact hno i (by omega) hir hk heq
  obtain ⟨s', hs', hsplit, hend⟩ := hs.searchLoop hd hne h0 hf
  obtain ⟨hres, hle, hgap⟩ := hsplit.searchEnd hend hkey (by omega) (by omega)
    (fun i hi _ _ => hi) (by omega)
  refine ⟨s'.regionRight, ?_, hle, hsplit.regionRight_le, hgap, hsplit.ends⟩
  rw [Traced.result_bind_of_some hs', hres]

theorem Search.Splits.mono {key : Int → Prop} {t t' : Int} (h : s.Splits key left right t)
    (hle : t ≤ t') (ht : t' ≤ s.r + 1) : s.Splits key left right t' := by
  obtain ⟨h1, h2, h3, h4, h5, h6, h7, h8, h9, h10, h11, h12⟩ := h
  constructor <;> grind

/-- If the next entry follows at once, the search goes on with it. -/
theorem Search.Hit.goes_on (h : s.Hit (IsStab mem stabs type) (nValue mem stabs) left right e)
    (rise : Rising (IsStab mem stabs type) (nValue mem stabs) left right) (h0 : 0 ≤ left)
    (hn : IsStab mem stabs type n) (hen : e < n) (hnr : n ≤ s.r)
    (hval : nValue mem stabs n = s.addr) (hf : 2 * s.size < fuel) :
    ∃ l r, (JosKernel.searchLoop mem stabs type fuel s >>=
        JosKernel.searchEnd mem stabs type).result = some (l, r) ∧
      (nValue mem stabs n = 0xffffffff → l = n - 1 ∧ r = n - 1) ∧
      (nValue mem stabs n ≠ 0xffffffff → n ≤ l) := by
  induction hsize : s.size using Nat.strong_induction_on generalizing s e n fuel with
  | h d ih =>
    subst hsize
    have hmono : s.Splits (IsStab mem stabs type) left right (n + 1) :=
      h.splits.mono (by omega) (by omega)
    have hl := h.l_eq
    obtain ⟨k, s', hhit, hr', hk, hloop, -⟩ :=
      hmono.reaches rise h0 hn (by omega) hnr hval
    have hl' := hhit.l_eq
    have hle' := hhit.le_r
    have hsize : s'.size < s.size := by
      unfold Search.size
      omega
    obtain ⟨f, rfl⟩ : ∃ f, fuel = f + k := ⟨fuel - k, by omega⟩
    have hbind : (JosKernel.searchLoop mem stabs type (f + k) s >>=
        JosKernel.searchEnd mem stabs type).result =
        (JosKernel.searchLoop mem stabs type f s' >>=
          JosKernel.searchEnd mem stabs type).result := by
      rw [Traced.result_bind, Traced.result_bind, hloop]
    rw [hbind]
    have hpos : 0 < s'.size := by
      unfold Search.size
      omega
    by_cases hmax : nValue mem stabs n = 0xffffffff
    · exact ⟨_, _, hhit.last rise h0 hmax (by omega), fun _ => ⟨rfl, rfl⟩,
        fun hc => absurd hmax hc⟩
    by_cases hex : ∃ i, n < i ∧ i ≤ s'.r ∧ IsStab mem stabs type i ∧
        nValue mem stabs i = s'.addr
    · obtain ⟨i, hni, hir, hki, hvi⟩ := hex
      obtain ⟨l, r, hres, hlast, hless⟩ := ih s'.size hsize hhit hki hni hir hvi
        (by omega : 2 * s'.size < f) rfl
      refine ⟨l, r, hres, fun hc => absurd hc hmax, fun _ => ?_⟩
      by_cases himax : nValue mem stabs i = 0xffffffff
      · have := (hlast himax).1
        omega
      · have := hless himax
        omega
    · obtain ⟨r, hres, -⟩ := hhit.alone rise h0 hmax
        (fun i hi hir hk hv => hex ⟨i, hi, hir, hk, hv⟩) (by omega : s'.size < f)
      exact ⟨n, r, hres, fun hc => absurd hc hmax, fun _ => le_rfl⟩

end Hits

/-! ## What the search finds -/

/-- There is no entry; or there is a last one with a value of at most `addr`, and if its value is
`addr`, this is not the highest address, and an entry at the next address is met first. (A next
entry at the highest address that is a neighbour does no harm.) -/
def SearchFinds (key : Int → Prop) [DecidablePred key] (val : Int → Word) (left right : Int)
    (addr : Word) : Prop :=
  (∀ i, left ≤ i → i ≤ right → ¬key i) ∨
    ∃ e, left ≤ e ∧ e ≤ right ∧ key e ∧ val e ≤ addr ∧
      (∀ i, e < i → i ≤ right → key i → addr < val i) ∧
      (val e = addr → addr ≠ 0xffffffff ∧
        ∀ n, e < n → n ≤ right → key n → val n = addr + 1 →
          upperFirst key e n ((right + 1 - left).toNat + 1) left right ∨
            n = e + 1 ∧ val n = 0xffffffff)

section Found

variable {key : Int → Prop} {val : Int → Word} {left right e l r : Int} {addr : Word}

/-- The last entry with a value of at most the address. -/
theorem exists_last (h : ∃ i, left ≤ i ∧ i ≤ right ∧ key i ∧ val i ≤ addr) :
    ∃ e, left ≤ e ∧ e ≤ right ∧ key e ∧ val e ≤ addr ∧
      ∀ i, e < i → i ≤ right → key i → addr < val i := by
  obtain ⟨e, ⟨hl, hr, hk, hv⟩, hgreatest⟩ :=
    Int.exists_greatest_of_bdd ⟨right, fun i hi => hi.2.1⟩ h
  refine ⟨e, hl, hr, hk, hv, fun i hi hir hki => ?_⟩
  by_contra hc
  have := hgreatest i ⟨by omega, hir, hki, BitVec.not_lt.mp hc⟩
  omega

/-- The region of an enclosing entry begins with it. -/
theorem FoundIn.eq_of_last (h : FoundIn key val left right addr l r) (hl : left ≤ e)
    (hr : e ≤ right) (hk : key e) (hv : val e ≤ addr)
    (hlast : ∀ i, e < i → i ≤ right → key i → addr < val i) : l = e := by
  obtain ⟨h1, h2, h3, h4, h5, h6, -, -⟩ := h.1 ⟨e, hl, hr, hk, hv⟩
  rcases lt_trichotomy l e with hlt | heq | hgt
  · exact absurd (h6 e hlt hr hk) (BitVec.not_lt.mpr hv)
  · exact heq
  · exact absurd (hlast l hgt (h2.trans h3) h4) (BitVec.not_lt.mpr h5)

theorem foundIn_of_last (hl : left ≤ e) (hk : key e) (hv : val e ≤ addr)
    (hlast : ∀ i, e < i → i ≤ right → key i → addr < val i) (hle : e ≤ r) (hr : r ≤ right)
    (hgap : ∀ i, e < i → i ≤ r → ¬key i) (hends : r = right ∨ key (r + 1)) :
    FoundIn key val left right addr e r := by
  refine ⟨fun _ => ⟨hl, hle, hr, hk, hv, hlast, hgap, hends⟩, fun hno => ?_⟩
  exact absurd (hno e hl (hle.trans hr) hk) (BitVec.not_lt.mpr hv)

theorem searchFinds_iff_of_last [DecidablePred key] (hl : left ≤ e) (hr : e ≤ right) (hk : key e)
    (hv : val e ≤ addr) (hlast : ∀ i, e < i → i ≤ right → key i → addr < val i) :
    SearchFinds key val left right addr ↔ (val e = addr → addr ≠ 0xffffffff ∧
      ∀ n, e < n → n ≤ right → key n → val n = addr + 1 →
        upperFirst key e n ((right + 1 - left).toNat + 1) left right ∨
          n = e + 1 ∧ val n = 0xffffffff) := by
  constructor
  · rintro (hno | ⟨e', hl', hr', hk', hv', hlast', h⟩)
    · exact absurd hk (hno e hl hr)
    · have : e' = e := by
        rcases lt_trichotomy e' e with hlt | heq | hgt
        · exact absurd (hlast' e hlt hr hk) (BitVec.not_lt.mpr hv)
        · exact heq
        · exact absurd (hlast e' hgt hr' hk') (BitVec.not_lt.mpr hv')
      exact this ▸ h
  · intro h
    exact .inr ⟨e, hl, hr, hk, hv, hlast, h⟩

end Found

section Main

variable {left right : Int} {addr : Word}

theorem splits_init (t : Int) (hle : left ≤ right + 1) {key : Int → Prop} :
    Search.Splits key left right t ⟨left, right, false, addr, left, right⟩ := by
  constructor <;> grind

/-- The loop and what comes after it. -/
def searchAll (mem : Word → Byte) (stabs : Word) (type : Int) (fuel : Nat) (s : Search) :
    Traced Probe (Int × Int) :=
  searchLoop mem stabs type fuel s >>= searchEnd mem stabs type

variable {e n : Int} {s : Search}

/-- Between an entry and one at the next address there is no other. -/
theorem Rising.not_between {key : Int → Prop} {val : Int → Word}
    (rise : Rising key val left right) (hl : left ≤ e) (hr : n ≤ right) (hke : key e)
    (hkn : key n) (hmax : val e ≠ 0xffffffff) (hval : val n = val e + 1) {i : Int} (hei : e < i)
    (hin : i < n) : ¬key i := by
  intro hki
  have h₁ := rise e i hl hei (by omega) hke hki
  have h₂ := rise i n (by omega) hin hr hki hkn
  rw [BitVec.lt_def] at h₁ h₂
  rw [hval, toNat_add_one hmax] at h₂
  omega

/-- No entry has a value of at most `addr`: the result is right only if there is no entry. -/
theorem searchAll_above (h : s.Splits (IsStab mem stabs type) left right left) (h0 : 0 ≤ left)
    (habove : ∀ i, left ≤ i → i ≤ right → IsStab mem stabs type i →
      s.addr < nValue mem stabs i) (fuel : Nat) (hf : s.size < fuel) :
    ∃ l r, (searchAll mem stabs type fuel s).result = some (l, r) ∧
      (FoundIn (IsStab mem stabs type) (nValue mem stabs) left right s.addr l r ↔
        ∀ i, left ≤ i → i ≤ right → ¬IsStab mem stabs type i) := by
  have hll := h.left_le
  have hrr := h.r_le
  have hd : s.Decides (IsStab mem stabs type) (nValue mem stabs) left := fun i hi hir hk =>
    iff_of_false (BitVec.not_le.mpr (habove i (by omega) (by omega) hk)) (by omega)
  obtain ⟨s', hs', hsplit, hend⟩ := h.searchLoop hd (fun i hi hir hk heq =>
    BitVec.lt_irrefl _ (heq ▸ habove i (by omega) (by omega) hk)) h0 hf
  by_cases hno : ∀ i, left ≤ i → i ≤ right → ¬IsStab mem stabs type i
  · refine ⟨left, left - 1, ?_, iff_of_true ⟨?_, fun _ => by omega⟩ hno⟩
    · rw [searchAll, Traced.result_bind_of_some hs', hsplit.searchEnd_empty hno]
    · rintro ⟨i, hl, hr, hk, -⟩
      exact absurd hk (hno i hl hr)
  · obtain ⟨i, hl, hr, hk⟩ : ∃ i, left ≤ i ∧ i ≤ right ∧ IsStab mem stabs type i := by
      by_contra hc
      exact hno fun i hl hr hk => hc ⟨i, hl, hr, hk⟩
    obtain ⟨a, b, hres, hab⟩ := hsplit.searchEnd_before hend hl hr hk
    refine ⟨a, b, ?_, iff_of_false (fun hc => ?_) hno⟩
    · rw [searchAll, Traced.result_bind_of_some hs', hres]
    · exact absurd (hc.2 habove) (not_lt.mpr hab)

/-- The last entry is below `addr`. -/
theorem searchAll_below (h : s.Splits (IsStab mem stabs type) left right (e + 1)) (h0 : 0 ≤ left)
    (rise : Rising (IsStab mem stabs type) (nValue mem stabs) left right) (hl : left ≤ e)
    (hr : e ≤ right) (hk : IsStab mem stabs type e) (hlt : nValue mem stabs e < s.addr)
    (hlast : ∀ i, e < i → i ≤ right → IsStab mem stabs type i → s.addr < nValue mem stabs i)
    (fuel : Nat) (hf : s.size < fuel) :
    ∃ l r, (searchAll mem stabs type fuel s).result = some (l, r) ∧
      FoundIn (IsStab mem stabs type) (nValue mem stabs) left right s.addr l r := by
  have hll := h.left_le
  have hrr := h.r_le
  have hlow : ∀ i, left ≤ i → i ≤ e → IsStab mem stabs type i → nValue mem stabs i < s.addr := by
    intro i hi hie hki
    rcases eq_or_lt_of_le hie with rfl | hie
    · exact hlt
    · exact BitVec.lt_trans (rise i e hi hie hr hki hk) hlt
  have hd : s.Decides (IsStab mem stabs type) (nValue mem stabs) (e + 1) := by
    intro i hi hir hki
    by_cases hie : i ≤ e
    · exact iff_of_true (BitVec.le_of_lt (hlow i (by omega) hie hki)) (by omega)
    · exact iff_of_false (BitVec.not_le.mpr (hlast i (by omega) (by omega) hki)) (by omega)
  have hne : ∀ i, s.l ≤ i → i ≤ s.r → IsStab mem stabs type i → nValue mem stabs i ≠ s.addr := by
    intro i hi hir hki heq
    by_cases hie : i ≤ e
    · exact BitVec.lt_irrefl _ (heq ▸ hlow i (by omega) hie hki)
    · exact BitVec.lt_irrefl _ (heq ▸ hlast i (by omega) (by omega) hki)
  obtain ⟨s', hs', hsplit, hend⟩ := h.searchLoop hd hne h0 hf
  obtain ⟨hres, hle, hgap⟩ := hsplit.searchEnd hend hk hl (by omega) (fun i hi _ _ => hi) hr
  refine ⟨e, s'.regionRight, ?_, foundIn_of_last hl hk (BitVec.le_of_lt hlt) hlast hle
    hsplit.regionRight_le hgap hsplit.ends⟩
  rw [searchAll, Traced.result_bind_of_some hs', hres]

/-- The last entry is at `addr`. -/
theorem searchAll_at (h : s.Splits (IsStab mem stabs type) left right (e + 1)) (h0 : 0 ≤ left)
    (rise : Rising (IsStab mem stabs type) (nValue mem stabs) left right) (hl : s.l ≤ e)
    (hr : e ≤ s.r) (hsr : s.r = right) (hk : IsStab mem stabs type e)
    (hval : nValue mem stabs e = s.addr)
    (hlast : ∀ i, e < i → i ≤ right → IsStab mem stabs type i → s.addr < nValue mem stabs i) :
    ∃ l r, (searchAll mem stabs type (2 * s.size + 2) s).result = some (l, r) ∧
      (FoundIn (IsStab mem stabs type) (nValue mem stabs) left right s.addr l r ↔
        s.addr ≠ 0xffffffff ∧ ∀ n, e < n → n ≤ right → IsStab mem stabs type n →
          nValue mem stabs n = s.addr + 1 →
          upperFirst (IsStab mem stabs type) e n (s.size + 1) s.l s.r ∨
            n = e + 1 ∧ nValue mem stabs n = 0xffffffff) := by
  have hll := h.left_le
  have hle : nValue mem stabs e ≤ s.addr := BitVec.le_of_eq hval
  obtain ⟨k, s', hhit, hr', hsize, hloop, hup⟩ := h.reaches rise h0 hk hl hr hval
  have hl' := hhit.l_eq
  have hle' := hhit.le_r
  have haddr : s'.addr = s.addr + 1 := by rw [hhit.addr_eq, hval]
  have hpos : 0 < s'.size := by
    unfold Search.size
    omega
  obtain ⟨f, hfk⟩ : ∃ f, 2 * s.size + 2 = f + k := ⟨2 * s.size + 2 - k, by omega⟩
  have hmono : s'.size ≤ s.size := by
    unfold Search.size
    omega
  have hres : (searchAll mem stabs type (2 * s.size + 2) s).result =
      (searchAll mem stabs type f s').result := by
    rw [searchAll, searchAll, Traced.result_bind, Traced.result_bind, hfk, hloop]
  rw [hres]
  by_cases hmax : nValue mem stabs e = 0xffffffff
  · refine ⟨_, _, hhit.last rise h0 hmax (by omega), iff_of_false (fun hc => ?_) ?_⟩
    · have := hc.eq_of_last (by omega) (by omega) hk hle hlast
      omega
    · exact fun hc => hc.1 (hval ▸ hmax)
  have hne : s.addr ≠ 0xffffffff := hval ▸ hmax
  by_cases hex : ∃ n, e < n ∧ n ≤ s'.r ∧ IsStab mem stabs type n ∧ nValue mem stabs n = s'.addr
  · obtain ⟨n, hen, hnr, hkn, hvn⟩ := hex
    obtain ⟨a, b, hab, hmaxn, hlessn⟩ := hhit.goes_on rise h0 hkn hen hnr hvn
      (by omega : 2 * s'.size < f)
    have hgap : ∀ i, e < i → i < n → ¬IsStab mem stabs type i := fun i hei hin =>
      rise.not_between (by omega) (by omega) hk hkn hmax (hvn.trans hhit.addr_eq) hei hin
    have hnot : ¬upperFirst (IsStab mem stabs type) e n (s.size + 1) s.l s.r := by
      rw [hup n hkn hen hgap (by omega) _ (Nat.lt_succ_self _)]
      exact not_lt.mpr hnr
    refine ⟨a, b, hab, ?_⟩
    constructor
    · intro hc
      have hae := hc.eq_of_last (by omega) (by omega) hk hle hlast
      refine ⟨hne, fun n' hen' hnr' hkn' hvn' => .inr ?_⟩
      obtain rfl : n' = n := rise.injective ⟨by omega, hnr', hkn'⟩ ⟨by omega, by omega, hkn⟩
        (hvn'.trans (haddr.symm.trans hvn.symm))
      by_cases hnmax : nValue mem stabs n' = 0xffffffff
      · have := (hmaxn hnmax).1
        exact ⟨by omega, hnmax⟩
      · have := hlessn hnmax
        omega
    · rintro ⟨-, hall⟩
      obtain ⟨rfl, hnmax⟩ := (hall n hen (by omega) hkn (by rw [hvn, haddr])).resolve_left hnot
      obtain ⟨rfl, rfl⟩ := hmaxn hnmax
      rw [Int.add_sub_cancel]
      exact foundIn_of_last (by omega) hk hle hlast le_rfl (by omega) (fun i h h' => by omega)
        (.inr hkn)
  · obtain ⟨b, hb, heb, hbr, hgap, hends⟩ := hhit.alone rise h0 hmax
      (fun i hi hir hki hv => hex ⟨i, hi, hir, hki, hv⟩) (by omega : s'.size < f)
    refine ⟨e, b, hb, iff_of_true
      (foundIn_of_last (by omega) hk hle hlast heb hbr hgap hends) ⟨hne, ?_⟩⟩
    intro n hen hnr hkn hvn
    left
    have hgap' : ∀ i, e < i → i < n → ¬IsStab mem stabs type i := fun i hei hin =>
      rise.not_between (by omega) hnr hk hkn hmax (by rw [hvn, hval]) hei hin
    rw [hup n hkn hen hgap' (by omega) _ (Nat.lt_succ_self _)]
    by_contra hc
    exact hex ⟨n, hen, not_lt.mp hc, hkn, by rw [hvn, haddr]⟩

/-- The search finds the entry that encloses an address exactly when `SearchFinds`. -/
theorem stabBinsearch_foundIn (mem : Word → Byte) (stabs : Word) (type : Int) (addr : Word)
    (h0 : 0 ≤ left) (hle : left ≤ right)
    (rise : Rising (IsStab mem stabs type) (nValue mem stabs) left right) :
    ∃ l r, (stabBinsearch mem stabs left right type addr).result = some (l, r) ∧
      (FoundIn (IsStab mem stabs type) (nValue mem stabs) left right addr l r ↔
        SearchFinds (IsStab mem stabs type) (nValue mem stabs) left right addr) := by
  have hsplit : ∀ t, Search.Splits (IsStab mem stabs type) left right t
      ⟨left, right, false, addr, left, right⟩ := fun t => splits_init t (by omega)
  by_cases hex : ∃ i, left ≤ i ∧ i ≤ right ∧ IsStab mem stabs type i ∧ nValue mem stabs i ≤ addr
  · obtain ⟨e, hl, hr, hk, hv, hlast⟩ := exists_last hex
    rw [searchFinds_iff_of_last hl hr hk hv hlast]
    by_cases heq : nValue mem stabs e = addr
    · obtain ⟨l, r, hres, hiff⟩ := searchAll_at (hsplit (e + 1)) h0 rise hl hr rfl hk heq hlast
      exact ⟨l, r, hres, hiff.trans ⟨fun h _ => h, fun h => h heq⟩⟩
    · have hlt : nValue mem stabs e < addr := by
        rw [BitVec.lt_def]
        rw [BitVec.le_def] at hv
        exact lt_of_le_of_ne hv fun h => heq (BitVec.eq_of_toNat_eq h)
      obtain ⟨l, r, hres, hfound⟩ := searchAll_below (hsplit (e + 1)) h0 rise hl hr hk hlt hlast
        (2 * (right + 1 - left).toNat + 2) (by unfold Search.size; dsimp only; omega)
      exact ⟨l, r, hres, iff_of_true hfound fun h => absurd h heq⟩
  · have habove : ∀ i, left ≤ i → i ≤ right → IsStab mem stabs type i →
        addr < nValue mem stabs i := by
      intro i hl hr hk
      by_contra hc
      exact hex ⟨i, hl, hr, hk, BitVec.not_lt.mp hc⟩
    obtain ⟨l, r, hres, hiff⟩ := searchAll_above (hsplit left) h0 habove
      (2 * (right + 1 - left).toNat + 2) (by unfold Search.size; dsimp only; omega)
    refine ⟨l, r, hres, hiff.trans ⟨.inl, ?_⟩⟩
    rintro (hno | ⟨e, hl, hr, hk, hv, -⟩)
    · exact hno
    · exact absurd (habove e hl hr hk) (BitVec.not_lt.mpr hv)

end Main

def nFun : Int := 0x24

/-- Functions and line numbers of a source file, with their types. -/
def fileStabs : List (Byte × Word) :=
  [(0x64, 0x800020), (0x24, 0x800020), (0x44, 0), (0x24, 0x800040), (0x44, 0), (0x44, 8),
    (0x24, 0x800080)]

def fileTable (a : Word) : Byte :=
  let stab := fileStabs.getD ((a - 0x200000).toNat / 12) 0
  let i := (a - 0x200000).toNat % 12
  if i = 4 then stab.1 else if 8 ≤ i then stab.2.extractLsb' (8 * (i - 8)) 8 else 0

theorem rising_fileTable :
    Rising (IsStab fileTable 0x200000 nFun) (nValue fileTable 0x200000) 0 6 := by
  have h : ∀ i j : Fin 7, i < j → IsStab fileTable 0x200000 nFun (i : ℕ) →
      IsStab fileTable 0x200000 nFun (j : ℕ) →
        nValue fileTable 0x200000 (i : ℕ) < nValue fileTable 0x200000 (j : ℕ) := by decide +kernel
  intro i j hi hij hj
  obtain ⟨i, rfl⟩ := Int.eq_ofNat_of_zero_le hi
  obtain ⟨j, rfl⟩ := Int.eq_ofNat_of_zero_le (hi.trans hij.le)
  exact h ⟨i, by omega⟩ ⟨j, by omega⟩ (by simpa using hij)

/-- The address of the second function is found, between the first one and the third. -/
theorem stabBinsearch_foundIn_fileTable : ∃ l r,
    (stabBinsearch fileTable 0x200000 0 6 nFun 0x800040).result = some (l, r) ∧
      FoundIn (IsStab fileTable 0x200000 nFun) (nValue fileTable 0x200000) 0 6 0x800040 l r := by
  have hnext : ∀ i : Fin 7, 3 < (i : ℕ) → IsStab fileTable 0x200000 nFun (i : ℕ) →
      0x800041 < nValue fileTable 0x200000 (i : ℕ) := by decide +kernel
  have hnext : ∀ i : Int, 3 < i → i ≤ 6 → IsStab fileTable 0x200000 nFun i →
      0x800041 < nValue fileTable 0x200000 i := fun i hi hir => by
    obtain ⟨i, rfl⟩ := Int.eq_ofNat_of_zero_le (by omega : 0 ≤ i)
    exact hnext ⟨i, by omega⟩ (by simpa using hi)
  obtain ⟨l, r, hres, hiff⟩ := stabBinsearch_foundIn fileTable 0x200000 nFun 0x800040 le_rfl
    (by decide) rising_fileTable
  refine ⟨l, r, hres, hiff.mpr (.inr ⟨3, by decide, by decide, by decide, by decide, ?_, ?_⟩)⟩
  · intro i hi hir hk
    have h := BitVec.lt_def.mp (hnext i hi hir hk)
    exact BitVec.lt_def.mpr (lt_trans (by decide : (0x800040 : Word).toNat < _) h)
  · refine fun _ => ⟨by decide, fun i hi hir hk hv => ?_⟩
    have h := hnext i hi hir hk
    rw [hv] at h
    exact absurd h (by decide)

/-- A table with one function, at `0x800020`. -/
def oneFun : Word → Byte := fun a =>
  if a = 0x200004 then 0x24 else if a = 0x200008 then 0x20 else if a = 0x20000A then 0x80 else 0

theorem rising_oneFun : Rising (IsStab oneFun 0x200000 nFun) (nValue oneFun 0x200000) 0 0 :=
  fun i j hi hij hj => by omega

/-- For an address before the function the region is not made empty. -/
theorem not_foundIn_oneFun : Rising (IsStab oneFun 0x200000 nFun) (nValue oneFun 0x200000) 0 0 ∧
    (stabBinsearch oneFun 0x200000 0 0 nFun 0x800010).result = some (-1, -1) ∧
    ¬FoundIn (IsStab oneFun 0x200000 nFun) (nValue oneFun 0x200000) 0 0 0x800010 (-1) (-1) := by
  refine ⟨rising_oneFun, by decide, fun h => ?_⟩
  have hlt := h.2 fun i hl hr hk => by
    obtain rfl : i = 0 := by omega
    decide
  omega

end JosKernel
