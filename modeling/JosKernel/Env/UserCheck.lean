import JosKernel.Env.Integrity

/-!
# Checking user memory

When `user_mem_check` accepts a range, the range should be accessible. The loop visits the pages
from `ROUNDDOWN(va)` to `ROUNDUP(va+len)` in 32-bit arithmetic, so it visits too few of them when
the sum or the rounding wraps around. It reads table entries only; the directory entries of an
environment have all permissions, except for the read-only window at `UVPT`.
-/
namespace JosKernel

open Lib

variable {n : Nat} {S : Set (Fin n)} {x : Fin n → ℕ}

/-- The table entry for `p`, if there is a table. -/
def Mem.leaf (m : Mem n) (g : Fin n) (p : Word) : Option Word :=
  if present (m.entry g (pdx p)) then
    if h : pgnum (m.entry g (pdx p)) < n then some (m.entry ⟨_, h⟩ (ptx p)) else none
  else none

/-- The entry is present and has all bits of `perm`. -/
def Grants (w perm : Word) : Prop := present w = true ∧ w &&& perm = perm

/-- The test that `user_mem_check` makes for one page. -/
def Passes (m : Mem n) (g : Fin n) (perm p : Word) : Prop :=
  p < ulim ∧ ∃ w, m.leaf g p = some w ∧ Grants w perm

/-- Both levels of the page table grant `perm` at address `a`. -/
def Accessible (m : Mem n) (g : Fin n) (perm a : Word) : Prop :=
  Grants (m.entry g (pdx a)) perm ∧ ∃ w, m.leaf g a = some w ∧ Grants w perm

/-- The pages that `user_mem_check` visits. -/
def visited (va len : Word) : List Word :=
  Mem.pageRange (roundDown va pgsize) (roundUp (va + len) pgsize)

/-- If the check accepts the range, every address of it is below `ULIM` and accessible. -/
def CheckSound (m : Mem n) (g : Fin n) (va len perm : Word) : Prop :=
  m.userMemCheck g va len (perm ||| pteU) = .ok none →
    ∀ i < len.toNat, va.toNat + i < ulim.toNat ∧
      Accessible m g (perm ||| pteU) (va + BitVec.ofNat 32 i)

/-- The bits of a directory entry that the hardware looks at. -/
def accessBits : Word := pteP ||| pteW ||| pteU

/-- A visited page fails the test, or the end of the range does not wrap around, no page of the
window at `UVPT` is to be written, and `perm` has only access bits or bits of the directory
entries. -/
def CheckOk (m : Mem n) (g : Fin n) (va len perm : Word) : Prop :=
  (∃ p ∈ visited va len, ¬Passes m g (perm ||| pteU) p) ∨
    (va.toNat + len.toNat ≤ 2 ^ 32 - 4096 ∧ ∀ p ∈ visited va len,
      (perm &&& pteW ≠ 0 → pdx p ≠ pdx uvpt) ∧
        perm &&& ~~~accessBits &&& ~~~(m.entry g (pdx p)) = 0)

/-- Every page table of the directory is in memory. -/
def TablesInMem (m : Mem n) (g : Fin n) : Prop :=
  ∀ d, present (m.entry g d) = true → pgnum (m.entry g d) < n

/-- The addresses of `[va, va+len)` whose pages fail the test. -/
def Faulty (m : Mem n) (g : Fin n) (va len perm : Word) : Set Word :=
  {a | va.toNat ≤ a.toNat ∧ a.toNat < va.toNat + len.toNat ∧
    ¬Passes m g perm (roundDown a pgsize)}

instance (m : Mem n) (g : Fin n) (perm p : Word) : Decidable (Passes m g perm p) :=
  decidable_of_iff (p < ulim ∧ (m.leaf g p).any (fun w => present w && w &&& perm == perm) = true)
    (by simp [Passes, Grants, Option.any_eq_true])

/-! ## The loop -/

section
variable {ι : Type} [Fintype ι] {dirs : ι → Option (Fin n)} {m : Mem n} {e : ι} {g : Fin n}
  {va len perm p : Word}

/-- All page tables of a live directory are in memory. -/
theorem MemInv.pde_lt (inv : MemInv S dirs x ∅ m) (he : dirs e = some g) {d : Fin 1024}
    (hp : present (m.entry g d) = true) : pgnum (m.entry g d) < n := by
  by_cases hd : (d : Nat) < userPdes
  · exact (inv.pdeOk e g d he hd hp).1
  · rw [inv.dirHigh e g d he (by omega), highPde] at hp ⊢
    split_ifs at hp ⊢ with hu
    · rw [pgnum_or, pgnum_or, pgnum_page2pa inv.small, show pgnum pteP = 0 from rfl,
        show pgnum pteU = 0 from rfl, Nat.or_zero, Nat.or_zero]
      exact g.isLt
    · exact (inv.kernHigh d (by omega) hu hp).1

theorem MemInv.tablesInMem (inv : MemInv S dirs x ∅ m) (he : dirs e = some g) :
    TablesInMem m g := fun _ hp => inv.pde_lt he hp

theorem pgdirWalk_leaf (htab : TablesInMem m g) (p : Word) :
    ∃ r, m.pgdirWalk g p false = .ok (r, m) ∧
      m.leaf g p = r.map fun (pt, i) => m.entry pt i := by
  unfold Mem.pgdirWalk Mem.leaf
  cases hp : present (m.entry g (pdx p)) with
  | false => exact ⟨none, rfl, rfl⟩
  | true =>
    have hlt := htab _ hp
    refine ⟨some (⟨_, hlt⟩, ptx p), ?_, by simp [hlt]⟩
    simp [kaddr, hlt, bind, Except.bind, pure, Except.pure]

/-- The loop stops at the first page that fails the test. -/
theorem userMemCheckLoop_eq (htab : TablesInMem m g) (va perm : Word) (ps : List Word) :
    m.userMemCheckLoop g va perm ps =
      .ok ((ps.find? fun p => decide (¬Passes m g perm p)).map
        fun p => if p < va then va else p) := by
  induction ps with
  | nil => rfl
  | cons p ps ih =>
    obtain ⟨o, hwalk, hleaf⟩ := pgdirWalk_leaf htab p
    have hfound (h : ¬Passes m g perm p) :
        (p :: ps).find? (fun p => decide (¬Passes m g perm p)) = some p :=
      List.find?_cons_of_pos (by simpa using h)
    simp only [Mem.userMemCheckLoop, hwalk, bind, Except.bind]
    cases o with
    | none =>
      have hfail : ¬Passes m g perm p := by
        rintro ⟨-, w, hw, -⟩
        rw [hleaf] at hw
        cases hw
      rw [hfound hfail]
      rfl
    | some o =>
      obtain ⟨pt, i⟩ := o
      have hpass : Passes m g perm p ↔
          (p < ulim ∧ present (m.entry pt i) = true) ∧ m.entry pt i &&& perm = perm := by
        unfold Passes Grants
        rw [hleaf]
        simp only [Option.map_some, Option.some.injEq, exists_eq_left', and_assoc]
      simp only [Bool.and_eq_true, decide_eq_true_eq, beq_iff_eq, ← hpass]
      by_cases h : Passes m g perm p
      · rw [if_pos h, ih, List.find?_cons_of_neg (by simpa using h)]
      · rw [if_neg h, hfound h]
        rfl

/-- The loop accepts exactly the lists of pages that all pass the test. -/
theorem MemInv.userMemCheckLoop (inv : MemInv S dirs x ∅ m) (he : dirs e = some g)
    (va perm : Word) (ps : List Word) : ∃ r, m.userMemCheckLoop g va perm ps = .ok r ∧
      (r = none ↔ ∀ p ∈ ps, Passes m g perm p) := by
  refine ⟨_, userMemCheckLoop_eq (inv.tablesInMem he) va perm ps, ?_⟩
  simp

theorem MemInv.userMemCheck_iff (inv : MemInv S dirs x ∅ m) (he : dirs e = some g)
    (va len perm : Word) :
    m.userMemCheck g va len perm = .ok none ↔ ∀ p ∈ visited va len, Passes m g perm p := by
  obtain ⟨r, hr, hiff⟩ := inv.userMemCheckLoop he va perm (visited va len)
  rw [← hiff, Mem.userMemCheck]
  simp only [visited] at hr
  rw [hr, Except.ok.injEq]

/-! ## Ranges -/

theorem pdx_roundDown (a : Word) : pdx (roundDown a pgsize) = pdx a := by
  ext
  simp only [pdx, toNat_roundDown]
  omega

theorem ptx_roundDown (a : Word) : ptx (roundDown a pgsize) = ptx a := by
  ext
  simp only [ptx, toNat_roundDown]
  omega

theorem leaf_roundDown (a : Word) : m.leaf g (roundDown a pgsize) = m.leaf g a := by
  simp only [Mem.leaf, pdx_roundDown, ptx_roundDown]

/-- The visited pages, counted from the first one. -/
theorem visited_eq (hno : va.toNat + len.toNat ≤ 2 ^ 32 - 4096) :
    visited va len =
      (List.range ((va.toNat + len.toNat + 4095) / 4096 - va.toNat / 4096)).map fun j =>
        roundDown va pgsize + BitVec.ofNat 32 (j * 4096) := by
  have hend : (roundUp (va + len) pgsize).toNat = (va.toNat + len.toNat + 4095) / 4096 * 4096 := by
    rw [roundUp, toNat_roundDown]
    have : (va + len + pgsize - 1).toNat = va.toNat + len.toNat + 4095 := by
      simp only [BitVec.toNat_sub, BitVec.toNat_add, pgsize]
      simp
      omega
    rw [this]
  have hpages : ((va.toNat + len.toNat + 4095) / 4096 * 4096 - va.toNat / 4096 * 4096) / 4096 =
      (va.toNat + len.toNat + 4095) / 4096 - va.toNat / 4096 := by omega
  rw [visited, Mem.pageRange, hend, toNat_roundDown, hpages]

theorem toNat_visitedPage (hno : va.toNat + len.toNat ≤ 2 ^ 32 - 4096) {j : Nat}
    (hj : j < (va.toNat + len.toNat + 4095) / 4096 - va.toNat / 4096) :
    (roundDown va pgsize + BitVec.ofNat 32 (j * 4096)).toNat = (va.toNat / 4096 + j) * 4096 := by
  rw [BitVec.toNat_add, toNat_roundDown, BitVec.toNat_ofNat]
  omega

/-- Without wrap-around, the visited pages are those of the addresses in the range. -/
theorem mem_visited_iff (hno : va.toNat + len.toNat ≤ 2 ^ 32 - 4096) (hlen : len ≠ 0) :
    p ∈ visited va len ↔
      ∃ i < len.toNat, p = roundDown (va + BitVec.ofNat 32 i) pgsize := by
  have hlen' : 0 < len.toNat := by
    rw [Nat.pos_iff_ne_zero]
    exact fun h => hlen (BitVec.eq_of_toNat_eq h)
  have haddr : ∀ i < len.toNat, (va + BitVec.ofNat 32 i).toNat = va.toNat + i := by
    intro i hi
    rw [BitVec.toNat_add, BitVec.toNat_ofNat]
    omega
  simp only [visited_eq hno, List.mem_map, List.mem_range]
  constructor
  · rintro ⟨j, hj, rfl⟩
    -- an address of the range in page `j`
    refine ⟨if j = 0 then 0 else va.toNat / 4096 * 4096 + j * 4096 - va.toNat, ?_, ?_⟩
    · split_ifs <;> omega
    · apply BitVec.eq_of_toNat_eq
      rw [toNat_visitedPage hno hj, toNat_roundDown, haddr _ (by split_ifs <;> omega)]
      split_ifs <;> omega
  · rintro ⟨i, hi, rfl⟩
    have hj : (va.toNat + i) / 4096 - va.toNat / 4096 <
        (va.toNat + len.toNat + 4095) / 4096 - va.toNat / 4096 := by omega
    refine ⟨(va.toNat + i) / 4096 - va.toNat / 4096, hj, ?_⟩
    apply BitVec.eq_of_toNat_eq
    rw [toNat_visitedPage hno hj, toNat_roundDown, haddr i hi]
    omega

/-- Where the search stops. -/
theorem find?_visited (m : Mem n) (g : Fin n) (perm : Word)
    (hno : va.toNat + len.toNat ≤ 2 ^ 32 - 4096) (hlen : len ≠ 0) :
    match (visited va len).find? fun p => decide (¬Passes m g perm p) with
    | none => Faulty m g va len perm = ∅
    | some p => (if p < va then va else p) ∈ Faulty m g va len perm ∧
        ∀ b ∈ Faulty m g va len perm, (if p < va then va else p) ≤ b := by
  have hlen' : 0 < len.toNat := by
    rw [Nat.pos_iff_ne_zero]
    exact fun h => hlen (BitVec.eq_of_toNat_eq h)
  -- the page of an address in the range is visited
  have hpage : ∀ b : Word, va.toNat ≤ b.toNat → b.toNat < va.toNat + len.toNat →
      b.toNat / 4096 - va.toNat / 4096 <
          (va.toNat + len.toNat + 4095) / 4096 - va.toNat / 4096 ∧
        roundDown b pgsize = roundDown va pgsize +
          BitVec.ofNat 32 ((b.toNat / 4096 - va.toNat / 4096) * 4096) := by
    intro b hlo hhi
    have hj : b.toNat / 4096 - va.toNat / 4096 <
        (va.toNat + len.toNat + 4095) / 4096 - va.toNat / 4096 := by omega
    refine ⟨hj, BitVec.eq_of_toNat_eq ?_⟩
    rw [toNat_visitedPage hno hj, toNat_roundDown]
    omega
  rw [visited_eq hno, List.find?_map]
  cases hfind : (List.range ((va.toNat + len.toNat + 4095) / 4096 - va.toNat / 4096)).find?
      ((fun p => decide (¬Passes m g perm p)) ∘
        fun j => roundDown va pgsize + BitVec.ofNat 32 (j * 4096)) with
  | none =>
    simp only [Option.map_none]
    refine Set.eq_empty_of_forall_notMem fun b hb => ?_
    obtain ⟨hlo, hhi, hbad⟩ := hb
    obtain ⟨hj, hb⟩ := hpage b hlo hhi
    have hall := List.find?_range_eq_none.mp hfind _ hj
    simp only [Function.comp_apply, decide_not, Bool.not_not, decide_eq_true_eq] at hall
    exact hbad (hb ▸ hall)
  | some j =>
    obtain ⟨hbad, hj, hbefore⟩ := List.find?_range_eq_some.mp hfind
    rw [List.mem_range] at hj
    simp only [Function.comp_apply, decide_not, Bool.not_not, decide_eq_true_eq,
      Bool.not_eq_true', decide_eq_false_iff_not] at hbad hbefore
    simp only [Option.map_some]
    have hp := toNat_visitedPage hno hj
    set p := roundDown va pgsize + BitVec.ofNat 32 (j * 4096)
    have hlt : p < va ↔ (va.toNat / 4096 + j) * 4096 < va.toNat := by rw [BitVec.lt_def, hp]
    have haddr : (if p < va then va else p).toNat =
        if (va.toNat / 4096 + j) * 4096 < va.toNat then va.toNat
        else (va.toNat / 4096 + j) * 4096 := by
      simp only [hlt]
      split_ifs
      · rfl
      · exact hp
    have hround : roundDown (if p < va then va else p) pgsize = p := by
      apply BitVec.eq_of_toNat_eq
      rw [toNat_roundDown, haddr, hp]
      split_ifs <;> omega
    refine ⟨⟨?_, ?_, by rwa [hround]⟩, ?_⟩
    · rw [haddr]
      split_ifs <;> omega
    · rw [haddr]
      split_ifs <;> omega
    · rintro b ⟨hlo, hhi, hb⟩
      obtain ⟨hjb, hb'⟩ := hpage b hlo hhi
      have hle : j ≤ b.toNat / 4096 - va.toNat / 4096 := by
        by_contra hc
        exact hb (hb' ▸ hbefore _ (by omega))
      rw [BitVec.le_def, haddr]
      split_ifs <;> omega

/-! ## Directory entries -/

/-- Bits of the directory entries that cover the range below `ULIM`. -/
theorem MemInv.pde_bits (inv : MemInv S dirs x ∅ m) (he : dirs e = some g) {d : Fin 1024}
    (hd : d < pdx ulim) (hp : present (m.entry g d) = true) :
    if d = pdx uvpt then m.entry g d &&& accessBits = pteP ||| pteU
    else m.entry g d &&& accessBits = accessBits := by
  split_ifs with hu
  · have h955 : userPdes ≤ (d : Nat) := by rw [hu]; decide
    rw [inv.dirHigh e g d he h955, highPde, if_pos hu]
    have hlow : page2pa g &&& accessBits = 0 := by
      have hw := pteAddr_eq_page2pa (w := page2pa g ||| pteP) (show pageOf n _ = some g by
        rw [pageOf_eq_some]
        exact ⟨by simp, by
          rw [pgnum_or, pgnum_page2pa inv.small, show pgnum pteP = 0 from rfl, Nat.or_zero]⟩)
      rw [← hw]
      exact pteAddr_and (by decide) _
    rw [BitVec.and_comm, BitVec.and_or_distrib_left, BitVec.and_or_distrib_left,
      BitVec.and_comm accessBits, hlow]
    decide
  · by_cases hlt : (d : Nat) < userPdes
    · exact (inv.pdeOk e g d he hlt hp).2
    · rw [inv.dirHigh e g d he (by omega), highPde, if_neg hu] at hp ⊢
      exact (inv.kernHigh d (by omega) hu hp).2 hd

/-- A word has all bits of `q` if and only if it has them inside and outside a mask. -/
theorem and_eq_iff_mask {w q a b : Word} (hw : w &&& a = b) :
    w &&& q = q ↔ q &&& a &&& ~~~b = 0 ∧ q &&& ~~~a &&& ~~~w = 0 := by
  subst hw
  have bits (u v : Word) : u = v ↔ ∀ i < 32, u.getLsbD i = v.getLsbD i :=
    ⟨fun h _ _ => by rw [h], fun h => BitVec.eq_of_getLsbD_eq h⟩
  simp only [bits, ← forall_and]
  refine forall_congr' fun i => ?_
  simp only [BitVec.getLsbD_and, BitVec.getLsbD_not, BitVec.ofNat_eq_ofNat, BitVec.getLsbD_zero]
  grind

/-- When a directory entry below `ULIM` grants what the check asks for. -/
theorem MemInv.pde_grants_iff (inv : MemInv S dirs x ∅ m) (he : dirs e = some g) {d : Fin 1024}
    (hd : d < pdx ulim) (hp : present (m.entry g d) = true) :
    m.entry g d &&& (perm ||| pteU) = perm ||| pteU ↔
      (perm &&& pteW ≠ 0 → d ≠ pdx uvpt) ∧ perm &&& ~~~accessBits &&& ~~~(m.entry g d) = 0 := by
  have hbits := inv.pde_bits he hd hp
  have hout (w : Word) : (perm ||| pteU) &&& ~~~accessBits &&& w =
      perm &&& ~~~accessBits &&& w := by
    have hu : pteU &&& ~~~accessBits = 0#32 := by decide
    rw [BitVec.and_or_distrib_right, hu, BitVec.or_zero]
  split_ifs at hbits with hu
  · have hin : (perm ||| pteU) &&& accessBits &&& ~~~(pteP ||| pteU) = perm &&& pteW := by
      have h₁ : accessBits &&& ~~~(pteP ||| pteU) = pteW := by decide
      have h₂ : pteU &&& pteW = 0#32 := by decide
      rw [BitVec.and_assoc, h₁, BitVec.and_or_distrib_right, h₂, BitVec.or_zero]
    rw [and_eq_iff_mask hbits, hout, hin]
    simp [hu]
  · have hin : (perm ||| pteU) &&& accessBits &&& ~~~accessBits = 0 := by
      rw [BitVec.and_assoc, show accessBits &&& ~~~accessBits = 0 by decide]
      exact BitVec.and_zero
    rw [and_eq_iff_mask hbits, hout, hin]
    simp [hu]

/-! ## The check -/

theorem pdx_lt_ulim {a : Word} (h : a < ulim) : pdx a < pdx ulim := by
  have ha : a.toNat < ulim.toNat := h
  have hu : ulim.toNat = 958 * 2 ^ 22 := by decide
  have hd : (pdx ulim : Nat) = 958 := by decide
  rw [Fin.lt_def, hd, pdx]
  simp only
  omega

theorem lt_ulim_of_roundDown {a : Word} (h : roundDown a pgsize < ulim) : a < ulim := by
  have ha : a.toNat / 4096 * 4096 < ulim.toNat := toNat_roundDown a ▸ h
  have hu : ulim.toNat = 980992 * 4096 := by decide
  have : a.toNat < ulim.toNat := by omega
  exact this

/-- If a range does not wrap around and its visited pages pass the test, its addresses are as
promised exactly where the directory entries grant `perm`. -/
theorem MemInv.accessible_iff (inv : MemInv S dirs x ∅ m) (he : dirs e = some g) {a : Word}
    (hpass : Passes m g (perm ||| pteU) (roundDown a pgsize)) :
    a < ulim ∧ (Accessible m g (perm ||| pteU) a ↔ (perm &&& pteW ≠ 0 → pdx a ≠ pdx uvpt) ∧
      perm &&& ~~~accessBits &&& ~~~(m.entry g (pdx a)) = 0) := by
  obtain ⟨hlt, w, hw, hg⟩ := hpass
  rw [leaf_roundDown] at hw
  have hlt' := lt_ulim_of_roundDown hlt
  have hp : present (m.entry g (pdx a)) = true := by
    by_contra h
    simp [Mem.leaf, h] at hw
  refine ⟨hlt', ?_⟩
  rw [← inv.pde_grants_iff he (pdx_lt_ulim hlt') hp]
  exact ⟨fun h => h.1.2, fun h => ⟨⟨hp, h⟩, w, hw, hg⟩⟩

theorem MemInv.checkSound_iff (inv : MemInv S dirs x ∅ m) (he : dirs e = some g)
    (hlen : len ≠ 0) : CheckSound m g va len perm ↔ CheckOk m g va len perm := by
  unfold CheckSound CheckOk
  rw [inv.userMemCheck_iff he]
  by_cases hall : ∀ p ∈ visited va len, Passes m g (perm ||| pteU) p
  · rw [or_iff_right (by push Not; exact hall)]
    have hlen' : 0 < len.toNat := by
      rw [Nat.pos_iff_ne_zero]
      exact fun h => hlen (BitVec.eq_of_toNat_eq h)
    have hu : ulim.toNat = 980992 * 4096 := by decide
    constructor
    · intro h
      have hlast := (h hall (len.toNat - 1) (by omega)).1
      have hno : va.toNat + len.toNat ≤ 2 ^ 32 - 4096 := by omega
      refine ⟨hno, fun p hp => ?_⟩
      obtain ⟨i, hi, rfl⟩ := (mem_visited_iff hno hlen).mp hp
      rw [pdx_roundDown]
      exact (inv.accessible_iff he (hall _ hp)).2.mp (h hall i hi).2
    · rintro ⟨hno, h⟩ - i hi
      have hp := (mem_visited_iff hno hlen).mpr ⟨i, hi, rfl⟩
      obtain ⟨hlt, hiff⟩ := inv.accessible_iff he (hall _ hp)
      have haddr : (va + BitVec.ofNat 32 i).toNat = va.toNat + i := by
        rw [BitVec.toNat_add, BitVec.toNat_ofNat]
        omega
      refine ⟨haddr ▸ hlt, hiff.mpr ?_⟩
      have := h _ hp
      rwa [pdx_roundDown] at this
  · refine iff_of_true (fun h => absurd h hall) (.inl ?_)
    push Not at hall
    exact hall

end

/-- A range that does not wrap around is accepted if all its pages pass the test, and otherwise
the first address of it whose page fails is reported. -/
theorem userMemCheck_exact {m : Mem n} {g : Fin n} {va len perm : Word} (htab : TablesInMem m g)
    (hlen : len ≠ 0) (hno : va.toNat + len.toNat ≤ 2 ^ 32 - 4096) :
    (Faulty m g va len perm = ∅ → m.userMemCheck g va len perm = .ok none) ∧
      ((Faulty m g va len perm).Nonempty → ∃ a, m.userMemCheck g va len perm = .ok (some a) ∧
        a ∈ Faulty m g va len perm ∧ ∀ b ∈ Faulty m g va len perm, a ≤ b) := by
  have heq : m.userMemCheck g va len perm = .ok
      (((visited va len).find? fun p => decide (¬Passes m g perm p)).map
        fun p => if p < va then va else p) := userMemCheckLoop_eq htab va perm _
  have hfind := find?_visited m g perm hno hlen
  rw [heq]
  cases hp : (visited va len).find? fun p => decide (¬Passes m g perm p) with
  | none =>
    rw [hp] at hfind
    exact ⟨fun _ => rfl, fun h => absurd hfind h.ne_empty⟩
  | some p =>
    rw [hp] at hfind
    exact ⟨fun h => absurd h (Set.nonempty_of_mem hfind.1).ne_empty, fun _ => ⟨_, rfl, hfind⟩⟩

/-- Nothing is mapped at the addresses around the end of the first page. -/
theorem userMemCheck_exact_small : ∃ g, small.dirs 0 = some g ∧
    ∃ a, small.mem.userMemCheck g 0xFFC 8 pteU = .ok (some a) ∧
      a ∈ Faulty small.mem g 0xFFC 8 pteU ∧ ∀ b ∈ Faulty small.mem g 0xFFC 8 pteU, a ≤ b := by
  have hfail : (small.dirs 0).any (fun g => decide (¬Passes small.mem g pteU 0)) = true := by
    decide +kernel
  obtain ⟨g, hg, hbad⟩ := (Option.any_eq_true _ _).mp hfail
  obtain ⟨x, inv⟩ := kInv_of_reachable (.init boot_small)
  refine ⟨g, hg, (userMemCheck_exact (inv.mem.tablesInMem hg) (by decide) (by decide)).2
    ⟨0xFFC, by decide, by decide, of_decide_eq_true hbad⟩⟩

/-- In the states of runs that meet `StepOk`, the check of a non-empty range is sound for exactly
the ranges and permissions of `CheckOk`. -/
theorem checkSound_iff_checkOk {k : Kernel n} {e : EnvIx} {g : Fin n} {va len perm : Word}
    (hk : Reachable (Boot S) (fun k a k' => StepOk k a ∧ Step k a k') k) (he : k.dirs e = some g)
    (hlen : len ≠ 0) : CheckSound k.mem g va len perm ↔ CheckOk k.mem g va len perm := by
  obtain ⟨x, inv⟩ := kInv_of_reachable hk
  exact inv.mem.checkSound_iff he hlen

/-- The check accepts a page that was allocated, and is sound there. -/
theorem checkSound_pageAlloc : ∃ (k : Kernel 16) (g : Fin 16), k.dirs 0 = some g ∧
    k.mem.userMemCheck g 0x800010 8 (0 ||| pteU) = .ok none ∧
    CheckSound k.mem g 0x800010 8 0 := by
  obtain ⟨k, hk, hp⟩ := reachable_runPlain (.init boot_small) [.start 0, allocOne]
    (fun k => (k.dirs 0).any fun g : Fin 16 =>
      decide (k.mem.userMemCheck g 0x800010 8 (0 ||| pteU) = .ok none)) (by decide +kernel)
  obtain ⟨g, hg, hcheck⟩ := (Option.any_eq_true _ _).mp hp
  have hok : CheckOk k.mem g 0x800010 8 0 :=
    .inr ⟨by decide, fun p _ => ⟨fun h => absurd rfl h, by simp⟩⟩
  exact ⟨k, g, hg, of_decide_eq_true hcheck, (checkSound_iff_checkOk hk hg (by decide)).mpr hok⟩

/-- The last page of the address space is accepted, although it belongs to the kernel. -/
theorem not_checkSound_wrap : ∃ g, small.dirs 0 = some g ∧
    Reachable (Boot {p : Fin 16 | p ≠ 0}) (fun k a k' => StepOk k a ∧ Step k a k') small ∧
    ¬CheckSound small.mem g 0xFFFFF000 0x1000 0 := by
  have hd : (small.dirs 0).isSome = true := by decide +kernel
  obtain ⟨g, hg⟩ := Option.isSome_iff_exists.mp hd
  refine ⟨g, hg, .init boot_small, fun h => ?_⟩
  have := (h rfl 0 (by decide)).1
  revert this
  decide

end JosKernel
