import JosKernel.Lib.ListSeg
import JosKernel.Lib.RefCount
import JosKernel.Pmap.Basic
import Mathlib.Tactic.DeriveFintype

/-!
# References to physical pages

A page is referred to by a page directory pointer, by a present directory entry below `UTOP`, or
by a present table entry reached through one. These places are the slots of the general
reference-counting development: `Mem.target` reads the page that each slot refers to.

Page directories and page tables are the structural pages. The invariant `MemInv` says that each
of them is referred to by one slot only; this separates the tables of different environments from
each other and from the pages that users can write, so that writing one entry redirects exactly
one slot.
-/
namespace JosKernel

open Lib

/-- The places from which a page can be referred to, for a family `ι` of address spaces. -/
inductive Slot (ι : Type) where
  | dir (e : ι)
  | pde (e : ι) (d : Fin 1024)
  | pte (e : ι) (d t : Fin 1024)
  deriving DecidableEq, Fintype

/-- Slots whose pages the kernel uses as directories and tables. -/
def Slot.Struct {ι : Type} : Slot ι → Prop
  | .dir _ | .pde _ _ => True
  | .pte _ _ _ => False

variable {n : Nat} {ι : Type}

/-- The page that an entry maps, if it is present. -/
def pageOf (n : Nat) (w : Word) : Option (Fin n) :=
  if present w then if h : pgnum w < n then some ⟨pgnum w, h⟩ else none else none

theorem pageOf_eq_some {w : Word} {p : Fin n} :
    pageOf n w = some p ↔ present w = true ∧ pgnum w = p := by
  unfold pageOf
  split_ifs with hp h
  · simp [hp, Fin.ext_iff]
  · simp only [hp, true_and, false_iff]
    exact fun e => h (e ▸ p.isLt)
  · simp [hp]

theorem pageOf_of_not_present {w : Word} (h : present w = false) : pageOf n w = none := by
  simp [pageOf, h]

@[simp] theorem pageOf_zero : pageOf n 0#32 = none := pageOf_of_not_present present_zero

theorem pgnum_page2pa (small : n ≤ 2 ^ 20) (p : Fin n) : pgnum (page2pa p) = p := by
  have := p.isLt
  simp only [pgnum, page2pa, BitVec.toNat_ofNat]
  omega

/-- Permission bits leave the page of an entry alone. -/
theorem pageOf_flags (small : n ≤ 2 ^ 20) {perm : Word} (hp : perm.toNat < 4096) (pp : Fin n) :
    pageOf n (pteAddr (page2pa pp) ||| perm ||| pteP) = some pp := by
  refine pageOf_eq_some.mpr ⟨by simp, ?_⟩
  simp only [pgnum_or, pgnum_pteAddr, pgnum_page2pa small, pgnum_eq_zero hp,
    show pgnum pteP = 0 from rfl, Nat.or_zero]

/-- Bits that an entry for the same page already has leave the page alone, too. -/
theorem pageOf_flags_of_subset (small : n ≤ 2 ^ 20) {perm pte : Word} {pp : Fin n}
    (hpte : pageOf n pte = some pp) (hp : perm &&& pte = perm) :
    pageOf n (pteAddr (page2pa pp) ||| perm ||| pteP) = some pp := by
  refine pageOf_eq_some.mpr ⟨by simp, ?_⟩
  have hsub : pgnum perm &&& (pp : Nat) = pgnum perm := by
    rw [← (pageOf_eq_some.mp hpte).2]
    calc pgnum perm &&& pgnum pte = pgnum (perm &&& pte) := by
          simp only [pgnum, BitVec.toNat_and]
          exact (Nat.and_div_two_pow (n := 12)).symm
      _ = pgnum perm := by rw [hp]
  simp only [pgnum_or, pgnum_pteAddr, pgnum_page2pa small,
    show pgnum pteP = 0 from rfl, Nat.or_zero]
  refine Nat.eq_of_testBit_eq fun i => ?_
  have hbit := congrArg (Nat.testBit · i) hsub
  simp only [Nat.testBit_and] at hbit
  rw [Nat.testBit_or]
  cases h1 : (pp : Nat).testBit i <;> cases h2 : (pgnum perm).testBit i <;> simp_all

/-- The entry that `pgdir_walk` writes for a new table. -/
theorem pageOf_pde (small : n ≤ 2 ^ 20) (p : Fin n) :
    pageOf n (page2pa p ||| pteP ||| pteW ||| pteU) = some p := by
  refine pageOf_eq_some.mpr ⟨by simp, ?_⟩
  simp only [pgnum_or, pgnum_page2pa small, show pgnum pteP = 0 from rfl,
    show pgnum pteW = 0 from rfl, show pgnum pteU = 0 from rfl, Nat.or_zero]

namespace Mem

variable (m : Mem n) (g p : Fin n) (i d t : Fin 1024) (w : Word)

/-- The page table of directory entry `d`, for user memory. -/
def ptab : Option (Fin n) := if (d : Nat) < userPdes then pageOf n (m.entry g d) else none

/-- The table entry for the user page with indices `d` and `t`; `0` when there is no table. -/
def pte : Word :=
  match m.ptab g d with
  | none => 0
  | some pt => m.entry pt t

variable {m g p i d t w}

theorem pte_of_ptab {pt : Fin n} (h : m.ptab g d = some pt) : m.pte g d t = m.entry pt t := by
  simp [pte, h]

theorem pte_of_no_ptab (h : m.ptab g d = none) : m.pte g d t = 0#32 := by simp [pte, h]

theorem ptab_eq (hd : (d : Nat) < userPdes) : m.ptab g d = pageOf n (m.entry g d) := if_pos hd

theorem lt_of_ptab {pt : Fin n} (h : m.ptab g d = some pt) : (d : Nat) < userPdes := by
  by_contra hd
  simp [ptab, hd] at h

/-- The page that a slot refers to, for the page directories `dirs`. -/
def target (m : Mem n) (dirs : ι → Option (Fin n)) : Slot ι → Option (Fin n)
  | .dir e => dirs e
  | .pde e d => (dirs e).bind fun g => m.ptab g d
  | .pte e d t => (dirs e).bind fun g => pageOf n (m.pte g d t)

variable {dirs : ι → Option (Fin n)} {e : ι}

@[simp] theorem target_dir : m.target dirs (.dir e) = dirs e := rfl
theorem target_pde (h : dirs e = some g) : m.target dirs (.pde e d) = m.ptab g d := by
  simp [target, h]
theorem target_pte (h : dirs e = some g) :
    m.target dirs (.pte e d t) = pageOf n (m.pte g d t) := by
  simp [target, h]

/-- A slot refers to a page only through the directory of its address space. -/
theorem exists_dir {s : Slot ι} (h : m.target dirs s = some p) :
    ∃ e g, dirs e = some g ∧ (s = .dir e ∨ (∃ d, s = .pde e d) ∨ ∃ d t, s = .pte e d t) := by
  cases s with
  | dir e => exact ⟨e, p, h, .inl rfl⟩
  | pde e d =>
    obtain ⟨g, hg, -⟩ := Option.bind_eq_some_iff.mp h
    exact ⟨e, g, hg, .inr (.inl ⟨d, rfl⟩)⟩
  | pte e d t =>
    obtain ⟨g, hg, -⟩ := Option.bind_eq_some_iff.mp h
    exact ⟨e, g, hg, .inr (.inr ⟨d, t, rfl⟩)⟩

/-! ## Reading back writes -/

theorem entry_setEntry (p' : Fin n) (i' : Fin 1024) :
    (m.setEntry p i w).entry p' i' = if p' = p ∧ i' = i then w else m.entry p' i' := by
  unfold entry setEntry
  by_cases hp : p' = p
  · subst hp
    by_cases hi : i' = i
    · subst hi; simp
    · simp [hi, rd32_wr32_of_ne]
  · simp [hp]

theorem entry_setFrame_of_ne {p' : Fin n} {f : Frame} (h : p' ≠ p) :
    (m.setFrame p f).entry p' i = m.entry p' i := by
  simp [entry, setFrame, h]

theorem setEntry_setEntry {w' : Word} :
    (m.setEntry p i w).setEntry p i w' = m.setEntry p i w' := by
  unfold setEntry
  simp only [Function.update_self, Function.update_idem]
  congr 2
  funext j
  unfold wr32
  split_ifs <;> rfl

theorem frame_setEntry_of_ne {p' : Fin n} (h : p' ≠ p) :
    (m.setEntry p i w).frame p' = m.frame p' := Function.update_of_ne h ..

@[simp] theorem setEntry_pages : (m.setEntry p i w).pages = m.pages := rfl
@[simp] theorem setEntry_pageFreeList : (m.setEntry p i w).pageFreeList = m.pageFreeList := rfl
@[simp] theorem setEntry_kernPgdir : (m.setEntry p i w).kernPgdir = m.kernPgdir := rfl
@[simp] theorem setFrame_pages {f : Frame} : (m.setFrame p f).pages = m.pages := rfl
@[simp] theorem setFrame_pageFreeList {f : Frame} :
    (m.setFrame p f).pageFreeList = m.pageFreeList := rfl
@[simp] theorem setFrame_kernPgdir {f : Frame} : (m.setFrame p f).kernPgdir = m.kernPgdir := rfl
@[simp] theorem setPage_frame {info : PageInfo n} : (m.setPage p info).frame = m.frame := rfl
@[simp] theorem setPage_kernPgdir {info : PageInfo n} :
    (m.setPage p info).kernPgdir = m.kernPgdir := rfl
@[simp] theorem setPage_pageFreeList {info : PageInfo n} :
    (m.setPage p info).pageFreeList = m.pageFreeList := rfl
@[simp] theorem incRef_frame : (m.incRef p).frame = m.frame := rfl
@[simp] theorem incRef_kernPgdir : (m.incRef p).kernPgdir = m.kernPgdir := rfl
@[simp] theorem incRef_pageFreeList : (m.incRef p).pageFreeList = m.pageFreeList := rfl
@[simp] theorem setPage_entry {info : PageInfo n} : (m.setPage p info).entry = m.entry := rfl
@[simp] theorem incRef_entry : (m.incRef p).entry = m.entry := rfl

variable {m' : Mem n}

/-- Tables and entries depend on the frames of the directory and of the table only. -/
theorem ptab_congr (h : m'.frame g = m.frame g) : m'.ptab g d = m.ptab g d := by
  simp [ptab, entry, h]

theorem pte_congr (hg : m'.frame g = m.frame g)
    (ht : ∀ pt, m.ptab g d = some pt → m'.frame pt = m.frame pt) :
    m'.pte g d t = m.pte g d t := by
  unfold pte
  rw [ptab_congr hg]
  cases h : m.ptab g d with
  | none => rfl
  | some pt => simp [entry, ht pt h]

/-- Slots read structural pages only. -/
theorem target_congr
    (h : ∀ s p, s.Struct → m.target dirs s = some p → m'.frame p = m.frame p) :
    m'.target dirs = m.target dirs := by
  have hdir : ∀ e g, dirs e = some g → m'.frame g = m.frame g :=
    fun e g he => h (.dir e) g trivial he
  funext s
  cases s with
  | dir e => rfl
  | pde e d =>
    cases he : dirs e with
    | none => simp [target, he]
    | some g => rw [target_pde he, target_pde he, ptab_congr (hdir e g he)]
  | pte e d t =>
    cases he : dirs e with
    | none => simp [target, he]
    | some g =>
      rw [target_pte he, target_pte he, pte_congr (hdir e g he)]
      exact fun pt hpt => h (.pde e d) pt trivial ((target_pde he).trans hpt)

end Mem

/-- No page is a directory or table in two places. -/
def Distinct (m : Mem n) (dirs : ι → Option (Fin n)) : Prop :=
  ∀ s s' p, s.Struct → s'.Struct → m.target dirs s = some p → m.target dirs s' = some p → s' = s

/-- Structural pages are referred to by one slot only. -/
def Exclusive (m : Mem n) (dirs : ι → Option (Fin n)) : Prop :=
  ∀ s s' p, s.Struct → m.target dirs s = some p → m.target dirs s' = some p → s' = s

theorem Exclusive.distinct {m : Mem n} {dirs : ι → Option (Fin n)} (ex : Exclusive m dirs) :
    Distinct m dirs := fun s s' p hs _ => ex s s' p hs

namespace Distinct

variable {m : Mem n} {dirs : ι → Option (Fin n)} {e e' : ι} {g g' pt : Fin n}
  {d d' t t' : Fin 1024} {w : Word}

theorem dir_inj (ex : Distinct m dirs) (he : dirs e = some g) (he' : dirs e' = some g) :
    e' = e := by
  have := ex (.dir e) (.dir e') g trivial trivial he he'
  simpa using this

/-- A page table is not a page directory. -/
theorem table_ne_dir (ex : Distinct m dirs) (he : dirs e = some g) (ht : m.ptab g d = some pt)
    (he' : dirs e' = some g') : pt ≠ g' := by
  rintro rfl
  have := ex (.dir e') (.pde e d) pt trivial trivial he' ((Mem.target_pde he).trans ht)
  simp at this

/-- A page table belongs to one directory entry. -/
theorem table_inj (ex : Distinct m dirs) (he : dirs e = some g) (ht : m.ptab g d = some pt)
    (he' : dirs e' = some g') (ht' : m.ptab g' d' = some pt) : e' = e ∧ d' = d := by
  have := ex (.pde e d) (.pde e' d') pt trivial trivial ((Mem.target_pde he).trans ht)
    ((Mem.target_pde he').trans ht')
  simpa using this

/-! ## Writing a table entry -/

section
variable [DecidableEq ι]

omit [DecidableEq ι] in
theorem ptab_setTable (ex : Distinct m dirs) (he : dirs e = some g) (ht : m.ptab g d = some pt)
    (he' : dirs e' = some g') : (m.setEntry pt t w).ptab g' d' = m.ptab g' d' :=
  Mem.ptab_congr (Mem.frame_setEntry_of_ne (ex.table_ne_dir he ht he').symm)

/-- Writing entry `t` of the table of `(g, d)` changes that user page's entry and no other. -/
theorem pte_setTable (ex : Distinct m dirs) (he : dirs e = some g) (ht : m.ptab g d = some pt)
    (he' : dirs e' = some g') :
    (m.setEntry pt t w).pte g' d' t' =
      if e' = e ∧ d' = d ∧ t' = t then w else m.pte g' d' t' := by
  have hp : (m.setEntry pt t w).ptab g' d' = m.ptab g' d' := ex.ptab_setTable he ht he'
  cases h : m.ptab g' d' with
  | none =>
    rw [Mem.pte_of_no_ptab (hp.trans h), Mem.pte_of_no_ptab h, if_neg]
    rintro ⟨rfl, rfl, -⟩
    obtain rfl : g' = g := Option.some.inj (he'.symm.trans he)
    simp [h] at ht
  | some pt' =>
    rw [Mem.pte_of_ptab (hp.trans h), Mem.pte_of_ptab h, Mem.entry_setEntry]
    by_cases hpt : pt' = pt
    · subst hpt
      obtain ⟨rfl, rfl⟩ := ex.table_inj he ht he' h
      simp
    · rw [if_neg (fun c => hpt c.1), if_neg]
      rintro ⟨rfl, rfl, -⟩
      obtain rfl : g' = g := Option.some.inj (he'.symm.trans he)
      exact hpt (Option.some.inj (h.symm.trans ht))

theorem target_setTable (ex : Distinct m dirs) (he : dirs e = some g)
    (ht : m.ptab g d = some pt) :
    (m.setEntry pt t w).target dirs =
      Function.update (m.target dirs) (.pte e d t) (pageOf n w) := by
  funext s
  cases s with
  | dir e' => simp
  | pde e' d' =>
    rw [Function.update_of_ne (by simp)]
    cases he' : dirs e' with
    | none => simp [Mem.target, he']
    | some g' => rw [Mem.target_pde he', Mem.target_pde he', ex.ptab_setTable he ht he']
  | pte e' d' t' =>
    cases he' : dirs e' with
    | none =>
      have hne : e' ≠ e := fun c => by simp [c, he] at he'
      simp [Mem.target, he', hne]
    | some g' =>
      rw [Mem.target_pte he', ex.pte_setTable he ht he', Function.update_apply]
      by_cases c : e' = e ∧ d' = d ∧ t' = t
      · simp [c]
      · rw [if_neg c, if_neg (by simpa using c), Mem.target_pte he']

/-! ## Writing a directory entry -/

theorem ptab_setDir (ex : Distinct m dirs) (he : dirs e = some g) (he' : dirs e' = some g')
    (hd : (d : Nat) < userPdes) :
    (m.setEntry g d w).ptab g' d' = if e' = e ∧ d' = d then pageOf n w else m.ptab g' d' := by
  by_cases hu : (d' : Nat) < userPdes
  · rw [Mem.ptab_eq hu, Mem.ptab_eq hu, Mem.entry_setEntry]
    by_cases hee : e' = e
    · subst hee
      obtain rfl : g' = g := Option.some.inj (he'.symm.trans he)
      by_cases hdd : d' = d <;> simp [hdd]
    · have hg : g' ≠ g := fun c => hee (ex.dir_inj he (c ▸ he'))
      simp [hee, hg]
  · have hne : d' ≠ d := fun c => hu (c ▸ hd)
    simp [Mem.ptab, hu, hne]

/-- Writing a directory entry leaves the table entries of other directory entries alone. -/
theorem pte_setDir (ex : Distinct m dirs) (he : dirs e = some g) (he' : dirs e' = some g')
    (hd : (d : Nat) < userPdes) (hne : ¬(e' = e ∧ d' = d)) :
    (m.setEntry g d w).pte g' d' t' = m.pte g' d' t' := by
  have hp : (m.setEntry g d w).ptab g' d' = m.ptab g' d' := by
    rw [ex.ptab_setDir he he' hd, if_neg hne]
  cases h : m.ptab g' d' with
  | none => rw [Mem.pte_of_no_ptab (hp.trans h), Mem.pte_of_no_ptab h]
  | some pt =>
    rw [Mem.pte_of_ptab (hp.trans h), Mem.pte_of_ptab h, Mem.entry_setEntry,
      if_neg fun c => ex.table_ne_dir he' h he c.1]

/-- When the entries of the written directory entry are the same before and after, only the
slot of the directory entry changes. -/
theorem target_setDir (ex : Distinct m dirs) (he : dirs e = some g)
    (hd : (d : Nat) < userPdes)
    (same : ∀ t, pageOf n ((m.setEntry g d w).pte g d t) = pageOf n (m.pte g d t)) :
    (m.setEntry g d w).target dirs = Function.update (m.target dirs) (.pde e d) (pageOf n w) := by
  funext s
  cases s with
  | dir e' => simp
  | pde e' d' =>
    cases he' : dirs e' with
    | none =>
      have hne : e' ≠ e := fun c => by simp [c, he] at he'
      simp [Mem.target, he', hne]
    | some g' =>
      rw [Mem.target_pde he', ex.ptab_setDir he he' hd, Function.update_apply]
      by_cases c : e' = e ∧ d' = d
      · simp [c]
      · rw [if_neg c, if_neg (by simpa using c), Mem.target_pde he']
  | pte e' d' t' =>
    rw [Function.update_of_ne (by simp)]
    cases he' : dirs e' with
    | none => simp [Mem.target, he']
    | some g' =>
      rw [Mem.target_pte he', Mem.target_pte he']
      by_cases c : e' = e ∧ d' = d
      · obtain ⟨rfl, rfl⟩ := c
        obtain rfl : g' = g := Option.some.inj (he'.symm.trans he)
        exact same t'
      · rw [ex.pte_setDir he he' hd c]

end

end Distinct

end JosKernel
