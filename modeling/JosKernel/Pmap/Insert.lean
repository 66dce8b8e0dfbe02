import JosKernel.Pmap.Access
import JosKernel.Pmap.Tables

/-!
# `page_insert` and `page_remove`

What the two functions do to any well-formed memory, whatever the directories are and whether or
not the counters agree with the tables. `PageTables` adds to `Tables` that mapped pages exist and
are not free, and that only free pages have a link.

A new page table is itself visible to the directory that has a window onto itself, as every
environment has at `UVPT`. `Window` names the virtual page where this happens; all other virtual
pages keep their translation.
-/
namespace JosKernel

open Lib

variable {n : Nat} {ι : Type}

/-- User entries have page tables of their own. -/
structure PageTables (m : Mem n) (dirs : ι → Option (Fin n)) (free : List (Fin n)) : Prop where
  tables : Tables (fun _ d => (d : Nat) < userPdes) m dirs free
  link : ∀ p, p ∉ free → (m.pages p).ppLink = none
  pteOk : ∀ e g (d t : Fin 1024), dirs e = some g → (d : Nat) < userPdes →
    present (m.pteAt g d t) = true → pgnum (m.pteAt g d t) < n
  pteUsed : ∀ e g (d t : Fin 1024) p, dirs e = some g → (d : Nat) < userPdes →
    pageOf n (m.pteAt g d t) = some p → p ∉ free

/-- The two addresses are in the same virtual page. -/
def SamePage (va va' : Word) : Prop := pdx va' = pdx va ∧ ptx va' = ptx va

namespace Mem

variable {m m' m₁ : Mem n} {g g' p pp pt q : Fin n} {i t : Fin 1024} {va va' w w' perm : Word}
  {free : List (Fin n)} {user write : Bool}

/-- The page mapped at `va`. -/
def mappedPage (m : Mem n) (g : Fin n) (va : Word) : Option (Fin n) :=
  pageOf n (m.pteAt g (pdx va) (ptx va))

/-- The page that becomes the table for `va` when there is none. -/
def newTable (m : Mem n) (g : Fin n) (va : Word) : Option (Fin n) :=
  if m.table g (pdx va) = none then m.pageFreeList else none

/-- At `va'` the directory `g'` shows the entry of `g` for `va`. -/
def Window (m : Mem n) (g : Fin n) (va : Word) (g' : Fin n) (va' : Word) : Prop :=
  m.table g' (pdx va') = some g ∧ ptx va' = pdx va

/-! ## Counters -/

/-- `page_decref` when it does not panic. -/
def dropRef (m : Mem n) (q : Fin n) : Mem n :=
  if (m.pages q).ppRef - 1 = 0 then
    { m.setPage q ⟨m.pageFreeList, 0⟩ with pageFreeList := some q }
  else m.setPage q { m.pages q with ppRef := (m.pages q).ppRef - 1 }

theorem pageDecref_eq (h : (m.pages q).ppRef - 1 = 0 → (m.pages q).ppLink = none) :
    m.pageDecref q = .ok (m.dropRef q) := by
  unfold pageDecref dropRef pageFree
  by_cases h0 : (m.pages q).ppRef - 1#16 = 0#16
  · simp [setPage, h0, h h0]
  · simp [setPage, h0]

@[simp] theorem dropRef_frame (m : Mem n) (q : Fin n) : (m.dropRef q).frame = m.frame := by
  unfold dropRef
  split_ifs <;> rfl

theorem dropRef_ref (m : Mem n) (q p : Fin n) : ((m.dropRef q).pages p).ppRef =
    (m.pages p).ppRef - if p = q then 1 else 0 := by
  unfold dropRef
  by_cases hp : p = q
  · subst hp
    by_cases h0 : (m.pages p).ppRef - 1#16 = 0#16 <;> simp [setPage, h0]
  · by_cases h0 : (m.pages q).ppRef - 1#16 = 0#16 <;> simp [setPage, h0, hp]

theorem dropRef_pages_of_ne (h : p ≠ q) : (m.dropRef q).pages p = m.pages p := by
  unfold dropRef
  split_ifs <;> simp [setPage, h]

/-- The last reference puts the page on the free list. -/
theorem FreeList.dropRef (h : m.FreeList free) (hq : q ∉ free) :
    (m.dropRef q).FreeList (if ((m.dropRef q).pages q).ppRef = 0 then q :: free else free) := by
  have hseg : ListSeg some (fun p => ((m.dropRef q).pages p).ppLink) m.pageFreeList free none :=
    ListSeg.congr h fun p hp => by rw [dropRef_pages_of_ne (ne_of_mem_of_not_mem hp hq)]
  rw [dropRef_ref, if_pos rfl]
  by_cases h0 : (m.pages q).ppRef - 1 = 0
  · rw [if_pos h0]
    have hhead : (m.dropRef q).pageFreeList = some q := by rw [Mem.dropRef, if_pos h0]
    have hlink : ((m.dropRef q).pages q).ppLink = m.pageFreeList := by
      rw [Mem.dropRef, if_pos h0]
      simp [setPage]
    rw [FreeList, hhead]
    refine ⟨rfl, ?_⟩
    show ListSeg some _ ((m.dropRef q).pages q).ppLink free none
    rw [hlink]
    exact hseg
  · rw [if_neg h0]
    have hhead : (m.dropRef q).pageFreeList = m.pageFreeList := by
      rw [Mem.dropRef, if_neg h0]
      rfl
    rw [FreeList, hhead]
    exact hseg

/-- The counters after `pp` has replaced the page `old`. -/
def exchange (m : Mem n) (pp : Fin n) : Option (Fin n) → Mem n
  | none => m.incRef pp
  | some q => (m.incRef pp).dropRef q

@[simp] theorem exchange_frame (m : Mem n) (pp : Fin n) (old : Option (Fin n)) :
    (m.exchange pp old).frame = m.frame := by
  cases old <;> simp [exchange]

theorem incRef_ref (m : Mem n) (pp p : Fin n) : ((m.incRef pp).pages p).ppRef =
    (m.pages p).ppRef + if p = pp then 1 else 0 := by
  by_cases hp : p = pp
  · subst hp; simp [incRef, setPage]
  · simp [incRef, setPage, hp]

theorem exchange_ref (m : Mem n) (pp p : Fin n) (old : Option (Fin n)) :
    ((m.exchange pp old).pages p).ppRef = (m.pages p).ppRef + (if p = pp then 1 else 0) -
      if old = some p then 1 else 0 := by
  cases old with
  | none => simp [exchange, incRef_ref]
  | some q => simp [exchange, dropRef_ref, incRef_ref, eq_comm]

/-- Replacing a page by itself. -/
theorem exchange_self (h : (m.pages pp).ppRef ≠ 0) : m.exchange pp (some pp) = m := by
  have hback : ((m.incRef pp).pages pp).ppRef - 1 = (m.pages pp).ppRef := by
    simp [incRef, setPage]
  rw [exchange, dropRef, if_neg (by rwa [hback]), hback]
  simp [incRef, setPage]

theorem exchange_link {old : Option (Fin n)} (h : (m.pages pp).ppLink = none)
    (hlast : ((m.exchange pp old).pages pp).ppRef - 1 = 0) :
    ((m.exchange pp old).pages pp).ppLink = none := by
  cases old with
  | none => exact (incRef_link m pp pp).trans h
  | some q =>
    by_cases hq : pp = q
    · subst hq
      by_cases href : (m.pages pp).ppRef = 0
      · rw [exchange_ref, href] at hlast
        simp at hlast
      · rwa [exchange_self href]
    · rw [exchange, dropRef_pages_of_ne hq]
      exact (incRef_link m pp pp).trans h

theorem FreeList.exchange {old : Option (Fin n)} (h : m.FreeList free)
    (hold : ∀ q, old = some q → q ∉ free) : (m.exchange pp old).FreeList
      (match old with
        | some q => if ((m.exchange pp old).pages q).ppRef = 0 then q :: free else free
        | none => free) := by
  have hinc : (m.incRef pp).FreeList free := ListSeg.congr h fun p _ => incRef_link m pp p
  cases old with
  | none => exact hinc
  | some q => exact hinc.dropRef (hold q rfl)

@[simp] theorem freeList_setEntry : (m.setEntry p i w).FreeList free ↔ m.FreeList free := Iff.rfl

/-! ## Entries -/

theorem pgdirWalk_of_table (ht : m.table g (pdx va) = some pt) (create : Bool) :
    m.pgdirWalk g va create = .ok (some (pt, ptx va), m) := by
  have hp := (pageOf_eq_some.mp ht).1
  simp [pgdirWalk, hp, MemInv.kaddr_pteAddr ht, bind, Except.bind, pure, Except.pure]

/-- A table beyond the end of memory. -/
theorem pgdirWalk_of_beyond (hp : present (m.entry g (pdx va)) = true)
    (h : m.table g (pdx va) = none) (create : Bool) :
    m.pgdirWalk g va create = .error .kaddr := by
  have hn : ¬pgnum (pteAddr (m.entry g (pdx va))) < n := by
    rw [pgnum_pteAddr]
    exact fun hlt => by simp [table, pageOf, hp, hlt] at h
  unfold pgdirWalk
  rw [if_pos hp, kaddr, dif_neg hn]
  rfl

/-- No memory for a table. -/
theorem pgdirWalk_of_full (hp : present (m.entry g (pdx va)) = false)
    (hl : m.pageFreeList = none) : m.pgdirWalk g va true = .ok (none, m) := by
  simp [pgdirWalk, hp, pageAlloc, hl, pure, Except.pure]

theorem pageLookup_of_table (ht : m.table g (pdx va) = some pt)
    (hq : pageOf n (m.entry pt (ptx va)) = some q) :
    m.pageLookup g va = .ok (some (q, pt, ptx va)) := by
  have hp := (pageOf_eq_some.mp hq).1
  simp [pageLookup, pgdirWalk_of_table ht, hp, MemInv.pa2page_pteAddr hq, bind, Except.bind, pure,
    Except.pure]

theorem pageRemove_eq (ht : m.table g (pdx va) = some pt)
    (hq : pageOf n (m.entry pt (ptx va)) = some q)
    (hl : (m.pages q).ppRef - 1 = 0 → (m.pages q).ppLink = none) :
    m.pageRemove g va = .ok ((m.dropRef q).setEntry pt (ptx va) 0) := by
  simp [pageRemove, pageLookup_of_table ht hq, pageDecref_eq hl, bind, Except.bind, pure,
    Except.pure]

/-- `page_insert` once the table is there. -/
theorem pageInsert_eq (hwalk : m.pgdirWalk g va true = .ok (some (pt, ptx va), m₁))
    (ht : m₁.table g (pdx va) = some pt)
    (hpte : present (m₁.entry pt (ptx va)) = true → pgnum (m₁.entry pt (ptx va)) < n)
    (hl : ∀ q, pageOf n (m₁.entry pt (ptx va)) = some q → (m₁.pages q).ppLink = none) :
    m.pageInsert g pp va perm =
      .ok (0, (m₁.exchange pp (pageOf n (m₁.entry pt (ptx va)))).setEntry pt (ptx va)
        (pteAddr (page2pa pp) ||| perm ||| pteP)) := by
  cases hp : present (m₁.entry pt (ptx va)) with
  | false =>
    simp [pageInsert, hwalk, hp, pageOf_of_not_present hp, exchange, bind, Except.bind, pure,
      Except.pure]
  | true =>
    have hq : pageOf n (m₁.entry pt (ptx va)) = some ⟨_, hpte hp⟩ := pageOf_eq_some.mpr ⟨hp, rfl⟩
    generalize (⟨_, hpte hp⟩ : Fin n) = q at hq
    have hrem : (m₁.incRef pp).pageRemove g va =
        .ok (((m₁.incRef pp).dropRef q).setEntry pt (ptx va) 0) :=
      pageRemove_eq ht hq fun _ => (incRef_link m₁ pp q).trans (hl q hq)
    simp only [pageInsert, hwalk, incRef_entry, hp, if_true, hrem, hq, exchange, bind, Except.bind,
      pure, Except.pure, setEntry_setEntry]

theorem pteAt_of_frame (h : m'.frame = m.frame) : m'.pteAt = m.pteAt := by
  have hentry : m'.entry = m.entry := by
    funext p i
    simp [entry, h]
  funext g d t
  simp only [pteAt, table, hentry]

/-- Translation by a table that the directory leaves all permissions to. -/
theorem translate_table (ht : m.table g (pdx va) = some pt) (hpde : UserPde (m.entry g (pdx va)))
    (user write : Bool) : m.translate g va user write =
      if allows user write (m.entry pt (ptx va)) then
        (pageOf n (m.entry pt (ptx va))).map fun p => (p, pgoff va)
      else none := by
  obtain ⟨hp, hpg⟩ := pageOf_eq_some.mp ht
  have hlt : pgnum (m.entry g (pdx va)) < n := hpg ▸ pt.isLt
  have hpt : (⟨pgnum (m.entry g (pdx va)), hlt⟩ : Fin n) = pt := Fin.ext hpg
  unfold translate
  dsimp only
  rw [if_pos (allows_userPde hpde user write), dif_pos hlt, hpt]
  split_ifs with hallow hn
  · rw [pageOf, if_pos (present_of_allows hallow), dif_pos hn]
    rfl
  · rw [pageOf, if_pos (present_of_allows hallow), dif_neg hn]
    rfl
  · rfl

/-- Translation reads frames only. -/
theorem translate_of_frame (h : m'.frame = m.frame) :
    m'.translate g va user write = m.translate g va user write :=
  translate_congr (by simp [entry, h]) (fun pt _ => by simp [entry, h]) user write

theorem translate_of_no_table (h : present (m.entry g (pdx va)) = false) :
    m.translate g va user write = none := by simp [translate, allows, h]

theorem translate_of_no_entry (ht : m.table g (pdx va) = some pt)
    (h : present (m.entry pt (ptx va)) = false) : m.translate g va user write = none := by
  unfold translate
  simp only
  split_ifs with h1 h2 h3 h4
  · have hpt : (⟨pgnum (m.entry g (pdx va)), h2⟩ : Fin n) = pt := Fin.ext (pageOf_eq_some.mp ht).2
    rw [hpt] at h3
    rw [present_of_allows h3] at h
    cases h
  all_goals rfl

end Mem

open Mem

namespace Tables

variable {own : ι → Fin 1024 → Prop} {m m' m₁ : Mem n} {dirs : ι → Option (Fin n)}
  {free : List (Fin n)} {e e' : ι} {g g' p pt : Fin n} {va va' w : Word} {user write : Bool}

/-- Writing an entry of an own table changes the translation of one virtual page. -/
theorem translate_setEntry (ok : Tables own m dirs free) (he : dirs e = some g)
    (hown : own e (pdx va)) (ht : m.table g (pdx va) = some pt) (hf : m'.frame = m.frame)
    (he' : dirs e' = some g') (hne : ¬(g' = g ∧ SamePage va va')) :
    (m'.setEntry pt (ptx va) w).translate g' va' user write = m.translate g' va' user write := by
  have hentry : ∀ p i, (m'.setEntry pt (ptx va) w).entry p i =
      if p = pt ∧ i = ptx va then w else m.entry p i := fun p i => by
    rw [entry_setEntry, entry, hf, entry]
  refine translate_congr ?_ (fun q hq => ?_) user write
  · rw [hentry, if_neg fun h => ok.table_ne_dir he hown ht he' h.1.symm]
  · rw [hentry, if_neg]
    rintro ⟨rfl, ht'⟩
    obtain ⟨rfl, hd⟩ := ok.tableInj e e' g g' _ _ q he he' hown ht hq
    exact hne ⟨Option.some.inj (he'.symm.trans he), hd.symm, ht'⟩

/-- A new table maps nothing; it can be seen through a window onto the directory. -/
theorem translate_madeTable {l : List (Fin n)} (ok : Tables own m dirs (p :: l))
    (made : MadeTable m g (pdx va) p m') (he : dirs e = some g)
    (hold : present (m.entry g (pdx va)) = false) (he' : dirs e' = some g')
    (hwin : ¬m.Window g va g' va') :
    m'.translate g' va' user write = m.translate g' va' user write := by
  have hpg' : p ≠ g' := fun h => ok.dirFree e' g' he' (h ▸ List.mem_cons_self)
  by_cases hc : g' = g ∧ pdx va' = pdx va
  · obtain ⟨rfl, hd⟩ := hc
    have ht : m'.table g' (pdx va') = some p := by
      rw [hd]
      exact made.pageOf_entry ok.small
    rw [translate_of_no_entry ht (by rw [made.zero]; rfl), translate_of_no_table (by rwa [hd])]
  · refine translate_congr ?_ (fun q hq => ?_) user write
    · by_cases hg : g' = g
      · subst hg
        exact made.other _ fun hd => hc ⟨rfl, hd⟩
      · rw [entry, made.frame g' hpg'.symm hg, entry]
    · have hqp : q ≠ p := fun h =>
        ok.tableFree e' g' _ q he' hq (h ▸ List.mem_cons_self)
      by_cases hqg : q = g
      · subst hqg
        exact made.other _ fun ht => hwin ⟨hq, ht⟩
      · rw [entry, made.frame q hqp hqg, entry]

end Tables

/-! ## The two functions -/

/-- A successful `page_insert`. -/
structure Inserted (m : Mem n) (dirs : ι → Option (Fin n)) (free : List (Fin n)) (g pp : Fin n)
    (va perm : Word) (m' : Mem n) : Prop where
  mapped : m'.mappedPage g va = some pp
  flags : m'.pteAt g (pdx va) (ptx va) &&& 0xFFF#32 = perm ||| pteP
  /-- All other virtual pages of all directories, but for the window. -/
  others : ∀ e g' va' user write, dirs e = some g' → ¬(g' = g ∧ SamePage va va') →
    ¬(m.newTable g va ≠ none ∧ m.Window g va g' va') →
    m'.translate g' va' user write = m.translate g' va' user write
  /-- The window shows the new table. -/
  window : ∀ e g' va' p, dirs e = some g' → m.newTable g va = some p → m.Window g va g' va' →
    m'.mappedPage g' va' = some p
  ref : ∀ p, (m'.pages p).ppRef = (m.pages p).ppRef +
    (if m.newTable g va = some p then 1 else 0) + (if p = pp then 1 else 0) -
      if m.mappedPage g va = some p then 1 else 0
  list : m'.FreeList
    (match m.mappedPage g va with
      | some q => if (m'.pages q).ppRef = 0 then q :: free else free
      | none => if m.table g (pdx va) = none then free.tail else free)
  /-- Only the entry is written when the page was mapped there before. -/
  again : m.mappedPage g va = some pp → (m.pages pp).ppRef ≠ 0 →
    ∃ pt, m.table g (pdx va) = some pt ∧
      m' = m.setEntry pt (ptx va) (pteAddr (page2pa pp) ||| perm ||| pteP)

/-- A `page_remove`. -/
structure Removed (m : Mem n) (dirs : ι → Option (Fin n)) (g : Fin n) (va : Word) (m' : Mem n) :
    Prop where
  unmapped : m'.mappedPage g va = none
  others : ∀ e g' va' user write, dirs e = some g' → ¬(g' = g ∧ SamePage va va') →
    m'.translate g' va' user write = m.translate g' va' user write

theorem and_flags {perm : Word} (hp : perm.toNat < 4096) (pa : Word) :
    (pteAddr pa ||| perm ||| pteP) &&& 0xFFF#32 = perm ||| pteP := by
  have hperm : perm &&& 0xFFF#32 = perm := by
    refine BitVec.eq_of_toNat_eq ?_
    rw [BitVec.toNat_and, show (0xFFF#32 : Word).toNat = 2 ^ 12 - 1 from rfl,
      Nat.and_two_pow_sub_one_of_lt_two_pow hp]
  rw [pteAddr_or_and (by decide), BitVec.and_or_distrib_right, hperm]
  rfl

section
variable {m m' m₁ : Mem n} {dirs : ι → Option (Fin n)} {free free₁ : List (Fin n)} {e : ι}
  {g pp pt : Fin n} {va perm : Word}

theorem mappedPage_of_table (ht : m.table g (pdx va) = some pt) :
    m.mappedPage g va = pageOf n (m.entry pt (ptx va)) := by
  rw [mappedPage, pteAt_of_table ht]

/-- The state after a walk, as far as the rest of `page_insert` is concerned. -/
structure Walked (m : Mem n) (dirs : ι → Option (Fin n)) (free : List (Fin n)) (g : Fin n)
    (va : Word) (pt : Fin n) (m₁ : Mem n) (free₁ : List (Fin n)) : Prop where
  walk : m.pgdirWalk g va true = .ok (some (pt, ptx va), m₁)
  tables : Tables (fun _ d => (d : Nat) < userPdes) m₁ dirs free₁
  table : m₁.table g (pdx va) = some pt
  others : ∀ e g' va' user write, dirs e = some g' →
    ¬(m.newTable g va ≠ none ∧ m.Window g va g' va') →
    m₁.translate g' va' user write = m.translate g' va' user write
  window : ∀ e g' va' p, dirs e = some g' → m.newTable g va = some p → m.Window g va g' va' →
    m₁.mappedPage g' va' = some p
  old : pageOf n (m₁.entry pt (ptx va)) = m.mappedPage g va
  pteOk : present (m₁.entry pt (ptx va)) = true → pgnum (m₁.entry pt (ptx va)) < n
  oldUsed : ∀ q, m.mappedPage g va = some q → q ∉ free₁ ∧ (m₁.pages q).ppLink = none
  link : ∀ p, p ∉ free → (m₁.pages p).ppLink = none
  ref : ∀ p, (m₁.pages p).ppRef =
    (m.pages p).ppRef + if m.newTable g va = some p then 1 else 0
  list : free₁ = if m.table g (pdx va) = none then free.tail else free
  same : m.table g (pdx va) ≠ none → m₁ = m

theorem PageTables.walked [DecidableEq ι] (ok : PageTables m dirs free) (he : dirs e = some g)
    (hva : va < utop) (hroom : m.table g (pdx va) = none → free ≠ []) :
    ∃ pt m₁ free₁, Walked m dirs free g va pt m₁ free₁ := by
  have hd := pdx_lt_userPdes hva
  obtain ⟨pt, m₁, free₁, hwalk, ok₁, ht₁, hcase, -⟩ := ok.tables.walk he hd hroom
  refine ⟨pt, m₁, free₁, ?_⟩
  rcases hcase with ⟨ht, rfl, rfl⟩ | ⟨ht, rfl, made⟩
  · have hnew : m₁.newTable g va = none := if_neg (by simp [ht])
    exact
      { walk := hwalk
        tables := ok₁
        table := ht₁
        others := fun _ _ _ _ _ _ _ => rfl
        window := fun e g' va' p _ hp => by simp [hnew] at hp
        old := (mappedPage_of_table ht).symm
        pteOk := by
          have := ok.pteOk e g (pdx va) (ptx va) he hd
          rwa [pteAt_of_table ht] at this
        oldUsed := fun q hq => by
          have hq' := ok.pteUsed e g (pdx va) (ptx va) q he hd hq
          exact ⟨hq', ok.link q hq'⟩
        link := ok.link
        ref := fun p => by simp [hnew]
        list := by simp [ht]
        same := fun _ => rfl }
  · have hnew : m.newTable g va = some pt := (if_pos ht).trans ok.tables.list.1
    have hold := ok.tables.not_present_of_no_table he hd ht
    have hnone : m.mappedPage g va = none := by
      rw [mappedPage, pteAt_of_no_table ht, pageOf_zero]
    exact
      { walk := hwalk
        tables := ok₁
        table := ht₁
        others := fun e' g' va' user write he' hwin =>
          ok.tables.translate_madeTable made he hold he' fun h => hwin ⟨by simp [hnew], h⟩
        window := fun e' g' va' p he' hp hwin => by
          obtain rfl : pt = p := Option.some.inj (hnew.symm.trans hp)
          obtain ⟨htab, hidx⟩ := hwin
          have hne : ¬(e' = e ∧ pdx va' = pdx va) := by
            rintro ⟨rfl, hd'⟩
            obtain rfl : g' = g := Option.some.inj (he'.symm.trans he)
            rw [hd', ht] at htab
            cases htab
          have htab₁ : m₁.table g' (pdx va') = some g := by
            rw [made.tables ok.tables.small ok.tables.dirInj he he'
              (fun h => ok.tables.dirFree e' g' he' (h ▸ List.mem_cons_self)), if_neg hne, htab]
          rw [mappedPage_of_table htab₁, hidx]
          exact made.pageOf_entry ok.tables.small
        old := by rw [made.zero, hnone, pageOf_zero]
        pteOk := fun hp => by simp [made.zero] at hp
        oldUsed := fun q hq => by simp [hnone] at hq
        link := fun p hp => by
          rw [made.link (fun h => hp (h ▸ List.mem_cons_self))]
          exact ok.link p hp
        ref := fun p => by
          rw [made.pages, hnew, Function.update_apply]
          by_cases hp : p = pt
          · subst hp; simp
          · simp [hp, Ne.symm hp]
        list := by simp [ht]
        same := fun h => absurd ht h }

/-- The memory that `page_insert` leaves. -/
def inserted (m : Mem n) (g pp : Fin n) (va perm : Word) (pt : Fin n) (m₁ : Mem n) : Mem n :=
  (m₁.exchange pp (m.mappedPage g va)).setEntry pt (ptx va)
    (pteAddr (page2pa pp) ||| perm ||| pteP)

namespace Walked

theorem pageInsert (h : Walked m dirs free g va pt m₁ free₁) :
    m.pageInsert g pp va perm = .ok (0, inserted m g pp va perm pt m₁) := by
  rw [pageInsert_eq h.walk h.table h.pteOk, h.old]
  · rfl
  · intro q hq
    rw [h.old] at hq
    exact (h.oldUsed q hq).2

theorem entry_inserted (p : Fin n) (i : Fin 1024) : (inserted m g pp va perm pt m₁).entry p i =
    if p = pt ∧ i = ptx va then pteAddr (page2pa pp) ||| perm ||| pteP else m₁.entry p i := by
  rw [inserted, entry_setEntry, entry, exchange_frame, entry]

theorem frame_inserted : (inserted m g pp va perm pt m₁).frame =
    (m₁.setEntry pt (ptx va) (pteAddr (page2pa pp) ||| perm ||| pteP)).frame := by
  simp [inserted, setEntry]

theorem table_ne_none (h : m.mappedPage g va = some pp) : m.table g (pdx va) ≠ none := fun ht => by
  rw [mappedPage, pteAt_of_no_table ht, pageOf_zero] at h
  cases h

theorem table_inserted (h : Walked m dirs free g va pt m₁ free₁) (he : dirs e = some g)
    (hd : (pdx va : Nat) < userPdes) :
    (inserted m g pp va perm pt m₁).table g (pdx va) = some pt := by
  rw [Mem.table, entry_inserted, if_neg fun hc => h.tables.table_ne_dir he hd h.table he hc.1.symm]
  exact h.table

theorem inserted_spec (h : Walked m dirs free g va pt m₁ free₁) (he : dirs e = some g)
    (hd : (pdx va : Nat) < userPdes) (hperm : perm.toNat < 4096) :
    Inserted m dirs free g pp va perm (inserted m g pp va perm pt m₁) := by
  have ht' : (inserted m g pp va perm pt m₁).table g (pdx va) = some pt := h.table_inserted he hd
  have hold : ∀ q, m.mappedPage g va = some q → q ∉ free₁ := fun q hq => (h.oldUsed q hq).1
  constructor
  · rw [mappedPage_of_table ht', entry_inserted, if_pos ⟨rfl, rfl⟩]
    exact pageOf_flags h.tables.small hperm pp
  · rw [pteAt_of_table ht', entry_inserted, if_pos ⟨rfl, rfl⟩]
    exact and_flags hperm _
  · intro e' g' va' user write he' hne hwin
    rw [← h.others e' g' va' user write he' hwin]
    exact h.tables.translate_setEntry he hd h.table (exchange_frame ..) he' hne
  · intro e' g' va' p he' hp hwin
    have hmap := h.window e' g' va' p he' hp hwin
    classical
    rw [mappedPage, pteAt_of_frame frame_inserted,
      ((h.tables.setTable he hd h.table _ _).2 e' g' he').2, if_neg]
    · exact hmap
    · rintro ⟨rfl, hd', -⟩
      obtain rfl : g' = g := Option.some.inj (he'.symm.trans he)
      have htab := hwin.1
      rw [hd'] at htab
      simp [newTable, htab] at hp
  · intro p
    rw [← h.ref p]
    exact exchange_ref m₁ pp p _
  · rw [inserted, freeList_setEntry, setEntry_pages]
    have hfree := h.list
    cases hq : m.mappedPage g va with
    | none =>
      have hlist : (m₁.exchange pp none).FreeList free₁ := h.tables.list.exchange (by simp)
      exact hfree ▸ hlist
    | some q =>
      have hlist : (m₁.exchange pp (some q)).FreeList
          (if ((m₁.exchange pp (some q)).pages q).ppRef = 0 then q :: free₁ else free₁) :=
        h.tables.list.exchange fun q' hq' => hold q' (hq.trans hq')
      rw [if_neg (table_ne_none hq)] at hfree
      rwa [hfree] at hlist
  · intro hsame href
    have ht := table_ne_none hsame
    obtain rfl := h.same ht
    exact ⟨pt, h.table, by rw [inserted, hsame, exchange_self href]⟩

/-- The page can be removed again. -/
theorem pageRemove (h : Walked m dirs free g va pt m₁ free₁) (he : dirs e = some g)
    (hd : (pdx va : Nat) < userPdes) (hperm : perm.toNat < 4096) (hpp : pp ∉ free) :
    ∃ m', (inserted m g pp va perm pt m₁).pageRemove g va = .ok m' ∧
      Removed (inserted m g pp va perm pt m₁) dirs g va m' := by
  classical
  have ht' : (inserted m g pp va perm pt m₁).table g (pdx va) = some pt := h.table_inserted he hd
  have hmap : pageOf n ((inserted m g pp va perm pt m₁).entry pt (ptx va)) = some pp := by
    rw [entry_inserted, if_pos ⟨rfl, rfl⟩]
    exact pageOf_flags h.tables.small hperm pp
  refine ⟨_, pageRemove_eq ht' hmap (exchange_link (h.link pp hpp)), ?_, ?_⟩
  · have ht'' : (((inserted m g pp va perm pt m₁).dropRef pp).setEntry pt (ptx va) 0).table g
        (pdx va) = some pt := by
      rw [Mem.table, entry_setEntry,
        if_neg fun hc => h.tables.table_ne_dir he hd h.table he hc.1.symm, entry, dropRef_frame]
      exact ht'
    rw [mappedPage_of_table ht'', entry_setEntry, if_pos ⟨rfl, rfl⟩]
    exact pageOf_zero
  · intro e' g' va' user write he' hne
    obtain ⟨ok₂, htab⟩ := h.tables.setTable he hd h.table (ptx va)
      (pteAddr (page2pa pp) ||| perm ||| pteP)
    rw [translate_of_frame frame_inserted]
    exact ok₂.translate_setEntry he hd (((htab e g he).1 _).trans h.table)
      ((dropRef_frame ..).trans frame_inserted) he' hne

end Walked

/-- `page_insert` of a page that is not free, and `page_remove` after it. -/
theorem pageInsert_exact (ok : PageTables m dirs free) (he : dirs e = some g) (hpp : pp ∉ free)
    (hva : va < utop) (hperm : perm.toNat < 4096) :
    ∃ r m', m.pageInsert g pp va perm = .ok (r, m') ∧
      (r = 0 ∧ Inserted m dirs free g pp va perm m' ∧
          (∃ m'', m'.pageRemove g va = .ok m'' ∧ Removed m' dirs g va m'') ∨
        r = -eNoMem ∧ m' = m ∧ m.table g (pdx va) = none ∧ free = []) := by
  classical
  have hd := pdx_lt_userPdes hva
  by_cases hroom : m.table g (pdx va) = none → free ≠ []
  · obtain ⟨pt, m₁, free₁, h⟩ := ok.walked he hva hroom
    exact ⟨0, _, h.pageInsert, .inl ⟨rfl, h.inserted_spec he hd hperm,
      h.pageRemove he hd hperm hpp⟩⟩
  · obtain ⟨ht, hfree⟩ : m.table g (pdx va) = none ∧ free = [] := by simpa using hroom
    refine ⟨-eNoMem, m, ?_, .inr ⟨rfl, rfl, ht, hfree⟩⟩
    have hp := ok.tables.not_present_of_no_table he hd ht
    have hlist := ok.tables.list
    rw [hfree] at hlist
    have hnull : m.pageFreeList = none := hlist
    simp [Mem.pageInsert, Mem.pgdirWalk, hp, Mem.pageAlloc, hnull, bind, Except.bind, pure,
      Except.pure]

end

/-! ### A directory with a window -/

/-- Three pages: a directory that shows itself at `UVPT`, a free page, and a page to map. -/
def windowMem : Mem 3 where
  pages p := ⟨none, if p = 1 then 0 else 1⟩
  pageFreeList := some 1
  frame p := if p = 0 then wr32 (fun _ => 0) (pdx uvpt) (page2pa (0 : Fin 3) ||| pteP ||| pteU)
    else fun _ => 0
  kernPgdir := 0

theorem entry_windowMem (d : Fin 1024) : windowMem.entry 0 d =
    if d = pdx uvpt then page2pa (0 : Fin 3) ||| pteP ||| pteU else 0#32 := by
  have hframe : windowMem.frame 0 = wr32 (fun _ => 0) (pdx uvpt)
    (page2pa (0 : Fin 3) ||| pteP ||| pteU) := rfl
  rw [Mem.entry, hframe]
  split_ifs with hd
  · rw [hd, rd32_wr32_self]
  · rw [rd32_wr32_of_ne _ hd, rd32_zero]

theorem pageTables_windowMem : PageTables windowMem (fun _ : Unit => some 0) [1] := by
  have hentry : ∀ d : Fin 1024, (d : Nat) < userPdes → windowMem.entry 0 d = 0#32 := by
    intro d hd
    rw [entry_windowMem, if_neg]
    rintro rfl
    revert hd
    decide
  have hown : ∀ d : Fin 1024, (d : Nat) < userPdes → windowMem.table 0 d = none := fun d hd => by
    rw [Mem.table, hentry d hd, pageOf_zero]
  have hpte : ∀ d t : Fin 1024, (d : Nat) < userPdes → windowMem.pteAt 0 d t = 0#32 :=
    fun d t hd => Mem.pteAt_of_no_table (hown d hd)
  refine ⟨⟨by decide, by decide, by decide, fun _ _ _ _ _ => rfl, ?_, ?_, ?_, ?_, ?_⟩,
    fun p _ => rfl, ?_, ?_⟩
  · rintro _ g hg
    obtain rfl := Option.some.inj hg
    decide
  · rintro _ g d pt hg hpt
    obtain rfl := Option.some.inj hg
    rw [Mem.table, entry_windowMem] at hpt
    split_ifs at hpt
    · obtain rfl : 0 = pt := Option.some.inj hpt
      decide
    · cases hpt
  · rintro _ g d hg hd hp
    obtain rfl := Option.some.inj hg
    rw [hentry d hd] at hp
    simp at hp
  · rintro _ _ g g' d d' pt hg hg' hd hpt
    obtain rfl := Option.some.inj hg
    rw [hown d hd] at hpt
    cases hpt
  · rintro _ _ g d hg hd
    obtain rfl := Option.some.inj hg
    rw [hown d hd]
    exact .inl (by simp)
  · rintro _ g d t hg hd hp
    obtain rfl := Option.some.inj hg
    rw [hpte d t hd] at hp
    simp at hp
  · rintro _ g d t p hg hd hp
    obtain rfl := Option.some.inj hg
    rw [hpte d t hd, pageOf_zero] at hp
    cases hp

/-- Page 2 is mapped at address 0; the new page table appears at `UVPT`. -/
theorem not_others_uvpt : PageTables windowMem (fun _ : Unit => some 0) [1] ∧
    ∃ r m', windowMem.pageInsert 0 2 0 7 = .ok (r, m') ∧ r = 0 ∧ ¬SamePage 0 uvpt ∧
      m'.translate 0 uvpt true false ≠ windowMem.translate 0 uvpt true false := by
  refine ⟨pageTables_windowMem, ?_⟩
  obtain ⟨m', hok, htrans⟩ : ∃ m', windowMem.pageInsert 0 2 0 7 = .ok (0, m') ∧
      m'.translate 0 uvpt true false = some (1, 0) := ⟨_, rfl, by decide +kernel⟩
  refine ⟨0, m', hok, rfl, by unfold SamePage; decide, ?_⟩
  rw [htrans]
  decide +kernel

theorem pageInsert_exact_windowMem :
    ∃ r m', windowMem.pageInsert 0 2 0 7 = .ok (r, m') ∧
      (r = 0 ∧ Inserted windowMem (fun _ : Unit => some 0) [1] 0 2 0 7 m' ∧
          (∃ m'', m'.pageRemove 0 0 = .ok m'' ∧
            Removed m' (fun _ : Unit => some 0) 0 0 m'') ∨
        r = -eNoMem ∧ m' = windowMem ∧ windowMem.table 0 (pdx 0) = none ∧
          ([1] : List (Fin 3)) = []) :=
  pageInsert_exact (e := ()) pageTables_windowMem rfl (by decide) (by decide) (by decide)

end JosKernel
