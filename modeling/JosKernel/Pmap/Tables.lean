import JosKernel.Pmap.Spec

/-!
# Page tables of any directories

`Tables own m dirs free` is what `pgdir_walk` needs of memory: the free list, and page tables that
are no free pages. A directory entry that is its `own` has a table to itself; an entry above
`UTOP`, whose table all directories share, is not, and neither is an entry that refers to a
directory, as the window at `UVPT` does. Data pages do not matter here: a page can be mapped
whatever else it is used for.

`walkWrite` is one round of the loops that fill page tables: it finds or makes the table and
writes one of its entries.
-/
namespace JosKernel

open Lib

variable {n : Nat} {ι : Type}

namespace Mem

/-- The page that directory entry `d` refers to, anywhere in the address space. -/
def table (m : Mem n) (g : Fin n) (d : Fin 1024) : Option (Fin n) := pageOf n (m.entry g d)

/-- The table entry for a page anywhere in the address space; `0` when there is no table. -/
def pteAt (m : Mem n) (g : Fin n) (d t : Fin 1024) : Word :=
  match m.table g d with
  | none => 0
  | some pt => m.entry pt t

variable {m m' : Mem n} {g p pt : Fin n} {i d t : Fin 1024} {w : Word}

theorem pteAt_of_table (h : m.table g d = some pt) : m.pteAt g d t = m.entry pt t := by
  simp [pteAt, h]

theorem pteAt_of_no_table (h : m.table g d = none) : m.pteAt g d t = 0#32 := by simp [pteAt, h]

/-- A mapped page has a table. -/
theorem table_of_page (hp : pageOf n (m.pteAt g d t) = some p) : ∃ pt, m.table g d = some pt := by
  cases ht : m.table g d with
  | some pt => exact ⟨pt, rfl⟩
  | none =>
    rw [pteAt_of_no_table ht, pageOf_zero] at hp
    cases hp

/-- Below `UTOP`, where only user memory is mapped. -/
theorem ptab_eq_table (hd : (d : Nat) < userPdes) : m.ptab g d = m.table g d := if_pos hd

theorem pte_eq_pteAt (hd : (d : Nat) < userPdes) : m.pte g d t = m.pteAt g d t := by
  have htab : m.ptab g d = m.table g d := ptab_eq_table hd
  cases h : m.table g d with
  | none => simp [pte, pteAt, htab, h]
  | some pt => simp [pte, pteAt, htab, h]

theorem table_setEntry (p' : Fin n) (i' : Fin 1024) :
    (m.setEntry p i w).table p' i' = if p' = p ∧ i' = i then pageOf n w else m.table p' i' := by
  rw [table, entry_setEntry]
  split_ifs <;> rfl

/-- Memory with `p`, the first page of the free list, as the table for directory entry `d`. -/
def withTable (m : Mem n) (g : Fin n) (d : Fin 1024) (p : Fin n) : Mem n :=
  let m := { m with pageFreeList := (m.pages p).ppLink }
  let m := (m.setPage p { m.pages p with ppLink := none }).setFrame p fun _ => 0
  (m.incRef p).setEntry g d (page2pa p ||| pteP ||| pteW ||| pteU)

theorem pages_withTable (m : Mem n) (g : Fin n) (d : Fin 1024) (p : Fin n) :
    (m.withTable g d p).pages = Function.update m.pages p ⟨none, (m.pages p).ppRef + 1⟩ := by
  funext q
  by_cases hq : q = p
  · subst hq
    simp [withTable, setEntry, incRef, setPage, setFrame]
  · simp [withTable, setEntry, incRef, setPage, setFrame, hq]

/-- A missing table is made. -/
theorem pgdirWalk_withTable {va : Word} (hl : m.pageFreeList = some p) (small : n ≤ 2 ^ 20)
    (hp : present (m.entry g (pdx va)) = false) :
    m.pgdirWalk g va true = .ok (some (p, ptx va), m.withTable g (pdx va) p) := by
  set m₁ := (({ m with pageFreeList := (m.pages p).ppLink } : Mem n).setPage p
    { m.pages p with ppLink := none }).setFrame p fun _ => 0 with hm₁
  have halloc : m.pageAlloc true = (some p, m₁) := by
    rw [pageAlloc, hl]
    rfl
  have hentry : ((m₁.incRef p).setEntry g (pdx va)
      (page2pa p ||| pteP ||| pteW ||| pteU)).entry g (pdx va) =
      page2pa p ||| pteP ||| pteW ||| pteU := by
    rw [entry_setEntry, if_pos ⟨rfl, rfl⟩]
  simp only [pgdirWalk, hp, halloc, hentry, MemInv.kaddr_pteAddr (pageOf_pde small p)]
  rfl

end Mem

structure Tables (own : ι → Fin 1024 → Prop) (m : Mem n) (dirs : ι → Option (Fin n))
    (free : List (Fin n)) : Prop where
  small : n ≤ 2 ^ 20
  list : m.FreeList free
  nodup : free.Nodup
  dirInj : ∀ e e' g, dirs e = some g → dirs e' = some g → e = e'
  dirFree : ∀ e g, dirs e = some g → g ∉ free
  tableFree : ∀ e g d pt, dirs e = some g → m.table g d = some pt → pt ∉ free
  inRange : ∀ e g d, dirs e = some g → own e d → present (m.entry g d) = true →
    pgnum (m.entry g d) < n
  tableInj : ∀ e e' g g' d d' pt, dirs e = some g → dirs e' = some g' → own e d →
    m.table g d = some pt → m.table g' d' = some pt → e = e' ∧ d = d'
  notDir : ∀ e e' g d, dirs e = some g → own e d → m.table g d ≠ dirs e' ∨ dirs e' = none

namespace Tables

variable {own : ι → Fin 1024 → Prop} {m m' : Mem n} {dirs : ι → Option (Fin n)}
  {free : List (Fin n)} {e e' : ι} {g g' p pt : Fin n} {d d' t t' : Fin 1024} {va w : Word}

theorem mono {own' : ι → Fin 1024 → Prop} (ok : Tables own m dirs free)
    (h : ∀ e d, own' e d → own e d) : Tables own' m dirs free :=
  { ok with
    inRange := fun e g d hg hown => ok.inRange e g d hg (h e d hown)
    tableInj := fun e e' g g' d d' pt hg hg' hown =>
      ok.tableInj e e' g g' d d' pt hg hg' (h e d hown)
    notDir := fun e e' g d hg hown => ok.notDir e e' g d hg (h e d hown) }

theorem table_ne_dir (ok : Tables own m dirs free) (he : dirs e = some g) (hown : own e d)
    (ht : m.table g d = some pt) {i : ι} (hi : dirs i = some g') : pt ≠ g' := by
  rintro rfl
  rcases ok.notDir e i g d he hown with h | h
  · exact h (ht.trans hi.symm)
  · cases hi.symm.trans h

/-- An entry that is present has a table. -/
theorem table_of_present (ok : Tables own m dirs free) (he : dirs e = some g) (hown : own e d)
    (hp : present (m.entry g d) = true) : ∃ pt, m.table g d = some pt :=
  ⟨⟨_, ok.inRange e g d he hown hp⟩, pageOf_eq_some.mpr ⟨hp, rfl⟩⟩

theorem not_present_of_no_table (ok : Tables own m dirs free) (he : dirs e = some g)
    (hown : own e d) (ht : m.table g d = none) : present (m.entry g d) = false := by
  by_contra hp
  obtain ⟨pt, hpt⟩ := ok.table_of_present he hown (by simpa using hp)
  cases ht.symm.trans hpt

/-! ## Writing a table entry -/

/-- Writing an entry of an own table. -/
theorem setTable [DecidableEq ι] (ok : Tables own m dirs free) (he : dirs e = some g)
    (hown : own e d) (ht : m.table g d = some pt) (t : Fin 1024) (w : Word) :
    Tables own (m.setEntry pt t w) dirs free ∧
      ∀ e' g', dirs e' = some g' → (∀ d', (m.setEntry pt t w).table g' d' = m.table g' d') ∧
        ∀ d' t', (m.setEntry pt t w).pteAt g' d' t' =
          if e' = e ∧ d' = d ∧ t' = t then w else m.pteAt g' d' t' := by
  have htab : ∀ e' g', dirs e' = some g' → ∀ d',
      (m.setEntry pt t w).entry g' d' = m.entry g' d' := fun e' g' he' d' => by
    rw [Mem.entry_setEntry, if_neg fun h => ok.table_ne_dir he hown ht he' h.1.symm]
  have htab' : ∀ e' g', dirs e' = some g' → ∀ d',
      (m.setEntry pt t w).table g' d' = m.table g' d' := fun e' g' he' d' => by
    rw [Mem.table, htab e' g' he', Mem.table]
  refine ⟨⟨ok.small, ok.list, ok.nodup, ok.dirInj, ok.dirFree, fun e' g' d' pt' he' => ?_,
    fun e' g' d' he' => ?_, fun e₁ e₂ g₁ g₂ d₁ d₂ q h₁ h₂ => ?_, fun e₁ e₂ g₁ d₁ h₁ => ?_⟩,
    fun e' g' he' => ⟨htab' e' g' he', fun d' t' => ?_⟩⟩
  · rw [htab' e' g' he']
    exact ok.tableFree e' g' d' pt' he'
  · rw [htab e' g' he']
    exact ok.inRange e' g' d' he'
  · rw [htab' e₁ g₁ h₁, htab' e₂ g₂ h₂]
    exact ok.tableInj e₁ e₂ g₁ g₂ d₁ d₂ q h₁ h₂
  · rw [htab' e₁ g₁ h₁]
    exact ok.notDir e₁ e₂ g₁ d₁ h₁
  · cases ht' : m.table g' d' with
    | none =>
      rw [Mem.pteAt_of_no_table ((htab' e' g' he' d').trans ht'), Mem.pteAt_of_no_table ht', if_neg]
      rintro ⟨rfl, rfl, -⟩
      obtain rfl := Option.some.inj (he.symm.trans he')
      cases ht.symm.trans ht'
    | some q =>
      rw [Mem.pteAt_of_table ((htab' e' g' he' d').trans ht'), Mem.pteAt_of_table ht',
        Mem.entry_setEntry]
      by_cases hq : q = pt
      · subst hq
        obtain ⟨rfl, rfl⟩ := ok.tableInj e e' g g' d d' q he he' hown ht ht'
        simp
      · rw [if_neg fun h => hq h.1, if_neg]
        rintro ⟨rfl, rfl, -⟩
        obtain rfl := Option.some.inj (he.symm.trans he')
        exact hq (Option.some.inj (ht'.symm.trans ht))

/-! ## Making a table -/

/-- What `pgdir_walk` leaves behind when it makes the table `p` for directory entry `d` of `g`. -/
structure MadeTable (m : Mem n) (g : Fin n) (d : Fin 1024) (p : Fin n) (m' : Mem n) : Prop where
  pages : m'.pages = Function.update m.pages p ⟨none, (m.pages p).ppRef + 1⟩
  frame : ∀ q, q ≠ p → q ≠ g → m'.frame q = m.frame q
  zero : ∀ t, m'.entry p t = 0#32
  entry : m'.entry g d = page2pa p ||| pteP ||| pteW ||| pteU
  other : ∀ d', d' ≠ d → m'.entry g d' = m.entry g d'
  kern : m'.kernPgdir = m.kernPgdir

theorem madeTable (hl : m.pageFreeList = some p) (hpg : p ≠ g) (small : n ≤ 2 ^ 20)
    (hold : present (m.entry g (pdx va)) = false) :
    ∃ m', m.pgdirWalk g va true = .ok (some (p, ptx va), m') ∧
      m'.pageFreeList = (m.pages p).ppLink ∧ MadeTable m g (pdx va) p m' := by
  refine ⟨m.withTable g (pdx va) p, Mem.pgdirWalk_withTable hl small hold, rfl, ?_⟩
  refine ⟨Mem.pages_withTable .., fun q hq hqg => ?_, fun t => ?_, ?_, fun d' hd' => ?_, rfl⟩
  · rw [Mem.withTable, Mem.frame_setEntry_of_ne hqg]
    simp [Mem.incRef, Mem.setFrame, hq]
  · rw [Mem.withTable, Mem.entry_setEntry, if_neg fun h => hpg h.1]
    simp only [Mem.entry, Mem.incRef, Mem.setFrame, Mem.setPage, Function.update_self]
    exact rd32_zero t
  · rw [Mem.withTable, Mem.entry_setEntry, if_pos ⟨rfl, rfl⟩]
  · rw [Mem.withTable, Mem.entry_setEntry, if_neg fun h => hd' h.2]
    simp [Mem.entry, Mem.incRef, Mem.setFrame, hpg.symm]

namespace MadeTable

theorem pageOf_entry (h : MadeTable m g d p m') (small : n ≤ 2 ^ 20) : m'.table g d = some p := by
  rw [Mem.table, h.entry]
  exact pageOf_pde small p

theorem link (h : MadeTable m g d p m') {q : Fin n} (hq : q ≠ p) :
    (m'.pages q) = m.pages q := by
  rw [h.pages, Function.update_of_ne hq]

end MadeTable

/-- The directories after a new table. -/
theorem MadeTable.tables [DecidableEq ι] (h : MadeTable m g d p m') (small : n ≤ 2 ^ 20)
    (inj : ∀ e e' g, dirs e = some g → dirs e' = some g → e = e') (he : dirs e = some g)
    (he' : dirs e' = some g') (hp' : p ≠ g') (d' : Fin 1024) :
    m'.table g' d' = if e' = e ∧ d' = d then some p else m.table g' d' := by
  by_cases hg : g' = g
  · subst hg
    obtain rfl := inj e e' g' he he'
    by_cases hd : d' = d
    · subst hd
      simp [h.pageOf_entry small]
    · simp [hd, Mem.table, h.other d' hd]
  · have hne : e' ≠ e := by
      rintro rfl
      exact hg (Option.some.inj (he'.symm.trans he))
    simp [hne, Mem.table, Mem.entry, h.frame g' hp'.symm hg]

/-- The free page `p` becomes a table of its own. -/
theorem made [DecidableEq ι] {l : List (Fin n)} (ok : Tables own m dirs (p :: l))
    (he : dirs e = some g) (h : MadeTable m g d p m') (hl : m'.pageFreeList = (m.pages p).ppLink)
    (ht : m.table g d = none) :
    Tables own m' dirs l ∧ ∀ e' g', dirs e' = some g' →
      (∀ d', m'.table g' d' = if e' = e ∧ d' = d then some p else m.table g' d') ∧
      ∀ d' t', m.table g' d' ≠ some g → m'.pteAt g' d' t' = m.pteAt g' d' t' := by
  have hfresh : ∀ e' g', dirs e' = some g' → p ≠ g' := fun e' g' he' hp =>
    ok.dirFree e' g' he' (hp ▸ List.mem_cons_self)
  have hnodup := List.nodup_cons.mp ok.nodup
  have htab : ∀ e' g', dirs e' = some g' → ∀ d',
      m'.table g' d' = if e' = e ∧ d' = d then some p else m.table g' d' :=
    fun e' g' he' => h.tables ok.small ok.dirInj he he' (hfresh e' g' he')
  have hold : ∀ e' g' d' q, dirs e' = some g' → m.table g' d' = some q → q ≠ p :=
    fun e' g' d' q he' hq hqp => ok.tableFree e' g' d' q he' hq (hqp ▸ List.mem_cons_self)
  refine ⟨⟨ok.small, ?_, hnodup.2, ok.dirInj, fun e' g' he' hg' =>
    ok.dirFree e' g' he' (List.mem_cons_of_mem p hg'), fun e' g' d' q he' hq hmem => ?_,
    fun e' g' d' he' hown hp => ?_, fun e₁ e₂ g₁ g₂ d₁ d₂ q h₁ h₂ hown hq₁ hq₂ => ?_,
    fun e₁ e₂ g₁ d₁ h₁ hown => ?_⟩, fun e' g' he' => ⟨htab e' g' he', fun d' t' hdir => ?_⟩⟩
  · have hseg := ok.list.2
    rw [Mem.FreeList, hl]
    exact hseg.congr fun q hq => by rw [h.link (ne_of_mem_of_not_mem hq hnodup.1)]
  · rw [htab e' g' he'] at hq
    split_ifs at hq
    · cases hq
      exact hnodup.1 hmem
    · exact ok.tableFree e' g' d' q he' hq (List.mem_cons_of_mem p hmem)
  · by_cases hc : e' = e ∧ d' = d
    · have hq := htab e' g' he' d'
      rw [if_pos hc] at hq
      rw [(pageOf_eq_some.mp hq).2]
      exact p.isLt
    · have hent : m'.entry g' d' = m.entry g' d' := by
        by_cases hg : g' = g
        · subst hg
          obtain rfl := ok.dirInj e e' g' he he'
          exact h.other d' fun hd => hc ⟨rfl, hd⟩
        · rw [Mem.entry, h.frame g' (hfresh e' g' he').symm hg, Mem.entry]
      rw [hent] at hp ⊢
      exact ok.inRange e' g' d' he' hown hp
  · rw [htab e₁ g₁ h₁] at hq₁
    rw [htab e₂ g₂ h₂] at hq₂
    split_ifs at hq₁ hq₂ with hc₁ hc₂ hc₂
    · exact ⟨hc₁.1.trans hc₂.1.symm, hc₁.2.trans hc₂.2.symm⟩
    · cases hq₁
      exact absurd rfl (hold e₂ g₂ d₂ _ h₂ hq₂)
    · cases hq₂
      exact absurd rfl (hold e₁ g₁ d₁ _ h₁ hq₁)
    · exact ok.tableInj e₁ e₂ g₁ g₂ d₁ d₂ q h₁ h₂ hown hq₁ hq₂
  · rw [htab e₁ g₁ h₁]
    split_ifs with hc
    · cases he₂ : dirs e₂ with
      | none => exact .inr rfl
      | some g₂ => exact .inl fun hpg => hfresh e₂ g₂ he₂ (Option.some.inj hpg)
    · exact ok.notDir e₁ e₂ g₁ d₁ h₁ hown
  · by_cases hc : e' = e ∧ d' = d
    · obtain ⟨rfl, rfl⟩ := hc
      obtain rfl := Option.some.inj (he.symm.trans he')
      have hq := htab e' g he' d'
      rw [if_pos ⟨rfl, rfl⟩] at hq
      rw [Mem.pteAt_of_table hq, Mem.pteAt_of_no_table ht, h.zero]
    · have hq := htab e' g' he' d'
      rw [if_neg hc] at hq
      cases hq' : m.table g' d' with
      | none => rw [Mem.pteAt_of_no_table (hq.trans hq'), Mem.pteAt_of_no_table hq']
      | some q =>
        rw [hq'] at hdir
        rw [Mem.pteAt_of_table (hq.trans hq'), Mem.pteAt_of_table hq', Mem.entry,
          h.frame q (hold e' g' d' q he' hq') fun hqg => hdir (hqg ▸ rfl), Mem.entry]

/-- `pgdir_walk` with `create` set. It makes a table only where there is none. -/
theorem walk [DecidableEq ι] (ok : Tables own m dirs free) (he : dirs e = some g)
    (hown : own e (pdx va)) (hfree : m.table g (pdx va) = none → free ≠ []) :
    ∃ pt m₁ free₁, m.pgdirWalk g va true = .ok (some (pt, ptx va), m₁) ∧
      Tables own m₁ dirs free₁ ∧ m₁.table g (pdx va) = some pt ∧
      (m.table g (pdx va) = some pt ∧ m₁ = m ∧ free₁ = free ∨
        m.table g (pdx va) = none ∧ free = pt :: free₁ ∧ MadeTable m g (pdx va) pt m₁) ∧
      ∀ e' g', dirs e' = some g' →
        (∀ d', m₁.table g' d' = if e' = e ∧ d' = pdx va then some pt else m.table g' d') ∧
        ∀ d' t', m.table g' d' ≠ some g → m₁.pteAt g' d' t' = m.pteAt g' d' t' := by
  cases ht : m.table g (pdx va) with
  | some pt =>
    have hp := (pageOf_eq_some.mp ht).1
    refine ⟨pt, m, free, ?_, ok, ht, .inl ⟨rfl, rfl, rfl⟩, fun e' g' he' => ⟨fun d' => ?_,
      fun _ _ _ => rfl⟩⟩
    · simp [Mem.pgdirWalk, hp, MemInv.kaddr_pteAddr ht, bind, Except.bind, pure, Except.pure]
    · split_ifs with hc
      · obtain ⟨rfl, rfl⟩ := hc
        obtain rfl := Option.some.inj (he.symm.trans he')
        exact ht
      · rfl
  | none =>
    obtain ⟨p, l, rfl⟩ := List.exists_cons_of_ne_nil (hfree ht)
    have hpg : p ≠ g := fun hp => ok.dirFree e g he (hp ▸ List.mem_cons_self)
    obtain ⟨m₁, hwalk, hl, hmade⟩ := madeTable ok.list.1 hpg ok.small
      (ok.not_present_of_no_table he hown ht)
    obtain ⟨ok₁, hrest⟩ := ok.made he hmade hl ht
    exact ⟨p, m₁, l, hwalk, ok₁, by rw [(hrest e g he).1]; simp, .inr ⟨rfl, rfl, hmade⟩, hrest⟩

end Tables

end JosKernel
