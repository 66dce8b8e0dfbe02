import JosKernel.Pmap.Invariant

/-!
# What the page functions do

Specifications of `kern/pmap.c` under the memory invariant. The abstract state is the family of
address spaces `Mem.spaces`: the table entry of every user page of every live directory. A walk
leaves it alone, `page_remove` clears one entry and `page_insert` sets one; none of them panics.

`Evolves` collects what these functions have in common: directories and tables stay what they
are, new tables come from the free list, and pages in use as data keep their contents.
-/
namespace JosKernel

open Lib

variable {n : Nat} {ι : Type}

/-- The page is on `page_free_list`. -/
def Mem.OnFreeList (m : Mem n) (p : Fin n) : Prop := ∃ free, m.FreeList free ∧ p ∈ free

/-- The free list is determined by the links. -/
theorem Mem.FreeList.unique {m : Mem n} {free free' : List (Fin n)} (h : m.FreeList free)
    (h' : m.FreeList free') : free = free' :=
  ListSeg.unique (Option.some_injective _) (by simp) h h'

theorem Mem.FreeList.onFreeList_iff {m : Mem n} {free : List (Fin n)} {p : Fin n}
    (h : m.FreeList free) : m.OnFreeList p ↔ p ∈ free :=
  ⟨fun ⟨_, hfree, hp⟩ => hfree.unique h ▸ hp, fun hp => ⟨free, h, hp⟩⟩

namespace Mem.Account

variable [Fintype ι] {S h : Set (Fin n)} {f : Slot ι → Option (Fin n)} {x : Fin n → ℕ}
  {m : Mem n} {p : Fin n}

theorem onFreeList_iff (acc : m.Account S f x h) :
    m.OnFreeList p ↔ p ∈ S ∧ count f p + x p = 0 ∧ p ∉ h := by
  obtain ⟨free, hfree, c, -⟩ := acc
  rw [hfree.onFreeList_iff, c.mem_free p]

theorem onFreeList_head (acc : m.Account S f x h) (hl : m.pageFreeList = some p) :
    m.OnFreeList p := by
  obtain ⟨free, hfree, -, -⟩ := acc
  refine ⟨free, hfree, ?_⟩
  unfold Mem.FreeList at hfree
  rw [hl] at hfree
  obtain ⟨l, rfl, -⟩ := hfree.of_node (Option.some_injective _) (by simp)
  exact List.mem_cons_self

theorem ref_eq (acc : m.Account S f x h) (hp : p ∈ S) : m.ref p = count f p + x p := by
  obtain ⟨free, -, c, -⟩ := acc
  exact c.ref_eq p hp

/-- Pages in use have no link. -/
theorem link_eq_none (acc : m.Account S f x h) (hS : p ∈ S) (hf : ¬m.OnFreeList p) :
    (m.pages p).ppLink = none := by
  obtain ⟨free, hfree, -, hlink⟩ := acc
  exact hlink p hS fun hp => hf ⟨free, hfree, hp⟩

theorem not_onFreeList (acc : m.Account S f x h) {s : Slot ι} (hs : f s = some p) :
    ¬m.OnFreeList p := by
  rw [acc.onFreeList_iff]
  rintro ⟨-, h0, -⟩
  have := count_pos hs
  omega

theorem held_or_counted (acc : m.Account S f x h) (hS : p ∈ S) (hf : ¬m.OnFreeList p) :
    p ∈ h ∨ 0 < count f p + x p := by
  by_contra hc
  rw [not_or] at hc
  exact hf (acc.onFreeList_iff.mpr ⟨hS, by omega, hc.1⟩)

end Mem.Account

/-- The table entries of all user pages. -/
def Mem.spaces (m : Mem n) (dirs : ι → Option (Fin n)) : ι → Fin 1024 → Fin 1024 → Word :=
  fun e d t =>
    match dirs e with
    | none => 0
    | some g => m.pte g d t

/-- Address spaces with the entry for `va` in space `e` replaced. -/
def setSpace [DecidableEq ι] (v : ι → Fin 1024 → Fin 1024 → Word) (e : ι) (va w : Word) :
    ι → Fin 1024 → Fin 1024 → Word :=
  fun e' d t => if e' = e ∧ d = pdx va ∧ t = ptx va then w else v e' d t

structure Evolves (dirs : ι → Option (Fin n)) (m m' : Mem n) : Prop where
  keep : ∀ (s : Slot ι) p, s.Struct → m.target dirs s = some p → m'.target dirs s = some p
  grow : ∀ (s : Slot ι) p, s.Struct → m'.target dirs s = some p →
    m.target dirs s = some p ∨ m.OnFreeList p
  frame : ∀ p, ¬m.OnFreeList p → NotStruct m dirs p → m'.frame p = m.frame p
  kern : m'.kernPgdir = m.kernPgdir

@[simp] theorem setSpace_self [DecidableEq ι] (v : ι → Fin 1024 → Fin 1024 → Word) (e : ι)
    (va : Word) : setSpace v e va (v e (pdx va) (ptx va)) = v := by
  funext e' d t
  unfold setSpace
  split_ifs with h
  · rw [h.1, h.2.1, h.2.2]
  · rfl

@[simp] theorem setSpace_setSpace [DecidableEq ι] (v : ι → Fin 1024 → Fin 1024 → Word) (e : ι)
    (va w w' : Word) : setSpace (setSpace v e va w) e va w' = setSpace v e va w' := by
  funext e' d t
  simp only [setSpace]
  split_ifs <;> rfl

/-- Only table entries for user pages were written. -/
structure SameTables (dirs : ι → Option (Fin n)) (m m' : Mem n) : Prop where
  struct : ∀ s : Slot ι, s.Struct → m'.target dirs s = m.target dirs s
  frame : ∀ p, NotStruct m dirs p → m'.frame p = m.frame p
  kern : m'.kernPgdir = m.kernPgdir

theorem Mem.spaces_of_dir {m : Mem n} {dirs : ι → Option (Fin n)} {e : ι} {g : Fin n}
    (he : dirs e = some g) (d t : Fin 1024) : m.spaces dirs e d t = m.pte g d t := by
  simp [Mem.spaces, he]

theorem Mem.spaces_congr {m m' : Mem n} {dirs : ι → Option (Fin n)} (hf : m'.frame = m.frame) :
    m'.spaces dirs = m.spaces dirs := by
  funext e d t
  cases he : dirs e with
  | none => simp [Mem.spaces, he]
  | some g =>
    rw [Mem.spaces_of_dir he, Mem.spaces_of_dir he]
    exact Mem.pte_congr (by rw [hf]) fun _ _ => by rw [hf]

theorem Evolves.refl (dirs : ι → Option (Fin n)) (m : Mem n) : Evolves dirs m m :=
  ⟨fun _ _ _ h => h, fun _ _ _ h => .inl h, fun _ _ _ => rfl, rfl⟩

/-- Two evolutions compose when the first one frees no page. -/
theorem Evolves.trans {dirs : ι → Option (Fin n)} {m m' m'' : Mem n} (h : Evolves dirs m m')
    (h' : Evolves dirs m' m'') (free : ∀ p, m'.OnFreeList p → m.OnFreeList p) :
    Evolves dirs m m'' where
  keep s p hs hp := h'.keep s p hs (h.keep s p hs hp)
  grow s p hs hp := by
    rcases h'.grow s p hs hp with hp | hp
    · exact h.grow s p hs hp
    · exact .inr (free p hp)
  frame p hp hns := by
    rw [h'.frame p (fun c => hp (free p c)), h.frame p hp hns]
    intro s hs hsp
    rcases h.grow s p hs hsp with c | c
    · exact hns s hs c
    · exact hp c
  kern := h'.kern.trans h.kern

/-- A page in use as data does not become a directory or table. -/
theorem Evolves.notStruct {dirs : ι → Option (Fin n)} {m m' : Mem n} {p : Fin n}
    (h : Evolves dirs m m') (hf : ¬m.OnFreeList p) (hns : NotStruct m dirs p) :
    NotStruct m' dirs p := fun s hs hsp =>
  (h.grow s p hs hsp).elim (hns s hs) hf

/-- Only the contents of the frames matter for the later state. -/
theorem Evolves.congr {dirs : ι → Option (Fin n)} {m m' m'' : Mem n} (h : Evolves dirs m m')
    (hf : m''.frame = m'.frame) (hk : m''.kernPgdir = m'.kernPgdir) : Evolves dirs m m'' := by
  have ht : m''.target dirs = m'.target dirs := Mem.target_congr fun _ p _ _ => by rw [hf]
  exact ⟨ht ▸ h.keep, ht ▸ h.grow, hf ▸ h.frame, hk.trans h.kern⟩

/-- Writing an entry of a table that existed from the start. -/
theorem Evolves.setTable [DecidableEq ι] {dirs : ι → Option (Fin n)} {m m' : Mem n} {e : ι}
    {g pt : Fin n} {d t : Fin 1024} {w : Word} (h : Evolves dirs m m') (ex : Exclusive m' dirs)
    (he : dirs e = some g) (ht : m.ptab g d = some pt) :
    Evolves dirs m (m'.setEntry pt t w) := by
  have hpt : m.target dirs (.pde e d) = some pt := (Mem.target_pde he).trans ht
  have ht' : m'.ptab g d = some pt :=
    (Mem.target_pde he).symm.trans (h.keep (.pde e d) pt trivial hpt)
  have hst : ∀ s : Slot ι, s.Struct → (m'.setEntry pt t w).target dirs s = m'.target dirs s := by
    intro s hs
    rw [ex.distinct.target_setTable he ht', Function.update_of_ne]
    rintro rfl
    exact hs
  refine ⟨fun s p hs hp => ?_, fun s p hs hp => ?_, fun p hp hns => ?_, h.kern⟩
  · rw [hst s hs]
    exact h.keep s p hs hp
  · rw [hst s hs] at hp
    exact h.grow s p hs hp
  · rw [Mem.frame_setEntry_of_ne fun c : p = pt => hns (.pde e d) trivial (c ▸ hpt)]
    exact h.frame p hp hns

theorem SameTables.refl (dirs : ι → Option (Fin n)) (m : Mem n) : SameTables dirs m m :=
  ⟨fun _ _ => rfl, fun _ _ => rfl, rfl⟩

theorem SameTables.notStruct {dirs : ι → Option (Fin n)} {m m' : Mem n} {p : Fin n}
    (h : SameTables dirs m m') (hns : NotStruct m dirs p) : NotStruct m' dirs p :=
  fun s hs => h.struct s hs ▸ hns s hs

theorem SameTables.trans {dirs : ι → Option (Fin n)} {m m' m'' : Mem n}
    (h : SameTables dirs m m') (h' : SameTables dirs m' m'') : SameTables dirs m m'' where
  struct s hs := (h'.struct s hs).trans (h.struct s hs)
  frame p hns := (h'.frame p (h.notStruct hns)).trans (h.frame p hns)
  kern := h'.kern.trans h.kern

theorem SameTables.evolves {dirs : ι → Option (Fin n)} {m m' : Mem n}
    (h : SameTables dirs m m') : Evolves dirs m m' where
  keep s _ hs hp := (h.struct s hs).trans hp
  grow s _ hs hp := .inl ((h.struct s hs).symm.trans hp)
  frame p _ hns := h.frame p hns
  kern := h.kern

variable [Fintype ι]

namespace MemInv

variable {S h : Set (Fin n)} {dirs : ι → Option (Fin n)} {x : Fin n → ℕ} {m m' : Mem n}
  {e : ι} {g p pp pt : Fin n} {d t : Fin 1024} {w va perm : Word}

theorem onFreeList_iff (inv : MemInv S dirs x h m) :
    m.OnFreeList p ↔ p ∈ S ∧ count (m.target dirs) p + x p = 0 ∧ p ∉ h :=
  inv.account.onFreeList_iff

theorem not_onFreeList (inv : MemInv S dirs x h m) {s : Slot ι} (hs : m.target dirs s = some p) :
    ¬m.OnFreeList p := inv.account.not_onFreeList hs

/-- A free page is not referred to. -/
theorem fresh_of_free (inv : MemInv S dirs x h m) (hp : m.OnFreeList p) (s : Slot ι) :
    m.target dirs s ≠ some p := fun hs => inv.not_onFreeList hs hp

/-- The counter of a free page is zero. -/
theorem ref_of_free (inv : MemInv S dirs x h m) (hp : m.OnFreeList p) : m.ref p = 0 := by
  obtain ⟨hS, h0, -⟩ := inv.onFreeList_iff.mp hp
  rw [inv.ref_eq hS, h0]

/-- The head of the list is on the list. -/
theorem onFreeList_head (inv : MemInv S dirs x h m) (hl : m.pageFreeList = some p) :
    m.OnFreeList p := inv.account.onFreeList_head hl

/-! ## Allocation -/

/-- `page_alloc` hands out a free page, which is held from then on. -/
theorem pageAlloc_some (inv : MemInv S dirs x h m) (zero : Bool)
    (hl : m.pageFreeList = some p) :
    ∃ m', m.pageAlloc zero = (some p, m') ∧ MemInv S dirs x (insert p h) m' ∧
      (∀ q, q ≠ p → m'.frame q = m.frame q) ∧ (zero = true → m'.frame p = fun _ => 0) ∧
      m'.ref = m.ref ∧ m'.kernPgdir = m.kernPgdir := by
  have hfree := inv.onFreeList_head hl
  have inv' := inv.takeHead hl
  have hns : NotStruct m dirs p := fun s _ => inv.fresh_of_free hfree s
  have href := Mem.ref_takenHead m p
  cases zero with
  | false =>
    refine ⟨_, by rw [Mem.pageAlloc, hl]; rfl, inv', fun q _ => rfl, by simp, href, rfl⟩
  | true =>
    refine ⟨_, by rw [Mem.pageAlloc, hl]; rfl,
      inv'.setFrame hns (inv.onFreeList_iff.mp hfree).1 _, fun q hq => ?_, fun _ => ?_, href, rfl⟩
    · simp [Mem.setFrame, Mem.takenHead, Mem.setPage, hq]
    · simp [Mem.setFrame]

/-! ## Walking the page table -/

section
variable [DecidableEq ι]

omit [DecidableEq ι] in
theorem kaddr_pteAddr (hw : pageOf n w = some p) : kaddr n (pteAddr w) = .ok p := by
  have h := (pageOf_eq_some.mp hw).2
  simp [kaddr, h]

omit [DecidableEq ι] in
theorem pa2page_pteAddr (hw : pageOf n w = some p) : pa2page n (pteAddr w) = .ok p := by
  have h := (pageOf_eq_some.mp hw).2
  simp [pa2page, h]

omit [DecidableEq ι] in
/-- An existing table is found. -/
theorem pgdirWalk_of_ptab (ht : m.ptab g (pdx va) = some pt) (create : Bool) :
    m.pgdirWalk g va create = .ok (some (pt, ptx va), m) := by
  have hw := (Mem.ptab_eq (Mem.lt_of_ptab ht)).symm.trans ht
  have hp := (pageOf_eq_some.mp hw).1
  simp [Mem.pgdirWalk, hp, kaddr_pteAddr hw, bind, Except.bind, pure, Except.pure]

omit [DecidableEq ι] in
/-- A user directory entry without a table is not present. -/
theorem not_present_of_ptab (inv : MemInv S dirs x h m) (he : dirs e = some g)
    (hd : (d : Nat) < userPdes) (ht : m.ptab g d = none) : present (m.entry g d) = false := by
  by_contra hp
  obtain ⟨pt, hpt, -⟩ := inv.ptab_of_present he hd (by simpa using hp)
  simp [ht] at hpt

omit [DecidableEq ι] in
theorem pgdirWalk_false (inv : MemInv S dirs x h m) (he : dirs e = some g) (hva : va < utop) :
    m.pgdirWalk g va false = .ok ((m.ptab g (pdx va)).map fun pt => (pt, ptx va), m) := by
  cases ht : m.ptab g (pdx va) with
  | some pt => exact pgdirWalk_of_ptab ht false
  | none =>
    have hp := inv.not_present_of_ptab he (pdx_lt_userPdes hva) ht
    simp [Mem.pgdirWalk, hp, pure, Except.pure]

omit [DecidableEq ι] in
/-- The entry that `pgdir_walk` writes for a new table. -/
theorem pageOf_newPde (inv : MemInv S dirs x h m) (p : Fin n) :
    pageOf n (page2pa p ||| pteP ||| pteW ||| pteU) = some p := pageOf_pde inv.small p

theorem userPde_newPde (p : Fin n) : UserPde (page2pa p ||| pteP ||| pteW ||| pteU) := by
  simp only [UserPde]
  ext i hi
  simp only [BitVec.getElem_and, BitVec.getElem_or]
  grind

/-- With a free page at hand, the walk creates a missing table. -/
theorem pgdirWalk_create (inv : MemInv S dirs x h m) (he : dirs e = some g) (hva : va < utop)
    (ht : m.ptab g (pdx va) = none) (hl : m.pageFreeList = some p) :
    ∃ m', m.pgdirWalk g va true = .ok (some (p, ptx va), m') ∧ MemInv S dirs x h m' ∧
      m'.ptab g (pdx va) = some p ∧ m'.spaces dirs = m.spaces dirs ∧ Evolves dirs m m' ∧
      (∀ q, m'.OnFreeList q → m.OnFreeList q) ∧ ∀ q, q ≠ p → m'.ref q = m.ref q := by
  have hd := pdx_lt_userPdes hva
  have hold := inv.not_present_of_ptab he hd ht
  have hfree := inv.onFreeList_head hl
  obtain ⟨hS, h0, hh⟩ := inv.onFreeList_iff.mp hfree
  obtain ⟨m₁, halloc, inv₁, hframe, hzero, href, hk⟩ := inv.pageAlloc_some true hl
  have hst : ∀ s : Slot ι, s.Struct → ∀ q, m.target dirs s = some q → m₁.frame q = m.frame q :=
    fun s _ q hq => hframe q fun c => inv.fresh_of_free hfree s (c ▸ hq)
  have htar : m₁.target dirs = m.target dirs := Mem.target_congr fun s q hs => hst s hs q
  -- the page is counted, then linked into the directory
  have inv₂ := inv₁.incRef hS (.inl (Set.mem_insert p h))
    (by rw [href, inv.ref_of_free hfree]; decide)
  have hh' : insert p h \ {p} = h := by
    rw [Set.insert_sdiff_of_mem _ (Set.mem_singleton p), Set.sdiff_singleton_eq_self hh]
  rw [hh'] at inv₂
  have htar₂ : (m₁.incRef p).target dirs = m.target dirs := htar
  have hg : m₁.frame g = m.frame g := hst (.dir e) trivial g he
  have hpg : p ≠ g := fun c => inv.fresh_of_free hfree (.dir e) (c ▸ he)
  have hzero₁ : ∀ t, m₁.entry p t = 0#32 := fun t => by
    rw [Mem.entry, hzero rfl, rd32_zero]
  set w := page2pa p ||| pteP ||| pteW ||| pteU with hw
  have hpw : pageOf n w = some p := inv.pageOf_newPde p
  have inv₃ := inv₂.linkPde he hd (w := w) (p := p)
    (by rwa [Mem.incRef_entry, Mem.entry, hg, ← Mem.entry]) hpw (userPde_newPde p) hS
    (by simp) (fun s => by rw [htar₂]; exact inv.fresh_of_free hfree s)
    (fun t => by rw [Mem.incRef_entry, hzero₁]; exact present_zero)
  rw [Function.update_self, Nat.add_sub_cancel, Function.update_idem, Function.update_eq_self]
    at inv₃
  have hnew : ((m₁.incRef p).setEntry g (pdx va) w).ptab g (pdx va) = some p := by
    rw [inv₂.excl.distinct.ptab_setDir he he hd, if_pos ⟨rfl, rfl⟩, hpw]
  have hpte : ∀ t, ((m₁.incRef p).setEntry g (pdx va) w).pte g (pdx va) t = m.pte g (pdx va) t := by
    intro t
    rw [Mem.pte_of_ptab hnew, Mem.pte_of_no_ptab ht, Mem.entry_setEntry, if_neg fun c => hpg c.1]
    exact hzero₁ t
  have hpte' : ∀ e' g' d' t', dirs e' = some g' →
      (m₁.incRef p).pte g' d' t' = m.pte g' d' t' := fun e' g' d' t' he' =>
    Mem.pte_congr (hst (.dir e') trivial g' he') fun pt hpt =>
      hst (.pde e' d') trivial pt ((Mem.target_pde he').trans hpt)
  have htar₃ : ((m₁.incRef p).setEntry g (pdx va) w).target dirs =
      Function.update (m.target dirs) (.pde e (pdx va)) (some p) := by
    rw [inv₂.excl.distinct.target_setDir he hd fun t => by rw [hpte, hpte' e g _ t he], htar₂, hpw]
  have hempty : m.target dirs (.pde e (pdx va)) = none := (Mem.target_pde he).trans ht
  refine ⟨_, ?_, inv₃, hnew, ?_, ⟨?_, ?_, ?_, hk⟩, ?_, ?_⟩
  · have hkaddr : kaddr n (pteAddr (((m₁.incRef p).setEntry g (pdx va) w).entry g (pdx va))) =
        .ok p := by
      rw [Mem.entry_setEntry, if_pos ⟨rfl, rfl⟩]
      exact kaddr_pteAddr hpw
    simp only [Mem.pgdirWalk, hold, halloc, ← hw, hkaddr]
    rfl
  · funext e' d' t'
    cases he' : dirs e' with
    | none => simp [Mem.spaces, he']
    | some g' =>
      rw [Mem.spaces_of_dir he', Mem.spaces_of_dir he']
      by_cases hc : e' = e ∧ d' = pdx va
      · obtain ⟨rfl, rfl⟩ := hc
        obtain rfl : g' = g := Option.some.inj (he'.symm.trans he)
        exact hpte t'
      · rw [inv₂.excl.distinct.pte_setDir he he' hd hc, hpte' e' g' d' t' he']
  · intro s q _ hq
    rw [htar₃, Function.update_of_ne]
    · exact hq
    · rintro rfl
      simp [hempty] at hq
  · intro s q _ hq
    rw [htar₃, Function.update_apply] at hq
    split_ifs at hq with hc
    · cases hq; exact .inr hfree
    · exact .inl hq
  · intro q hq hns
    rw [Mem.frame_setEntry_of_ne fun c : q = g => hns (.dir e) trivial (c ▸ he)]
    exact hframe q fun c => hq (c ▸ hfree)
  · intro q hq
    obtain ⟨hqS, hq0, hqh⟩ := inv₃.onFreeList_iff.mp hq
    by_cases hqp : q = p
    · exact hqp ▸ hfree
    · rw [htar₃, count_update_of_ne (by simp [hempty]) (by simpa using Ne.symm hqp)] at hq0
      exact inv.onFreeList_iff.mpr ⟨hqS, hq0, hqh⟩
  · intro q hq
    rw [← href]
    simp [Mem.ref, Mem.incRef, Mem.setPage, hq]

/-- `pgdir_walk` with `create` set fails for want of a page only. -/
theorem pgdirWalk_true (inv : MemInv S dirs x h m) (he : dirs e = some g) (hva : va < utop) :
    (m.ptab g (pdx va) = none ∧ m.pageFreeList = none ∧
      m.pgdirWalk g va true = .ok (none, m)) ∨
    ∃ pt m', m.pgdirWalk g va true = .ok (some (pt, ptx va), m') ∧ MemInv S dirs x h m' ∧
      m'.ptab g (pdx va) = some pt ∧ m'.spaces dirs = m.spaces dirs ∧ Evolves dirs m m' ∧
      (∀ q, m'.OnFreeList q → m.OnFreeList q) ∧ ∀ q, ¬m.OnFreeList q → m'.ref q = m.ref q := by
  cases ht : m.ptab g (pdx va) with
  | some pt =>
    exact .inr ⟨pt, m, pgdirWalk_of_ptab ht true, inv, ht, rfl, .refl dirs m, fun _ hq => hq,
      fun _ _ => rfl⟩
  | none =>
    cases hl : m.pageFreeList with
    | none =>
      have hp := inv.not_present_of_ptab he (pdx_lt_userPdes hva) ht
      exact .inl ⟨rfl, rfl, by simp [Mem.pgdirWalk, hp, Mem.pageAlloc, hl, pure, Except.pure]⟩
    | some p =>
      obtain ⟨m', hok, inv', ht', hsp, hev, hfree, href⟩ := inv.pgdirWalk_create he hva ht hl
      exact .inr ⟨p, m', hok, inv', ht', hsp, hev, hfree, fun q hq =>
        href q fun c => hq (c ▸ inv.onFreeList_head hl)⟩

/-! ## Looking up and removing a mapping -/

omit [DecidableEq ι] in
/-- `page_lookup` finds the page that the table entry maps. -/
theorem pageLookup (inv : MemInv S dirs x h m) (he : dirs e = some g) (hva : va < utop) :
    m.pageLookup g va = .ok ((pageOf n (m.pte g (pdx va) (ptx va))).bind fun pp =>
      (m.ptab g (pdx va)).map fun pt => (pp, pt, ptx va)) := by
  simp only [Mem.pageLookup, inv.pgdirWalk_false he hva, bind, Except.bind]
  cases ht : m.ptab g (pdx va) with
  | none => simp [Mem.pte_of_no_ptab ht, pure, Except.pure]
  | some pt =>
    rw [Mem.pte_of_ptab ht]
    cases hp : present (m.entry pt (ptx va)) with
    | false => simp [pageOf_of_not_present hp, hp, pure, Except.pure]
    | true =>
      obtain ⟨pp, hpp, -⟩ := inv.page_of_present (t := ptx va) he (by rwa [Mem.pte_of_ptab ht])
      rw [Mem.pte_of_ptab ht] at hpp
      simp [hp, hpp, pa2page_pteAddr hpp, pure, Except.pure]

theorem spaces_setTable (inv : MemInv S dirs x h m) (he : dirs e = some g)
    (ht : m.ptab g (pdx va) = some pt) :
    (m.setEntry pt (ptx va) w).spaces dirs = setSpace (m.spaces dirs) e va w := by
  funext e' d' t'
  cases he' : dirs e' with
  | none =>
    have hne : e' ≠ e := fun c => by simp [c, he] at he'
    simp [Mem.spaces, setSpace, he', hne]
  | some g' =>
    rw [setSpace, Mem.spaces_of_dir he', Mem.spaces_of_dir he',
      inv.excl.distinct.pte_setTable he ht he']

omit [Fintype ι] [DecidableEq ι] in
/-- Counters and entries are stored in different places. -/
theorem pageDecref_setEntry :
    (m.setEntry pt t w).pageDecref p = (m.pageDecref p).map fun m => m.setEntry pt t w := by
  simp only [Mem.pageDecref, Mem.pageFree, Mem.setPage, Mem.setEntry, Function.update_self]
  by_cases href : (m.pages p).ppRef - 1#16 = 0#16
  · by_cases hlink : (m.pages p).ppLink = none <;> simp [href, hlink, Except.map]
  · simp [href, Except.map]

/-- `page_remove` clears the entry of a mapped page and changes no other. -/
theorem pageRemove (inv : MemInv S dirs x h m) (he : dirs e = some g) (hva : va < utop) :
    ∃ m', m.pageRemove g va = .ok m' ∧ MemInv S dirs x h m' ∧
      m'.spaces dirs = setSpace (m.spaces dirs) e va
        (if present (m.pte g (pdx va) (ptx va)) then 0 else m.pte g (pdx va) (ptx va)) ∧
      SameTables dirs m m' := by
  have hlook := inv.pageLookup he hva
  cases hp : present (m.pte g (pdx va) (ptx va)) with
  | false =>
    refine ⟨m, ?_, inv, ?_, .refl dirs m⟩
    · rw [pageOf_of_not_present hp] at hlook
      simp [Mem.pageRemove, hlook, bind, Except.bind, pure, Except.pure]
    · simp only [Bool.false_eq_true, if_false]
      rw [← Mem.spaces_of_dir he, setSpace_self]
  | true =>
    obtain ⟨q, hq, -⟩ := inv.page_of_present he hp
    obtain ⟨pt, ht⟩ : ∃ pt, m.ptab g (pdx va) = some pt := by
      cases ht : m.ptab g (pdx va) with
      | none => simp [Mem.pte_of_no_ptab ht] at hp
      | some pt => exact ⟨pt, rfl⟩
    rw [hq, ht] at hlook
    -- clearing the entry first turns the mapping into the reference that is given up
    have inv₁ := inv.unlinkPte he ht hq (w := 0) (by simp)
    obtain ⟨m', hok, hf, hk, inv'⟩ := inv₁.pageDecref
      (inv.target_mem ((Mem.target_pte he).trans hq)) (by simp)
    rw [Function.update_self, Nat.add_sub_cancel, Function.update_idem, Function.update_eq_self]
      at inv'
    refine ⟨m', ?_, inv', ?_, ⟨fun s hs => ?_, fun p hns => ?_, hk⟩⟩
    · rw [pageDecref_setEntry] at hok
      cases hd : m.pageDecref q with
      | error _ => simp [hd, Except.map] at hok
      | ok m'' =>
        simp only [hd, Except.map, Except.ok.injEq] at hok
        subst hok
        simp [Mem.pageRemove, hlook, hd, bind, Except.bind, pure, Except.pure]
    · rw [if_pos rfl, ← inv.spaces_setTable he ht, Mem.spaces_congr hf]
    · have htar : m'.target dirs = (m.setEntry pt (ptx va) 0).target dirs :=
        Mem.target_congr fun _ p _ _ => by rw [hf]
      rw [htar, inv.excl.distinct.target_setTable he ht, Function.update_of_ne]
      rintro rfl
      exact hs
    · rw [hf, Mem.frame_setEntry_of_ne fun c : p = pt =>
        hns (.pde e (pdx va)) trivial (c ▸ (Mem.target_pde he).trans ht)]

omit [Fintype ι] [DecidableEq ι] in
/-- Looking up a page does not read counters. -/
theorem incRef_pageLookup : (m.incRef pp).pageLookup g va = m.pageLookup g va := by
  unfold Mem.pageLookup Mem.pgdirWalk
  simp only [Mem.incRef_entry]
  cases present (m.entry g (pdx va)) with
  | true =>
    cases hk : kaddr n (pteAddr (m.entry g (pdx va))) with
    | error _ => simp [bind, Except.bind]
    | ok pt => rfl
  | false => simp [bind, Except.bind, pure, Except.pure]

omit [DecidableEq ι] in
/-- A reference that is counted and given up at once, also when the counter wraps around. -/
theorem pageDecref_incRef (inv : MemInv S dirs x h m) {s : Slot ι}
    (hs : m.target dirs s = some pp) : (m.incRef pp).pageDecref pp = .ok m := by
  have hback : ((m.incRef pp).pages pp).ppRef - 1 = (m.pages pp).ppRef := by
    simp [Mem.incRef, Mem.setPage]
  have href : (m.pages pp).ppRef ≠ 0 := by
    intro h0
    have hpos := count_pos hs
    have heq := inv.ref_eq (inv.target_mem hs)
    rw [Mem.ref, h0, show (0 : BitVec 16).toNat = 0 from rfl] at heq
    omega
  have hm : (m.incRef pp).setPage pp ⟨((m.incRef pp).pages pp).ppLink, (m.pages pp).ppRef⟩ = m := by
    simp [Mem.incRef, Mem.setPage]
  simp only [Mem.pageDecref, hback, hm]
  rw [if_neg href]

omit [DecidableEq ι] in
/-- Permission bits leave the page of an entry alone. -/
theorem pageOf_newPte (inv : MemInv S dirs x h m) (hp : perm.toNat < 4096) (pp : Fin n) :
    pageOf n (pteAddr (page2pa pp) ||| perm ||| pteP) = some pp := pageOf_flags inv.small hp pp

omit [DecidableEq ι] in
/-- Bits that an entry for the same page already has leave the page alone, too. -/
theorem pageOf_newPte_of_subset (inv : MemInv S dirs x h m) {pte : Word}
    (hpte : pageOf n pte = some pp) (hp : perm &&& pte = perm) :
    pageOf n (pteAddr (page2pa pp) ||| perm ||| pteP) = some pp :=
  pageOf_flags_of_subset inv.small hpte hp

/-! ## Inserting a mapping -/

/-- The same page is mapped there already. -/
theorem replaceSame (inv : MemInv S dirs x h m) (he : dirs e = some g) (hva : va < utop)
    (ht : m.ptab g (pdx va) = some pt) (hsame : pageOf n (m.pte g (pdx va) (ptx va)) = some pp)
    (hw : pageOf n w = some pp) :
    ∃ m', (if present ((m.incRef pp).entry pt (ptx va)) then (m.incRef pp).pageRemove g va
        else .ok (m.incRef pp)) = .ok m' ∧
      MemInv S dirs x (h \ {pp}) (m'.setEntry pt (ptx va) w) ∧
      (m'.setEntry pt (ptx va) w).spaces dirs = setSpace (m.spaces dirs) e va w ∧
      Evolves dirs m (m'.setEntry pt (ptx va) w) := by
  have hslot := (Mem.target_pte he).trans hsame
  have hpte : m.pte g (pdx va) (ptx va) = m.entry pt (ptx va) := Mem.pte_of_ptab ht
  have hlook : (m.incRef pp).pageLookup g va = .ok (some (pp, pt, ptx va)) := by
    rw [incRef_pageLookup, inv.pageLookup he hva, hsame, ht]
    rfl
  have hheld : pp ∉ h := fun hc => by
    obtain ⟨free, -, c, -⟩ := inv.account
    have hpos := count_pos hslot
    have hzero := (c.held pp hc).2
    omega
  obtain ⟨hp, hnum⟩ := pageOf_eq_some.mp hsame
  obtain ⟨hpw, hnw⟩ := pageOf_eq_some.mp hw
  refine ⟨m.setEntry pt (ptx va) 0, ?_, ?_, ?_, ?_⟩
  · rw [Mem.incRef_entry, ← hpte, if_pos hp]
    simp [Mem.pageRemove, hlook, inv.pageDecref_incRef hslot, bind, Except.bind, pure, Except.pure]
  · rw [Mem.setEntry_setEntry, Set.sdiff_singleton_eq_self hheld]
    exact inv.retouchPte he ht (hpw.trans hp.symm) (hnw.trans hnum.symm)
  · rw [Mem.setEntry_setEntry]
    exact inv.spaces_setTable he ht
  · rw [Mem.setEntry_setEntry]
    exact (Evolves.refl dirs m).setTable inv.excl he ht

/-- The part of `page_insert` after the walk: the new reference is counted before the old one is
given up, so that inserting the same page again does not free it. -/
theorem replaceMapping (inv : MemInv S dirs x h m) (he : dirs e = some g) (hva : va < utop)
    (ht : m.ptab g (pdx va) = some pt) (hS : pp ∈ S) (hf : ¬m.OnFreeList pp)
    (hns : NotStruct m dirs pp)
    (hr : m.ref pp < 65535 ∨ pageOf n (m.pte g (pdx va) (ptx va)) = some pp)
    (hw : pageOf n w = some pp) :
    ∃ m', (if present ((m.incRef pp).entry pt (ptx va)) then (m.incRef pp).pageRemove g va
        else .ok (m.incRef pp)) = .ok m' ∧
      MemInv S dirs x (h \ {pp}) (m'.setEntry pt (ptx va) w) ∧
      (m'.setEntry pt (ptx va) w).spaces dirs = setSpace (m.spaces dirs) e va w ∧
      Evolves dirs m (m'.setEntry pt (ptx va) w) := by
  rcases hr with hr | hsame
  case inr => exact inv.replaceSame he hva ht hsame hw
  have inv₁ := inv.incRef hS (inv.account.held_or_counted hS hf) hr
  have htar₁ : (m.incRef pp).target dirs = m.target dirs := Mem.target_congr fun _ _ _ _ => rfl
  have hev₁ : Evolves dirs m (m.incRef pp) := (Evolves.refl dirs m).congr rfl rfl
  have hfree₁ : ∀ q, (m.incRef pp).OnFreeList q → m.OnFreeList q := by
    intro q hq
    obtain ⟨hqS, hq0, hqh⟩ := inv₁.onFreeList_iff.mp hq
    have hqp : q ≠ pp := by rintro rfl; simp at hq0
    rw [htar₁, Function.update_of_ne hqp] at hq0
    exact inv.onFreeList_iff.mpr ⟨hqS, hq0, fun c => hqh ⟨c, hqp⟩⟩
  have ht₁ : (m.incRef pp).ptab g (pdx va) = some pt := ht
  have hpte₁ : (m.incRef pp).entry pt (ptx va) = (m.incRef pp).pte g (pdx va) (ptx va) :=
    (Mem.pte_of_ptab ht₁).symm
  obtain ⟨m', hok, inv', hsp', hev', hgone⟩ : ∃ m',
      (if present ((m.incRef pp).entry pt (ptx va)) then (m.incRef pp).pageRemove g va
        else .ok (m.incRef pp)) = .ok m' ∧
      MemInv S dirs (Function.update x pp (x pp + 1)) (h \ {pp}) m' ∧
      setSpace (m'.spaces dirs) e va w = setSpace (m.spaces dirs) e va w ∧
      Evolves dirs (m.incRef pp) m' ∧ present (m'.pte g (pdx va) (ptx va)) = false := by
    cases hp : present ((m.incRef pp).entry pt (ptx va)) with
    | false =>
      exact ⟨m.incRef pp, by simp, inv₁, rfl, .refl dirs _, hpte₁ ▸ hp⟩
    | true =>
      obtain ⟨m', hok, inv', hsp, hev⟩ := inv₁.pageRemove he hva
      rw [← hpte₁, hp, if_pos rfl] at hsp
      refine ⟨m', by simpa using hok, inv', ?_, hev.evolves, ?_⟩
      · rw [hsp, setSpace_setSpace]; rfl
      · rw [← Mem.spaces_of_dir he, hsp]
        simp [setSpace]
  have hevm : Evolves dirs m m' := hev₁.trans hev' hfree₁
  have ht' : m'.ptab g (pdx va) = some pt :=
    (Mem.target_pde he).symm.trans
      (hevm.keep (.pde e (pdx va)) pt trivial ((Mem.target_pde he).trans ht))
  have inv₂ := inv'.linkPte he ht' hgone hw hS (by simp) (hevm.notStruct hf hns)
  rw [Function.update_self, Nat.add_sub_cancel, Function.update_idem, Function.update_eq_self]
    at inv₂
  exact ⟨m', hok, inv₂, (inv'.spaces_setTable he ht').trans hsp',
    hevm.setTable inv'.excl he ht⟩

/-- `page_insert` sets the entry for `va`; it fails for want of a page table only, and then
nothing has changed. The counter must have room for one more reference, unless the page is mapped
there already. -/
theorem pageInsert (inv : MemInv S dirs x h m) (he : dirs e = some g) (hva : va < utop)
    (hS : pp ∈ S) (hf : ¬m.OnFreeList pp) (hns : NotStruct m dirs pp)
    (hr : m.ref pp < 65535 ∨ pageOf n (m.pte g (pdx va) (ptx va)) = some pp)
    (hw : pageOf n (pteAddr (page2pa pp) ||| perm ||| pteP) = some pp) :
    (m.ptab g (pdx va) = none ∧ m.pageFreeList = none ∧
      m.pageInsert g pp va perm = .ok (-eNoMem, m)) ∨
    ∃ m', m.pageInsert g pp va perm = .ok (0, m') ∧ MemInv S dirs x (h \ {pp}) m' ∧
      m'.spaces dirs =
        setSpace (m.spaces dirs) e va (pteAddr (page2pa pp) ||| perm ||| pteP) ∧
      Evolves dirs m m' := by
  rcases inv.pgdirWalk_true he hva with ⟨ht, hl, hwalk⟩ |
    ⟨pt, m₁, hwalk, inv₁, ht₁, hsp₁, hev₁, hfree₁, href₁⟩
  · exact .inl ⟨ht, hl, by simp [Mem.pageInsert, hwalk, bind, Except.bind, pure, Except.pure]⟩
  · obtain ⟨m', hok, inv', hsp', hev'⟩ := inv₁.replaceMapping he hva ht₁ hS
      (fun c => hf (hfree₁ pp c)) (hev₁.notStruct hf hns)
      (by rwa [href₁ pp hf, ← Mem.spaces_of_dir he, hsp₁, Mem.spaces_of_dir he]) hw
    refine .inr ⟨_, ?_, inv', hsp₁ ▸ hsp', hev₁.trans hev' hfree₁⟩
    simp only [Mem.pageInsert, hwalk, bind, Except.bind, pure, Except.pure]
    split_ifs at hok ⊢
    · rw [hok]
    · cases hok; rfl

end

end MemInv

end JosKernel
