import JosKernel.Pmap.Slots

/-!
# The memory invariant

`MemInv S dirs x h m` relates the allocator to the page tables. `S` is the set of pages that the
allocator manages, `dirs` the page directories of the live address spaces, `x` the number of
references to each page that are not in a page table, and `h` the pages that were taken from the
free list and are not counted yet. Between kernel entries `h` is empty, and the counts are exact
when `x` is zero.

The lemmas are the elementary moves of `Counted`, performed on memory.
-/
namespace JosKernel

open Lib

variable {n : Nat} {ι : Type} [Fintype ι]

/-- The counter of a page. -/
def Mem.ref (m : Mem n) (p : Fin n) : Nat := (m.pages p).ppRef.toNat

/-- `page_free_list` consists of the pages of `free`, in this order. -/
def Mem.FreeList (m : Mem n) (free : List (Fin n)) : Prop :=
  ListSeg some (fun p => (m.pages p).ppLink) m.pageFreeList free none

instance (m : Mem n) (free : List (Fin n)) : Decidable (m.FreeList free) :=
  inferInstanceAs (Decidable (ListSeg ..))

/-- Counters and free list agree with the slots; pages off the list have no link. -/
def Mem.Account (m : Mem n) (S : Set (Fin n)) (f : Slot ι → Option (Fin n)) (x : Fin n → ℕ)
    (h : Set (Fin n)) : Prop :=
  ∃ free, m.FreeList free ∧ Counted S f x h free m.ref ∧
    ∀ p ∈ S, p ∉ free → (m.pages p).ppLink = none

/-- The first page off the free list. -/
def Mem.takenHead (m : Mem n) (p : Fin n) : Mem n :=
  { m with pageFreeList := (m.pages p).ppLink }.setPage p { m.pages p with ppLink := none }

theorem Mem.ref_takenHead (m : Mem n) (p : Fin n) : (m.takenHead p).ref = m.ref := by
  funext q
  by_cases hq : q = p
  · subst hq; simp [Mem.ref, Mem.takenHead, Mem.setPage]
  · simp [Mem.ref, Mem.takenHead, Mem.setPage, hq]

theorem Mem.incRef_link (m : Mem n) (p q : Fin n) :
    ((m.incRef p).pages q).ppLink = (m.pages q).ppLink := by
  by_cases hq : q = p
  · subst hq; simp [Mem.incRef, Mem.setPage]
  · simp [Mem.incRef, Mem.setPage, hq]

theorem Mem.ref_incRef {m : Mem n} {p : Fin n} (hr : m.ref p < 65535) :
    (m.incRef p).ref = Function.update m.ref p (m.ref p + 1) := by
  funext q
  by_cases hq : q = p
  · subst hq
    simp only [Mem.ref] at hr
    simp [Mem.ref, Mem.incRef, Mem.setPage, BitVec.toNat_add]
    omega
  · simp [Mem.ref, Mem.incRef, Mem.setPage, hq]

namespace Mem.Account

variable {S h : Set (Fin n)} {f : Slot ι → Option (Fin n)} {x : Fin n → ℕ} {m : Mem n} {p : Fin n}

/-- The frames do not matter. -/
theorem congr {m' : Mem n} (acc : m.Account S f x h) (hp : m'.pages = m.pages)
    (hl : m'.pageFreeList = m.pageFreeList) : m'.Account S f x h := by
  obtain ⟨free, hfree, c, hlink⟩ := acc
  have href : m'.ref = m.ref := by
    funext q
    rw [Mem.ref, hp, Mem.ref]
  refine ⟨free, ?_, href ▸ c, fun q hq hqf => by rw [hp]; exact hlink q hq hqf⟩
  rw [Mem.FreeList, hp, hl]
  exact hfree

/-- The page is held from then on. -/
theorem takeHead (acc : m.Account S f x h) (hl : m.pageFreeList = some p) :
    (m.takenHead p).Account S f x (insert p h) := by
  obtain ⟨free, hfree, c, hlink⟩ := acc
  unfold Mem.FreeList at hfree
  rw [hl] at hfree
  obtain ⟨l, rfl, hseg⟩ := hfree.of_node (Option.some_injective _) (by simp)
  have hp : p ∉ l := (List.nodup_cons.mp c.nodup).1
  refine ⟨l, ?_, ?_, ?_⟩
  · refine hseg.congr fun a ha => ?_
    have hne : a ≠ p := ne_of_mem_of_not_mem ha hp
    simp [Mem.takenHead, Mem.setPage, hne]
  · rw [Mem.ref_takenHead]
    exact c.alloc
  · intro q hq hql
    by_cases hqp : q = p
    · subst hqp; simp [Mem.takenHead, Mem.setPage]
    · simpa [Mem.takenHead, Mem.setPage, hqp] using hlink q hq (by simp [hqp, hql])

/-- Counting one more reference. -/
theorem incRef (acc : m.Account S f x h) (hS : p ∈ S) (hp : p ∈ h ∨ 0 < count f p + x p)
    (hr : m.ref p < 65535) :
    (m.incRef p).Account S f (Function.update x p (x p + 1)) (h \ {p}) := by
  obtain ⟨free, hfree, c, hlink⟩ := acc
  have hnf : p ∉ free := by
    rcases hp with hp | hp
    · exact fun hm => ((c.mem_free p).mp hm).2.2 hp
    · exact c.not_mem_free hp
  refine ⟨free, hfree.congr fun a _ => Mem.incRef_link m p a, ?_, fun q hq hqf => ?_⟩
  · rw [Mem.ref_incRef hr]
    exact c.incr hS hnf
  · rw [Mem.incRef_link]
    exact hlink q hq hqf

/-- Giving up an outside reference; the page is freed with its last one. -/
theorem pageDecref (acc : m.Account S f x h) (hS : p ∈ S) (hx : 0 < x p) :
    ∃ m', m.pageDecref p = .ok m' ∧ m'.frame = m.frame ∧ m'.kernPgdir = m.kernPgdir ∧
      m'.Account S f (Function.update x p (x p - 1)) h := by
  obtain ⟨free, hfree, c, hlink⟩ := acc
  have href := c.ref_eq p hS
  have hpos : 0 < count f p + x p := by omega
  have hnf := c.not_mem_free hpos
  have hlp := hlink p hS hnf
  simp only [Mem.ref] at href
  -- the counter after the decrement
  have hdec : ((m.pages p).ppRef - 1).toNat = (m.pages p).ppRef.toNat - 1 := by
    have := (m.pages p).ppRef.isLt
    rw [BitVec.toNat_sub]
    simp
    omega
  by_cases hlast : (m.pages p).ppRef.toNat = 1
  · have hz : (m.pages p).ppRef - 1 = 0 := BitVec.eq_of_toNat_eq (by rw [hdec, hlast]; rfl)
    have h0 : count f p = 0 := by omega
    have hx1 : x p = 1 := by omega
    let m' : Mem n := { m.setPage p { ppLink := m.pageFreeList, ppRef := 0 } with
      pageFreeList := some p }
    have hlink' : ∀ q, q ≠ p → (m'.pages q) = m.pages q :=
      fun q hq => by simp [m', Mem.setPage, hq]
    have hok : m.pageDecref p = .ok m' := by
      simp only [Mem.pageDecref, Mem.pageFree, Mem.setPage, Function.update_self, hz, hlp,
        Function.update_idem]
      simp [m', Mem.setPage]
    refine ⟨m', hok, rfl, rfl, p :: free, ⟨rfl, ?_⟩, ?_, ?_⟩
    · have : (m'.pages p).ppLink = m.pageFreeList := by simp [m', Mem.setPage]
      show ListSeg _ _ (m'.pages p).ppLink _ _
      rw [this]
      exact hfree.congr fun a ha => by rw [hlink' a (ne_of_mem_of_not_mem ha hnf)]
    · have hr : m'.ref = Function.update m.ref p 0 := by
        funext q
        by_cases hq : q = p
        · subst hq; simp [Mem.ref, m', Mem.setPage]
        · rw [Function.update_of_ne hq]; simp only [Mem.ref, hlink' q hq]
      rw [hr, hx1]
      exact c.decr_last hS h0 hx1
    · intro q hq hqf
      rw [List.mem_cons, not_or] at hqf
      rw [hlink' q hqf.1]
      exact hlink q hq hqf.2
  · have hz : (m.pages p).ppRef - 1 ≠ 0 := fun hc => by
      have : ((m.pages p).ppRef - 1).toNat = 0 := by rw [hc]; rfl
      omega
    let m' : Mem n := m.setPage p { m.pages p with ppRef := (m.pages p).ppRef - 1 }
    have hsame : ∀ q, (m'.pages q).ppLink = (m.pages q).ppLink := by
      intro q
      by_cases hq : q = p
      · subst hq; simp [m', Mem.setPage]
      · simp [m', Mem.setPage, hq]
    have hok : m.pageDecref p = .ok m' := by
      have hz' : (((m.setPage p { m.pages p with ppRef := (m.pages p).ppRef - 1 }).pages p)).ppRef
          ≠ 0 := by simpa [Mem.setPage] using hz
      simp only [Mem.pageDecref]
      rw [if_neg hz']
    refine ⟨m', hok, rfl, rfl, free, hfree.congr fun a _ => hsame a, ?_, fun q hq hqf => ?_⟩
    · have hr : m'.ref = Function.update m.ref p (m.ref p - 1) := by
        funext q
        by_cases hq : q = p
        · subst hq; simp only [Mem.ref, m', Mem.setPage, Function.update_self]; exact hdec
        · simp [Mem.ref, m', Mem.setPage, hq]
      rw [hr]
      exact c.decr hx (by omega) hS
    · rw [hsame]
      exact hlink q hq hqf

end Mem.Account

/-- A directory entry that leaves all permissions to the table. -/
def UserPde (w : Word) : Prop := w &&& (pteP ||| pteW ||| pteU) = pteP ||| pteW ||| pteU

/-- The kernel's own directory above `UTOP`: tables in memory, and those below `ULIM` leave all
permissions to the table. -/
def KernHigh (m : Mem n) : Prop :=
  ∀ d : Fin 1024, userPdes ≤ (d : Nat) → d ≠ pdx uvpt → present (m.entry m.kernPgdir d) = true →
    pgnum (m.entry m.kernPgdir d) < n ∧ (d < pdx ulim → UserPde (m.entry m.kernPgdir d))

/-- Directory entry `d` above `UTOP`: that of the kernel, except for the window at `UVPT`. -/
def highPde (m : Mem n) (g : Fin n) (d : Fin 1024) : Word :=
  if d = pdx uvpt then page2pa g ||| pteP ||| pteU else m.entry m.kernPgdir d

structure MemInv (S : Set (Fin n)) (dirs : ι → Option (Fin n)) (x : Fin n → ℕ) (h : Set (Fin n))
    (m : Mem n) : Prop where
  small : n ≤ 2 ^ 20
  account : m.Account S (m.target dirs) x h
  excl : Exclusive m dirs
  kern : m.kernPgdir ∉ S
  kernUser : ∀ d : Fin 1024, (d : Nat) < userPdes → present (m.entry m.kernPgdir d) = false
  kernHigh : KernHigh m
  dirHigh : ∀ e g (d : Fin 1024), dirs e = some g → userPdes ≤ (d : Nat) →
    m.entry g d = highPde m g d
  pdeOk : ∀ e g (d : Fin 1024), dirs e = some g → (d : Nat) < userPdes →
    present (m.entry g d) = true → pgnum (m.entry g d) < n ∧ UserPde (m.entry g d)
  pteOk : ∀ e g d t, dirs e = some g → present (m.pte g d t) = true → pgnum (m.pte g d t) < n

/-- No directory or table slot refers to `p`. -/
def NotStruct (m : Mem n) (dirs : ι → Option (Fin n)) (p : Fin n) : Prop :=
  ∀ s : Slot ι, s.Struct → m.target dirs s ≠ some p

namespace MemInv

variable {S h h' : Set (Fin n)} {dirs : ι → Option (Fin n)} {x x' : Fin n → ℕ} {m m' : Mem n}
  {e : ι} {g p pt : Fin n} {d t : Fin 1024} {w : Word}

/-- The kernel's half of the directories depends on the kernel's directory only. -/
theorem high_of_entry (inv : MemInv S dirs x h m) (m' : Mem n) (hk : m'.kernPgdir = m.kernPgdir)
    (hkern : ∀ d, m'.entry m.kernPgdir d = m.entry m.kernPgdir d)
    (hdir : ∀ e g (d : Fin 1024), dirs e = some g → userPdes ≤ (d : Nat) →
      m'.entry g d = m.entry g d) :
    KernHigh m' ∧ ∀ e g (d : Fin 1024), dirs e = some g → userPdes ≤ (d : Nat) →
      m'.entry g d = highPde m' g d := by
  constructor
  · intro d
    rw [hk, hkern]
    exact inv.kernHigh d
  · intro e g d he hd
    rw [hdir e g d he hd, inv.dirHigh e g d he hd, highPde, highPde, hk, hkern]

theorem target_mem (inv : MemInv S dirs x h m) {s : Slot ι} (hs : m.target dirs s = some p) :
    p ∈ S := by
  obtain ⟨free, -, c, -⟩ := inv.account
  exact c.target_mem s p hs

theorem dir_mem (inv : MemInv S dirs x h m) (he : dirs e = some g) : g ∈ S :=
  inv.target_mem (s := .dir e) he

theorem table_mem (inv : MemInv S dirs x h m) (he : dirs e = some g)
    (ht : m.ptab g d = some pt) : pt ∈ S :=
  inv.target_mem (s := .pde e d) ((Mem.target_pde he).trans ht)

theorem ne_kern (inv : MemInv S dirs x h m) (hp : p ∈ S) : m.kernPgdir ≠ p :=
  fun c => inv.kern (c ▸ hp)

/-- A page that a table entry maps is not structural. -/
theorem notStruct_of_pte (inv : MemInv S dirs x h m) (he : dirs e = some g)
    (hp : pageOf n (m.pte g d t) = some p) : NotStruct m dirs p := by
  intro s hs hsp
  have := inv.excl s (.pte e d t) p hs hsp ((Mem.target_pte he).trans hp)
  subst this
  exact hs

theorem ref_eq (inv : MemInv S dirs x h m) (hp : p ∈ S) :
    m.ref p = count (m.target dirs) p + x p := by
  obtain ⟨free, -, c, -⟩ := inv.account
  exact c.ref_eq p hp

/-- A present directory entry has a page table. -/
theorem ptab_of_present (inv : MemInv S dirs x h m) (he : dirs e = some g)
    (hd : (d : Nat) < userPdes) (hp : present (m.entry g d) = true) :
    ∃ pt, m.ptab g d = some pt ∧ pgnum (m.entry g d) = pt := by
  have hlt := (inv.pdeOk e g d he hd hp).1
  exact ⟨⟨_, hlt⟩, (Mem.ptab_eq hd).trans (pageOf_eq_some.mpr ⟨hp, rfl⟩), rfl⟩

theorem page_of_present (inv : MemInv S dirs x h m) (he : dirs e = some g)
    (hp : present (m.pte g d t) = true) :
    ∃ p, pageOf n (m.pte g d t) = some p ∧ pgnum (m.pte g d t) = p := by
  have hlt := inv.pteOk e g d t he hp
  exact ⟨⟨_, hlt⟩, pageOf_eq_some.mpr ⟨hp, rfl⟩, rfl⟩

/-! ## Moves that leave the frames alone -/

/-- Replacing the allocator's data. -/
theorem withAccount (inv : MemInv S dirs x h m) (hf : m'.frame = m.frame)
    (hk : m'.kernPgdir = m.kernPgdir) (acc : m'.Account S (m.target dirs) x' h') :
    MemInv S dirs x' h' m' := by
  have ht : m'.target dirs = m.target dirs := Mem.target_congr fun _ p _ _ => by rw [hf]
  have he : m'.entry = m.entry := by funext p i; simp [Mem.entry, hf]
  exact
    { small := inv.small
      account := ht ▸ acc
      excl := fun s s' p => by rw [ht]; exact inv.excl s s' p
      kern := by rw [hk]; exact inv.kern
      kernUser := by rw [hk, he]; exact inv.kernUser
      kernHigh := (inv.high_of_entry m' hk (by simp [he]) (by simp [he])).1
      dirHigh := (inv.high_of_entry m' hk (by simp [he]) (by simp [he])).2
      pdeOk := by rw [he]; exact inv.pdeOk
      pteOk := fun e g d t hg => by
        have hpte : m'.pte g d t = m.pte g d t :=
          Mem.pte_congr (by rw [hf]) fun pt _ => by rw [hf]
        rw [hpte]
        exact inv.pteOk e g d t hg }

/-- Taking the first page off the free list. -/
theorem takeHead (inv : MemInv S dirs x h m) (hl : m.pageFreeList = some p) :
    MemInv S dirs x (insert p h) (m.takenHead p) :=
  inv.withAccount rfl rfl (inv.account.takeHead hl)

/-- Counting one more reference. -/
theorem incRef (inv : MemInv S dirs x h m) (hS : p ∈ S)
    (hp : p ∈ h ∨ 0 < count (m.target dirs) p + x p) (hr : m.ref p < 65535) :
    MemInv S dirs (Function.update x p (x p + 1)) (h \ {p}) (m.incRef p) :=
  inv.withAccount rfl rfl (inv.account.incRef hS hp hr)

/-- Giving up an outside reference under the invariant. -/
theorem pageDecref (inv : MemInv S dirs x h m) (hS : p ∈ S) (hx : 0 < x p) :
    ∃ m', m.pageDecref p = .ok m' ∧ m'.frame = m.frame ∧ m'.kernPgdir = m.kernPgdir ∧
      MemInv S dirs (Function.update x p (x p - 1)) h m' := by
  obtain ⟨m', hok, hf, hk, acc⟩ := inv.account.pageDecref hS hx
  exact ⟨m', hok, hf, hk, inv.withAccount hf hk acc⟩

/-! ## Moves on frames -/

/-- Overwriting a page that is neither a directory nor a table. -/
theorem setFrame (inv : MemInv S dirs x h m) (hns : NotStruct m dirs p) (hS : p ∈ S)
    (f : Frame) : MemInv S dirs x h (m.setFrame p f) := by
  have hframe : ∀ q, q ≠ p → (m.setFrame p f).frame q = m.frame q :=
    fun q hq => Function.update_of_ne hq ..
  have hst : ∀ (s : Slot ι) (q : Fin n), s.Struct → m.target dirs s = some q →
      (m.setFrame p f).frame q = m.frame q :=
    fun s q hs hq => hframe q fun c => hns s hs (c ▸ hq)
  have ht := Mem.target_congr hst
  have hdir : ∀ e g, dirs e = some g → (m.setFrame p f).frame g = m.frame g :=
    fun e g he => hst (.dir e) g trivial he
  have hhigh := inv.high_of_entry (m.setFrame p f) rfl
    (fun d => by simp only [Mem.entry, hframe _ (inv.ne_kern hS)])
    fun e g d he _ => by simp only [Mem.entry, hdir e g he]
  refine ⟨inv.small, ht ▸ inv.account, ?_, inv.kern, ?_, hhigh.1, hhigh.2, ?_, ?_⟩
  · intro s s' q
    rw [ht]
    exact inv.excl s s' q
  · intro d hd
    have := hframe _ (inv.ne_kern hS)
    simpa [Mem.entry, this] using inv.kernUser d hd
  · intro e g d he
    simpa only [Mem.entry, hdir e g he] using inv.pdeOk e g d he
  · intro e g d t he
    rw [Mem.pte_congr (hdir e g he) fun pt hpt =>
      hst (.pde e d) pt trivial ((Mem.target_pde he).trans hpt)]
    exact inv.pteOk e g d t he

section
variable [DecidableEq ι]

/-- Writing a table entry that maps a valid page or none. -/
theorem setTable (inv : MemInv S dirs x h m) (he : dirs e = some g) (ht : m.ptab g d = some pt)
    (hw : present w = true → pgnum w < n)
    (hns : ∀ p, pageOf n w = some p → NotStruct m dirs p)
    (acc : m.Account S (Function.update (m.target dirs) (.pte e d t) (pageOf n w)) x' h') :
    MemInv S dirs x' h' (m.setEntry pt t w) := by
  have htar := inv.excl.distinct.target_setTable (t := t) (w := w) he ht
  have hold : ∀ s : Slot ι, s.Struct → (m.setEntry pt t w).target dirs s = m.target dirs s := by
    intro s hs
    rw [htar, Function.update_of_ne]
    rintro rfl
    exact hs
  have hhigh := inv.high_of_entry (m.setEntry pt t w) rfl
    (fun d => by rw [Mem.entry_setEntry, if_neg fun c => inv.ne_kern (inv.table_mem he ht) c.1])
    fun e' g' d' he' _ => by
      rw [Mem.entry_setEntry, if_neg fun c => inv.excl.distinct.table_ne_dir he ht he' c.1.symm]
  refine ⟨inv.small, htar ▸ acc, ?_, inv.kern, ?_, hhigh.1, hhigh.2, ?_, ?_⟩
  · intro s s' p hs hp hp'
    rw [hold s hs] at hp
    rw [htar, Function.update_apply] at hp'
    split_ifs at hp' with hc
    · exact absurd hp (hns p hp' s hs)
    · exact inv.excl s s' p hs hp hp'
  · intro d' hd'
    rw [Mem.setEntry_kernPgdir, Mem.entry_setEntry,
      if_neg fun c => inv.ne_kern (inv.table_mem he ht) c.1]
    exact inv.kernUser d' hd'
  · intro e' g' d' he'
    rw [Mem.entry_setEntry, if_neg fun c => inv.excl.distinct.table_ne_dir he ht he' c.1.symm]
    exact inv.pdeOk e' g' d' he'
  · intro e' g' d' t' he'
    rw [inv.excl.distinct.pte_setTable he ht he']
    split_ifs
    · exact hw
    · exact inv.pteOk e' g' d' t' he'

/-- An outside reference to a page becomes a mapping. -/
theorem linkPte (inv : MemInv S dirs x h m) (he : dirs e = some g) (ht : m.ptab g d = some pt)
    (hold : present (m.pte g d t) = false) (hw : pageOf n w = some p) (hS : p ∈ S) (hx : 0 < x p)
    (hns : NotStruct m dirs p) :
    MemInv S dirs (Function.update x p (x p - 1)) h (m.setEntry pt t w) := by
  refine inv.setTable he ht (fun _ => ?_) (fun q hq => ?_) ?_
  · rw [(pageOf_eq_some.mp hw).2]; exact p.isLt
  · obtain rfl : p = q := Option.some.inj (hw.symm.trans hq)
    exact hns
  · obtain ⟨free, hfree, c, hlink⟩ := inv.account
    have hempty : m.target dirs (.pte e d t) = none :=
      (Mem.target_pte he).trans (pageOf_of_not_present hold)
    rw [hw]
    exact ⟨free, hfree, c.link hS hempty hx, hlink⟩

/-- Clearing a mapping leaves an outside reference to its page. -/
theorem unlinkPte (inv : MemInv S dirs x h m) (he : dirs e = some g) (ht : m.ptab g d = some pt)
    (hold : pageOf n (m.pte g d t) = some p) (hw : present w = false) :
    MemInv S dirs (Function.update x p (x p + 1)) h (m.setEntry pt t w) := by
  refine inv.setTable he ht (fun c => by simp [hw] at c)
    (fun q hq => by simp [pageOf_of_not_present hw] at hq) ?_
  obtain ⟨free, hfree, c, hlink⟩ := inv.account
  rw [pageOf_of_not_present hw]
  exact ⟨free, hfree, c.unlink ((Mem.target_pte he).trans hold), hlink⟩

/-- Changing an entry without changing the page that it maps. -/
theorem retouchPte (inv : MemInv S dirs x h m) (he : dirs e = some g)
    (ht : m.ptab g d = some pt) (hp : present w = present (m.pte g d t))
    (hn : pgnum w = pgnum (m.pte g d t)) : MemInv S dirs x h (m.setEntry pt t w) := by
  have hw : pageOf n w = pageOf n (m.pte g d t) := by simp only [pageOf, hp, hn]
  refine inv.setTable he ht (fun c => ?_) (fun q hq => ?_) ?_
  · rw [hn]; exact inv.pteOk e g d t he (hp ▸ c)
  · exact inv.notStruct_of_pte he (hw ▸ hq)
  · rw [hw, ← Mem.target_pte he, Function.update_eq_self]
    exact inv.account

/-- Writing a user directory entry whose table entries are as before. -/
theorem setDir (inv : MemInv S dirs x h m) (he : dirs e = some g) (hd : (d : Nat) < userPdes)
    (same : ∀ t, present (m.pte g d t) = false → present ((m.setEntry g d w).pte g d t) = false)
    (same' : ∀ t, present (m.pte g d t) = true → (m.setEntry g d w).pte g d t = m.pte g d t)
    (hw : present w = true → pgnum w < n ∧ UserPde w)
    (hfresh : ∀ p, pageOf n w = some p → ∀ s, s ≠ .pde e d → m.target dirs s ≠ some p)
    (acc : m.Account S (Function.update (m.target dirs) (.pde e d) (pageOf n w)) x' h') :
    MemInv S dirs x' h' (m.setEntry g d w) := by
  have hpage : ∀ t, pageOf n ((m.setEntry g d w).pte g d t) = pageOf n (m.pte g d t) := by
    intro t
    cases hp : present (m.pte g d t) with
    | false => rw [pageOf_of_not_present hp, pageOf_of_not_present (same t hp)]
    | true => rw [same' t hp]
  have htar := inv.excl.distinct.target_setDir (w := w) he hd hpage
  have hhigh := inv.high_of_entry (m.setEntry g d w) rfl
    (fun d => by rw [Mem.entry_setEntry, if_neg fun c => inv.ne_kern (inv.dir_mem he) c.1])
    fun e' g' d' _ hd' => by
      rw [Mem.entry_setEntry, if_neg fun c => by rw [c.2] at hd'; omega]
  refine ⟨inv.small, htar ▸ acc, ?_, inv.kern, ?_, hhigh.1, hhigh.2, ?_, ?_⟩
  · intro s s' p hs hp hp'
    rw [htar, Function.update_apply] at hp hp'
    split_ifs at hp hp' with hc hc' hc'
    · rw [hc, hc']
    · exact absurd hp' (hfresh p hp s' hc')
    · exact absurd hp (hfresh p hp' s hc)
    · exact inv.excl s s' p hs hp hp'
  · intro d' hd'
    rw [Mem.setEntry_kernPgdir, Mem.entry_setEntry,
      if_neg fun c => inv.ne_kern (inv.dir_mem he) c.1]
    exact inv.kernUser d' hd'
  · intro e' g' d' he' hd'
    rw [Mem.entry_setEntry]
    split_ifs
    · exact hw
    · exact inv.pdeOk e' g' d' he' hd'
  · intro e' g' d' t' he' hp
    by_cases hc : e' = e ∧ d' = d
    · obtain ⟨rfl, rfl⟩ := hc
      obtain rfl : g' = g := Option.some.inj (he'.symm.trans he)
      cases hq : present (m.pte g' d' t') with
      | false => simp [same t' hq] at hp
      | true =>
        rw [same' t' hq]
        exact inv.pteOk e' g' d' t' he' hq
    · rw [inv.excl.distinct.pte_setDir he he' hd hc] at hp ⊢
      exact inv.pteOk e' g' d' t' he' hp

/-- An outside reference to a zeroed page becomes a page table. -/
theorem linkPde (inv : MemInv S dirs x h m) (he : dirs e = some g) (hd : (d : Nat) < userPdes)
    (hold : present (m.entry g d) = false) (hw : pageOf n w = some p) (hu : UserPde w)
    (hS : p ∈ S) (hx : 0 < x p) (hfresh : ∀ s, m.target dirs s ≠ some p)
    (hzero : ∀ t, present (m.entry p t) = false) :
    MemInv S dirs (Function.update x p (x p - 1)) h (m.setEntry g d w) := by
  have hnone : m.ptab g d = none := (Mem.ptab_eq hd).trans (pageOf_of_not_present hold)
  have hpg : p ≠ g := fun c => hfresh (.dir e) (c ▸ he)
  have hnew : (m.setEntry g d w).ptab g d = some p := by
    rw [inv.excl.distinct.ptab_setDir he he hd, if_pos ⟨rfl, rfl⟩, hw]
  refine inv.setDir he hd (fun t _ => ?_) (fun t hp => ?_) (fun _ => ?_) (fun q hq s _ => ?_) ?_
  · rw [Mem.pte_of_ptab hnew, Mem.entry_setEntry, if_neg fun c => hpg c.1]
    exact hzero t
  · simp [Mem.pte_of_no_ptab hnone] at hp
  · refine ⟨?_, hu⟩
    rw [(pageOf_eq_some.mp hw).2]
    exact p.isLt
  · obtain rfl : p = q := Option.some.inj (hw.symm.trans hq)
    exact hfresh s
  · obtain ⟨free, hfree, c, hlink⟩ := inv.account
    rw [hw]
    exact ⟨free, hfree, c.link hS ((Mem.target_pde he).trans hnone) hx, hlink⟩

/-! ## Page directories -/

/-- An outside reference to a page with an empty user half becomes a page directory. -/
theorem addDir (inv : MemInv S dirs x h m) (he : dirs e = none) (hS : g ∈ S) (hx : 0 < x g)
    (hfresh : ∀ s, m.target dirs s ≠ some g)
    (hempty : ∀ d : Fin 1024, (d : Nat) < userPdes → present (m.entry g d) = false)
    (hhigh : ∀ d : Fin 1024, userPdes ≤ (d : Nat) → m.entry g d = highPde m g d) :
    MemInv S (Function.update dirs e (some g)) (Function.update x g (x g - 1)) h m := by
  have hnone : ∀ d, m.ptab g d = none := fun d => by
    by_cases hd : (d : Nat) < userPdes
    · rw [Mem.ptab_eq hd, pageOf_of_not_present (hempty d hd)]
    · simp [Mem.ptab, hd]
  have htar : m.target (Function.update dirs e (some g)) =
      Function.update (m.target dirs) (.dir e) (some g) := by
    funext s
    cases s with
    | dir e' => by_cases hc : e' = e <;> simp [hc]
    | pde e' d =>
      by_cases hc : e' = e
      · subst hc; simp [Mem.target, hnone, he]
      · simp [Mem.target, hc]
    | pte e' d t =>
      by_cases hc : e' = e
      · subst hc; simp [Mem.target, Mem.pte_of_no_ptab (hnone d), he]
      · simp [Mem.target, hc]
  refine ⟨inv.small, ?_, ?_, inv.kern, inv.kernUser, inv.kernHigh, ?_, ?_, ?_⟩
  · obtain ⟨free, hfree, c, hlink⟩ := inv.account
    rw [htar]
    exact ⟨free, hfree, c.link hS he hx, hlink⟩
  · intro s s' p hs hp hp'
    rw [htar, Function.update_apply] at hp hp'
    split_ifs at hp hp' with hc hc' hc'
    · rw [hc, hc']
    · cases hp; exact absurd hp' (hfresh s')
    · cases hp'; exact absurd hp (hfresh s)
    · exact inv.excl s s' p hs hp hp'
  · intro e' g' d he'
    rw [Function.update_apply] at he'
    split_ifs at he' with hc
    · cases he'; exact hhigh d
    · exact inv.dirHigh e' g' d he'
  · intro e' g' d he' hd
    rw [Function.update_apply] at he'
    split_ifs at he' with hc
    · cases he'; intro c; simp [hempty d hd] at c
    · exact inv.pdeOk e' g' d he' hd
  · intro e' g' d t he'
    rw [Function.update_apply] at he'
    split_ifs at he' with hc
    · cases he'; intro c; simp [Mem.pte_of_no_ptab (hnone d)] at c
    · exact inv.pteOk e' g' d t he'

end

end MemInv

end JosKernel
