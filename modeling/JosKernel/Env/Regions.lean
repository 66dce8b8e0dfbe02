import JosKernel.Env.PageCalls
import JosKernel.Pmap.Insert
import JosKernel.Pmap.MemMove

/-!
# Regions of fresh pages

`region_alloc` where nothing is mapped yet. Each page of the region takes a page off the free
list, and a second one where a page table is missing; `need` counts both, so that memory lasts for
a region and for what is still to come when it lasts for all of it. Every page is mapped once and
is referred to by nothing else.
-/
namespace JosKernel

open Lib

variable {n : Nat}

namespace Mem

variable {m m' : Mem n} {g p pp : Fin n} {va perm : Word} {vas : List Word} {free : List (Fin n)}

/-! ## Counting pages -/

/-- The pages that it takes to map pages at `vas`: the pages themselves and missing tables. -/
def need (m : Mem n) (g : Fin n) (vas : List Word) : ℕ :=
  vas.length + ((vas.map pdx).toFinset.filter fun d => m.ptab g d = none).card

/-- What is left when the first page has been mapped. -/
theorem need_cons (vas : List Word) (keep : ∀ d, m'.ptab g d = none → m.ptab g d = none)
    (made : m'.ptab g (pdx va) ≠ none) :
    m'.need g vas + 1 + (if m.ptab g (pdx va) = none then 1 else 0) ≤ m.need g (va :: vas) := by
  unfold need
  set T := (vas.map pdx).toFinset with hT
  have hins : ((va :: vas).map pdx).toFinset = insert (pdx va) T := by simp [hT]
  rw [hins, List.length_cons]
  have hsub : T.filter (fun d => m'.ptab g d = none) ⊆
      ((insert (pdx va) T).filter fun d => m.ptab g d = none).erase (pdx va) := by
    intro d hd
    obtain ⟨hdT, hnone⟩ := Finset.mem_filter.mp hd
    refine Finset.mem_erase.mpr ⟨fun hc => made (hc ▸ hnone), Finset.mem_filter.mpr ⟨?_, ?_⟩⟩
    · exact Finset.mem_insert_of_mem hdT
    · exact keep d hnone
  have hcard := Finset.card_le_card hsub
  split_ifs with ht
  · have hmem : pdx va ∈ (insert (pdx va) T).filter fun d => m.ptab g d = none :=
      Finset.mem_filter.mpr ⟨Finset.mem_insert_self .., ht⟩
    have hpos := Finset.card_pos.mpr ⟨_, hmem⟩
    rw [Finset.card_erase_of_mem hmem] at hcard
    omega
  · have hle := hcard.trans (Finset.card_le_card (Finset.erase_subset ..))
    omega

/-- The first page and its table. -/
theorem le_need_cons :
    1 + (if m.ptab g (pdx va) = none then 1 else 0) ≤ m.need g (va :: vas) := by
  unfold need
  rw [List.length_cons]
  split_ifs with ht
  · have hmem : pdx va ∈ (((va :: vas).map pdx).toFinset.filter fun d => m.ptab g d = none) :=
      Finset.mem_filter.mpr ⟨by simp, ht⟩
    have hpos := Finset.card_pos.mpr ⟨_, hmem⟩
    omega
  · omega

/-! ## The free list -/

theorem FreeList.incRef (h : m.FreeList free) (pp : Fin n) : (m.incRef pp).FreeList free :=
  ListSeg.congr h fun p _ => incRef_link m pp p

theorem FreeList.takenHead (h : m.FreeList (p :: free)) (hp : p ∉ free) :
    (m.takenHead p).FreeList free := by
  refine h.2.congr fun q hq => ?_
  have hne : q ≠ p := ne_of_mem_of_not_mem hq hp
  simp [Mem.takenHead, Mem.setPage, hne]

/-- Where nothing is mapped, `page_insert` takes a page for a missing table only. -/
theorem FreeList.pageInsert_new (h : m.FreeList free) (hnd : free.Nodup) (small : n ≤ 2 ^ 20)
    (htab : present (m.entry g (pdx va)) = true → m.table g (pdx va) ≠ none)
    (hnew : present (m.pteAt g (pdx va) (ptx va)) = false) (hg : g ∉ free)
    (hok : m.pageInsert g pp va perm = .ok (0, m')) :
    m'.FreeList (if m.table g (pdx va) = none then free.tail else free) := by
  cases ht : m.table g (pdx va) with
  | some pt =>
    rw [pteAt_of_table ht] at hnew
    rw [pageInsert_eq (pgdirWalk_of_table ht true) ht (by simp [hnew])
      (by simp [pageOf_of_not_present hnew]), pageOf_of_not_present hnew] at hok
    cases hok
    exact h.incRef pp
  | none =>
    have hp : present (m.entry g (pdx va)) = false := by
      by_contra hc
      exact htab (by simpa using hc) ht
    cases hl : m.pageFreeList with
    | none =>
      rw [Mem.pageInsert, pgdirWalk_of_full hp hl] at hok
      cases hok
    | some p =>
      obtain ⟨l, rfl⟩ : ∃ l, free = p :: l := by
        unfold FreeList at h
        rw [hl] at h
        obtain ⟨l, rfl, -⟩ := h.of_node (Option.some_injective _) (by simp)
        exact ⟨l, rfl⟩
      obtain ⟨hpl, -⟩ := List.nodup_cons.mp hnd
      obtain ⟨m₁, hwalk, hl₁, made⟩ :=
        Tables.madeTable hl (fun hc => hg (hc ▸ List.mem_cons_self)) small hp
      have hold := made.zero (ptx va)
      have hnone : pageOf n (m₁.entry p (ptx va)) = none := by rw [hold, pageOf_zero]
      rw [pageInsert_eq hwalk (made.pageOf_entry small) (by simp [hold]) (by simp [hnone]),
        hnone] at hok
      cases hok
      refine FreeList.incRef ?_ pp
      rw [FreeList, hl₁]
      exact h.2.congr fun q hq => by rw [made.link (ne_of_mem_of_not_mem hq hpl)]

end Mem

/-! ## Mapping fresh pages -/

section
variable {ι : Type} {S : Set (Fin n)} {dirs : ι → Option (Fin n)} {m m' m₁ : Mem n} {e : ι}
  {g pp : Fin n} {va : Word} {vas rest : List Word} {free : List (Fin n)}

/-- Pages have been mapped at the addresses `vas`, and the others are as they were. -/
structure Populated (dirs : ι → Option (Fin n)) (e : ι) (vas : List Word) (m m' : Mem n) :
    Prop where
  new : ∀ va ∈ vas, ∃ pp : Fin n,
    m'.spaces dirs e (pdx va) (ptx va) = newPte pp (pteW ||| pteU)
  old : ∀ d t, (∀ va ∈ vas, ¬(d = pdx va ∧ t = ptx va)) →
    m'.spaces dirs e d t = m.spaces dirs e d t
  once : MappedOnce n (m.spaces dirs e) → MappedOnce n (m'.spaces dirs e)
  evolves : Evolves dirs m m'

theorem Populated.nil : Populated dirs e [] m m :=
  ⟨by simp, fun _ _ _ => rfl, id, .refl dirs m⟩

theorem Populated.cons (h : Populated dirs e [va] m m₁) (h' : Populated dirs e vas m₁ m')
    (hva : ∀ va' ∈ vas, ¬(pdx va = pdx va' ∧ ptx va = ptx va'))
    (hfree : ∀ p, m₁.OnFreeList p → m.OnFreeList p) : Populated dirs e (va :: vas) m m' where
  new a ha := by
    rcases List.mem_cons.mp ha with rfl | ha
    · rw [h'.old _ _ hva]
      exact h.new a (List.mem_singleton.mpr rfl)
    · exact h'.new a ha
  old d t hdt := by
    rw [h'.old d t fun a ha => hdt a (List.mem_cons_of_mem va ha), h.old d t fun a ha => ?_]
    rw [List.mem_singleton.mp ha]
    exact hdt va List.mem_cons_self
  once := h'.once ∘ h.once
  evolves := h.evolves.trans h'.evolves hfree

variable [Fintype ι] [DecidableEq ι]

/-- The page `pp`, which nothing refers to, has been mapped at `va`. -/
theorem Populated.single (inv : MemInv S dirs 0 ∅ m) (he : dirs e = some g) (hpp : m.OnFreeList pp)
    (hsp : m'.spaces dirs = setSpace (m.spaces dirs) e va (newPte pp (pteW ||| pteU)))
    (hev : Evolves dirs m m') : Populated dirs e [va] m m' := by
  have hw : pageOf n (newPte pp (pteW ||| pteU)) = some pp := inv.pageOf_newPte (by decide) pp
  have hfresh : ∀ d t, pageOf n (m.spaces dirs e d t) ≠ some pp := fun d t hc => by
    rw [Mem.spaces_of_dir he, ← Mem.target_pte he] at hc
    exact inv.fresh_of_free hpp _ hc
  have hat : ∀ d t, m'.spaces dirs e d t = if d = pdx va ∧ t = ptx va
      then newPte pp (pteW ||| pteU) else m.spaces dirs e d t := fun d t => by
    simp [hsp, setSpace]
  refine ⟨fun a ha => ⟨pp, ?_⟩, fun d t hdt => ?_, fun once d t d' t' p hp hp' => ?_, hev⟩
  · rw [List.mem_singleton.mp ha, hat, if_pos ⟨rfl, rfl⟩]
  · rw [hat, if_neg (hdt va (List.mem_singleton.mpr rfl))]
  · rw [hat] at hp hp'
    split_ifs at hp hp' with h1 h2 h2
    · exact ⟨h2.1.trans h1.1.symm, h2.2.trans h1.2.symm⟩
    · rw [hw] at hp
      exact absurd (hp'.trans hp.symm) (hfresh d' t')
    · rw [hw] at hp'
      exact absurd (hp.trans hp'.symm) (hfresh d t)
    · exact once d t d' t' p hp hp'

namespace MemInv

/-- One round of `region_alloc`. -/
theorem mapFresh (inv : MemInv S dirs 0 ∅ m) (he : dirs e = some g) (hva : va < utop)
    (hnew : present (m.pte g (pdx va) (ptx va)) = false) (hfree : m.FreeList free)
    (room : 1 + (if m.ptab g (pdx va) = none then 1 else 0) ≤ free.length) :
    ∃ pp m₁ m' free', m.pageAlloc false = (some pp, m₁) ∧
      m₁.pageInsert g pp va (pteW ||| pteU) = .ok (0, m') ∧ MemInv S dirs 0 ∅ m' ∧
      Populated dirs e [va] m m' ∧ m'.FreeList free' ∧ (∀ q ∈ free', q ∈ free) ∧
      free.length = free'.length + 1 + (if m.ptab g (pdx va) = none then 1 else 0) := by
  have hd := pdx_lt_userPdes hva
  have hnd : free.Nodup := ListSeg.nodup (Option.some_injective _) (by simp) hfree
  obtain ⟨pp, l, rfl⟩ : ∃ pp l, free = pp :: l := List.exists_cons_of_length_pos (by omega)
  obtain ⟨hppl, hndl⟩ := List.nodup_cons.mp hnd
  have hl : m.pageFreeList = some pp := hfree.1
  have hpp := inv.onFreeList_head hl
  have hfresh := inv.fresh_of_free hpp
  have hS := (inv.onFreeList_iff.mp hpp).1
  have inv₁ := inv.takeHead hl
  have hfree₁ : (m.takenHead pp).FreeList l := hfree.takenHead hppl
  have hev₁ : Evolves dirs m (m.takenHead pp) := (Evolves.refl dirs m).congr rfl rfl
  have hsub₁ : ∀ q, (m.takenHead pp).OnFreeList q → m.OnFreeList q := fun q hq =>
    hfree.onFreeList_iff.mpr (List.mem_cons_of_mem pp (hfree₁.onFreeList_iff.mp hq))
  have hns : NotStruct (m.takenHead pp) dirs pp := fun s _ => hfresh s
  have hw : pageOf n (pteAddr (page2pa pp) ||| (pteW ||| pteU) ||| pteP) = some pp :=
    inv.pageOf_newPte (by decide) pp
  have htab : (m.takenHead pp).table g (pdx va) = m.ptab g (pdx va) := (Mem.ptab_eq hd).symm
  refine ⟨pp, m.takenHead pp, ?_⟩
  rcases inv₁.pageInsert he hva hS (fun hc => hppl (hfree₁.onFreeList_iff.mp hc)) hns
    (.inl (by rw [Mem.ref_takenHead, inv.ref_of_free hpp]; decide)) hw with
    ⟨ht, hl₁, -⟩ | ⟨m', hok, inv', hsp, hev⟩
  · -- there is a page left for the table
    have ht' : m.ptab g (pdx va) = none := ht
    rw [if_pos ht', List.length_cons] at room
    obtain ⟨q, l', rfl⟩ : ∃ q l', l = q :: l' := List.exists_cons_of_length_pos (by omega)
    cases hl₁.symm.trans hfree₁.1
  · rw [Set.insert_sdiff_of_mem _ (Set.mem_singleton pp), Set.empty_sdiff] at inv'
    have hlist := hfree₁.pageInsert_new hndl inv.small
      (fun hp hnone => by
        obtain ⟨pt, ht, -⟩ := inv₁.ptab_of_present he hd hp
        rw [htab] at hnone
        cases ht.symm.trans hnone)
      (by rw [← Mem.pte_eq_pteAt hd]; exact hnew)
      (fun hc => inv.not_onFreeList (s := .dir e) he
        (hfree.onFreeList_iff.mpr (List.mem_cons_of_mem pp hc))) hok
    rw [htab] at hlist
    have hpop := Populated.single inv he hpp hsp (hev₁.trans hev hsub₁)
    have halloc : m.pageAlloc false = (some pp, m.takenHead pp) := by rw [Mem.pageAlloc, hl]; rfl
    refine ⟨m', _, halloc, hok, inv', hpop, hlist, fun q hq => ?_, ?_⟩
    · split_ifs at hq
      · exact List.mem_cons_of_mem pp (List.mem_of_mem_tail hq)
      · exact List.mem_cons_of_mem pp hq
    · rw [List.length_cons] at room ⊢
      split_ifs at room ⊢
      · rw [List.length_tail]
        omega
      · rfl

/-- `region_alloc` maps all pages of a region where there are none, when memory lasts. -/
theorem regionAllocLoop (inv : MemInv S dirs 0 ∅ m) (he : dirs e = some g)
    (user : ∀ va ∈ vas, va < utop)
    (hnew : ∀ va ∈ vas, present (m.spaces dirs e (pdx va) (ptx va)) = false)
    (apart : vas.Pairwise fun va va' => ¬(pdx va = pdx va' ∧ ptx va = ptx va'))
    (hfree : m.FreeList free) (room : m.need g (vas ++ rest) ≤ free.length) :
    ∃ m' free', JosKernel.regionAllocLoop m g vas = .ok m' ∧ MemInv S dirs 0 ∅ m' ∧
      Populated dirs e vas m m' ∧ m'.FreeList free' ∧ (∀ q ∈ free', q ∈ free) ∧
      m'.need g rest ≤ free'.length := by
  induction vas generalizing m free with
  | nil => exact ⟨m, free, rfl, inv, .nil, hfree, fun _ hq => hq, room⟩
  | cons va vas ih =>
    obtain ⟨hva, apart⟩ := List.pairwise_cons.mp apart
    have hu := user va List.mem_cons_self
    have hva' := hnew va List.mem_cons_self
    rw [Mem.spaces_of_dir he] at hva'
    have hpos := Mem.le_need_cons.trans room
    obtain ⟨pp, m₁, m₂, free₂, halloc, hins, inv₂, hpop, hfree₂, hsub, hlen⟩ :=
      inv.mapFresh he hu hva' hfree hpos
    have hmade : m₂.ptab g (pdx va) ≠ none := by
      obtain ⟨pp, hpp⟩ := hpop.new va (List.mem_singleton.mpr rfl)
      intro hc
      rw [Mem.spaces_of_dir he, Mem.pte_of_no_ptab hc] at hpp
      have hw : pageOf n (newPte pp (pteW ||| pteU)) = some pp := inv.pageOf_newPte (by decide) pp
      rw [← hpp, pageOf_zero] at hw
      cases hw
    have hkeep : ∀ d, m₂.ptab g d = none → m.ptab g d = none := by
      intro d hd
      by_contra hc
      obtain ⟨pt, hpt⟩ := Option.ne_none_iff_exists'.mp hc
      have := hpop.evolves.keep (.pde e d) pt trivial ((Mem.target_pde he).trans hpt)
      rw [Mem.target_pde he, hd] at this
      cases this
    have hneed := Mem.need_cons (vas ++ rest) hkeep hmade
    obtain ⟨m', free', hok, inv', hpop', hfree', hsub', hroom'⟩ := ih inv₂
      (fun a ha => user a (List.mem_cons_of_mem va ha))
      (fun a ha => by
        rw [hpop.old _ _ fun b hb => by
          rw [List.mem_singleton.mp hb]
          exact fun hc => hva a ha ⟨hc.1.symm, hc.2.symm⟩]
        exact hnew a (List.mem_cons_of_mem va ha))
      apart hfree₂ (by
        rw [List.cons_append] at room
        omega)
    refine ⟨m', free', ?_, inv', hpop.cons hpop' hva ?_, hfree',
      fun q hq => hsub q (hsub' q hq), hroom'⟩
    · simp only [JosKernel.regionAllocLoop, halloc, hins, bind, Except.bind]
      exact hok
    · exact fun q hq => hfree.onFreeList_iff.mpr (hsub q (hfree₂.onFreeList_iff.mp hq))

end MemInv

end

end JosKernel
