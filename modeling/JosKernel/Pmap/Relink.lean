import JosKernel.Lib.Loop
import JosKernel.Lib.TailPointer
import JosKernel.Pmap.Invariant

/-!
# Low pages first

The start of `check_page_free_list(true)`. While only the first 4 MB of memory are mapped, the free
pages there have to come first in `page_free_list`. The list is taken apart and put together again
in place: `tp[0]` and `tp[1]` point to the cells in which the next low and the next high page
belong.
-/
namespace JosKernel

open Lib

variable {n : Nat}

/-- A cell that holds a `struct PageInfo *`: one of two variables, or the link of a page. -/
inductive PageCell (n : Nat) where
  | pp1 | pp2
  | ppLink (pp : Fin n)
  deriving DecidableEq

/-- Memory and the variables of the loop. -/
structure Relink (n : Nat) where
  mem : Mem n
  pp : Option (Fin n)
  pp1 : Option (Fin n)
  pp2 : Option (Fin n)
  tp : Fin 2 → PageCell n

/-- Whether a page lies behind the first `pdxLimit` regions of 4 MB. -/
def pagetype (pdxLimit : Nat) (pp : Fin n) : Fin 2 :=
  if (pdx (page2pa pp) : Nat) ≥ pdxLimit then 1 else 0

/-- What `tp` holds at first. -/
def tpInit : Fin 2 → PageCell n
  | 0 => .pp1
  | 1 => .pp2

namespace Relink

def load (s : Relink n) : PageCell n → Option (Fin n)
  | .pp1 => s.pp1
  | .pp2 => s.pp2
  | .ppLink pp => (s.mem.pages pp).ppLink

def store (s : Relink n) (c : PageCell n) (v : Option (Fin n)) : Relink n :=
  match c with
  | .pp1 => { s with pp1 := v }
  | .pp2 => { s with pp2 := v }
  | .ppLink pp => { s with mem := s.mem.setPage pp { s.mem.pages pp with ppLink := v } }

/-- A turn of the loop over the list. -/
def turn (pdxLimit : Nat) (s : Relink n) : Relink n ⊕ Relink n :=
  match s.pp with
  | none => .inl s
  | some pp =>
    let s := s.store (s.tp (pagetype pdxLimit pp)) (some pp)
    let s := { s with tp := Function.update s.tp (pagetype pdxLimit pp) (.ppLink pp) }
    .inr { s with pp := s.load (.ppLink pp) }

/-- What follows the loop. -/
def finish (s : Relink n) : Mem n :=
  let s := s.store (s.tp 1) none
  let s := s.store (s.tp 0) s.pp2
  { s.mem with pageFreeList := s.pp1 }

end Relink

/-- How the start of `check_page_free_list` ends. -/
inductive Relinked (n : Nat) where
  /-- `panic("'page_free_list' is a null pointer!")`. -/
  | nullList
  | done (m : Mem n)

/-- `check_page_free_list`, up to the checks. `pp1` and `pp2` are not initialised. -/
def relinkFreeList (onlyLowMemory : Bool) (pp1 pp2 : Option (Fin n)) (fuel : Nat) (m : Mem n) :
    Option (Relinked n) :=
  let pdxLimit := if onlyLowMemory then 1 else 1024
  if m.pageFreeList = none then some .nullList
  else if onlyLowMemory then
    (loop (Relink.turn pdxLimit) fuel ⟨m, m.pageFreeList, pp1, pp2, tpInit⟩).map fun s =>
      .done s.finish
  else some (.done m)

/-! ## Cells -/

variable {m m' : Mem n} {s : Relink n} {c : PageCell n} {l done rest free : List (Fin n)}
  {t t' : Fin 2} {pp : Fin n}

theorem PageCell.ppLink_injective : Function.Injective (PageCell.ppLink (n := n)) :=
  fun _ _ h => PageCell.ppLink.inj h

theorem ne_tpInit (pp : Fin n) (t : Fin 2) : PageCell.ppLink pp ≠ tpInit t := by
  match t with
  | 0 => exact nofun
  | 1 => exact nofun

theorem tpInit_injective : Function.Injective (tpInit (n := n)) := by
  intro t t' h
  match t, t' with
  | 0, 0 => rfl
  | 1, 1 => rfl
  | 0, 1 => cases h
  | 1, 0 => cases h

/-- The pages of type `t`. -/
def ofType (t : Fin 2) (l : List (Fin n)) : List (Fin n) := l.filter (pagetype 1 · = t)

/-- The cells of the list of pages of type `t`. -/
def cellsOf (t : Fin 2) (l : List (Fin n)) : List (PageCell n) :=
  tpInit t :: (ofType t l).map .ppLink

theorem cellsOf_nodup (h : l.Nodup) (t : Fin 2) : (cellsOf t l).Nodup := by
  apply List.Nodup.cons
  · intro hmem
    obtain ⟨pp, -, heq⟩ := List.mem_map.mp hmem
    exact ne_tpInit pp t heq
  · exact (h.filter _).map PageCell.ppLink_injective

theorem cellsOf_disjoint (htt : t ≠ t') (hc : c ∈ cellsOf t l) : c ∉ cellsOf t' l := by
  intro hc'
  rcases List.mem_cons.mp hc with rfl | hc <;> rcases List.mem_cons.mp hc' with heq | hc'
  · exact htt (tpInit_injective heq)
  · obtain ⟨pp, -, heq⟩ := List.mem_map.mp hc'
    exact ne_tpInit pp t heq
  · obtain ⟨pp, -, rfl⟩ := List.mem_map.mp hc
    exact ne_tpInit pp t' heq
  · obtain ⟨pp, hpp, rfl⟩ := List.mem_map.mp hc
    obtain ⟨pp', hpp', heq⟩ := List.mem_map.mp hc'
    obtain rfl := PageCell.ppLink_injective heq
    simp only [ofType, List.mem_filter, decide_eq_true_eq] at hpp hpp'
    exact htt (hpp.2.symm.trans hpp'.2)

namespace Relink

theorem load_store (s : Relink n) (c : PageCell n) (v : Option (Fin n)) :
    (s.store c v).load = Function.update s.load c v := by
  funext d
  cases c <;> cases d <;> simp [load, store, Mem.setPage, Function.update_apply]
  split_ifs <;> simp_all

@[simp] theorem pp_store (s : Relink n) (c : PageCell n) (v : Option (Fin n)) :
    (s.store c v).pp = s.pp := by
  cases c <;> rfl

@[simp] theorem tp_store (s : Relink n) (c : PageCell n) (v : Option (Fin n)) :
    (s.store c v).tp = s.tp := by
  cases c <;> rfl

end Relink

/-- Only links of pages in `l` have changed, and the head of the free list. -/
structure SameButLinks (l : List (Fin n)) (m m' : Mem n) : Prop where
  ref : ∀ pp, m'.ref pp = m.ref pp
  others : ∀ pp, pp ∉ l → m'.pages pp = m.pages pp
  frame : m'.frame = m.frame
  kern : m'.kernPgdir = m.kernPgdir

theorem SameButLinks.refl (l : List (Fin n)) (m : Mem n) : SameButLinks l m m :=
  ⟨fun _ => rfl, fun _ _ => rfl, rfl, rfl⟩

theorem SameButLinks.store (h : SameButLinks l m s.mem) (hc : ∀ pp, c = .ppLink pp → pp ∈ l)
    (v : Option (Fin n)) : SameButLinks l m (s.store c v).mem := by
  cases c with
  | pp1 => exact h
  | pp2 => exact h
  | ppLink pp =>
    refine ⟨fun pp' => ?_, fun pp' hpp' => ?_, h.frame, h.kern⟩
    · rw [← h.ref pp']
      by_cases heq : pp' = pp
      · subst heq
        simp [Relink.store, Mem.setPage, Mem.ref]
      · simp [Relink.store, Mem.setPage, Mem.ref, heq]
    · have hne : pp' ≠ pp := fun heq => hpp' (heq ▸ hc pp rfl)
      exact (Function.update_of_ne hne _ _).trans (h.others pp' hpp')

/-! ## The loop -/

/-- The pages of `done` hang on `pp1` and `pp2`, and those of `rest` are still linked as they
were. -/
structure Relink.Splits (m : Mem n) (free done rest : List (Fin n)) (s : Relink n) : Prop where
  rest : ListSeg some (fun pp => s.load (.ppLink pp)) s.pp rest none
  hangs : ∀ t, ∃ q, Hangs some .ppLink s.load (tpInit t) (ofType t done) q
  tp : ∀ t, s.tp t = tailCell .ppLink (tpInit t) (ofType t done)
  same : SameButLinks free m s.mem

theorem ofType_concat (t : Fin 2) (l : List (Fin n)) (pp : Fin n) :
    ofType t (l ++ [pp]) = if pagetype 1 pp = t then ofType t l ++ [pp] else ofType t l := by
  unfold ofType
  split_ifs with h
  · simp [h]
  · simp [h]

namespace Relink.Splits

theorem init (h : m.FreeList free) (pp1 pp2 : Option (Fin n)) :
    Splits m free [] free ⟨m, m.pageFreeList, pp1, pp2, tpInit⟩ where
  rest := h
  hangs _ := ⟨_, rfl⟩
  tp _ := rfl
  same := .refl _ _

variable (h : Splits m free done rest s)
include h

theorem tp_mem (t : Fin 2) : s.tp t ∈ cellsOf t done := h.tp t ▸ tailCell_mem

/-- The cells that are written to belong to pages that have been passed. -/
theorem mem_of_tp (hpp : s.tp t = .ppLink pp) : pp ∈ done := by
  have hmem := h.tp_mem t
  rw [hpp] at hmem
  rcases List.mem_cons.mp hmem with heq | hmem
  · exact absurd heq (ne_tpInit pp t)
  · obtain ⟨pp', hpp', heq⟩ := List.mem_map.mp hmem
    cases heq
    exact List.mem_of_mem_filter hpp'

/-- A page that has not been passed keeps its link. -/
theorem load_link (hpp : pp ∉ done) (t : Fin 2) (v : Option (Fin n)) :
    (s.store (s.tp t) v).load (.ppLink pp) = s.load (.ppLink pp) := by
  rw [load_store]
  apply Function.update_of_ne
  exact fun heq => hpp (h.mem_of_tp heq.symm)

end Relink.Splits

/-- One page goes to the list of its type. -/
theorem Relink.Splits.turn (h : s.Splits m free done (pp :: rest))
    (hfree : done ++ pp :: rest = free) (hnd : free.Nodup) :
    ∃ s', s.turn 1 = .inr s' ∧ s'.Splits m free (done ++ [pp]) rest := by
  have hpp : s.pp = some pp := h.rest.1
  have hnd' : (done ++ [pp]).Nodup := by
    subst hfree
    exact (List.append_cons done pp rest ▸ hnd).of_append_left
  have hnew : ∀ pp' ∈ pp :: rest, pp' ∉ done := by
    subst hfree
    exact fun pp' h₁ h₂ => (List.nodup_append.mp hnd).2.2 pp' h₂ pp' h₁ rfl
  have hlink : ∀ pp' ∈ pp :: rest, (s.store (s.tp (pagetype 1 pp)) (some pp)).load (.ppLink pp') =
      s.load (.ppLink pp') :=
    fun pp' hmem => h.load_link (hnew pp' hmem) _ _
  have hload : (s.store (s.tp (pagetype 1 pp)) (some pp)).load = Function.update s.load
      (tailCell .ppLink (tpInit (pagetype 1 pp)) (ofType (pagetype 1 pp) done)) (some pp) := by
    rw [load_store, h.tp]
  refine ⟨_, by rw [Relink.turn, hpp], ?_, fun t => ?_, fun t => ?_, ?_⟩
  · -- the links of the pages to come are read as they were
    have hrest := h.rest.2.congr fun pp' hmem => hlink pp' (List.mem_cons_of_mem pp hmem)
    exact (hlink pp List.mem_cons_self).symm ▸ hrest
  · obtain ⟨q, hq⟩ := h.hangs t
    rw [ofType_concat]
    split_ifs with ht
    · subst ht
      have hcells := cellsOf_nodup hnd' (pagetype 1 pp)
      rw [cellsOf, ofType_concat, if_pos rfl] at hcells
      have hconcat := hq.concat hcells
      rw [← hload] at hconcat
      exact ⟨_, hconcat⟩
    · have hother := hq.update_of_not_mem (cellsOf_disjoint ht (h.tp_mem _)) (some pp)
      rw [← load_store] at hother
      exact ⟨_, hother⟩
  · rw [ofType_concat]
    split_ifs with ht
    · subst ht
      simp
    · simp [Function.update_of_ne (Ne.symm ht), h.tp]
  · apply h.same.store
    intro pp' heq
    rw [← hfree]
    exact List.mem_append_left _ (h.mem_of_tp heq)

/-- The loop goes through the whole list. -/
theorem Relink.Splits.loop {fuel : Nat} (h : s.Splits m free done rest)
    (hfree : done ++ rest = free) (hnd : free.Nodup) (hf : rest.length < fuel) :
    ∃ s', Lib.loop (Relink.turn 1) fuel s = some s' ∧ s'.Splits m free free [] := by
  induction rest generalizing s done fuel with
  | nil =>
    obtain ⟨fuel, rfl⟩ : ∃ f, fuel = f + 1 := ⟨fuel - 1, by omega⟩
    have hpp : s.pp = none := h.rest
    rw [List.append_nil] at hfree
    subst hfree
    exact ⟨s, by rw [Lib.loop, Relink.turn, hpp], h⟩
  | cons pp rest ih =>
    obtain ⟨fuel, rfl⟩ : ∃ f, fuel = f + 1 := ⟨fuel - 1, by omega⟩
    obtain ⟨s', hs', h'⟩ := h.turn hfree hnd
    obtain ⟨r, hr, hend⟩ := ih h' (by simpa using hfree) (by simpa using hf)
    refine ⟨r, ?_, hend⟩
    rw [Lib.loop, hs']
    exact hr

/-- The two lists become one. -/
theorem Relink.Splits.finish (h : s.Splits m free free []) (hnd : free.Nodup) :
    s.finish.FreeList (ofType 0 free ++ ofType 1 free) ∧ SameButLinks free m s.finish := by
  obtain ⟨q₀, hq₀⟩ := h.hangs 0
  obtain ⟨q₁, hq₁⟩ := h.hangs 1
  have h01 : (0 : Fin 2) ≠ 1 := by decide
  let s₁ := s.store (s.tp 1) none
  let s₂ := s₁.store (s.tp 0) s₁.pp2
  have hload₁ : s₁.load = Function.update s.load (s.tp 1) none := load_store ..
  have hload₂ : s₂.load = Function.update s₁.load (s.tp 0) s₁.pp2 := load_store ..
  have hfinish : s.finish = { s₂.mem with pageFreeList := s₂.pp1 } := by
    simp only [Relink.finish, tp_store, s₂, s₁]
  -- the last high page gets a null link
  have hhigh : Hangs some .ppLink s₁.load .pp2 (ofType 1 free) none := by
    rw [hload₁, h.tp]
    exact hq₁.setTail (cellsOf_nodup hnd 1) none
  have hlow : Hangs some .ppLink s₁.load .pp1 (ofType 0 free) q₀ := by
    rw [hload₁]
    exact hq₀.update_of_not_mem (cellsOf_disjoint h01.symm (h.tp_mem 1)) none
  -- the last low page gets a link to the first high page
  have hhigh' : Hangs some .ppLink s₂.load .pp2 (ofType 1 free) none := by
    rw [hload₂]
    exact hhigh.update_of_not_mem (cellsOf_disjoint h01 (h.tp_mem 0)) _
  have hlow' : Hangs some .ppLink s₂.load .pp1 (ofType 0 free) s₁.pp2 := by
    rw [hload₂, h.tp]
    exact hlow.setTail (cellsOf_nodup hnd 0) _
  have hpp2 : s₁.pp2 = s₂.load .pp2 := by
    rw [hload₂, Function.update_of_ne]
    · rfl
    · intro heq
      have hmem : PageCell.pp2 ∈ cellsOf 0 free := heq ▸ h.tp_mem 0
      exact cellsOf_disjoint h01 hmem List.mem_cons_self
  have hsame : SameButLinks free m s₂.mem := by
    apply SameButLinks.store
    · exact h.same.store (fun pp heq => h.mem_of_tp heq) _
    · exact fun pp heq => h.mem_of_tp heq
  rw [hfinish]
  exact ⟨hlow'.append hhigh' hpp2, hsame.ref, hsame.others, hsame.frame, hsame.kern⟩

/-! ## The result -/

/-- The pages of the first 4 MB, and then the others. -/
def lowFirst (l : List (Fin n)) : List (Fin n) :=
  l.filter (fun pp => (pdx (page2pa pp) : Nat) < 1) ++
    l.filter fun pp => ¬(pdx (page2pa pp) : Nat) < 1

theorem lowFirst_eq (l : List (Fin n)) : lowFirst l = ofType 0 l ++ ofType 1 l := by
  unfold lowFirst ofType
  congr 1
  · apply List.filter_congr
    intro pp _
    unfold pagetype
    split_ifs <;> simp <;> omega
  · apply List.filter_congr
    intro pp _
    unfold pagetype
    split_ifs <;> simp <;> omega

theorem lowFirst_perm (l : List (Fin n)) : (lowFirst l).Perm l := by
  simpa [lowFirst] using List.filter_append_perm (fun pp => decide ((pdx (page2pa pp) : Nat) < 1)) l

theorem lowFirst_nodup (h : free.Nodup) : (lowFirst free).Nodup :=
  (lowFirst_perm free).nodup_iff.mpr h

/-- The relinking is a stable partition of the free list. -/
theorem relinkFreeList_lowFirst (hfree : m.FreeList free) (hne : free ≠ [])
    (pp1 pp2 : Option (Fin n)) {fuel : Nat} (hf : free.length < fuel) :
    ∃ m', relinkFreeList true pp1 pp2 fuel m = some (.done m') ∧ m'.FreeList (lowFirst free) ∧
      (lowFirst free).Perm free ∧ (lowFirst free).Nodup ∧ SameButLinks free m m' := by
  have hnd : free.Nodup := ListSeg.nodup (Option.some_injective _) (by simp) hfree
  have hhead : m.pageFreeList ≠ none := by
    intro hnone
    unfold Mem.FreeList at hfree
    rw [hnone] at hfree
    exact hne (hfree.eq_nil (by simp))
  obtain ⟨s, hs, hsplits⟩ := (Relink.Splits.init hfree pp1 pp2).loop rfl hnd hf
  obtain ⟨hlist, hsame⟩ := hsplits.finish hnd
  refine ⟨s.finish, ?_, lowFirst_eq free ▸ hlist, lowFirst_perm free, lowFirst_nodup hnd, hsame⟩
  unfold relinkFreeList
  rw [if_neg hhead]
  simp only [if_true]
  rw [hs]
  rfl

/-- Two low pages and two high pages in turn. -/
def mixedMem : Mem 1026 where
  pages pp := ⟨if pp = 1024 then some 2 else if pp = 2 then some 1025 else
    if pp = 1025 then some 1 else none, 0⟩
  pageFreeList := some 1024
  frame _ _ := 0
  kernPgdir := 0

theorem relinkFreeList_lowFirst_mixedMem :
    ∃ m', relinkFreeList true none none 5 mixedMem = some (.done m') ∧
      m'.FreeList (lowFirst [1024, 2, 1025, 1]) ∧
      (lowFirst [1024, 2, 1025, 1]).Perm ([1024, 2, 1025, 1] : List (Fin 1026)) ∧
      (lowFirst ([1024, 2, 1025, 1] : List (Fin 1026))).Nodup ∧
      SameButLinks [1024, 2, 1025, 1] mixedMem m' :=
  relinkFreeList_lowFirst (by decide) (List.cons_ne_nil _ _) none none (by decide)

end JosKernel
