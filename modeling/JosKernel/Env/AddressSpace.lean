import JosKernel.Env.Basic
import JosKernel.Pmap.Accounted

/-!
# Building and tearing down address spaces

Specifications of `env_setup_vm` and of the loops of `env_free`. Setting up adds an empty address
space; tearing down empties the slots of one address space, which gives up its mappings, tables
and directory, and leaves all other address spaces alone. Tearing down needs less than the memory
invariant, and keeps the invariant if it holds.
-/
namespace JosKernel

open Lib

variable {n : Nat} {ι : Type} [Fintype ι] [DecidableEq ι]

/-- Tables and directories were given up, and no other page was written. -/
structure Shrinks (dirs dirs' : ι → Option (Fin n)) (m m' : Mem n) : Prop where
  struct : ∀ (s : Slot ι) p, s.Struct → m'.target dirs' s = some p → m.target dirs s = some p
  frame : ∀ p, NotStruct m dirs p → m'.frame p = m.frame p
  kern : m'.kernPgdir = m.kernPgdir

namespace MemInv

variable {S h : Set (Fin n)} {dirs : ι → Option (Fin n)} {x : Fin n → ℕ} {m m' : Mem n}
  {e : ι} {g p pt : Fin n} {d t : Fin 1024} {w : Word}

/-! ## Setting up -/

omit [Fintype ι] [DecidableEq ι] in
theorem setEntry_eq_setFrame : m.setEntry p d w = m.setFrame p (wr32 (m.frame p) d w) := rfl

/-- `env_setup_vm` makes a page into the directory of an empty address space. -/
theorem envSetupVm (inv : MemInv S dirs x h m) (he : dirs e = none)
    (hl : m.pageFreeList = some p) :
    ∃ m', envSetupVm m = (some p, m') ∧
      MemInv S (Function.update dirs e (some p)) x h m' ∧
      m'.spaces (Function.update dirs e (some p)) = m.spaces dirs ∧
      (∀ q, q ≠ p → m'.frame q = m.frame q) ∧ m'.kernPgdir = m.kernPgdir := by
  have hfree := inv.onFreeList_head hl
  obtain ⟨hS, -, hh⟩ := inv.onFreeList_iff.mp hfree
  obtain ⟨m₁, halloc, inv₁, hframe₁, -, href₁, hk₁⟩ := inv.pageAlloc_some true hl
  have hfresh : ∀ s, m.target dirs s ≠ some p := inv.fresh_of_free hfree
  have htar₁ : m₁.target dirs = m.target dirs :=
    Mem.target_congr fun s q _ hq => hframe₁ q fun c => hfresh s (c ▸ hq)
  have inv₂ := inv₁.incRef hS (.inl (Set.mem_insert p h))
    (by rw [href₁, inv.ref_of_free hfree]; decide)
  rw [Set.insert_sdiff_of_mem _ (Set.mem_singleton p), Set.sdiff_singleton_eq_self hh] at inv₂
  -- the frame of the new directory is that of the kernel, with the window entry replaced
  have hns : NotStruct (m₁.incRef p) dirs p := fun s _ hs => hfresh s (htar₁ ▸ hs)
  set f := wr32 (m₁.frame m₁.kernPgdir) (pdx uvpt) (page2pa p ||| pteP ||| pteU) with hf
  have inv₃ := inv₂.setFrame hns hS f
  have htar₃ : ((m₁.incRef p).setFrame p f).target dirs = m.target dirs := by
    rw [Mem.target_congr fun s q hs hq =>
      Function.update_of_ne (fun c : q = p => hns s hs (c ▸ hq)) ..]
    exact htar₁
  have hempty : ∀ d : Fin 1024, (d : Nat) < userPdes →
      present (((m₁.incRef p).setFrame p f).entry p d) = false := by
    intro d hd
    have hne : d ≠ pdx uvpt := by rintro rfl; exact absurd hd (by decide)
    simp only [Mem.entry, Mem.setFrame, Function.update_self, hf, rd32_wr32_of_ne _ hne]
    exact inv₁.kernUser d hd
  have hhigh : ∀ d : Fin 1024, userPdes ≤ (d : Nat) →
      ((m₁.incRef p).setFrame p f).entry p d = highPde ((m₁.incRef p).setFrame p f) p d := by
    intro d _
    have hkp : m₁.kernPgdir ≠ p := inv₁.ne_kern hS
    rw [highPde]
    simp only [Mem.entry, Mem.setFrame, Function.update_self, hf, Mem.incRef_kernPgdir]
    split_ifs with hd
    · rw [hd, rd32_wr32_self]
    · rw [rd32_wr32_of_ne _ hd, Function.update_of_ne hkp]
      rfl
  have inv₄ := inv₃.addDir he hS (by simp) (fun s => by rw [htar₃]; exact hfresh s) hempty hhigh
  rw [Function.update_self, Nat.add_sub_cancel, Function.update_idem, Function.update_eq_self]
    at inv₄
  refine ⟨_, ?_, inv₄, ?_, fun q hq => ?_, hk₁⟩
  · have hsame : ((m₁.incRef p).setFrame p (m₁.frame m₁.kernPgdir)).setEntry p (pdx uvpt)
        (page2pa p ||| pteP ||| pteU) = (m₁.incRef p).setFrame p f := by
      simp [setEntry_eq_setFrame, Mem.setFrame, hf]
    simp only [JosKernel.envSetupVm, halloc, ← hsame]
    rfl
  · funext e' d' t'
    by_cases hc : e' = e
    · subst hc
      have hnone : ((m₁.incRef p).setFrame p f).ptab p d' = none := by
        by_cases hd : (d' : Nat) < userPdes
        · rw [Mem.ptab_eq hd, pageOf_of_not_present (hempty d' hd)]
        · simp [Mem.ptab, hd]
      rw [Mem.spaces_of_dir (g := p) (by simp), Mem.pte_of_no_ptab hnone]
      simp [Mem.spaces, he]
    · cases he' : dirs e' with
      | none => simp [Mem.spaces, hc, he']
      | some g' =>
        have hst : ∀ s : Slot ι, ∀ q, m.target dirs s = some q →
            ((m₁.incRef p).setFrame p f).frame q = m.frame q := fun s q hq => by
          have hqp : q ≠ p := fun c => hfresh s (c ▸ hq)
          simp [Mem.setFrame, hqp, hframe₁ q hqp]
        rw [Mem.spaces_of_dir (by simpa [hc] using he'), Mem.spaces_of_dir he']
        exact Mem.pte_congr (hst (.dir e') g' he') fun pt hpt =>
          hst (.pde e' d') pt ((Mem.target_pde he').trans hpt)
  · simp [Mem.setFrame, hq, hframe₁ q hq]

end MemInv

/-! ## Tearing down -/

/-- The address space that a slot belongs to. -/
def Slot.space {ι : Type} : Slot ι → ι
  | .dir e | .pde e _ | .pte e _ _ => e

/-- A directory entry and the entries of its table. -/
def entrySlots {ι : Type} (e : ι) (d : Fin 1024) : Set (Slot ι) :=
  {s | s = .pde e d ∨ ∃ t, s = .pte e d t}

namespace Accounted

variable {S h : Set (Fin n)} {dirs : ι → Option (Fin n)} {x : Fin n → ℕ} {m m' : Mem n}
  {e : ι} {g p pt : Fin n} {d t : Fin 1024}

omit [DecidableEq ι] [Fintype ι] in
theorem pgaddr_lt_utop (hd : (d : Nat) < userPdes) : pgaddr d t 0 < utop := by
  rw [BitVec.lt_def, toNat_pgaddr, toNat_utop]
  simp only [userPdes] at hd
  have : (0 : Fin 4096).val = 0 := rfl
  omega

/-- The loop over one page table empties its slots and writes no other page. -/
theorem envFreePtes (inv : Accounted S dirs x h m) (he : dirs e = some g)
    (ht : m.ptab g d = some pt) (ts : List (Fin 1024)) :
    ∃ m', envFreePtes m g pt d ts = .ok m' ∧ Accounted S dirs x h m' ∧
      Cleared {s | ∃ t ∈ ts, s = .pte e d t} (m.target dirs) (m'.target dirs) ∧
      (∀ q, q ≠ pt → m'.frame q = m.frame q) ∧ m'.kernPgdir = m.kernPgdir := by
  induction ts generalizing m with
  | nil => exact ⟨m, rfl, inv, by simpa using Cleared.refl _, fun _ _ => rfl, rfl⟩
  | cons a ts ih =>
    have hpte : m.pte g d a = m.entry pt a := Mem.pte_of_ptab ht
    -- one iteration, whether or not there is a mapping
    obtain ⟨m₁, hok, inv₁, hc, hf₁, hk₁⟩ : ∃ m₁,
        (if present (m.entry pt a) then m.pageRemove g (pgaddr d a 0) else .ok m) = .ok m₁ ∧
        Accounted S dirs x h m₁ ∧ Cleared {.pte e d a} (m.target dirs) (m₁.target dirs) ∧
        (∀ q, q ≠ pt → m₁.frame q = m.frame q) ∧ m₁.kernPgdir = m.kernPgdir := by
      cases hp : present (m.entry pt a) with
      | true =>
        have hq : pageOf n (m.pte g d a) = some ⟨_, inv.pteOk e g d a he (by rwa [hpte])⟩ :=
          pageOf_eq_some.mpr ⟨by rwa [hpte], rfl⟩
        obtain ⟨m₁, hok, inv₁, htar, hrest⟩ : ∃ m₁, m.pageRemove g (pgaddr d a 0) = .ok m₁ ∧ _ :=
          inv.pageRemove he (by rwa [pdx_pgaddr]) (by rwa [pdx_pgaddr, ptx_pgaddr])
        rw [pdx_pgaddr, ptx_pgaddr] at htar
        exact ⟨m₁, hok, inv₁, htar ▸ Cleared.update _ _, hrest⟩
      | false =>
        refine ⟨m, rfl, inv, (Cleared.refl _).enlarge (Set.empty_subset _) ?_, fun _ _ => rfl, rfl⟩
        rintro _ rfl -
        rw [Mem.target_pte he, hpte, pageOf_of_not_present hp]
    have ht₁ : m₁.ptab g d = some pt := by
      rw [← Mem.target_pde he, hc.keep (.pde e d) (by simp), Mem.target_pde he, ht]
    obtain ⟨m', hok', inv', hc', hf', hk'⟩ := ih inv₁ ht₁
    refine ⟨m', ?_, inv', ?_, fun q hq => (hf' q hq).trans (hf₁ q hq), hk'.trans hk₁⟩
    · simp only [JosKernel.envFreePtes, bind, Except.bind, pure, Except.pure]
      split_ifs at hok ⊢
      · rw [hok]; exact hok'
      · cases hok; exact hok'
    · refine (hc.trans hc').enlarge (fun s hs => ?_) fun s hs hn => absurd ?_ hn
      · rcases hs with rfl | ⟨t, ht, rfl⟩
        · exact ⟨a, List.mem_cons_self, rfl⟩
        · exact ⟨t, List.mem_cons_of_mem _ ht, rfl⟩
      · obtain ⟨t, ht, rfl⟩ := hs
        rcases List.mem_cons.mp ht with rfl | ht
        · exact .inl rfl
        · exact .inr ⟨t, ht, rfl⟩

/-- One directory entry: its mappings, its table and the entry itself are gone. -/
theorem envFreePde (inv : Accounted S dirs x h m) (he : dirs e = some g)
    (hd : (d : Nat) < userPdes) :
    ∃ m', envFreePde m g d = .ok m' ∧ Accounted S dirs x h m' ∧
      Cleared (entrySlots e d) (m.target dirs) (m'.target dirs) ∧
      (∀ q, q ≠ g → m.ptab g d ≠ some q → m'.frame q = m.frame q) ∧
      m'.kernPgdir = m.kernPgdir := by
  cases hp : present (m.entry g d) with
  | false =>
    have ht : m.ptab g d = none := by rw [Mem.ptab_eq hd, pageOf_of_not_present hp]
    refine ⟨m, by simp [JosKernel.envFreePde, hp, pure, Except.pure], inv,
      (Cleared.refl _).enlarge (Set.empty_subset _) ?_, fun _ _ _ => rfl, rfl⟩
    rintro _ (rfl | ⟨t, rfl⟩) -
    · rw [Mem.target_pde he, ht]
    · rw [Mem.target_pte he, Mem.pte_of_no_ptab ht, pageOf_zero]
  | true =>
    have hw : pageOf n (m.entry g d) = some ⟨_, inv.pdeOk e g d he hd hp⟩ :=
      pageOf_eq_some.mpr ⟨hp, rfl⟩
    generalize (⟨_, inv.pdeOk e g d he hd hp⟩ : Fin n) = pt at hw
    have ht : m.ptab g d = some pt := (Mem.ptab_eq hd).trans hw
    obtain ⟨m₁, hok₁, inv₁, hc₁, hf₁, hk₁⟩ := inv.envFreePtes he ht (List.finRange 1024)
    have ht₁ : m₁.ptab g d = some pt := by
      rw [← Mem.target_pde he, hc₁.keep (.pde e d) (by simp), Mem.target_pde he, ht]
    obtain ⟨inv₂, htar₂⟩ := inv₁.clearPde he ht₁ fun t =>
      hc₁.empty (.pte e d t) ⟨t, List.mem_finRange t, rfl⟩
    obtain ⟨m', hok', hf', hk', inv'⟩ := inv₂.pageDecref
      (inv.target_mem ((Mem.target_pde he).trans ht)) (by simp)
    rw [Function.update_self, Nat.add_sub_cancel, Function.update_idem, Function.update_eq_self]
      at inv'
    refine ⟨m', ?_, inv', ?_, fun q hqg hq => ?_, hk'.trans hk₁⟩
    · simp only [JosKernel.envFreePde, hp, MemInv.kaddr_pteAddr hw, MemInv.pa2page_pteAddr hw,
        hok₁, bind, Except.bind, if_true]
      exact hok'
    · have htar' : m'.target dirs = (m₁.setEntry g d 0).target dirs :=
        Mem.target_congr fun _ q _ _ => by rw [hf']
      rw [htar', htar₂]
      refine (hc₁.trans (Cleared.update _ _)).enlarge (fun s hs => ?_) fun s hs hn => absurd ?_ hn
      · rcases hs with ⟨t, -, rfl⟩ | rfl
        · exact .inr ⟨t, rfl⟩
        · exact .inl rfl
      · rcases hs with rfl | ⟨t, rfl⟩
        · exact .inr rfl
        · exact .inl ⟨t, List.mem_finRange t, rfl⟩
    · rw [hf', Mem.frame_setEntry_of_ne hqg]
      exact hf₁ q fun hqp => hq (hqp ▸ ht)

/-- The loop over the directory empties the listed entries. -/
theorem envFreePdes (inv : Accounted S dirs x h m) (he : dirs e = some g)
    (ds : List (Fin 1024)) (hds : ∀ d ∈ ds, (d : Nat) < userPdes) :
    ∃ m', envFreePdes m g ds = .ok m' ∧ Accounted S dirs x h m' ∧
      Cleared {s | ∃ d ∈ ds, s ∈ entrySlots e d} (m.target dirs) (m'.target dirs) ∧
      (∀ q, q ≠ g → (∀ d, m.ptab g d ≠ some q) → m'.frame q = m.frame q) ∧
      m'.kernPgdir = m.kernPgdir := by
  induction ds generalizing m with
  | nil => exact ⟨m, rfl, inv, by simpa using Cleared.refl _, fun _ _ _ => rfl, rfl⟩
  | cons a ds ih =>
    obtain ⟨m₁, hok₁, inv₁, hc₁, hf₁, hk₁⟩ := inv.envFreePde he (hds a List.mem_cons_self)
    obtain ⟨m', hok', inv', hc', hf', hk'⟩ :=
      ih inv₁ fun d hd => hds d (List.mem_cons_of_mem _ hd)
    have htab : ∀ d q, m₁.ptab g d = some q → m.ptab g d = some q := fun d q hq => by
      rw [← Mem.target_pde he] at hq ⊢
      exact (hc₁.eq_some_iff.mp hq).2
    refine ⟨m', ?_, inv', ?_, fun q hqg hq => ?_, hk'.trans hk₁⟩
    · simpa only [JosKernel.envFreePdes, hok₁, bind, Except.bind] using hok'
    · refine (hc₁.trans hc').enlarge (fun s hs => ?_) fun s hs hn => absurd ?_ hn
      · rcases hs with hs | ⟨d, hd, hs⟩
        · exact ⟨a, List.mem_cons_self, hs⟩
        · exact ⟨d, List.mem_cons_of_mem _ hd, hs⟩
      · obtain ⟨d, hd, hs⟩ := hs
        rcases List.mem_cons.mp hd with rfl | hd
        · exact .inl hs
        · exact .inr ⟨d, hd, hs⟩
    · rw [hf' q hqg fun d hd => hq d (htab d q hd), hf₁ q hqg (hq a)]

/-- The memory part of `env_free` empties the slots of the address space. -/
theorem envFreeMem (inv : Accounted S dirs x h m) (he : dirs e = some g) :
    ∃ m₁ m', JosKernel.envFreePdes m g userPdxs = .ok m₁ ∧ m₁.pageDecref g = .ok m' ∧
      Accounted S (Function.update dirs e none) x h m' ∧
      Cleared {s | s.space = e} (m.target dirs) (m'.target (Function.update dirs e none)) ∧
      (∀ q, q ≠ g → (∀ d, m.ptab g d ≠ some q) → m'.frame q = m.frame q) ∧
      m'.kernPgdir = m.kernPgdir := by
  obtain ⟨m₁, hok₁, inv₁, hc₁, hf₁, hk₁⟩ := inv.envFreePdes he userPdxs (by simp [userPdxs])
  have hempty : ∀ d, m₁.ptab g d = none := fun d => by
    by_cases hd : (d : Nat) < userPdes
    · rw [← Mem.target_pde he]
      exact hc₁.empty (.pde e d) ⟨d, by simp [userPdxs, hd], .inl rfl⟩
    · simp [Mem.ptab, hd]
  obtain ⟨inv₂, htar₂⟩ := inv₁.dropDir he hempty
  obtain ⟨m', hok', hf', hk', inv'⟩ := inv₂.pageDecref
    (inv.target_mem (s := .dir e) he) (by simp)
  rw [Function.update_self, Nat.add_sub_cancel, Function.update_idem, Function.update_eq_self]
    at inv'
  refine ⟨m₁, m', hok₁, hok', inv', ?_, fun q hqg hq => by rw [hf', hf₁ q hqg hq],
    hk'.trans hk₁⟩
  have htar' : m'.target (Function.update dirs e none) = m₁.target (Function.update dirs e none) :=
    Mem.target_congr fun _ q _ _ => by rw [hf']
  rw [htar', htar₂]
  refine (hc₁.trans (Cleared.update _ _)).enlarge (fun s hs => ?_) fun s hs hn => ?_
  · rcases hs with ⟨d, -, rfl | ⟨t, rfl⟩⟩ | rfl <;> rfl
  · -- what is left are the entries above `UTOP`, which are no slots
    cases s with
    | dir e' =>
      obtain rfl : e' = e := hs
      exact absurd (.inr rfl) hn
    | pde e' d =>
      obtain rfl : e' = e := hs
      have hd : ¬(d : Nat) < userPdes := fun hd =>
        hn (.inl ⟨d, by simp [userPdxs, hd], .inl rfl⟩)
      exact (Mem.target_pde he).trans (if_neg hd)
    | pte e' d t =>
      obtain rfl : e' = e := hs
      have hd : ¬(d : Nat) < userPdes := fun hd =>
        hn (.inl ⟨d, by simp [userPdxs, hd], .inr ⟨t, rfl⟩⟩)
      rw [Mem.target_pte he, Mem.pte_of_no_ptab (if_neg hd), pageOf_zero]

end Accounted

namespace MemInv

variable {S h : Set (Fin n)} {dirs : ι → Option (Fin n)} {x : Fin n → ℕ} {m : Mem n} {e : ι}
  {g : Fin n}

/-- The memory part of `env_free` under the full invariant. -/
theorem envFreeMem (inv : MemInv S dirs x h m) (he : dirs e = some g) :
    ∃ m₁ m', JosKernel.envFreePdes m g userPdxs = .ok m₁ ∧ m₁.pageDecref g = .ok m' ∧
      MemInv S (Function.update dirs e none) x h m' ∧
      Shrinks dirs (Function.update dirs e none) m m' ∧
      ∀ e' d' t', e' ≠ e →
        m'.spaces (Function.update dirs e none) e' d' t' = m.spaces dirs e' d' t' := by
  obtain ⟨m₁, m', hok₁, hok', inv', hc, hf, hk⟩ := inv.accounted.envFreeMem he
  have hsub : ∀ s q, m'.target (Function.update dirs e none) s = some q →
      m.target dirs s = some q := fun s q hq => (hc.eq_some_iff.mp hq).2
  -- the pages that were written are referred to by slots of `e` only
  have hframe : ∀ q, (∀ s : Slot ι, s.Struct → s.space = e → m.target dirs s ≠ some q) →
      m'.frame q = m.frame q := fun q hq => by
    refine hf q (fun hqg => hq (.dir e) trivial rfl (hqg ▸ he)) fun d hd => ?_
    exact hq (.pde e d) trivial rfl ((Mem.target_pde he).trans hd)
  have hkern : m'.frame m.kernPgdir = m.frame m.kernPgdir :=
    hframe _ fun s _ _ hs => inv.kern (inv.target_mem hs)
  have hother : ∀ s : Slot ι, s.Struct → ∀ q, s.space ≠ e → m.target dirs s = some q →
      m'.frame q = m.frame q := fun s hs q hne hq => hframe q fun s' hs' he' hq' => by
    rw [inv.excl s s' q hs hq hq'] at he'
    exact hne he'
  have hdir : ∀ e' g', Function.update dirs e none e' = some g' →
      dirs e' = some g' ∧ e' ≠ e ∧ m'.frame g' = m.frame g' := by
    intro e' g' he'
    rw [Function.update_apply] at he'
    split_ifs at he' with hne
    exact ⟨he', hne, hother (.dir e') trivial g' hne he'⟩
  have hhigh : KernHigh m' ∧ ∀ e' g' (d : Fin 1024), Function.update dirs e none e' = some g' →
      userPdes ≤ (d : Nat) → m'.entry g' d = highPde m' g' d := by
    refine ⟨fun d => ?_, fun e' g' d he' hd => ?_⟩
    · rw [hk, Mem.entry, hkern]
      exact inv.kernHigh d
    · obtain ⟨he₀, -, hg'⟩ := hdir e' g' he'
      rw [highPde, hk, Mem.entry, Mem.entry, hg', hkern]
      exact inv.dirHigh e' g' d he₀ hd
  refine ⟨m₁, m', hok₁, hok', ⟨inv.small, inv'.account, fun s s' p hs hp hp' => ?_, hk ▸ inv.kern,
    fun d hd => ?_, hhigh.1, hhigh.2, fun e' g' d he' => ?_, inv'.pteOk⟩,
    ⟨fun s q _ => hsub s q, fun q hns => hframe q fun s hs _ => hns s hs, hk⟩,
    fun e' d' t' hne => ?_⟩
  · exact inv.excl s s' p hs (hsub s p hp) (hsub s' p hp')
  · rw [hk, Mem.entry, hkern]
    exact inv.kernUser d hd
  · obtain ⟨he₀, -, hg'⟩ := hdir e' g' he'
    rw [Mem.entry, hg']
    exact inv.pdeOk e' g' d he₀
  · cases he' : dirs e' with
    | none => simp [Mem.spaces, he', hne]
    | some g' =>
      have hup : Function.update dirs e none e' = some g' := by
        rw [Function.update_of_ne hne, he']
      rw [Mem.spaces_of_dir hup, Mem.spaces_of_dir he']
      exact Mem.pte_congr (hdir e' g' hup).2.2 fun pt hpt =>
        hother (.pde e' d') trivial pt hne ((Mem.target_pde he').trans hpt)

end MemInv

end JosKernel
