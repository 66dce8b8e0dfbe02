import JosKernel.Pmap.Spec

/-!
# Memory accesses

What loads and stores through a live page directory do, for addresses below `UTOP`. Directory
entries of user memory leave all permissions to the table, so an access is decided by the table
entry alone. A store changes the contents of a mapped page, which is never a directory or a
table; the hardware also sets the accessed and dirty bits of the entries on the way.
-/
namespace JosKernel

open Lib

variable {n : Nat} {ι : Type} [Fintype ι]

theorem UserPde.or {w : Word} (h : UserPde w) (v : Word) : UserPde (w ||| v) := by
  unfold UserPde at h ⊢
  ext i hi
  have hbit := congrArg (fun u : Word => u[i]) h
  simp only [BitVec.getElem_and, BitVec.getElem_or] at hbit ⊢
  grind

theorem Mem.present_of_allows {w : Word} {user write : Bool}
    (h : allows user write w = true) : present w = true := by
  simp only [allows, Bool.and_eq_true] at h
  exact h.1.1

/-- The hardware reads one directory entry and one table entry. -/
theorem Mem.translate_congr {m m' : Mem n} {g : Fin n} {va : Word}
    (hpde : m'.entry g (pdx va) = m.entry g (pdx va))
    (hpte : ∀ pt, pageOf n (m.entry g (pdx va)) = some pt →
      m'.entry pt (ptx va) = m.entry pt (ptx va)) (user write : Bool) :
    m'.translate g va user write = m.translate g va user write := by
  unfold translate
  simp only [hpde]
  refine ite_congr rfl (fun hp => dite_congr rfl (fun hlt => ?_) fun _ => rfl) fun _ => rfl
  have hpage : pageOf n (m.entry g (pdx va)) = some ⟨_, hlt⟩ :=
    pageOf_eq_some.mpr ⟨present_of_allows hp, rfl⟩
  simp only [hpte _ hpage]

theorem Mem.allows_userPde {w : Word} (h : UserPde w) (user write : Bool) :
    allows user write w = true := by
  have bit : ∀ b : Word, b = pteP ∨ b = pteW ∨ b = pteU → w &&& b = b := by
    intro b hb
    have hsub : (pteP ||| pteW ||| pteU) &&& b = b := by
      rcases hb with rfl | rfl | rfl <;> decide
    calc w &&& b = w &&& ((pteP ||| pteW ||| pteU) &&& b) := by rw [hsub]
      _ = (w &&& (pteP ||| pteW ||| pteU)) &&& b := (BitVec.and_assoc ..).symm
      _ = b := by rw [h, hsub]
  have hP := bit pteP (by simp)
  have hW := bit pteW (by simp)
  have hU := bit pteU (by simp)
  simp only [allows, present, hP, hW, hU]
  cases user <;> cases write <;> decide

namespace MemInv

variable {S h : Set (Fin n)} {dirs : ι → Option (Fin n)} {x : Fin n → ℕ} {m m' : Mem n}
  {e : ι} {g p : Fin n} {d t : Fin 1024} {w va : Word}

/-- Translation through a live directory. -/
theorem translate_eq (inv : MemInv S dirs x h m) (he : dirs e = some g) (hva : va < utop)
    (user write : Bool) :
    m.translate g va user write =
      if Mem.allows user write (m.pte g (pdx va) (ptx va)) then
        (pageOf n (m.pte g (pdx va) (ptx va))).map fun p => (p, pgoff va)
      else none := by
  have hd := pdx_lt_userPdes hva
  cases hp : present (m.entry g (pdx va)) with
  | false =>
    have ht : m.ptab g (pdx va) = none := by rw [Mem.ptab_eq hd, pageOf_of_not_present hp]
    simp [Mem.translate, hp, Mem.pte_of_no_ptab ht, Mem.allows]
  | true =>
    obtain ⟨hlt, hu⟩ := inv.pdeOk e g _ he hd hp
    obtain ⟨pt, ht, hpt⟩ := inv.ptab_of_present he hd hp
    have hpt' : (⟨pgnum (m.entry g (pdx va)), hlt⟩ : Fin n) = pt := Fin.ext hpt
    simp only [Mem.translate, Mem.allows_userPde hu, if_true, hlt, dif_pos, hpt',
      Mem.pte_of_ptab ht]
    split_ifs with h1 h2
    · simp [pageOf, Mem.present_of_allows h1, h2]
    · simp [pageOf, h2]
    · rfl

omit [Fintype ι] in
theorem spaces_setFrame (hns : NotStruct m dirs p) (f : Frame) :
    (m.setFrame p f).spaces dirs = m.spaces dirs := by
  have hst : ∀ (s : Slot ι) (q : Fin n), s.Struct → m.target dirs s = some q →
      (m.setFrame p f).frame q = m.frame q := by
    intro s q hs hq
    refine Function.update_of_ne ?_ ..
    rintro rfl
    exact hns s hs hq
  funext e d t
  cases he : dirs e with
  | none => simp [Mem.spaces, he]
  | some g =>
    rw [Mem.spaces_of_dir he, Mem.spaces_of_dir he]
    refine Mem.pte_congr (hst (.dir e) g trivial he) fun pt hpt => ?_
    exact hst (.pde e d) pt trivial ((Mem.target_pde he).trans hpt)

/-- A store changes one byte of a mapped page. -/
theorem storeByte (inv : MemInv S dirs x h m) (he : dirs e = some g) (hva : va < utop)
    {b : Byte} {user : Bool} (hst : m.storeByte g va b user = some m') :
    MemInv S dirs x h m' ∧ m'.spaces dirs = m.spaces dirs ∧ m'.kernPgdir = m.kernPgdir ∧
      ∀ q, pageOf n (m.pte g (pdx va) (ptx va)) ≠ some q → m'.frame q = m.frame q := by
  rw [Mem.storeByte, inv.translate_eq he hva] at hst
  split_ifs at hst with hallow
  · obtain ⟨⟨p, o⟩, hp, rfl⟩ := Option.map_eq_some_iff.mp hst
    obtain ⟨p', hp', hpo⟩ := Option.map_eq_some_iff.mp hp
    cases hpo
    have hns := inv.notStruct_of_pte he hp'
    have hS := inv.target_mem ((Mem.target_pte he).trans hp')
    refine ⟨inv.setFrame hns hS _, spaces_setFrame hns _, rfl, fun q hq => ?_⟩
    exact Function.update_of_ne (fun c : q = p => hq (c ▸ hp')) ..
  · simp at hst

/-- The kernel's own directory maps no user memory. -/
theorem translate_kern (inv : MemInv S dirs x h m) (hva : va < utop) (user write : Bool) :
    m.translate m.kernPgdir va user write = none := by
  have hp := inv.kernUser _ (pdx_lt_userPdes hva)
  simp [Mem.translate, Mem.allows, hp]

section
variable [DecidableEq ι]

/-- Changing a directory entry without changing the table that it points to. -/
theorem retouchPde (inv : MemInv S dirs x h m) (he : dirs e = some g) (hd : (d : Nat) < userPdes)
    (hp : present w = present (m.entry g d)) (hn : pgnum w = pgnum (m.entry g d))
    (hu : present w = true → UserPde w) :
    MemInv S dirs x h (m.setEntry g d w) ∧
      (m.setEntry g d w).spaces dirs = m.spaces dirs ∧
      (m.setEntry g d w).ptab g d = m.ptab g d := by
  have hw : pageOf n w = m.ptab g d := by
    rw [Mem.ptab_eq hd]
    simp only [pageOf, hp, hn]
  have hptab : (m.setEntry g d w).ptab g d = m.ptab g d := by
    rw [inv.excl.distinct.ptab_setDir he he hd, if_pos ⟨rfl, rfl⟩, hw]
  have hpte : ∀ t, (m.setEntry g d w).pte g d t = m.pte g d t := by
    intro t
    cases ht : m.ptab g d with
    | none => rw [Mem.pte_of_no_ptab (hptab.trans ht), Mem.pte_of_no_ptab ht]
    | some pt =>
      rw [Mem.pte_of_ptab (hptab.trans ht), Mem.pte_of_ptab ht, Mem.entry_setEntry, if_neg]
      exact fun c => inv.excl.distinct.table_ne_dir he ht he c.1
  refine ⟨?_, ?_, hptab⟩
  · refine inv.setDir he hd (fun t ht => by rw [hpte, ht]) (fun t _ => hpte t) (fun c => ?_)
      (fun p hpw s hs hsp => ?_) ?_
    · exact ⟨hn ▸ (inv.pdeOk e g d he hd (hp ▸ c)).1, hu c⟩
    · exact hs (inv.excl (.pde e d) s p trivial ((Mem.target_pde he).trans (hw ▸ hpw)) hsp)
    · rw [hw, ← Mem.target_pde he, Function.update_eq_self]
      exact inv.account
  · funext e' d' t'
    cases he' : dirs e' with
    | none => simp [Mem.spaces, he']
    | some g' =>
      rw [Mem.spaces_of_dir he', Mem.spaces_of_dir he']
      by_cases hc : e' = e ∧ d' = d
      · obtain ⟨rfl, rfl⟩ := hc
        obtain rfl : g' = g := Option.some.inj (he'.symm.trans he)
        exact hpte t'
      · exact inv.excl.distinct.pte_setDir he he' hd hc

end

end MemInv

/-- The entry after an access. -/
def touched (store : Option Byte) (pte : Word) : Word :=
  match store with
  | none => pte ||| pteA
  | some _ => pte ||| pteA ||| pteD

/-- The contents of a page after an access. -/
def stored (store : Option Byte) (o : Fin 4096) (f : Frame) : Frame :=
  match store with
  | none => f
  | some b => Function.update f o b

theorem pgnum_touched (store : Option Byte) (w : Word) : pgnum (touched store w) = pgnum w := by
  have hA : pgnum pteA = 0 := rfl
  have hD : pgnum pteD = 0 := rfl
  cases store <;> simp [touched, pgnum_or, hA, hD]

theorem present_touched (store : Option Byte) (w : Word) :
    present (touched store w) = present w := by
  have hA : present pteA = false := by decide
  have hD : present pteD = false := by decide
  cases store <;> simp [touched, hA, hD]

namespace MemInv

variable {S h : Set (Fin n)} {dirs : ι → Option (Fin n)} {x : Fin n → ℕ} {m m' : Mem n}
  {e : ι} {g p : Fin n} {va : Word}

/-- A load or store in user mode sets bits of the entry, and a store changes one byte. -/
theorem userAccess [DecidableEq ι] (inv : MemInv S dirs x h m) (he : dirs e = some g)
    (hva : va < utop) {store : Option Byte} (hacc : m.userAccess g va store = some m') :
    ∃ p, pageOf n (m.pte g (pdx va) (ptx va)) = some p ∧
      Mem.allows true store.isSome (m.pte g (pdx va) (ptx va)) = true ∧
      MemInv S dirs x h m' ∧
      m'.spaces dirs =
        setSpace (m.spaces dirs) e va (touched store (m.pte g (pdx va) (ptx va))) ∧
      m'.kernPgdir = m.kernPgdir ∧
      ∀ q, NotStruct m dirs q →
        m'.frame q = if q = p then stored store (pgoff va) (m.frame p) else m.frame q := by
  have hd := pdx_lt_userPdes hva
  have htr := inv.translate_eq he hva true store.isSome
  simp only [Mem.userAccess, htr] at hacc
  by_cases hallow : Mem.allows true store.isSome (m.pte g (pdx va) (ptx va)) = true
  · rw [if_pos hallow] at hacc
    cases hpte : pageOf n (m.pte g (pdx va) (ptx va)) with
    | none => simp [hpte] at hacc
    | some p =>
      obtain ⟨pt, ht⟩ : ∃ pt, m.ptab g (pdx va) = some pt := by
        cases ht : m.ptab g (pdx va) with
        | none => simp [Mem.pte_of_no_ptab ht] at hpte
        | some pt => exact ⟨pt, rfl⟩
      have hpde := (Mem.ptab_eq hd).symm.trans ht
      obtain ⟨hpp, hpn⟩ := pageOf_eq_some.mp hpde
      obtain ⟨hlt, huser⟩ := inv.pdeOk e g _ he hd hpp
      have hpt : (⟨pgnum (m.entry g (pdx va)), hlt⟩ : Fin n) = pt := Fin.ext hpn
      have hA : pgnum pteA = 0 := rfl
      obtain ⟨inv₁, hsp₁, ht₁⟩ := inv.retouchPde (w := m.entry g (pdx va) ||| pteA) he hd
        (by simp [hpp]) (by simp [pgnum_or, hA]) fun _ => huser.or pteA
      rw [ht] at ht₁
      set m₁ := m.setEntry g (pdx va) (m.entry g (pdx va) ||| pteA) with hm₁
      have hpte₁ : m₁.pte g (pdx va) (ptx va) = m.pte g (pdx va) (ptx va) := by
        rw [← Mem.spaces_of_dir he, hsp₁, Mem.spaces_of_dir he]
      have inv₂ := inv₁.retouchPte he ht₁ (t := ptx va)
        (w := touched store (m.pte g (pdx va) (ptx va)))
        (by rw [hpte₁, present_touched]) (by rw [hpte₁, pgnum_touched])
      have hsp₂ := inv₁.spaces_setTable he ht₁ (w := touched store (m.pte g (pdx va) (ptx va)))
      rw [hsp₁] at hsp₂
      set m₂ := m₁.setEntry pt (ptx va) (touched store (m.pte g (pdx va) (ptx va))) with hm₂
      have hns := inv.notStruct_of_pte he hpte
      have hframe₂ : ∀ q, NotStruct m dirs q → m₂.frame q = m.frame q := by
        intro q hq
        rw [hm₂, Mem.frame_setEntry_of_ne, hm₁, Mem.frame_setEntry_of_ne]
        · rintro rfl
          exact hq (.dir e) trivial he
        · rintro rfl
          exact hq (.pde e (pdx va)) trivial ((Mem.target_pde he).trans ht)
      refine ⟨p, rfl, hallow, ?_⟩
      have hentry : m.entry pt (ptx va) = m.pte g (pdx va) (ptx va) := (Mem.pte_of_ptab ht).symm
      cases store with
      | none =>
        have : m' = m₂ := by
          simp only [hpte, Option.map_some, Option.bind_eq_bind, Option.bind_some, hlt, dif_pos,
            hpt, hentry, Option.pure_def, Option.some.injEq] at hacc
          exact hacc.symm
        subst this
        refine ⟨inv₂, hsp₂, rfl, fun q hq => ?_⟩
        rw [hframe₂ q hq, stored]
        split_ifs with hqp
        · rw [hqp]
        · rfl
      | some b =>
        have : m' = m₂.setFrame p (Function.update (m₂.frame p) (pgoff va) b) := by
          simp only [hpte, Option.map_some, Option.bind_eq_bind, Option.bind_some, hlt, dif_pos,
            hpt, hentry, Option.pure_def, Option.some.injEq] at hacc
          exact hacc.symm
        subst this
        have hns₂ : NotStruct m₂ dirs p := by
          refine inv₂.notStruct_of_pte he (t := ptx va) (d := pdx va) ?_
          rw [← Mem.spaces_of_dir he, hsp₂]
          simp only [setSpace, and_self, if_true]
          rw [pageOf, present_touched, pgnum_touched]
          exact hpte
        have hS := inv.target_mem ((Mem.target_pte he).trans hpte)
        refine ⟨inv₂.setFrame hns₂ hS _, (spaces_setFrame hns₂ _).trans hsp₂, rfl, ?_⟩
        intro q hq
        by_cases hqp : q = p
        · subst hqp
          simp [Mem.setFrame, stored, hframe₂ q hq]
        · simp [Mem.setFrame, hqp, hframe₂ q hq]
  · rw [if_neg hallow] at hacc
    simp at hacc

end MemInv

end JosKernel
