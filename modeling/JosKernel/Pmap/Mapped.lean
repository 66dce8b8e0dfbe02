import JosKernel.Lib.Runs
import JosKernel.Pmap.Accounted
import JosKernel.Pmap.Insert

/-!
# Mapped pages are not free

Runs of `page_alloc`, `page_insert` and `page_remove` on any page directories. As long as no
counter wraps around, every page has at least as many references in its counter as the tables
have, and a free page has none. `page_insert` does not look at the counter: the 65536th mapping of
a page makes it zero again, and the next `page_remove` of the page by `page_insert` itself frees
it.
-/
namespace JosKernel

open Lib

variable {n : Nat} {ι : Type}

/-! ## Mapping pages -/

namespace Accounted

variable [Fintype ι] {S h : Set (Fin n)} {dirs : ι → Option (Fin n)} {x : Fin n → ℕ}
  {m m' : Mem n} {e : ι} {g p pp pt : Fin n} {d t : Fin 1024} {va w perm : Word}

/-- The first page of the free list. -/
theorem head (inv : Accounted S dirs x h m) (hl : m.pageFreeList = some p) :
    p ∈ S ∧ (∀ s, m.target dirs s ≠ some p) ∧ m.ref p = 0 ∧ p ∉ h := by
  obtain ⟨hS, h0, hh⟩ := inv.account.onFreeList_iff.mp (inv.account.onFreeList_head hl)
  refine ⟨hS, count_eq_zero.mp (by omega), ?_, hh⟩
  rw [inv.account.ref_eq hS, h0]

/-- Overwriting a page that is neither a directory nor a table. -/
theorem setFrame (inv : Accounted S dirs x h m) (hns : NotStruct m dirs p) (f : Frame) :
    Accounted S dirs x h (m.setFrame p f) := by
  have hst : ∀ (s : Slot ι) (q : Fin n), s.Struct → m.target dirs s = some q →
      (m.setFrame p f).frame q = m.frame q :=
    fun s q hs hq => Function.update_of_ne (fun c : q = p => hns s hs (c ▸ hq)) ..
  have ht := Mem.target_congr hst
  have hdir : ∀ e g, dirs e = some g → (m.setFrame p f).frame g = m.frame g :=
    fun e g he => hst (.dir e) g trivial he
  refine ⟨ht ▸ inv.account, fun s s' q => by rw [ht]; exact inv.distinct s s' q, ?_, ?_⟩
  · intro e g d he
    simpa only [Mem.entry, hdir e g he] using inv.pdeOk e g d he
  · intro e g d t he
    rw [Mem.pte_congr (hdir e g he) fun pt hpt =>
      hst (.pde e d) pt trivial ((Mem.target_pde he).trans hpt)]
    exact inv.pteOk e g d t he

/-- `page_alloc` hands out a free page, which is held from then on. -/
theorem pageAlloc (inv : Accounted S dirs x h m) (zero : Bool) :
    ∃ h', Accounted S dirs x h' (m.pageAlloc zero).2 := by
  cases hl : m.pageFreeList with
  | none => exact ⟨h, by rwa [Mem.pageAlloc, hl]⟩
  | some p =>
    obtain ⟨-, hfresh, -, -⟩ := inv.head hl
    have inv' : Accounted S dirs x (insert p h) (m.takenHead p) :=
      inv.withAccount rfl (inv.account.takeHead hl)
    refine ⟨insert p h, ?_⟩
    cases zero with
    | false =>
      rw [Mem.pageAlloc, hl]
      exact inv'
    | true =>
      rw [Mem.pageAlloc, hl]
      exact inv'.setFrame (fun s _ => hfresh s) fun _ => 0

/-- An outside reference to a page becomes a mapping. -/
theorem linkPte [DecidableEq ι] (inv : Accounted S dirs x h m) (he : dirs e = some g)
    (ht : m.ptab g d = some pt) (hnone : m.target dirs (.pte e d t) = none)
    (hw : pageOf n w = some p) (hS : p ∈ S) (hx : 0 < x p) :
    Accounted S dirs (Function.update x p (x p - 1)) h (m.setEntry pt t w) := by
  refine inv.setPte he ht (fun _ => ?_) ?_
  · rw [(pageOf_eq_some.mp hw).2]
    exact p.isLt
  · obtain ⟨free, hfree, c, hlink⟩ := inv.account
    rw [hw]
    exact ⟨free, hfree, c.link hS hnone hx, hlink⟩

/-- Changing an entry without changing the page that it maps. -/
theorem retouchPte [DecidableEq ι] (inv : Accounted S dirs x h m) (he : dirs e = some g)
    (ht : m.ptab g d = some pt) (hp : pageOf n (m.pte g d t) = some p)
    (hw : pageOf n w = some p) : Accounted S dirs x h (m.setEntry pt t w) := by
  refine inv.setPte he ht (fun _ => ?_) ?_
  · rw [(pageOf_eq_some.mp hw).2]
    exact p.isLt
  · rw [hw, ← hp, ← Mem.target_pte he, Function.update_eq_self]
    exact inv.account

/-- The new table of a walk is counted. -/
theorem made [DecidableEq ι] (inv : Accounted S dirs x h m) (small : n ≤ 2 ^ 20)
    (he : dirs e = some g) (hd : (d : Nat) < userPdes) (ht : m.ptab g d = none)
    (hl : m.pageFreeList = some p) (hl' : m'.pageFreeList = (m.pages p).ppLink)
    (made : Tables.MadeTable m g d p m') :
    Accounted S dirs x h m' ∧
      m'.target dirs = Function.update (m.target dirs) (.pde e d) (some p) := by
  obtain ⟨hS, hfresh, href, hh⟩ := inv.head hl
  have hdir : ∀ e' g', dirs e' = some g' → p ≠ g' := fun e' g' he' hp =>
    hfresh (.dir e') (he'.trans (congrArg some hp.symm))
  have htab : ∀ e' g' d', dirs e' = some g' →
      m'.ptab g' d' = if e' = e ∧ d' = d then some p else m.ptab g' d' := by
    intro e' g' d' he'
    by_cases hd' : (d' : Nat) < userPdes
    · rw [Mem.ptab_eq_table hd', Mem.ptab_eq_table hd']
      exact made.tables small (fun _ _ _ h₁ h₂ => inv.distinct.dir_inj h₂ h₁) he he'
        (hdir e' g' he') d'
    · have hne : d' ≠ d := fun hc => hd' (hc ▸ hd)
      simp [Mem.ptab, hd', hne]
  have hpte : ∀ e' g' d' t', dirs e' = some g' → m'.pte g' d' t' = m.pte g' d' t' := by
    intro e' g' d' t' he'
    have hq := htab e' g' d' he'
    by_cases hc : e' = e ∧ d' = d
    · obtain ⟨rfl, rfl⟩ := hc
      obtain rfl : g' = g := Option.some.inj (he'.symm.trans he)
      rw [if_pos ⟨rfl, rfl⟩] at hq
      rw [Mem.pte_of_ptab hq, Mem.pte_of_no_ptab ht, made.zero]
    · rw [if_neg hc] at hq
      cases hq' : m.ptab g' d' with
      | none => rw [Mem.pte_of_no_ptab (hq.trans hq'), Mem.pte_of_no_ptab hq']
      | some q =>
        have hqp : q ≠ p := fun hp =>
          hfresh (.pde e' d') ((Mem.target_pde he').trans (hp ▸ hq'))
        rw [Mem.pte_of_ptab (hq.trans hq'), Mem.pte_of_ptab hq', Mem.entry,
          made.frame q hqp (inv.distinct.table_ne_dir he' hq' he), Mem.entry]
  have htar : m'.target dirs = Function.update (m.target dirs) (.pde e d) (some p) := by
    funext s
    cases s with
    | dir e' => simp
    | pde e' d' =>
      cases he' : dirs e' with
      | none =>
        have hne : e' ≠ e := fun hc => by simp [hc, he] at he'
        simp [Mem.target, he', hne]
      | some g' =>
        rw [Mem.target_pde he', htab e' g' d' he', Function.update_apply, Mem.target_pde he']
        simp
    | pte e' d' t' =>
      rw [Function.update_of_ne (by simp)]
      cases he' : dirs e' with
      | none => simp [Mem.target, he']
      | some g' => rw [Mem.target_pte he', Mem.target_pte he', hpte e' g' d' t' he']
  refine ⟨⟨?_, ?_, ?_, ?_⟩, htar⟩
  · -- taken off the list, counted, and then linked by the directory entry
    have hx : m'.Account S (m.target dirs) (Function.update x p (x p + 1)) h := by
      have acc := (inv.account.takeHead hl).incRef hS (.inl (Set.mem_insert p h))
        (by rw [Mem.ref_takenHead, href]; omega)
      rw [Set.insert_sdiff_of_mem _ (Set.mem_singleton p), Set.sdiff_singleton_eq_self hh] at acc
      refine acc.congr ?_ hl'
      rw [made.pages]
      simp [Mem.incRef, Mem.takenHead, Mem.setPage]
    obtain ⟨free, hfree, c, hlink⟩ := hx
    have hc := c.link hS ((Mem.target_pde he).trans ht) (by simp)
    rw [Function.update_self, Nat.add_sub_cancel, Function.update_idem,
      Function.update_eq_self] at hc
    rw [htar]
    exact ⟨free, hfree, hc, hlink⟩
  · have hother : ∀ s q, m'.target dirs s = some q → s ≠ .pde e d → m.target dirs s = some q := by
      intro s q hq hs
      rwa [htar, Function.update_of_ne hs] at hq
    have hnew : ∀ s, m'.target dirs s = some p → s = .pde e d := fun s hp => by
      by_contra hs
      exact hfresh s (hother s p hp hs)
    intro s s' q hs hs' hq hq'
    by_cases hc : s = .pde e d
    · have hqp : q = p := by
        rw [htar, hc, Function.update_self] at hq
        exact (Option.some.inj hq).symm
      rw [hc, hnew s' (hqp ▸ hq')]
    · by_cases hc' : s' = .pde e d
      · have hqp : q = p := by
          rw [htar, hc', Function.update_self] at hq'
          exact (Option.some.inj hq').symm
        exact absurd (hnew s (hqp ▸ hq)) hc
      · exact inv.distinct s s' q hs hs' (hother s q hq hc) (hother s' q hq' hc')
  · intro e' g' d' he' hd' hp
    by_cases hc : e' = e ∧ d' = d
    · have hq := (Mem.ptab_eq_table hd').symm.trans (htab e' g' d' he')
      rw [if_pos hc] at hq
      rw [(pageOf_eq_some.mp hq).2]
      exact p.isLt
    · have hent : m'.entry g' d' = m.entry g' d' := by
        by_cases hg : g' = g
        · subst hg
          obtain rfl := inv.distinct.dir_inj he he'
          exact made.other d' fun hdd => hc ⟨rfl, hdd⟩
        · rw [Mem.entry, made.frame g' (hdir e' g' he').symm hg, Mem.entry]
      rw [hent] at hp ⊢
      exact inv.pdeOk e' g' d' he' hd' hp
  · intro e' g' d' t' he'
    rw [hpte e' g' d' t' he']
    exact inv.pteOk e' g' d' t' he'

theorem not_present_of_no_ptab (inv : Accounted S dirs x h m) (he : dirs e = some g)
    (hd : (d : Nat) < userPdes) (ht : m.ptab g d = none) : present (m.entry g d) = false := by
  by_contra hp
  rw [Bool.not_eq_false] at hp
  have hlt := inv.pdeOk e g d he hd hp
  rw [Mem.ptab_eq hd] at ht
  cases ht.symm.trans (pageOf_eq_some.mpr ⟨hp, (rfl : _ = ((⟨_, hlt⟩ : Fin n) : Nat))⟩)

/-- `pgdir_walk` with `create` set. -/
theorem walk [DecidableEq ι] (inv : Accounted S dirs x h m) (small : n ≤ 2 ^ 20)
    (he : dirs e = some g) (hva : va < utop) :
    m.pgdirWalk g va true = .ok (none, m) ∨
      ∃ pt m₁, m.pgdirWalk g va true = .ok (some (pt, ptx va), m₁) ∧ Accounted S dirs x h m₁ ∧
        m₁.ptab g (pdx va) = some pt ∧
        (m₁ = m ∨ m.ptab g (pdx va) = none ∧ m.OnFreeList pt ∧
          (∀ q, m₁.OnFreeList q → m.OnFreeList q) ∧ ∀ q, q ≠ pt → m₁.pages q = m.pages q) := by
  have hd := pdx_lt_userPdes hva
  cases ht : m.ptab g (pdx va) with
  | some pt => exact .inr ⟨pt, m, MemInv.pgdirWalk_of_ptab ht true, inv, ht, .inl rfl⟩
  | none =>
    have hold := inv.not_present_of_no_ptab he hd ht
    cases hl : m.pageFreeList with
    | none =>
      exact .inl (by simp [Mem.pgdirWalk, hold, Mem.pageAlloc, hl, pure, Except.pure])
    | some p =>
      obtain ⟨-, hfresh, -, -⟩ := inv.head hl
      have hpg : p ≠ g := fun hp => hfresh (.dir e) (he.trans (congrArg some hp.symm))
      obtain ⟨m₁, hwalk, hl₁, hmade⟩ := Tables.madeTable hl hpg small hold
      obtain ⟨inv₁, htar⟩ := inv.made small he hd ht hl hl₁ hmade
      have ht₁ : m₁.target dirs (.pde e (pdx va)) = some p := by rw [htar, Function.update_self]
      refine .inr ⟨p, m₁, hwalk, inv₁, (Mem.target_pde he).symm.trans ht₁, .inr ⟨rfl,
        inv.account.onFreeList_head hl, fun q hq => ?_, fun q hq => hmade.link hq⟩⟩
      obtain ⟨hqS, h0, hqh⟩ := inv₁.account.onFreeList_iff.mp hq
      have hgone : ∀ s, m.target dirs s ≠ some q := fun s hs => by
        have hne : s ≠ .pde e (pdx va) := by
          rintro rfl
          cases ((Mem.target_pde he).symm.trans hs).symm.trans ht
        have hs₁ : m₁.target dirs s = some q := by rw [htar, Function.update_of_ne hne, hs]
        have hpos := count_pos hs₁
        omega
      exact inv.account.onFreeList_iff.mpr ⟨hqS, by rw [count_eq_zero.mpr hgone]; omega, hqh⟩

/-- The entry that `page_insert` writes once the table is there. -/
theorem insertPte [DecidableEq ι] (inv : Accounted S dirs x h m) (he : dirs e = some g)
    (ht : m.ptab g (pdx va) = some pt) (hS : pp ∈ S) (hf : ¬m.OnFreeList pp)
    (hr : m.ref pp < 65535 ∨ pageOf n (m.entry pt (ptx va)) = some pp)
    (hw : pageOf n w = some pp) :
    ∃ h', Accounted S dirs x h'
      ((m.exchange pp (pageOf n (m.entry pt (ptx va)))).setEntry pt (ptx va) w) := by
  have hpte : m.pte g (pdx va) (ptx va) = m.entry pt (ptx va) := Mem.pte_of_ptab ht
  by_cases hsame : pageOf n (m.entry pt (ptx va)) = some pp
  · have hpos := count_pos ((Mem.target_pte he).trans (hpte ▸ hsame))
    have href : (m.pages pp).ppRef ≠ 0 := fun h0 => by
      have := inv.account.ref_eq hS
      simp only [Mem.ref, h0] at this
      simp at this
      omega
    rw [hsame, Mem.exchange_self href]
    exact ⟨h, inv.retouchPte he ht (hpte ▸ hsame) hw⟩
  · have inv₁ : Accounted S dirs (Function.update x pp (x pp + 1)) (h \ {pp}) (m.incRef pp) :=
      inv.withAccount rfl (inv.account.incRef hS (inv.account.held_or_counted hS hf)
        (hr.resolve_right hsame))
    have ht₁ : (m.incRef pp).ptab g (pdx va) = some pt := ht
    have htar₁ : (m.incRef pp).target dirs = m.target dirs := Mem.target_congr fun _ _ _ _ => rfl
    have hback : ∀ {m' : Mem n}, Accounted S dirs
        (Function.update (Function.update x pp (x pp + 1)) pp
          (Function.update x pp (x pp + 1) pp - 1)) (h \ {pp}) m' →
        Accounted S dirs x (h \ {pp}) m' := by
      intro m' inv'
      rwa [Function.update_self, Nat.add_sub_cancel, Function.update_idem,
        Function.update_eq_self] at inv'
    refine ⟨h \ {pp}, ?_⟩
    cases hold : pageOf n (m.entry pt (ptx va)) with
    | none =>
      have hnone : (m.incRef pp).target dirs (.pte e (pdx va) (ptx va)) = none := by
        rw [htar₁, Mem.target_pte he, hpte, hold]
      exact hback (inv₁.linkPte he ht₁ hnone hw hS (by simp))
    | some q =>
      have hold₁ : pageOf n ((m.incRef pp).entry pt (ptx va)) = some q := hold
      have hslot : (m.incRef pp).target dirs (.pte e (pdx va) (ptx va)) = some q := by
        rw [htar₁, Mem.target_pte he, hpte, hold]
      have hlink : ((m.incRef pp).pages q).ppLink = none :=
        inv₁.account.link_eq_none (inv₁.target_mem hslot) (inv₁.account.not_onFreeList hslot)
      obtain ⟨m₂, hrem, inv₂, htar₂, -, -⟩ := inv₁.pageRemove he ht₁
        ((Mem.target_pte he).symm.trans hslot)
      rw [Mem.pageRemove_eq ((Mem.ptab_eq_table (Mem.lt_of_ptab ht₁)).symm.trans ht₁) hold₁
        fun _ => hlink, Except.ok.injEq] at hrem
      have ht₂ : m₂.ptab g (pdx va) = some pt := by
        rw [← Mem.target_pde he, htar₂, Function.update_of_ne (by simp), Mem.target_pde he]
        exact ht₁
      have hnone : m₂.target dirs (.pte e (pdx va) (ptx va)) = none := by
        rw [htar₂, Function.update_self]
      have inv₃ := hback (inv₂.linkPte he ht₂ hnone hw hS (by simp))
      rwa [← hrem, Mem.setEntry_setEntry] at inv₃

/-- `page_insert` of a page that is not free. Its counter must have room for one more reference,
unless the page is mapped there already. -/
theorem pageInsert [DecidableEq ι] (inv : Accounted S dirs x h m) (small : n ≤ 2 ^ 20)
    (he : dirs e = some g) (hva : va < utop) (hperm : perm.toNat < 4096) (hS : pp ∈ S)
    (hf : ¬m.OnFreeList pp) (hr : m.ref pp < 65535 ∨ m.mappedPage g va = some pp) :
    ∃ r m' h', m.pageInsert g pp va perm = .ok (r, m') ∧ Accounted S dirs x h' m' := by
  have hd := pdx_lt_userPdes hva
  rcases inv.walk small he hva with hwalk | ⟨pt, m₁, hwalk, inv₁, ht₁, hcase⟩
  · exact ⟨-eNoMem, m, h, by simp [Mem.pageInsert, hwalk, bind, Except.bind, pure, Except.pure],
      inv⟩
  · have htab₁ : m₁.table g (pdx va) = some pt := (Mem.ptab_eq_table hd).symm.trans ht₁
    have hpte₁ : m₁.pte g (pdx va) (ptx va) = m₁.entry pt (ptx va) := Mem.pte_of_ptab ht₁
    have hf₁ : ¬m₁.OnFreeList pp ∧
        (m₁.ref pp < 65535 ∨ pageOf n (m₁.entry pt (ptx va)) = some pp) := by
      rcases hcase with rfl | ⟨ht, hpt, hsub, hpages⟩
      · rw [mappedPage_of_table htab₁] at hr
        exact ⟨hf, hr⟩
      · have hne : pp ≠ pt := fun hc => hf (hc ▸ hpt)
        have hunmapped : m.mappedPage g va ≠ some pp := fun hc =>
          Walked.table_ne_none hc ((Mem.ptab_eq_table hd).symm.trans ht)
        refine ⟨fun hc => hf (hsub pp hc), .inl ?_⟩
        rw [Mem.ref, hpages pp hne]
        exact hr.resolve_right hunmapped
    obtain ⟨h', inv'⟩ := inv₁.insertPte he ht₁ hS hf₁.1 hf₁.2 (pageOf_flags small hperm pp)
    refine ⟨0, _, h', Mem.pageInsert_eq hwalk htab₁ (hpte₁ ▸ inv₁.pteOk e g _ _ he) ?_, inv'⟩
    intro q hq
    have hslot := (Mem.target_pte he).trans (hpte₁ ▸ hq)
    exact inv₁.account.link_eq_none (inv₁.target_mem hslot) (inv₁.account.not_onFreeList hslot)

/-- `page_remove`, whether or not a page is mapped there. -/
theorem pageRemove_ok [DecidableEq ι] (inv : Accounted S dirs x h m) (he : dirs e = some g)
    (hva : va < utop) : ∃ m', m.pageRemove g va = .ok m' ∧ Accounted S dirs x h m' := by
  have hd := pdx_lt_userPdes hva
  cases ht : m.ptab g (pdx va) with
  | none =>
    have hp := inv.not_present_of_no_ptab he hd ht
    refine ⟨m, ?_, inv⟩
    simp [Mem.pageRemove, Mem.pageLookup, Mem.pgdirWalk, hp, bind, Except.bind, pure, Except.pure]
  | some pt =>
    have hpte : m.pte g (pdx va) (ptx va) = m.entry pt (ptx va) := Mem.pte_of_ptab ht
    cases hp : present (m.entry pt (ptx va)) with
    | false =>
      refine ⟨m, ?_, inv⟩
      simp [Mem.pageRemove, Mem.pageLookup, MemInv.pgdirWalk_of_ptab ht, hp, bind, Except.bind,
        pure, Except.pure]
    | true =>
      have hlt := inv.pteOk e g (pdx va) (ptx va) he (hpte ▸ hp)
      have hold : pageOf n (m.pte g (pdx va) (ptx va)) = some ⟨_, hlt⟩ :=
        pageOf_eq_some.mpr ⟨hpte ▸ hp, rfl⟩
      obtain ⟨m', hok, inv', -⟩ := inv.pageRemove he ht hold
      exact ⟨m', hok, inv'⟩

end Accounted

/-! ## Runs -/

/-- A call of the page allocator or of the functions that map pages. -/
inductive MapCall (n : Nat) (ι : Type) where
  | pageAlloc (zero : Bool)
  | pageInsert (e : ι) (pp : Fin n) (va perm : Word)
  | pageRemove (e : ι) (va : Word)

/-- What a call does with the directories `dirs`. -/
def MapCall.perform (dirs : ι → Option (Fin n)) (m : Mem n) : MapCall n ι → Except Panic (Mem n)
  | .pageAlloc zero => .ok (m.pageAlloc zero).2
  | .pageInsert e pp va perm =>
    match dirs e with
    | none => .ok m
    | some g => (m.pageInsert g pp va perm).map Prod.snd
  | .pageRemove e va =>
    match dirs e with
    | none => .ok m
    | some g => m.pageRemove g va

/-- Addresses of user memory, flags in the low 12 bits, and no free pages. Callers see to the first
and the last; `sys_page_alloc` and `sys_page_map` pass on any `perm` that has the bits they want. -/
def MapCall.Sound (m : Mem n) : MapCall n ι → Prop
  | .pageAlloc _ => True
  | .pageInsert _ pp va perm => va < utop ∧ perm.toNat < 4096 ∧ ¬m.OnFreeList pp
  | .pageRemove _ va => va < utop

def MapStep (dirs : ι → Option (Fin n)) (m : Mem n) (a : MapCall n ι) (m' : Mem n) : Prop :=
  a.Sound m ∧ a.perform dirs m = .ok m'

/-- The counter of an inserted page has room for one more reference, unless the page is mapped at
this address already. -/
def CountsUp (dirs : ι → Option (Fin n)) (m : Mem n) : MapCall n ι → Prop
  | .pageInsert e pp va _ =>
    (m.pages pp).ppRef ≠ 0xFFFF ∨ ∃ g, dirs e = some g ∧ m.mappedPage g va = some pp
  | _ => True

/-- Every page has at least as many references in its counter as in the tables, free pages have
none, and no page is a directory or a table in two places. -/
structure CountOk [Fintype ι] (dirs : ι → Option (Fin n)) (m : Mem n) : Prop where
  list : ∃ free, m.FreeList free ∧ (∀ p ∈ free, m.ref p = 0) ∧
    ∀ p, p ∉ free → (m.pages p).ppLink = none
  counted : ∀ p, count (m.target dirs) p ≤ m.ref p
  distinct : Distinct m dirs
  pdeOk : ∀ e g (d : Fin 1024), dirs e = some g → (d : Nat) < userPdes →
    present (m.entry g d) = true → pgnum (m.entry g d) < n
  pteOk : ∀ e g d t, dirs e = some g → present (m.pte g d t) = true → pgnum (m.pte g d t) < n

/-- No page that a user entry maps is free. -/
def MappedInUse (dirs : ι → Option (Fin n)) (m : Mem n) : Prop :=
  ∀ e g (d t : Fin 1024) p, dirs e = some g → (d : Nat) < userPdes →
    pageOf n (m.pteAt g d t) = some p → ¬m.OnFreeList p

section
variable [Fintype ι] {dirs : ι → Option (Fin n)} {m m' : Mem n} {S h : Set (Fin n)}
  {x : Fin n → ℕ}

/-- The references that no table accounts for are outside ones. -/
theorem CountOk.accounted (ok : CountOk dirs m) :
    ∃ x h, Accounted Set.univ dirs x h m := by
  obtain ⟨free, hfree, hzero, hlink⟩ := ok.list
  have htotal : ∀ p, count (m.target dirs) p + (m.ref p - count (m.target dirs) p) = m.ref p :=
    fun p => Nat.add_sub_cancel' (ok.counted p)
  refine ⟨fun p => m.ref p - count (m.target dirs) p, {p | p ∉ free ∧ m.ref p = 0},
    ⟨free, hfree, ⟨?_, fun p => ?_, fun p _ => (htotal p).symm, fun _ _ _ => trivial, ?_⟩,
      fun p _ => hlink p⟩, ok.distinct, ok.pdeOk, ok.pteOk⟩
  · exact ListSeg.nodup (Option.some_injective _) (by simp) hfree
  · rw [htotal]
    constructor
    · exact fun hp => ⟨trivial, hzero p hp, fun hc => hc.1 hp⟩
    · rintro ⟨-, h0, hh⟩
      by_contra hp
      exact hh ⟨hp, h0⟩
  · rintro p ⟨-, h0⟩
    exact ⟨trivial, (htotal p).trans h0⟩

theorem Accounted.countOk (inv : Accounted Set.univ dirs x h m) : CountOk dirs m where
  list := by
    obtain ⟨free, hfree, c, hlink⟩ := inv.account
    refine ⟨free, hfree, fun p hp => ?_, fun p => hlink p trivial⟩
    rw [c.ref_eq p trivial, ((c.mem_free p).mp hp).2.1]
  counted p := by
    rw [inv.account.ref_eq trivial]
    omega
  distinct := inv.distinct
  pdeOk := inv.pdeOk
  pteOk := inv.pteOk

theorem CountOk.mappedInUse (ok : CountOk dirs m) : MappedInUse dirs m := by
  obtain ⟨x, h, inv⟩ := ok.accounted
  intro e g d t p he hd hp
  rw [← Mem.pte_eq_pteAt hd] at hp
  exact inv.account.not_onFreeList ((Mem.target_pte he).trans hp)

/-- A call that is sound returns, and keeps the counts. -/
theorem CountOk.perform [DecidableEq ι] (small : n ≤ 2 ^ 20) (ok : CountOk dirs m)
    (a : MapCall n ι) (sound : a.Sound m) (up : CountsUp dirs m a) :
    ∃ m', a.perform dirs m = .ok m' ∧ CountOk dirs m' := by
  obtain ⟨x, h, inv⟩ := ok.accounted
  cases a with
  | pageAlloc zero =>
    obtain ⟨h', inv'⟩ := inv.pageAlloc zero
    exact ⟨_, rfl, inv'.countOk⟩
  | pageInsert e pp va perm =>
    obtain ⟨hva, hperm, hf⟩ := sound
    cases he : dirs e with
    | none => exact ⟨m, by simp [MapCall.perform, he], ok⟩
    | some g =>
      have hr : m.ref pp < 65535 ∨ m.mappedPage g va = some pp := by
        rcases up with href | ⟨g', he', hmap⟩
        · refine .inl ?_
          have hlt := (m.pages pp).ppRef.isLt
          have hne : (m.pages pp).ppRef.toNat ≠ 0xFFFF := fun hc =>
            href (BitVec.eq_of_toNat_eq hc)
          simp only [Mem.ref]
          omega
        · obtain rfl := Option.some.inj (he.symm.trans he')
          exact .inr hmap
      obtain ⟨r, m', h', hok, inv'⟩ := inv.pageInsert small he hva hperm trivial hf hr
      exact ⟨m', by simp [MapCall.perform, he, hok, Except.map], inv'.countOk⟩
  | pageRemove e va =>
    cases he : dirs e with
    | none => exact ⟨m, by simp [MapCall.perform, he], ok⟩
    | some g =>
      obtain ⟨m', hok, inv'⟩ := inv.pageRemove_ok he sound
      exact ⟨m', by simp [MapCall.perform, he, hok], inv'.countOk⟩

/-- In a run whose insertions all count up, no mapped page is free. -/
theorem mappedInUse_of_countsUp [DecidableEq ι] (small : n ≤ 2 ^ 20)
    (run : Reachable (CountOk dirs) (fun m a m' => MapStep dirs m a m' ∧ CountsUp dirs m a) m) :
    MappedInUse dirs m := by
  have ok : CountOk dirs m := by
    refine run.invariant (fun _ ok => ok) ?_
    rintro m a m' ok ⟨⟨sound, hok⟩, up⟩
    obtain ⟨m'', hok', ok'⟩ := ok.perform small a sound up
    obtain rfl : m' = m'' := Except.ok.inj (hok.symm.trans hok')
    exact ok'
  exact ok.mappedInUse

end

/-! ### A counter that wraps around -/

open Mem

instance (va va' : Word) : Decidable (SamePage va va') :=
  inferInstanceAs (Decidable (_ ∧ _))

section
variable {own : ι → Fin 1024 → Prop} {m m' : Mem n} {dirs : ι → Option (Fin n)}
  {free free' : List (Fin n)} {e : ι} {g pp pt : Fin n} {d t : Fin 1024} {va va' w perm : Word}

/-- Tables do not depend on the counters, and on the free list only as far as it has none of
them. -/
theorem Tables.relist (ok : Tables own m dirs free) (hf : m'.frame = m.frame)
    (hlist : m'.FreeList free') (hnodup : free'.Nodup)
    (hdir : ∀ e g, dirs e = some g → g ∉ free')
    (htab : ∀ e g d pt, dirs e = some g → m.table g d = some pt → pt ∉ free') :
    Tables own m' dirs free' := by
  have hentry : m'.entry = m.entry := by
    funext p i
    rw [Mem.entry, hf, Mem.entry]
  have htable : m'.table = m.table := by
    funext g d
    rw [Mem.table, hentry, Mem.table]
  exact
    { small := ok.small
      list := hlist
      nodup := hnodup
      dirInj := ok.dirInj
      dirFree := hdir
      tableFree := by rw [htable]; exact htab
      inRange := by rw [hentry]; exact ok.inRange
      tableInj := by rw [htable]; exact ok.tableInj
      notDir := by rw [htable]; exact ok.notDir }

/-- Counting a page. -/
theorem Tables.incRef (ok : Tables own m dirs free) (pp : Fin n) :
    Tables own (m.incRef pp) dirs free :=
  ok.relist rfl (ok.list.congr fun p _ => incRef_link m pp p) ok.nodup ok.dirFree ok.tableFree

/-- A new entry in the table `pt` of directory `e`. The table may be new as well. -/
structure NewEntry (m : Mem n) (dirs : ι → Option (Fin n)) (e : ι) (d t : Fin 1024) (w : Word)
    (pt : Fin n) (m' : Mem n) : Prop where
  table : ∀ e' g' d', dirs e' = some g' →
    (e' = e ∧ d' = d ∧ m'.table g' d' = some pt ∨
      ¬(e' = e ∧ d' = d) ∧ m'.table g' d' = m.table g' d')
  pte : ∀ e' g' (d' t' : Fin 1024), dirs e' = some g' → (d' : Nat) < userPdes →
    (e' = e ∧ d' = d ∧ t' = t ∧ m'.pteAt g' d' t' = w ∨
      ¬(e' = e ∧ d' = d ∧ t' = t) ∧ m'.pteAt g' d' t' = m.pteAt g' d' t')
  pde : ∀ e' g' d', dirs e' = some g' →
    m'.entry g' d' = m.entry g' d' ∨ UserPde (m'.entry g' d')

theorem NewEntry.mappedPage (h : NewEntry m dirs e (pdx va) (ptx va) w pt m') (he : dirs e = some g)
    (hw : pageOf n w = some pp) (hd : (pdx va' : Nat) < userPdes) :
    m'.mappedPage g va' = if SamePage va va' then some pp else m.mappedPage g va' := by
  rw [Mem.mappedPage]
  rcases h.pte e g (pdx va') (ptx va') he hd with ⟨-, hd', ht', hpte⟩ | ⟨hne, hpte⟩
  · rw [if_pos ⟨hd', ht'⟩, hpte, hw]
  · rw [if_neg fun hs => hne ⟨rfl, hs.1, hs.2⟩, hpte, Mem.mappedPage]

/-- A walk, and an entry written at its end. Pages can be counted in between. -/
theorem Tables.walk_newEntry [DecidableEq ι]
    (ok : Tables (fun _ d => (d : Nat) < userPdes) m dirs free) (he : dirs e = some g)
    (hd : (pdx va : Nat) < userPdes) (hroom : m.table g (pdx va) = none → free ≠ []) :
    ∃ pt m₁ free₁, m.pgdirWalk g va true = .ok (some (pt, ptx va), m₁) ∧
      Tables (fun _ d => (d : Nat) < userPdes) m₁ dirs free₁ ∧ m₁.table g (pdx va) = some pt ∧
      m₁.entry pt (ptx va) = m.pteAt g (pdx va) (ptx va) ∧
      (m.table g (pdx va) = some pt ∧ m₁ = m ∧ free₁ = free ∨
        m.table g (pdx va) = none ∧ free = pt :: free₁ ∧ MadeTable m g (pdx va) pt m₁) ∧
      ∀ m₂ free₂ w, m₂.frame = m₁.frame →
        Tables (fun _ d => (d : Nat) < userPdes) m₂ dirs free₂ →
        Tables (fun _ d => (d : Nat) < userPdes) (m₂.setEntry pt (ptx va) w) dirs free₂ ∧
          NewEntry m dirs e (pdx va) (ptx va) w pt (m₂.setEntry pt (ptx va) w) := by
  obtain ⟨pt, m₁, free₁, hwalk, ok₁, ht₁, hcase, hrest⟩ := ok.walk he hd hroom
  have hpte₁ : ∀ e' g' (d' t' : Fin 1024), dirs e' = some g' → (d' : Nat) < userPdes →
      m₁.pteAt g' d' t' = m.pteAt g' d' t' := by
    intro e' g' d' t' he' hd'
    refine (hrest e' g' he').2 d' t' fun hc => ?_
    rcases ok.notDir e' e g' d' he' hd' with h | h
    · exact h (hc.trans he.symm)
    · cases he.symm.trans h
  refine ⟨pt, m₁, free₁, hwalk, ok₁, ht₁, ?_, hcase, fun m₂ free₂ w hf ok₂ => ?_⟩
  · rw [← pteAt_of_table ht₁, hpte₁ e g _ _ he hd]
  have hentry : m₂.entry = m₁.entry := by
    funext p i
    rw [Mem.entry, hf, Mem.entry]
  have htab : m₂.table = m₁.table := by
    funext p d
    rw [Mem.table, hentry, Mem.table]
  have ht₂ : m₂.table g (pdx va) = some pt := by rw [htab, ht₁]
  obtain ⟨ok', hset⟩ := ok₂.setTable he hd ht₂ (ptx va) w
  refine ⟨ok', fun e' g' d' he' => ?_, fun e' g' d' t' he' hd' => ?_, fun e' g' d' he' => ?_⟩
  · rw [(hset e' g' he').1, htab, (hrest e' g' he').1]
    split_ifs with hc
    · exact .inl ⟨hc.1, hc.2, rfl⟩
    · exact .inr ⟨hc, rfl⟩
  · rw [(hset e' g' he').2, pteAt_of_frame hf, hpte₁ e' g' d' t' he' hd']
    split_ifs with hc
    · exact .inl ⟨hc.1, hc.2.1, hc.2.2, rfl⟩
    · exact .inr ⟨hc, rfl⟩
  · rw [entry_setEntry, if_neg fun hc => ok₂.table_ne_dir he hd ht₂ he' hc.1.symm, hentry]
    rcases hcase with ⟨-, rfl, -⟩ | ⟨-, rfl, made⟩
    · exact .inl rfl
    · by_cases hg : g' = g
      · subst hg
        by_cases hd' : d' = pdx va
        · rw [hd', made.entry]
          exact .inr (MemInv.userPde_newPde pt)
        · exact .inl (made.other d' hd')
      · have hpt : g' ≠ pt := fun hc => ok.dirFree e' g' he' (hc ▸ List.mem_cons_self)
        rw [Mem.entry, made.frame g' hpt hg]
        exact .inl rfl

theorem PageTables.incRef (ok : PageTables m dirs free) (pp : Fin n) :
    PageTables (m.incRef pp) dirs free :=
  ⟨ok.tables.incRef pp, fun p hp => (incRef_link m pp p).trans (ok.link p hp), ok.pteOk,
    ok.pteUsed⟩

/-- Mapping a page where none is mapped. -/
theorem PageTables.pageInsert_new [DecidableEq ι] (ok : PageTables m dirs free)
    (he : dirs e = some g) (hva : va < utop) (hperm : perm.toNat < 4096) (hpp : pp ∉ free)
    (hnone : m.mappedPage g va = none) (hroom : m.table g (pdx va) = none → free ≠ []) :
    ∃ pt m' free', m.pageInsert g pp va perm = .ok (0, m') ∧ PageTables m' dirs free' ∧
      (∀ p ∈ free', p ∈ free) ∧
      free' = (if m.table g (pdx va) = none then free.tail else free) ∧
      (m.table g (pdx va) = some pt ∨ pt ∈ free) ∧
      (∀ q, q ∉ free → (m'.pages q).ppRef = (m.pages q).ppRef + if q = pp then 1 else 0) ∧
      NewEntry m dirs e (pdx va) (ptx va) (pteAddr (page2pa pp) ||| perm ||| pteP) pt m' := by
  have hd := pdx_lt_userPdes hva
  have hw := pageOf_flags ok.tables.small hperm pp
  obtain ⟨pt, m₁, free₁, hwalk, ok₁, ht₁, hpte₁, hcase, hset⟩ :=
    ok.tables.walk_newEntry he hd hroom
  have hold : pageOf n (m₁.entry pt (ptx va)) = none := by
    rw [hpte₁]
    exact hnone
  have hsub : ∀ p ∈ free₁, p ∈ free := by
    intro p hp
    rcases hcase with ⟨-, -, rfl⟩ | ⟨-, rfl, -⟩
    · exact hp
    · exact List.mem_cons_of_mem pt hp
  have hlink₁ : ∀ p, p ∉ free₁ → (m₁.pages p).ppLink = none := by
    intro p hp
    rcases hcase with ⟨-, rfl, rfl⟩ | ⟨-, rfl, made⟩
    · exact ok.link p hp
    · by_cases hpt : p = pt
      · rw [hpt, made.pages, Function.update_self]
      · rw [made.link hpt]
        exact ok.link p (List.not_mem_cons_of_ne_of_not_mem hpt hp)
  have href₁ : ∀ q, q ∉ free → (m₁.pages q).ppRef = (m.pages q).ppRef := by
    intro q hq
    rcases hcase with ⟨-, rfl, -⟩ | ⟨-, rfl, made⟩
    · rfl
    · rw [made.link fun hc => hq (hc ▸ List.mem_cons_self)]
  obtain ⟨ok', hnew⟩ := hset (m₁.incRef pp) free₁
    (pteAddr (page2pa pp) ||| perm ||| pteP) rfl (ok₁.incRef pp)
  refine ⟨pt, _, free₁, ?_, ⟨ok', fun p hp => ?_, fun e' g' d' t' he' hd' => ?_,
    fun e' g' d' t' p he' hd' hp => ?_⟩, hsub, ?_, ?_, ?_, hnew⟩
  · have hins : m.pageInsert g pp va perm = _ :=
      Mem.pageInsert_eq hwalk ht₁ ?_ (by simp [hold])
    · rw [hins, hold]
      rfl
    · rw [hpte₁]
      exact ok.pteOk e g _ _ he hd
  · exact (incRef_link m₁ pp p).trans (hlink₁ p hp)
  · rcases hnew.pte e' g' d' t' he' hd' with ⟨-, -, -, hpte⟩ | ⟨-, hpte⟩
    · rw [hpte, (pageOf_eq_some.mp hw).2]
      exact fun _ => pp.isLt
    · rw [hpte]
      exact ok.pteOk e' g' d' t' he' hd'
  · rcases hnew.pte e' g' d' t' he' hd' with ⟨-, -, -, hpte⟩ | ⟨-, hpte⟩
    · rw [hpte] at hp
      obtain rfl : pp = p := Option.some.inj (hw.symm.trans hp)
      exact fun hc => hpp (hsub pp hc)
    · rw [hpte] at hp
      exact fun hc => ok.pteUsed e' g' d' t' p he' hd' hp (hsub p hc)
  · rcases hcase with ⟨ht, -, rfl⟩ | ⟨ht, rfl, -⟩ <;> simp [ht]
  · rcases hcase with ⟨ht, -, -⟩ | ⟨-, rfl, -⟩
    · exact .inl ht
    · exact .inr List.mem_cons_self
  · exact fun q hq => (incRef_ref m₁ pp q).trans (by rw [href₁ q hq])

/-- `page_alloc` takes the first page off the list and clears it. -/
theorem PageTables.pageAlloc (ok : PageTables m dirs (pp :: free)) :
    ∃ m', m.pageAlloc true = (some pp, m') ∧ PageTables m' dirs free ∧
      (∀ e g, dirs e = some g → (∀ d, m'.entry g d = m.entry g d) ∧
        ∀ d t : Fin 1024, (d : Nat) < userPdes → m'.pteAt g d t = m.pteAt g d t) ∧
      ∀ p, (m'.pages p).ppRef = (m.pages p).ppRef := by
  have hnodup := List.nodup_cons.mp ok.tables.nodup
  set m' := (m.takenHead pp).setFrame pp fun _ => 0 with hm'
  have halloc : m.pageAlloc true = (some pp, m') := by
    rw [Mem.pageAlloc, ok.tables.list.1]
    rfl
  have hentry : ∀ p d, p ≠ pp → m'.entry p d = m.entry p d := fun p d hp => by
    rw [Mem.entry, hm', Mem.setFrame]
    simp [hp, Mem.entry, Mem.takenHead, Mem.setPage]
  have hdir : ∀ e g, dirs e = some g → g ≠ pp := fun e g he hc =>
    ok.tables.dirFree e g he (hc ▸ List.mem_cons_self)
  have htab : ∀ e g d, dirs e = some g → m'.table g d = m.table g d := fun e g d he => by
    rw [Mem.table, hentry g d (hdir e g he), Mem.table]
  have hpte : ∀ e g (d t : Fin 1024), dirs e = some g → m'.pteAt g d t = m.pteAt g d t := by
    intro e g d t he
    cases ht : m.table g d with
    | none => rw [pteAt_of_no_table ((htab e g d he).trans ht), pteAt_of_no_table ht]
    | some pt =>
      rw [pteAt_of_table ((htab e g d he).trans ht), pteAt_of_table ht, hentry]
      exact fun hc => ok.tables.tableFree e g d pt he ht (hc ▸ List.mem_cons_self)
  refine ⟨m', halloc, ?_, fun e g he => ⟨fun d => hentry g d (hdir e g he),
    fun d t _ => hpte e g d t he⟩, fun p => ?_⟩
  · have hpages : ∀ q, q ≠ pp → m'.pages q = m.pages q := fun q hq => by
      simp [hm', Mem.setFrame, Mem.takenHead, Mem.setPage, hq]
    refine ⟨⟨ok.tables.small, ?_, hnodup.2, ok.tables.dirInj, fun e g he hc =>
      ok.tables.dirFree e g he (List.mem_cons_of_mem pp hc), fun e g d pt he ht hc => ?_,
      fun e g d he hown hp => ?_, fun e e' g g' d d' pt he he' hown ht ht' => ?_,
      fun e e' g d he hown => ?_⟩, fun q hq => ?_, fun e g d t he hd => ?_,
      fun e g d t q he hd hq hc => ?_⟩
    · exact ok.tables.list.2.congr fun q hq => by rw [hpages q (ne_of_mem_of_not_mem hq hnodup.1)]
    · rw [htab e g d he] at ht
      exact ok.tables.tableFree e g d pt he ht (List.mem_cons_of_mem pp hc)
    · rw [hentry g d (hdir e g he)] at hp ⊢
      exact ok.tables.inRange e g d he hown hp
    · rw [htab e g d he] at ht
      rw [htab e' g' d' he'] at ht'
      exact ok.tables.tableInj e e' g g' d d' pt he he' hown ht ht'
    · rw [htab e g d he]
      exact ok.tables.notDir e e' g d he hown
    · by_cases hqp : q = pp
      · simp [hqp, hm', Mem.setFrame, Mem.takenHead, Mem.setPage]
      · rw [hpages q hqp]
        exact ok.link q (List.not_mem_cons_of_ne_of_not_mem hqp hq)
    · rw [hpte e g d t he]
      exact ok.pteOk e g d t he hd
    · rw [hpte e g d t he] at hq
      exact ok.pteUsed e g d t q he hd hq (List.mem_cons_of_mem pp hc)
  · by_cases hp : p = pp
    · simp [hp, hm', Mem.setFrame, Mem.takenHead, Mem.setPage]
    · simp [hm', Mem.setFrame, Mem.takenHead, Mem.setPage, hp]

end

/-- A directory that is clear below `UTOP`. -/
theorem PageTables.of_clear {m : Mem n} {g : Fin n} {free : List (Fin n)} (small : n ≤ 2 ^ 20)
    (list : m.FreeList free) (nodup : free.Nodup)
    (link : ∀ p, p ∉ free → (m.pages p).ppLink = none) (hdir : g ∉ free)
    (htab : ∀ d pt, m.table g d = some pt → pt ∉ free)
    (hzero : ∀ d : Fin 1024, (d : ℕ) < userPdes → m.entry g d = 0#32) :
    PageTables m (fun _ : Unit => some g) free := by
  have hnone : ∀ d : Fin 1024, (d : ℕ) < userPdes → m.table g d = none := fun d hd => by
    rw [Mem.table, hzero d hd, pageOf_zero]
  have hpte : ∀ d t : Fin 1024, (d : ℕ) < userPdes → m.pteAt g d t = 0#32 := fun d t hd =>
    pteAt_of_no_table (hnone d hd)
  refine ⟨⟨small, list, nodup, fun _ _ _ _ _ => rfl, ?_, ?_, ?_, ?_, ?_⟩, link, ?_, ?_⟩
  · rintro _ _ ⟨⟩
    exact hdir
  · rintro _ _ d pt ⟨⟩ ht
    exact htab d pt ht
  · rintro _ _ d ⟨⟩ hd hp
    rw [hzero d hd, present_zero] at hp
    cases hp
  · rintro _ _ _ _ d d' pt ⟨⟩ ⟨⟩ hd ht
    cases (hnone d hd).symm.trans ht
  · rintro _ _ _ d ⟨⟩ hd
    rw [hnone d hd]
    exact .inl (by simp)
  · rintro _ _ d t ⟨⟩ hd hp
    rw [hpte d t hd, present_zero] at hp
    cases hp
  · rintro _ _ d t p ⟨⟩ hd hp
    rw [hpte d t hd, pageOf_zero] at hp
    cases hp

/-- A directory, one page to map, and 64 pages for page tables. -/
def wrapMem : Mem 66 where
  pages p := ⟨if h : (p : Nat) + 1 < 66 then if p = 0 then none else some ⟨p + 1, h⟩ else none,
    if p = 0 then 1 else 0⟩
  pageFreeList := some 1
  frame _ := fun _ => 0
  kernPgdir := 0

def wrapDirs : Unit → Option (Fin 66) := fun _ => some 0

/-- The addresses at which the page is mapped. -/
def wrapVa (i : Nat) : Word := BitVec.ofNat 32 (i * 4096)

theorem toNat_wrapVa {i : Nat} (hi : i < 65536) : (wrapVa i).toNat = i * 4096 := by
  rw [wrapVa, BitVec.toNat_ofNat]
  omega

theorem wrapVa_lt {i : Nat} (hi : i < 65536) : wrapVa i < utop := by
  rw [BitVec.lt_def, toNat_wrapVa hi, toNat_utop]
  omega

theorem pdx_wrapVa {i : Nat} (hi : i < 65536) : (pdx (wrapVa i) : Nat) = i / 1024 := by
  simp only [pdx, toNat_wrapVa hi]
  omega

theorem samePage_wrapVa {i j : Nat} (hi : i < 65536) (hj : j < 65536) :
    SamePage (wrapVa j) (wrapVa i) ↔ i = j := by
  simp only [SamePage, Fin.ext_iff, pdx, ptx, toNat_wrapVa hi, toNat_wrapVa hj]
  omega

theorem entry_wrapMem (p : Fin 66) (i : Fin 1024) : wrapMem.entry p i = 0#32 := rd32_zero i

theorem table_wrapMem (p : Fin 66) (d : Fin 1024) : wrapMem.table p d = none := by
  rw [Mem.table, entry_wrapMem, pageOf_zero]

theorem countOk_wrapMem : CountOk wrapDirs wrapMem := by
  have htab : ∀ g d, wrapMem.ptab g d = none := fun g d => by
    by_cases hd : (d : Nat) < userPdes
    · rw [Mem.ptab_eq_table hd, table_wrapMem]
    · simp [Mem.ptab, hd]
  have hslot : ∀ s p, wrapMem.target wrapDirs s = some p → s = .dir () ∧ p = 0 := by
    intro s p hs
    cases s with
    | dir e => exact ⟨rfl, (Option.some.inj hs).symm⟩
    | pde e d =>
      rw [Mem.target_pde (rfl : wrapDirs e = some 0), htab] at hs
      cases hs
    | pte e d t =>
      rw [Mem.target_pte (rfl : wrapDirs e = some 0), Mem.pte_of_no_ptab (htab 0 d),
        pageOf_zero] at hs
      cases hs
  refine ⟨⟨(List.finRange 66).tail, by decide +kernel, by decide +kernel, by decide +kernel⟩,
    fun p => ?_, fun s s' p _ _ hs hs' => (hslot s' p hs').1.trans (hslot s p hs).1.symm, ?_, ?_⟩
  · by_cases hp : p = 0
    · subst hp
      have hone : count (wrapMem.target wrapDirs) 0 = 1 :=
        count_eq_one (f := wrapMem.target wrapDirs) (r := .dir ()) rfl fun s hs => (hslot s 0 hs).1
      rw [hone]
      decide
    · rw [count_eq_zero.mpr fun s hs => hp (hslot s p hs).2]
      exact Nat.zero_le _
  · intro _ g d hg _ hp
    rw [entry_wrapMem] at hp
    cases hp
  · intro _ g d t hg hp
    rw [Mem.pte_of_no_ptab (htab g d)] at hp
    cases hp

/-- After `page_alloc` and the first `j` insertions. -/
structure WrapAt (j : Nat) (m : Mem 66) : Prop where
  run : Reachable (fun m => m = wrapMem) (MapStep wrapDirs) m
  tables : ∃ free, PageTables m wrapDirs free ∧ 1 ∉ free ∧ 64 ≤ free.length + (j + 1023) / 1024
  ref : (m.pages 1).ppRef = BitVec.ofNat 16 j
  mapped : ∀ i < 65536, m.mappedPage 0 (wrapVa i) = if i < j then some 1 else none

theorem wrapAt_zero : WrapAt 0 (wrapMem.pageAlloc false).2 := by
  set m := (wrapMem.pageAlloc false).2 with hm
  have hentry : ∀ p i, m.entry p i = 0#32 := entry_wrapMem
  have htab : ∀ p d, m.table p d = none := table_wrapMem
  have hpte : ∀ p d t, m.pteAt p d t = 0#32 := fun p d t => pteAt_of_no_table (htab p d)
  have ok : PageTables m wrapDirs ((List.finRange 66).drop 2) :=
    .of_clear (by decide) (by decide +kernel) (by decide +kernel) (by decide +kernel)
      (by decide +kernel) (fun d pt ht => by cases (htab 0 d).symm.trans ht)
      fun d _ => hentry 0 d
  refine ⟨.step (a := .pageAlloc false) (.init rfl) ⟨trivial, rfl⟩,
    ⟨(List.finRange 66).drop 2, ok, by decide +kernel, by decide +kernel⟩, by decide +kernel,
    fun i hi => ?_⟩
  rw [if_neg (by omega), mappedPage, hpte, pageOf_zero]

theorem WrapAt.succ {j : Nat} {m : Mem 66} (h : WrapAt j m) (hj : j < 65536) :
    ∃ m', WrapAt (j + 1) m' := by
  obtain ⟨free, ok, hpp, hlen⟩ := h.tables
  -- within a table the previous insertion has left it there
  have hfirst : m.table 0 (pdx (wrapVa j)) = none → j % 1024 = 0 := by
    intro ht
    by_contra hne
    have hmap := h.mapped (j - 1) (by omega)
    rw [if_pos (by omega)] at hmap
    have hpdx : pdx (wrapVa (j - 1)) = pdx (wrapVa j) := Fin.ext (by
      rw [pdx_wrapVa (by omega), pdx_wrapVa hj]
      omega)
    rw [← hpdx] at ht
    exact Walked.table_ne_none hmap ht
  have hnone : m.mappedPage 0 (wrapVa j) = none := by rw [h.mapped j hj, if_neg (by omega)]
  obtain ⟨pt, m', free', hok, ok', hsub, hfree', -, href, hnew⟩ :=
    ok.pageInsert_new (e := ()) rfl (wrapVa_lt hj)
      (by decide : (7 : Word).toNat < 4096) hpp hnone (by
      rintro ht rfl
      have := hfirst ht
      simp only [List.length_nil] at hlen
      omega)
  refine ⟨m', .step (a := .pageInsert () 1 (wrapVa j) 7) h.run ⟨⟨wrapVa_lt hj, by decide, ?_⟩, ?_⟩,
    ⟨free', ok', fun hc => hpp (hsub 1 hc), ?_⟩, ?_, fun i hi => ?_⟩
  · exact fun hc => hpp (ok.tables.list.onFreeList_iff.mp hc)
  · exact congrArg (Except.map Prod.snd) hok
  · rw [hfree']
    split_ifs with ht
    · have := hfirst ht
      rw [List.length_tail]
      omega
    · omega
  · rw [href 1 hpp, h.ref, BitVec.ofNat_add]
    rfl
  · have hlt : (pdx (wrapVa i) : Nat) < userPdes := pdx_lt_userPdes (wrapVa_lt hi)
    rw [hnew.mappedPage rfl (pageOf_flags (by decide) (by decide) 1) hlt, h.mapped i hi]
    simp only [samePage_wrapVa hi hj]
    split_ifs <;> first | rfl | omega

theorem exists_wrapAt {j : Nat} (hj : j ≤ 65536) : ∃ m, WrapAt j m := by
  induction j with
  | zero => exact ⟨_, wrapAt_zero⟩
  | succ j ih =>
    obtain ⟨m, h⟩ := ih (by omega)
    exact h.succ (by omega)

/-- The page is mapped at 65536 addresses, and then once more at the first of them. -/
theorem not_mappedInUse_wrapMem : CountOk wrapDirs wrapMem ∧
    ∃ m, Reachable (fun m => m = wrapMem) (MapStep wrapDirs) m ∧ ¬MappedInUse wrapDirs m := by
  refine ⟨countOk_wrapMem, ?_⟩
  obtain ⟨m, h⟩ := exists_wrapAt le_rfl
  obtain ⟨free, ok, hpp, -⟩ := h.tables
  have href : (m.pages 1).ppRef = 0 := h.ref
  have hmap : m.mappedPage 0 (wrapVa 0) = some 1 := h.mapped 0 (by decide)
  have hva := wrapVa_lt (i := 0) (by decide)
  obtain ⟨r, m', hok, ⟨-, hins, -⟩ | ⟨-, -, ht, -⟩⟩ :=
    pageInsert_exact (e := ()) ok rfl hpp hva (by decide : (7 : Word).toNat < 4096)
  · -- the new reference makes the counter one, and giving up the old one frees the page
    have hnew : m.newTable 0 (wrapVa 0) = none := if_neg (Walked.table_ne_none hmap)
    have href' : (m'.pages 1).ppRef = 0 := by
      rw [hins.ref 1, href, hmap, hnew]
      rfl
    have hlist := hins.list
    rw [hmap] at hlist
    simp only [href', if_true] at hlist
    have hf : ¬m.OnFreeList 1 := fun hc => hpp (ok.tables.list.onFreeList_iff.mp hc)
    refine ⟨m', .step (a := .pageInsert () 1 (wrapVa 0) 7) h.run
      ⟨⟨hva, by decide, hf⟩, congrArg (Except.map Prod.snd) hok⟩, fun hin => ?_⟩
    exact hin () 0 _ _ 1 rfl (pdx_lt_userPdes hva) hins.mapped
      (hlist.onFreeList_iff.mpr List.mem_cons_self)
  · exact absurd ht (Walked.table_ne_none hmap)

/-- The first insertion. -/
theorem mappedInUse_of_countsUp_wrapMem :
    ∃ m, m.mappedPage 0 (wrapVa 0) = some 1 ∧ MappedInUse wrapDirs m := by
  obtain ⟨free, ok, hpp, hlen⟩ := wrapAt_zero.tables
  have hva := wrapVa_lt (i := 0) (by decide)
  have hnone : (wrapMem.pageAlloc false).2.mappedPage 0 (wrapVa 0) = none :=
    (wrapAt_zero.mapped 0 (by decide)).trans (if_neg (by decide))
  obtain ⟨pt, m, -, hok, -, -, -, -, -, hnew⟩ :=
    ok.pageInsert_new (e := ()) rfl hva (by decide : (7 : Word).toNat < 4096) hpp hnone (by
      rintro - rfl
      simp at hlen)
  have hsame : SamePage (wrapVa 0) (wrapVa 0) := ⟨rfl, rfl⟩
  have hmap : m.mappedPage 0 (wrapVa 0) = if SamePage (wrapVa 0) (wrapVa 0) then some 1 else _ :=
    hnew.mappedPage rfl (pageOf_flags (by decide) (by decide) 1) (pdx_lt_userPdes hva)
  refine ⟨m, hmap.trans (if_pos hsame),
    mappedInUse_of_countsUp (by decide) (.step (a := .pageInsert () 1 (wrapVa 0) 7)
      (.step (a := .pageAlloc false) (.init countOk_wrapMem) ⟨⟨trivial, rfl⟩, trivial⟩)
      ⟨⟨⟨hva, by decide, fun hc => hpp (ok.tables.list.onFreeList_iff.mp hc)⟩,
        congrArg (Except.map Prod.snd) hok⟩, .inl (by decide)⟩)⟩

end JosKernel
