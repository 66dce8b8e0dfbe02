import JosKernel.Env.AddressSpace
import JosKernel.Env.Cases

/-!
# The page calls

What `sys_page_alloc`, `sys_page_map`, `sys_page_unmap` and the page transfer of
`sys_ipc_try_send` do to the address spaces, under the memory invariant. Each changes at most one
table entry; `Remaps` says which entry, and to what.
-/
namespace JosKernel

open Lib

variable {n : Nat}

/-- The page directories of the environments. -/
def Kernel.dirs (k : Kernel n) : EnvIx → Option (Fin n) := fun e => (k.envs e).envPgdir

/-- The table entries of all user pages of all environments. -/
def Kernel.spaces (k : Kernel n) : EnvIx → Fin 1024 → Fin 1024 → Word := k.mem.spaces k.dirs

/-- The entry that `page_insert` writes. -/
def newPte (pp : Fin n) (perm : Word) : Word := pteAddr (page2pa pp) ||| perm ||| pteP

/-- The page that `page_lookup` finds in the address space of `e`. -/
def lookedUp (k : Kernel n) (e : EnvIx) (va : Word) : Option (Fin n) :=
  match k.dirs e with
  | none => none
  | some g =>
    match k.mem.pageLookup g va with
    | .ok (some (pp, _, _)) => some pp
    | _ => none

/-- The mapping that a call is to make: an environment, an address in it, and a page, which is
the next free one or one that is looked up. -/
def intended (k : Kernel n) (cur : EnvIx) (s : Sys) (a : Args) : Option (EnvIx × Word × Fin n) :=
  match s with
  | .pageAlloc =>
    (envid2env k cur a.a1 true).bind fun e => k.mem.pageFreeList.map fun pp => (e, a.a2, pp)
  | .pageMap =>
    (envid2env k cur a.a1 true).bind fun srce => (envid2env k cur a.a3 true).bind fun dste =>
      (lookedUp k srce a.a2).map fun pp => (dste, a.a4, pp)
  | .ipcTrySend =>
    (envid2env k cur a.a1 false).bind fun e =>
      if a.a3 < utop ∧ (k.envs e).envIpcDstva < utop then
        (lookedUp k cur a.a3).map fun pp => (e, (k.envs e).envIpcDstva, pp)
      else none
  | _ => none

/-- A call made by `cur` sets the entry for `va` in the address space of `e`. -/
inductive Remaps (k : Kernel n) (cur : EnvIx) : Sys → Args → EnvIx → Word → Word → Prop
  | alloc {a : Args} {e : EnvIx} {pp : Fin n} (he : envid2env k cur a.a1 true = some e)
      (hva : badUserPage a.a2 = false) (hperm : lacksUP a.a3 = false)
      (hpp : k.mem.pageFreeList = some pp) :
      Remaps k cur .pageAlloc a e a.a2 (newPte pp a.a3)
  | map {a : Args} {srce dste : EnvIx} {pp : Fin n} (hs : envid2env k cur a.a1 true = some srce)
      (hd : envid2env k cur a.a3 true = some dste) (hsva : badUserPage a.a2 = false)
      (hva : badUserPage a.a4 = false) (hperm : lacksUP a.a5 = false)
      (hlook : lookedUp k srce a.a2 = some pp)
      (hpp : pageOf n (k.spaces srce (pdx a.a2) (ptx a.a2)) = some pp)
      (hw : ¬(a.a5 &&& pteW ≠ 0 ∧ k.spaces srce (pdx a.a2) (ptx a.a2) &&& pteW = 0)) :
      Remaps k cur .pageMap a dste a.a4 (newPte pp a.a5)
  | unmap {a : Args} {e : EnvIx} (he : envid2env k cur a.a1 false = some e)
      (hva : badUserPage a.a2 = false)
      (hp : present (k.spaces e (pdx a.a2) (ptx a.a2)) = true) :
      Remaps k cur .pageUnmap a e a.a2 0
  | send {a : Args} {e : EnvIx} {pp : Fin n} (he : envid2env k cur a.a1 false = some e)
      (hr : (k.envs e).envIpcRecving = true) (hs : a.a3 < utop) (ha : roundUp a.a3 pgsize = a.a3)
      (hva : (k.envs e).envIpcDstva < utop) (hlook : lookedUp k cur a.a3 = some pp)
      (hpp : pageOf n (k.spaces cur (pdx a.a3) (ptx a.a3)) = some pp)
      (hperm : a.a4 &&& k.spaces cur (pdx a.a3) (ptx a.a3) = a.a4) :
      Remaps k cur .ipcTrySend a e (k.envs e).envIpcDstva (newPte pp a.a4)

theorem lt_utop_of_badUserPage {va : Word} (h : badUserPage va = false) : va < utop := by
  simp only [badUserPage, Bool.or_eq_false_iff, decide_eq_false_iff_not] at h
  exact BitVec.not_le.mp h.1

variable {S : Set (Fin n)} {x : Fin n → ℕ} {k k' : Kernel n} {cur e : EnvIx}

theorem lookedUp_of_ok {g pp pt : Fin n} {i : Fin 1024} {va : Word} (hg : k.dirs e = some g)
    (h : k.mem.pageLookup g va = .ok (some (pp, pt, i))) : lookedUp k e va = some pp := by
  simp [lookedUp, hg, h]

theorem lookedUp_some {va : Word} {pp : Fin n} (h : lookedUp k e va = some pp) :
    ∃ g pt i, k.dirs e = some g ∧ k.mem.pageLookup g va = .ok (some (pp, pt, i)) := by
  unfold lookedUp at h
  split at h
  · cases h
  · rename_i g hg
    split at h
    · rename_i pt i hok
      cases h
      exact ⟨g, pt, i, hg, hok⟩
    · cases h

theorem intended_of_not_reports {s : Sys} (h : s.reports ≠ true) (a : Args) :
    intended k cur s a = none := by
  cases s <;> simp [Sys.reports, intended] at h ⊢

/-- A page that an entry maps is in use. -/
theorem MemInv.mapped {m : Mem n} {dirs : EnvIx → Option (Fin n)} {g pp : Fin n}
    {d t : Fin 1024} (inv : MemInv S dirs x ∅ m) (he : dirs e = some g)
    (hp : pageOf n (m.pte g d t) = some pp) :
    pp ∈ S ∧ ¬m.OnFreeList pp ∧ NotStruct m dirs pp :=
  ⟨inv.target_mem ((Mem.target_pte he).trans hp),
    inv.not_onFreeList ((Mem.target_pte he).trans hp), inv.notStruct_of_pte he hp⟩

/-- What `page_lookup` found. -/
theorem MemInv.lookup_some {m : Mem n} {dirs : EnvIx → Option (Fin n)} {g pp pt : Fin n}
    {i : Fin 1024} {va : Word} (inv : MemInv S dirs x ∅ m) (he : dirs e = some g)
    (hva : va < utop) (h : m.pageLookup g va = .ok (some (pp, pt, i))) :
    pageOf n (m.pte g (pdx va) (ptx va)) = some pp ∧
      m.entry pt i = m.pte g (pdx va) (ptx va) := by
  rw [inv.pageLookup he hva] at h
  simp only [Except.ok.injEq] at h
  obtain ⟨pp', hpp', h⟩ := Option.bind_eq_some_iff.mp h
  obtain ⟨pt', ht, h⟩ := Option.map_eq_some_iff.mp h
  cases h
  exact ⟨hpp', (Mem.pte_of_ptab ht).symm⟩

/-- A successful `sys_page_alloc` maps a zeroed page and counts one reference too many. -/
theorem MemInv.allocMap {m m₁ m' : Mem n} {dirs : EnvIx → Option (Fin n)} {g pp : Fin n}
    {va perm : Word} {r : Int} (inv : MemInv S dirs x ∅ m) (he : dirs e = some g)
    (hva : va < utop) (hperm : perm.toNat < 4096) (halloc : m.pageAlloc true = (some pp, m₁))
    (hins : (m₁.incRef pp).pageInsert g pp va perm = .ok (r, m')) :
    m.pageFreeList = some pp ∧ m₁.kernPgdir = m.kernPgdir ∧
      ((r = -eNoMem ∧ m' = m₁.incRef pp ∧ m'.ref pp = 1) ∨
        (r = 0 ∧ MemInv S dirs (Function.update x pp (x pp + 1)) ∅ m' ∧
          m'.spaces dirs = setSpace (m.spaces dirs) e va (newPte pp perm) ∧
          Evolves dirs m m' ∧ m'.frame pp = fun _ => 0)) := by
  have hl : m.pageFreeList = some pp := by
    cases hl : m.pageFreeList with
    | none => simp [Mem.pageAlloc, hl] at halloc
    | some p =>
      simp only [Mem.pageAlloc, hl, Prod.mk.injEq, Option.some.injEq] at halloc
      rw [halloc.1]
  obtain ⟨m₁', halloc', inv₁, hframe, hzero, href, hk⟩ := inv.pageAlloc_some true hl
  rw [halloc] at halloc'
  cases halloc'
  have hfree := inv.onFreeList_head hl
  obtain ⟨hS, hcount, -⟩ := inv.onFreeList_iff.mp hfree
  have hfresh := inv.fresh_of_free hfree
  have href0 := inv.ref_of_free hfree
  have inv₂ := inv₁.incRef hS (.inl (Set.mem_insert pp ∅)) (by rw [href, href0]; decide)
  rw [Set.insert_sdiff_of_mem _ (Set.mem_singleton pp), Set.empty_sdiff] at inv₂
  have htar : (m₁.incRef pp).target dirs = m.target dirs :=
    Mem.target_congr fun s q _ hq => hframe q fun c => hfresh s (c ▸ hq)
  have href1 : (m₁.incRef pp).ref pp = 1 := by
    rw [inv₂.ref_eq hS, htar, Function.update_self]
    omega
  have hnf : ¬(m₁.incRef pp).OnFreeList pp := by
    intro hc
    have := inv₂.ref_of_free hc
    omega
  have hns : NotStruct (m₁.incRef pp) dirs pp := fun s _ => htar ▸ hfresh s
  have hsp₁ : (m₁.incRef pp).spaces dirs = m.spaces dirs := by
    funext e' d t
    cases he' : dirs e' with
    | none => simp [Mem.spaces, he']
    | some g' =>
      rw [Mem.spaces_of_dir he', Mem.spaces_of_dir he']
      refine Mem.pte_congr (hframe g' fun c => hfresh (.dir e') (c ▸ he')) fun pt hpt => ?_
      exact hframe pt fun c => hfresh (.pde e' d) (c ▸ (Mem.target_pde he').trans hpt)
  have hev₁ : Evolves dirs m (m₁.incRef pp) := by
    refine ⟨fun s p _ hp => ?_, fun s p _ hp => ?_, fun p hp _ => ?_, hk⟩
    · rwa [htar]
    · exact .inl (htar ▸ hp)
    · exact hframe p fun c => hp (c ▸ hfree)
  have hfree₁ : ∀ q, (m₁.incRef pp).OnFreeList q → m.OnFreeList q := by
    intro q hq
    obtain ⟨hqS, hq0, -⟩ := inv₂.onFreeList_iff.mp hq
    have hqp : q ≠ pp := fun c => hnf (c ▸ hq)
    rw [htar, Function.update_of_ne hqp] at hq0
    exact inv.onFreeList_iff.mpr ⟨hqS, hq0, Set.notMem_empty q⟩
  refine ⟨hl, hk, ?_⟩
  rcases inv₂.pageInsert he hva hS hnf hns (.inl (by rw [href1]; decide))
      (inv₂.pageOf_newPte hperm pp)
    with ⟨-, -, hok⟩ | ⟨m'', hok, inv', hsp', hev'⟩
  · rw [hok] at hins
    cases hins
    exact .inl ⟨rfl, rfl, href1⟩
  · rw [hok] at hins
    cases hins
    rw [Set.empty_sdiff] at inv'
    refine .inr ⟨rfl, inv', ?_, hev₁.trans hev' hfree₁, ?_⟩
    · rw [hsp', hsp₁]
      rfl
    · rw [hev'.frame pp hnf hns]
      exact hzero rfl

theorem getsPage_of_alloc {a : Args} {pp : Fin n} {m₁ : Mem n}
    (he : envid2env k cur a.a1 true = some e) (hva : badUserPage a.a2 = false)
    (hperm : lacksUP a.a3 = false) (halloc : k.mem.pageAlloc true = (some pp, m₁)) :
    GetsPage k cur .pageAlloc a := by
  refine ⟨rfl, by simp [he], hva, hperm, fun hl => ?_⟩
  simp [Mem.pageAlloc, hl] at halloc

/-- A `sys_page_map` that passes its checks. -/
structure MapsPage (k : Kernel n) (cur : EnvIx) (a : Args) (srce dste : EnvIx) (pp : Fin n) :
    Prop where
  src : envid2env k cur a.a1 true = some srce
  dst : envid2env k cur a.a3 true = some dste
  srcva : badUserPage a.a2 = false
  dstva : badUserPage a.a4 = false
  page : lookedUp k srce a.a2 = some pp
  perm : lacksUP a.a5 = false
  write : ¬(a.a5 &&& pteW ≠ 0 ∧ k.spaces srce (pdx a.a2) (ptx a.a2) &&& pteW = 0)

/-- A `sys_ipc_try_send` that transfers a page. -/
structure SendsPage (k : Kernel n) (cur : EnvIx) (a : Args) (e : EnvIx) (pp : Fin n) : Prop where
  dst : envid2env k cur a.a1 false = some e
  recving : (k.envs e).envIpcRecving = true
  srcva : a.a3 < utop
  aligned : roundUp a.a3 pgsize = a.a3
  dstva : (k.envs e).envIpcDstva < utop
  page : lookedUp k cur a.a3 = some pp
  perm : a.a4 &&& k.spaces cur (pdx a.a3) (ptx a.a3) = a.a4

/-- One more mapping of a page can be counted, or the page is mapped there already. -/
def RoomFor (k : Kernel n) (pp : Fin n) (e : EnvIx) (va : Word) : Prop :=
  k.mem.ref pp < 65535 ∨ pageOf n (k.spaces e (pdx va) (ptx va)) = some pp

/-- Requests that pass the checks have permission words with flag bits only, and no page gets
another mapping whose counter is at its limit. -/
def MemOk (k : Kernel n) (_ : Cpu) (cur : EnvIx) (s : Sys) (a : Args) : Prop :=
  match s with
  | .pageAlloc => GetsPage k cur .pageAlloc a → a.a3.toNat < 4096
  | .pageMap => ∀ srce dste pp, MapsPage k cur a srce dste pp →
      a.a5.toNat < 4096 ∧ RoomFor k pp dste a.a4
  | .ipcTrySend => ∀ e pp, SendsPage k cur a e pp → RoomFor k pp e (k.envs e).envIpcDstva
  | _ => True

/-- Whether there is room is seen in the table of the environment. -/
theorem RoomFor.pte {k : Kernel n} {pp g : Fin n} {e : EnvIx} {va : Word}
    (h : RoomFor k pp e va) (hg : k.dirs e = some g) :
    k.mem.ref pp < 65535 ∨ pageOf n (k.mem.pte g (pdx va) (ptx va)) = some pp := by
  rwa [RoomFor, show k.spaces e (pdx va) (ptx va) = _ from Mem.spaces_of_dir hg _ _] at h

/-- A page call changes no entry and then does not report a mapping, or it changes the entry that
`Remaps` names. Only `sys_page_alloc` changes the number of unaccounted references. -/
theorem MemEffect.spec {s : Sys} {a : Args} {v : Int} {m : Mem n} {c : Cpu}
    (inv : MemInv S k.dirs x ∅ k.mem) (ok : MemOk k c cur s a) (h : MemEffect k cur s a v m) :
    Evolves k.dirs k.mem m ∧
      ((MemInv S k.dirs x ∅ m ∧ ¬GetsPage k cur s a ∧ m.spaces k.dirs = k.spaces ∧
          (BitVec.ofInt 32 v = 0 → intended k cur s a = none)) ∨
        ∃ e va w, Remaps k cur s a e va w ∧ v = 0 ∧
          m.spaces k.dirs = setSpace k.spaces e va w ∧
          ((¬GetsPage k cur s a ∧ MemInv S k.dirs x ∅ m) ∨
            ∃ pp ∈ S, GetsPage k cur s a ∧ k.mem.pageFreeList = some pp ∧
              MemInv S k.dirs (Function.update x pp (x pp + 1)) ∅ m ∧
              m.frame pp = fun _ => 0)) := by
  have other : s ≠ .pageAlloc → ¬GetsPage k cur s a := fun hs hp => hs hp.1
  cases h with
  | same hv hp =>
    exact ⟨.refl .., .inl ⟨inv, hp, rfl, fun h0 =>
      intended_of_not_reports (fun h => hv h h0) a⟩⟩
  | alloc he hva hperm halloc hg hins hr =>
    have hgets := getsPage_of_alloc he hva hperm halloc
    obtain ⟨hl, -, ⟨rfl, -⟩ | ⟨rfl, inv', hsp, hev, hz⟩⟩ :=
      inv.allocMap hg (lt_utop_of_badUserPage hva) (ok hgets) halloc hins
    · exact absurd (by decide) hr
    · exact ⟨hev, .inr ⟨_, _, _, .alloc he hva hperm hl, rfl, hsp,
        .inr ⟨_, (inv.onFreeList_iff.mp (inv.onFreeList_head hl)).1, hgets, hl, inv', hz⟩⟩⟩
  | allocFail he hva hperm halloc hg hins hr hfree =>
    -- `page_free` panics: the page has been counted already
    exfalso
    obtain ⟨-, -, ⟨-, rfl, href⟩ | ⟨rfl, -⟩⟩ := inv.allocMap hg (lt_utop_of_badUserPage hva)
      (ok (getsPage_of_alloc he hva hperm halloc)) halloc hins
    · unfold Mem.pageFree at hfree
      rw [if_pos] at hfree
      · cases hfree
      · intro h0
        simp [Mem.ref, h0] at href
    · exact absurd hr (by decide)
  | map hs hd hsva hdva hgs hgd hlook hperm hw hins =>
    obtain ⟨hpp, hentry⟩ := inv.lookup_some hgs (lt_utop_of_badUserPage hsva) hlook
    obtain ⟨hS, hnf, hns⟩ := inv.mapped hgs hpp
    rw [hentry, ← Mem.spaces_of_dir hgs] at hw
    obtain ⟨hflags, hroom⟩ :=
      ok _ _ _ ⟨hs, hd, hsva, hdva, lookedUp_of_ok hgs hlook, hperm, hw⟩
    rcases inv.pageInsert hgd (lt_utop_of_badUserPage hdva) hS hnf hns (hroom.pte hgd)
      (inv.pageOf_newPte hflags _) with ⟨-, -, hok⟩ | ⟨m', hok, inv', hsp, hev⟩
    · rw [hok] at hins
      cases hins
      exact ⟨.refl .., .inl ⟨inv, other (by simp), rfl, fun h => absurd h (by decide)⟩⟩
    · rw [hok] at hins
      cases hins
      rw [Set.empty_sdiff] at inv'
      rw [← Mem.spaces_of_dir hgs] at hpp
      exact ⟨hev, .inr ⟨_, _, _, .map hs hd hsva hdva hperm (lookedUp_of_ok hgs hlook) hpp hw,
        rfl, hsp, .inl ⟨other (by simp), inv'⟩⟩⟩
  | @unmap _ e g _ he hva hg hrem =>
    obtain ⟨m', hok, inv', hsp, hst⟩ := inv.pageRemove hg (lt_utop_of_badUserPage hva)
    rw [hok] at hrem
    cases hrem
    have hpte : k.mem.pte g (pdx a.a2) (ptx a.a2) = k.spaces e (pdx a.a2) (ptx a.a2) :=
      (Mem.spaces_of_dir (show k.dirs e = some g from hg) _ _).symm
    rw [hpte] at hsp
    refine ⟨hst.evolves, ?_⟩
    cases hp : present (k.spaces e (pdx a.a2) (ptx a.a2)) with
    | true =>
      refine .inr ⟨_, _, _, .unmap he hva hp, rfl, ?_, .inl ⟨other (by simp), inv'⟩⟩
      rw [hsp, if_pos hp]
      rfl
    | false =>
      refine .inl ⟨inv', other (by simp), ?_, fun _ => rfl⟩
      rw [hsp, if_neg (by simp [hp])]
      exact setSpace_self k.spaces e a.a2

/-- The page transfer of a message. -/
theorem Sent.spec {a : Args} {r : Int} {c : Cpu} (inv : MemInv S k.dirs x ∅ k.mem)
    (ok : MemOk k c cur .ipcTrySend a) (he : envid2env k cur a.a1 false = some e)
    (hr : (k.envs e).envIpcRecving = true) (h : Sent k cur e a.a3 a.a4 r k') :
    Evolves k.dirs k.mem k'.mem ∧ MemInv S k.dirs x ∅ k'.mem ∧
      ((k'.mem.spaces k.dirs = k.spaces ∧
          (BitVec.ofInt 32 r = 0 → intended k cur .ipcTrySend a = none)) ∨
        ∃ w, Remaps k cur .ipcTrySend a e (k.envs e).envIpcDstva w ∧ r = 0 ∧
          k'.mem.spaces k.dirs = setSpace k.spaces e (k.envs e).envIpcDstva w) := by
  cases h with
  | refused => exact ⟨.refl .., inv, .inl ⟨rfl, fun h => absurd h (by decide)⟩⟩
  | unwanted _ hd => exact ⟨.refl .., inv, .inl ⟨rfl, fun _ => by simp [intended, he, hd]⟩⟩
  | word hs => exact ⟨.refl .., inv, .inl ⟨rfl, fun _ => by simp [intended, he, hs]⟩⟩
  | noMem hs ha hd hg hg' hlook hperm hins hneg =>
    obtain ⟨hpp, hpte⟩ := inv.lookup_some hg hs hlook
    obtain ⟨hS, hnf, hns⟩ := inv.mapped hg hpp
    have hroom := ok _ _ ⟨he, hr, hs, ha, hd, lookedUp_of_ok hg hlook,
      by rwa [hpte, ← Mem.spaces_of_dir hg] at hperm⟩
    rcases inv.pageInsert hg' hd hS hnf hns (hroom.pte hg')
      (inv.pageOf_newPte_of_subset hpp (hpte ▸ hperm)) with ⟨-, -, hok⟩ | ⟨m', hok, -⟩
    · rw [hok] at hins
      cases hins
      exact ⟨.refl .., inv, .inl ⟨rfl, fun h => absurd h (by decide)⟩⟩
    · rw [hok] at hins
      cases hins
      exact absurd hneg (by decide)
  | page hs ha hd hg hg' hlook hperm hins hpos =>
    obtain ⟨hpp, hpte⟩ := inv.lookup_some hg hs hlook
    obtain ⟨hS, hnf, hns⟩ := inv.mapped hg hpp
    have hroom := ok _ _ ⟨he, hr, hs, ha, hd, lookedUp_of_ok hg hlook,
      by rwa [hpte, ← Mem.spaces_of_dir hg] at hperm⟩
    rcases inv.pageInsert hg' hd hS hnf hns (hroom.pte hg')
      (inv.pageOf_newPte_of_subset hpp (hpte ▸ hperm)) with ⟨-, -, hok⟩ | ⟨m', hok, inv', hsp, hev⟩
    · rw [hok] at hins
      cases hins
      exact absurd (by decide) hpos
    · rw [hok] at hins
      cases hins
      rw [Set.empty_sdiff] at inv'
      rw [hpte, ← Mem.spaces_of_dir hg] at hperm
      rw [← Mem.spaces_of_dir hg] at hpp
      exact ⟨hev, inv', .inr
        ⟨_, .send he hr hs ha hd (lookedUp_of_ok hg hlook) hpp hperm, rfl, hsp⟩⟩

end JosKernel
