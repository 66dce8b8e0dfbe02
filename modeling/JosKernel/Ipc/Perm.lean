import JosKernel.Env.Total

/-!
# Telling the receiver about a page

`ipc_recv` stores `env_ipc_perm` in `*perm_store`, from which its caller learns whether a page
came with the message. `sys_ipc_try_send` sets the field when it maps a page and clears it when
the sender has none to offer. In between, when a page is offered that the receiver does not want,
the field keeps the value of an earlier message. And since any part of the permissions of the
sender's own entry may be passed on, a page can also arrive with `perm` equal to zero, or without
`PTE_U`.
-/
namespace JosKernel

open Lib

variable {n : Nat} {S : Set (Fin n)} {x : Fin n → ℕ} {k k' : Kernel n}
  {cur e : EnvIx} {srcva perm : Word}

/-! ## The report -/

/-- The sender offers a page and the receiver wants one. -/
def Transfers (k : Kernel n) (e : EnvIx) (srcva : Word) : Prop :=
  srcva < utop ∧ (k.envs e).envIpcDstva < utop

/-- What `ipc_recv` stores in `*perm_store` when `e` goes on. -/
def permStore (k : Kernel n) (e : EnvIx) : Word :=
  if (k.envs e).envTf.tfRegs.regEax.toInt < 0 then 0 else (k.envs e).envIpcPerm

/-- The sender's page is where the receiver wanted it, for user code and with these permissions. -/
structure Arrived (k : Kernel n) (cur e : EnvIx) (srcva perm : Word) (k' : Kernel n) : Prop where
  page : ∃ g pp, k'.dirs e = some g ∧ lookedUp k cur srcva = some pp ∧
    k'.mem.translate g (k.envs e).envIpcDstva true false =
      some (pp, pgoff (k.envs e).envIpcDstva)
  flags : k'.spaces e (pdx (k.envs e).envIpcDstva) (ptx (k.envs e).envIpcDstva) &&& 0xFFF#32 =
    (perm ||| pteP) &&& 0xFFF#32

/-- The receiver is told whether a page has arrived. -/
structure Truthful (k : Kernel n) (cur e : EnvIx) (srcva perm : Word) (k' : Kernel n) : Prop where
  told : (k'.envs e).envIpcPerm ≠ 0 ↔ Transfers k e srcva
  stored : permStore k' e ≠ 0 ↔ Transfers k e srcva
  arrived : Transfers k e srcva →
    (k'.envs e).envIpcPerm = perm ∧ Arrived k cur e srcva perm k'
  unchanged : ¬Transfers k e srcva →
    (k'.envs e).envIpcPerm = 0 ∧ k'.spaces e = k.spaces e

/-- The field will be written, with a word that says what happens. -/
def SaysPage (k : Kernel n) (e : EnvIx) (srcva perm : Word) : Prop :=
  utop ≤ srcva ∨
    (if (k.envs e).envIpcDstva < utop then perm &&& pteU ≠ 0 else (k.envs e).envIpcPerm = 0)

/-! ## The new mapping -/

theorem newPte_and_flags (pp : Fin n) (perm : Word) :
    newPte pp perm &&& 0xFFF#32 = (perm ||| pteP) &&& 0xFFF#32 := pteAddr_or_and (by decide) _ _

/-- Whether user code can read through the new entry depends on `PTE_U`. -/
theorem allows_newPte (pp : Fin n) (perm : Word) :
    Mem.allows true false (newPte pp perm) = true ↔ perm &&& pteU ≠ 0 := by
  have hlow : newPte pp perm &&& pteU = perm &&& pteU := by
    have h := congrArg (· &&& pteU) (newPte_and_flags pp perm)
    simp only [BitVec.and_assoc, show (0xFFF#32 &&& pteU : Word) = pteU by decide] at h
    rw [h, BitVec.and_or_distrib_right, show (pteP &&& pteU : Word) = 0#32 by decide,
      BitVec.or_zero]
  have hp : present (newPte pp perm) = true := by simp [newPte]
  simp [Mem.allows, hp, hlow]

theorem Mem.pageDecref_frame {m m' : Mem n} {q : Fin n} (h : m.pageDecref q = .ok m') :
    m'.frame = m.frame := by
  unfold Mem.pageDecref at h
  simp only at h
  split_ifs at h
  · unfold Mem.pageFree at h
    split_ifs at h
    cases h
    rfl
  · cases h
    rfl

/-- A `page_insert` that returns has written one entry, behind what the walk has done. -/
theorem MemInv.pageInsert_entry {m m' : Mem n} {dirs : EnvIx → Option (Fin n)} {g pp : Fin n}
    {va : Word} {r : Int} (inv : MemInv S dirs x ∅ m) (he : dirs e = some g) (hva : va < utop)
    (hok : m.pageInsert g pp va perm = .ok (r, m')) (hr : ¬r < 0) :
    ∃ pt m₁, MemInv S dirs x ∅ m₁ ∧ m₁.ptab g (pdx va) = some pt ∧
      ∀ p i, m'.entry p i =
        if p = pt ∧ i = ptx va then newPte pp perm else m₁.entry p i := by
  rcases inv.pgdirWalk_true he hva with ⟨-, -, hwalk⟩ | ⟨pt, m₁, hwalk, inv₁, ht₁, -⟩
  · simp only [Mem.pageInsert, hwalk, bind, Except.bind, pure, Except.pure, Except.ok.injEq,
      Prod.mk.injEq] at hok
    exact absurd (hok.1 ▸ by decide : r < 0) hr
  refine ⟨pt, m₁, inv₁, ht₁, ?_⟩
  simp only [Mem.pageInsert, hwalk, bind, Except.bind] at hok
  split_ifs at hok with hp
  · -- the old mapping is removed first
    obtain ⟨m₂, hrem, hok⟩ := bind_ok.mp hok
    cases hok
    have hlook : (m₁.incRef pp).pageLookup g va = _ :=
      MemInv.incRef_pageLookup.trans (inv₁.pageLookup he hva)
    rw [Mem.pte_of_ptab ht₁, ht₁] at hlook
    cases hq : pageOf n (m₁.entry pt (ptx va)) with
    | none =>
      rw [hq] at hlook
      simp only [Mem.pageRemove, hlook, Option.bind_none, bind, Except.bind] at hrem
      cases hrem
      intro p i
      rw [Mem.entry_setEntry, Mem.incRef_entry, newPte]
    | some q =>
      rw [hq] at hlook
      simp only [Mem.pageRemove, hlook, Option.bind_some, Option.map_some] at hrem
      obtain ⟨_, hfound, hrem⟩ := bind_ok.mp hrem
      cases hfound
      obtain ⟨m₃, hdec, hrem⟩ := bind_ok.mp hrem
      cases hrem
      intro p i
      rw [Mem.entry_setEntry, Mem.entry_setEntry, Mem.entry, Mem.pageDecref_frame hdec, newPte]
      split_ifs <;> rfl
  · cases hok
    intro p i
    rw [Mem.entry_setEntry, Mem.incRef_entry, newPte]

/-- Translation through it. -/
theorem MemInv.pageInsert_translate {m m' : Mem n} {dirs : EnvIx → Option (Fin n)} {g pp : Fin n}
    {va : Word} {r : Int} (inv : MemInv S dirs x ∅ m) (he : dirs e = some g) (hva : va < utop)
    (hpp : pageOf n (newPte pp perm) = some pp)
    (hok : m.pageInsert g pp va perm = .ok (r, m')) (hr : ¬r < 0) :
    m'.pte g (pdx va) (ptx va) = newPte pp perm ∧ ∀ user write,
      m'.translate g va user write =
        if Mem.allows user write (newPte pp perm) then some (pp, pgoff va) else none := by
  obtain ⟨pt, m₁, inv₁, ht₁, hentry⟩ := inv.pageInsert_entry he hva hok hr
  have hd := pdx_lt_userPdes hva
  have hne : g ≠ pt := by
    rintro rfl
    have h := inv₁.excl (.dir e) (.pde e (pdx va)) g trivial he ((Mem.target_pde he).trans ht₁)
    cases h
  have hpde : m'.entry g (pdx va) = m₁.entry g (pdx va) := by
    rw [hentry, if_neg fun h => hne h.1]
  have hpte : m'.entry pt (ptx va) = newPte pp perm := by rw [hentry, if_pos ⟨rfl, rfl⟩]
  have ht' : m'.ptab g (pdx va) = some pt := by rw [Mem.ptab_eq hd, hpde, ← Mem.ptab_eq hd, ht₁]
  refine ⟨(Mem.pte_of_ptab ht').trans hpte, fun user write => ?_⟩
  obtain ⟨hpres, hnum⟩ := pageOf_eq_some.mp ((Mem.ptab_eq hd).symm.trans ht')
  obtain ⟨hlt, hu⟩ := inv₁.pdeOk e g _ he hd (hpde ▸ hpres)
  rw [← hpde] at hlt hu
  have hpt : (⟨pgnum (m'.entry g (pdx va)), hlt⟩ : Fin n) = pt := Fin.ext hnum
  have hpn : pgnum (newPte pp perm) = pp := (pageOf_eq_some.mp hpp).2
  simp only [Mem.translate, Mem.allows_userPde hu, if_true, dif_pos hlt, hpt, hpte]
  split_ifs with h₁ h₂
  · exact congrArg (fun p => some (p, pgoff va)) (Fin.ext hpn)
  · exact absurd (hpn ▸ pp.isLt) h₂
  · rfl

/-! ## Sending -/

/-- A successful send ends with the message in the receiver's fields. -/
theorem sysIpcTrySend_zero {envid value : Word} (he : envid2env k cur envid false = some e)
    (h : sysIpcTrySend k cur envid value srcva perm = .ok (0, k')) :
    ∃ k₁, Sent k cur e srcva perm 0 k₁ ∧ k' = delivered k₁ cur e value := by
  have hcalled := sysIpcTrySend_called (c := 0) (a := ⟨envid, value, srcva, perm, 0⟩) h
  generalize hr : (some 0 : Option Int) = r at hcalled
  cases hcalled with
  | memory op =>
    obtain rfl := Option.some.inj hr
    cases op with
    | same hv => exact absurd rfl (hv rfl)
  | enqueue => exact absurd (Option.some.inj hr) (by decide)
  | full => exact absurd (Option.some.inj hr) (by decide)
  | deliver he' _ page hpos =>
    cases he.symm.trans he'
    exact ⟨_, page.result hpos ▸ page, rfl⟩
  | refuse _ _ _ hneg =>
    obtain rfl := Option.some.inj hr
    exact absurd hneg (by decide)

/-- `ipc_recv` sees the field as it was delivered. -/
theorem permStore_delivered (k : Kernel n) (cur e : EnvIx) (value : Word) :
    permStore (delivered k cur e value) e = (k.envs e).envIpcPerm := by
  simp [permStore, delivered, Trapframe.setEax]

theorem delivered_perm (k : Kernel n) (cur e : EnvIx) (value : Word) :
    ((delivered k cur e value).envs e).envIpcPerm = (k.envs e).envIpcPerm := by
  simp [delivered]

theorem delivered_dirs (k : Kernel n) (cur e : EnvIx) (value : Word) :
    (delivered k cur e value).dirs = k.dirs := Kernel.dirs_modEnv _ rfl

/-- What has to be shown when no page is transferred. -/
theorem truthful_of_not_transfers {k₁ : Kernel n} {value : Word} (h : ¬Transfers k e srcva)
    (hm : k₁.mem = k.mem) (hd : k₁.dirs = k.dirs) :
    Truthful k cur e srcva perm (delivered k₁ cur e value) ↔ (k₁.envs e).envIpcPerm = 0 := by
  have hsp : (delivered k₁ cur e value).spaces = k.spaces :=
    Kernel.spaces_congr hm ((delivered_dirs ..).trans hd)
  constructor
  · intro ht
    rw [← delivered_perm k₁ cur e value]
    exact (ht.unchanged h).1
  · intro h0
    refine ⟨?_, ?_, fun hc => absurd hc h, fun _ => ⟨?_, congrFun hsp e⟩⟩
    · rw [delivered_perm]
      exact iff_of_false (not_not.mpr h0) h
    · rw [permStore_delivered]
      exact iff_of_false (not_not.mpr h0) h
    · rw [delivered_perm, h0]

/-- Whatever has happened before, a message is reported as it should be if and only if the field
is written, with a word that says what happens. -/
theorem KInv.truthful_iff (inv : KInv S x k) {envid value : Word}
    (he : envid2env k cur envid false = some e)
    (h : sysIpcTrySend k cur envid value srcva perm = .ok (0, k')) :
    Truthful k cur e srcva perm k' ↔ SaysPage k e srcva perm := by
  obtain ⟨k₁, page, rfl⟩ := sysIpcTrySend_zero he h
  clear h
  generalize hr : (0 : Int) = r at page
  cases page with
  | refused => exact absurd hr (by decide)
  | noMem _ _ _ _ _ _ _ _ hneg => exact absurd hr.symm hneg.ne
  | word hs =>
    refine Iff.trans (truthful_of_not_transfers (fun ht => hs ht.1) rfl
      (Kernel.dirs_modEnv _ rfl)) ?_
    exact iff_of_true (by simp) (.inl (BitVec.not_lt.mp hs))
  | unwanted hs hd =>
    rw [truthful_of_not_transfers (fun ht => hd ht.2) rfl rfl, SaysPage, if_neg hd]
    exact (or_iff_right (BitVec.not_le.mpr hs)).symm
  | page hs ha hd hg hg' hlook hperm hins hneg =>
    rename_i g g' pp pt i m r
    have htrans : Transfers k e srcva := ⟨hs, hd⟩
    obtain ⟨hpp, hentry⟩ := inv.mem.lookup_some hg hs hlook
    have hnew : pageOf n (newPte pp perm) = some pp :=
      inv.mem.pageOf_newPte_of_subset hpp (hentry ▸ hperm)
    obtain ⟨hpte, htr⟩ := inv.mem.pageInsert_translate hg' hd hnew hins hneg
    rw [SaysPage, if_pos hd, or_iff_right (BitVec.not_le.mpr hs)]
    set k₁ := ({ k with mem := m } : Kernel n).modEnv e fun env => { env with envIpcPerm := perm }
    have hdirs : (delivered k₁ cur e value).dirs = k.dirs :=
      (delivered_dirs ..).trans (Kernel.dirs_modEnv _ rfl)
    have hfield : (k₁.envs e).envIpcPerm = perm := by simp [k₁]
    constructor
    · intro ht
      obtain ⟨-, ⟨g₁, q, hg₁, -, hread⟩, -⟩ := ht.arrived htrans
      cases hg'.symm.trans ((congrFun hdirs e).symm.trans hg₁)
      have hread' := (htr true false).symm.trans hread
      by_contra hU
      rw [if_neg fun hall => (allows_newPte pp perm).mp hall hU] at hread'
      cases hread'
    · intro hU
      have hne : perm ≠ 0 := by
        rintro rfl
        exact hU (by decide)
      refine ⟨?_, ?_, fun _ => ⟨?_, ⟨g', pp, ?_, lookedUp_of_ok hg hlook, ?_⟩, ?_⟩,
        fun hc => absurd htrans hc⟩
      · rw [delivered_perm, hfield]
        exact iff_of_true hne htrans
      · rw [permStore_delivered, hfield]
        exact iff_of_true hne htrans
      · rw [delivered_perm, hfield]
      · rw [hdirs]
        exact hg'
      · exact (htr true false).trans (if_pos ((allows_newPte pp perm).mpr hU))
      · have hsp : (delivered k₁ cur e value).spaces e (pdx (k.envs e).envIpcDstva)
            (ptx (k.envs e).envIpcDstva) = newPte pp perm := by
          refine Eq.trans ?_ hpte
          exact Mem.spaces_of_dir ((congrFun hdirs e).trans hg') _ _
        rw [hsp]
        exact newPte_and_flags pp perm

/-- In a run that meets `StepOk`, a successful send tells the receiver the truth exactly under
`SaysPage`. -/
theorem truthful_iff_saysPage
    (h : Reachable (Boot S) (fun k a k' => StepOk k a ∧ Step k a k') k) (tf : Trapframe)
    {envid value : Word} (he : envid2env (saved k cur tf) cur envid false = some e)
    (hsend : sysIpcTrySend (saved k cur tf) cur envid value srcva perm = .ok (0, k')) :
    Truthful (saved k cur tf) cur e srcva perm k' ↔ SaysPage (saved k cur tf) e srcva perm := by
  obtain ⟨x, inv⟩ := kInv_of_reachable h
  exact (inv.save cur tf).truthful_iff he hsend

/-! ## A child that sends a page to its parent -/

/-- The child allocates the page, and the parent waits for one. -/
def offerRun : List Action :=
  [.start 0, sysTrap 0 7 0 0 0 0 0, sysTrap 0 8 0x1001 2 0 0 0, .start 1,
    sysTrap 1 4 0 0x800000 7 0 0, sysTrap 0 12 0x900000 0 0 0 0]

/-- The send succeeds, and the field is as given. -/
def sendsWith (k : Kernel 16) (perm field : Word) : Bool :=
  match sysIpcTrySend (saved k 1 freshTf) 1 0x1000 5 0x800000 perm with
  | .ok (r, k') => r == 0 && (k'.envs 0).envIpcPerm == field
  | .error _ => false

theorem exists_of_sendsWith {k : Kernel 16} {field : Word} (h : sendsWith k perm field = true) :
    ∃ k', sysIpcTrySend (saved k 1 freshTf) 1 0x1000 5 0x800000 perm = .ok (0, k') ∧
      (k'.envs 0).envIpcPerm = field := by
  unfold sendsWith at h
  split at h
  · rename_i r k' hsend
    simp only [Bool.and_eq_true, beq_iff_eq] at h
    obtain ⟨rfl, hf⟩ := h
    exact ⟨k', hsend, hf⟩
  · cases h

theorem truthful_offerRun : ∃ k k' : Kernel 16,
    sysIpcTrySend (saved k 1 freshTf) 1 0x1000 5 0x800000 7 = .ok (0, k') ∧
      Truthful (saved k 1 freshTf) 1 0 0x800000 7 k' := by
  obtain ⟨k, hk, hp⟩ := reachable_runPlain (.init boot_small) offerRun
    (fun k => decide (envid2env (saved k 1 freshTf) 1 0x1000 false = some 0 ∧
      ((saved k 1 freshTf).envs 0).envIpcDstva < utop) && sendsWith k 7 7) (by decide +kernel)
  simp only [Bool.and_eq_true, decide_eq_true_eq] at hp
  obtain ⟨⟨he, hd⟩, hsend⟩ := hp
  obtain ⟨k', hsend, -⟩ := exists_of_sendsWith hsend
  refine ⟨k, k', hsend, (truthful_iff_saysPage hk freshTf he hsend).mpr (.inr ?_)⟩
  rw [if_pos hd]
  decide

/-- With `perm` zero the page arrives, and the receiver is told that none has. -/
theorem not_truthful_offerRun : ∃ k k' : Kernel 16,
    Reachable (Boot {p : Fin 16 | p ≠ 0}) (fun k a k' => StepOk k a ∧ Step k a k') k ∧
      envid2env (saved k 1 freshTf) 1 0x1000 false = some 0 ∧
      sysIpcTrySend (saved k 1 freshTf) 1 0x1000 5 0x800000 0 = .ok (0, k') ∧
      ¬Truthful (saved k 1 freshTf) 1 0 0x800000 0 k' := by
  obtain ⟨k, hk, hp⟩ := reachable_runPlain (.init boot_small) offerRun
    (fun k => decide (envid2env (saved k 1 freshTf) 1 0x1000 false = some 0 ∧
      ((saved k 1 freshTf).envs 0).envIpcDstva < utop) && sendsWith k 0 0) (by decide +kernel)
  simp only [Bool.and_eq_true, decide_eq_true_eq] at hp
  obtain ⟨⟨he, hd⟩, hsend⟩ := hp
  obtain ⟨k', hsend, hfield⟩ := exists_of_sendsWith hsend
  exact ⟨k, k', hk, he, hsend, fun ht => ht.told.mpr ⟨by decide, hd⟩ hfield⟩

end JosKernel
