import JosKernel.User.Handlers

/-!
# fork

`fork` of `lib/fork.c` on the parent's side, as a program of system calls by the environment
`par`. Other environments may run before each of these calls; `others` says what they do. They
leave the parent, its pages and the child alone, but may take and give back memory at any time.

`duppage` reports when there is no memory for a page table of the child, but the loop does not
look at its result.
-/
namespace JosKernel

open Lib

variable {n : Nat}

/-! ## The program -/

/-- The points at which other environments may run; `pn` is the page that `fork` has come to. -/
inductive Gap where
  | handler
  | exofork
  | page (envid : Word) (pn : Nat)
  | again (envid : Word) (pn : Nat)
  | stack (envid : Word)
  | upcall (envid : Word)
  | status (envid : Word)

/-- The child, once there is one. -/
def Gap.child : Gap → Option Word
  | handler | exofork => none
  | page envid _ | again envid _ | stack envid | upcall envid | status envid => some envid

/-- `PTE_COW`. -/
def pteCow : Word := 0x800

/-- The number of pages below `USTACKTOP`. -/
@[irreducible] def userPages : Nat := 0xEEBFE

/-- The address of page `pn`. -/
def pnAddr (pn : Nat) : Word := BitVec.ofNat 32 (pn * 4096)

/-- `uvpd[d]` in the address space of `e`. -/
def uvpdAt (k : Kernel n) (e : EnvIx) (d : Fin 1024) : Word :=
  match k.dirs e with
  | none => 0
  | some g => k.mem.entry g d

/-- `uvpt[pn]` in the address space of `e`; without a page table there is no entry. -/
def uvptAt (k : Kernel n) (e : EnvIx) (pn : Nat) : Word :=
  k.spaces e (pdx (pnAddr pn)) (ptx (pnAddr pn))

/-- The test of the loop in `fork`. -/
def Visible (k : Kernel n) (e : EnvIx) (pn : Nat) : Prop :=
  present (uvpdAt k e (pdx (pnAddr pn))) = true ∧ present (uvptAt k e pn) = true ∧
    uvptAt k e pn &&& pteU ≠ 0

instance (k : Kernel n) (e : EnvIx) (pn : Nat) : Decidable (Visible k e pn) :=
  inferInstanceAs (Decidable (_ ∧ _))

section
variable (others : Gap → Kernel n → Kernel n) (upcalls : Exc → Word) (par : EnvIx)

def duppage (k : Kernel n) (envid : Word) (pn : Nat) : Except Panic (Option Int × Kernel n) :=
  let va := pnAddr pn
  if uvptAt k par pn &&& pteW ≠ 0 ∨ uvptAt k par pn &&& pteCow ≠ 0 then
    andThen (checked (sysPageMap k par 0 va envid va (pteCow ||| pteU ||| pteP))) fun r k =>
      if r < 0 then pure (some r, k)
      else
        andThen (checked (sysPageMap (others (.again envid pn) k) par 0 va 0 va
          (pteCow ||| pteU ||| pteP))) fun r k =>
          if r < 0 then pure (some r, k) else pure (some 0, k)
  else
    andThen (checked (sysPageMap k par 0 va envid va (pteU ||| pteP))) fun r k =>
      if r < 0 then pure (some r, k) else pure (some 0, k)

/-- The loop of `fork` over the pages before `pn`. -/
def dupPages (envid : Word) : Nat → Kernel n → Except Panic (Option Unit × Kernel n)
  | 0, k => pure (some (), k)
  | pn + 1, k =>
    andThen (dupPages envid pn k) fun _ k =>
      let k := others (.page envid pn) k
      if Visible k par pn then
        -- the result is dropped
        andThen (duppage others par k envid pn) fun _ k => pure (some (), k)
      else pure (some (), k)

/-- `fork` up to the return from `sys_exofork`. -/
def forkStart (handlers : Exc → Word) (pgfault : Word) (k : Kernel n) :
    Except Panic (Option Word × Kernel n) :=
  andThen (setPgfaultHandler upcalls (others .handler k) par handlers pgfault) fun _ k => do
    let (r, k) ← sysExofork (others .exofork k) par
    if r < 0 then pure (none, k) else pure (some (BitVec.ofInt 32 r), k)

/-- `fork` after the loop. -/
def forkEnd (envid : Word) (k : Kernel n) : Except Panic (Option Int × Kernel n) :=
  andThen (checked (sysPageAlloc (others (.stack envid) k) par envid xstack
    (pteU ||| pteW ||| pteP))) fun r k =>
    if r < 0 then pure (some r, k)
    else
      andThen (checked (pure (sysEnvSetPgfaultUpcall (others (.upcall envid) k) par envid
        (upcalls .pgfault)))) fun _ k =>
        andThen (checked (pure (sysEnvSetStatus (others (.status envid) k) par envid 2)))
          fun r k => if r < 0 then pure (some r, k) else pure (some envid.toInt, k)

def fork (handlers : Exc → Word) (pgfault : Word) (k : Kernel n) :
    Except Panic (Option Int × Kernel n) :=
  andThen (forkStart others upcalls par handlers pgfault k) fun envid k =>
    if envid = 0 then pure (some 0, k)
    else
      andThen (dupPages others par envid userPages k) fun _ k =>
        forkEnd others upcalls par envid k

end

/-! ## All or nothing -/

/-- The child has what it needs: every page that `k₀` shows the parent, the exception stack and
the page fault upcall. It has just been made runnable. -/
structure Complete (upcall : Word) (k₀ : Kernel n) (par : EnvIx) (k : Kernel n) (ch : EnvIx) :
    Prop where
  pages : ∀ pn < userPages, Visible k₀ par pn → ∃ p, pageOf n (uvptAt k₀ par pn) = some p ∧
    pageOf n (uvptAt k ch pn) = some p ∧ uvptAt k ch pn &&& pteU ≠ 0
  stack : ∃ p, pageOf n (k.spaces ch (pdx xstack) (ptx xstack)) = some p
  writable : ∀ flag ∈ [pteW, pteU], k.spaces ch (pdx xstack) (ptx xstack) &&& flag ≠ 0
  upcall : (k.envs ch).envUpcall .pgfault = upcall
  runnable : k.status ch = .runnable

/-- A positive result is the id of a complete child, a negative one leaves no child behind. The
parent's address space is that at the return from `sys_exofork`. In particular no child is built
behind the array: the model ends there, the code goes on without that child's id being known to
any call, returns `-E_BAD_ENV`, and leaves the child's directory. -/
def AllOrNothing (others : Gap → Kernel n → Kernel n) (upcalls : Exc → Word) (par : EnvIx)
    (handlers : Exc → Word) (pgfault : Word) (k : Kernel n) : Prop :=
  fork others upcalls par handlers pgfault k ≠ .error .outOfBounds ∧
  ∀ r k', fork others upcalls par handlers pgfault k = .ok (some r, k') →
    (0 < r → ∃ envid k₀,
      forkStart others upcalls par handlers pgfault k = .ok (some envid, k₀) ∧
        r = envid.toInt ∧ (k'.envs (envx envid)).envId = envid ∧
        Complete (upcalls .pgfault) k₀ par k' (envx envid)) ∧
    (r < 0 → ∀ e, k'.status e ≠ .free → k.status e = .free →
      (k'.envs e).envParentId ≠ (k'.envs par).envId)

/-- When `fork` calls `sys_exofork`, a slot is left, or memory has run out, too. -/
def SlotsLast (others : Gap → Kernel n → Kernel n) (upcalls : Exc → Word) (par : EnvIx)
    (handlers : Exc → Word) (pgfault : Word) (k : Kernel n) : Prop :=
  ∀ handlers' k₁,
    setPgfaultHandler upcalls (others .handler k) par handlers pgfault = .ok (some handlers', k₁) →
    (others .exofork k₁).envFreeList = .pastEnd → (others .exofork k₁).mem.pageFreeList = none

/-- At no page is memory short for the child's page table, or it is short again for the exception
stack. -/
def MemoryLasts (others : Gap → Kernel n → Kernel n) (upcalls : Exc → Word) (par : EnvIx)
    (handlers : Exc → Word) (pgfault : Word) (k : Kernel n) : Prop :=
  ∀ envid k₀, forkStart others upcalls par handlers pgfault k = .ok (some envid, k₀) →
    (∀ pn < userPages, ∀ k₁, dupPages others par envid pn k₀ = .ok (some (), k₁) →
      Visible (others (.page envid pn) k₁) par pn →
      ¬LacksTable (others (.page envid pn) k₁) (envx envid) (pnAddr pn)) ∨
    ∀ k₁, dupPages others par envid userPages k₀ = .ok (some (), k₁) →
      LacksPages (others (.stack envid) k₁) (envx envid) xstack

/-! ## Other environments -/

/-- The counter of the page that `e` has at `pn` is not at its limit. -/
def RefRoom (k : Kernel n) (e : EnvIx) (pn : Nat) : Prop :=
  ∀ p, pageOf n (uvptAt k e pn) = some p → k.mem.ref p < 65535

/-- Other environments have run: the invariant holds, the parent is still there with the pages
that `fork` has not come to, and the child is as it was. -/
structure Elsewhere (S : Set (Fin n)) (par : EnvIx) (gap : Gap) (k k' : Kernel n) : Prop where
  inv : ∃ x, KInv S x k'
  parId : (k'.envs par).envId = (k.envs par).envId
  parDir : k'.dirs par = k.dirs par
  pages : ∀ envid pn, gap = .page envid pn ∨ gap = .again envid pn →
    ∀ q, pn ≤ q → q < userPages → uvptAt k' par q = uvptAt k par q
  child : ∀ envid, gap.child = some envid → k'.dirs (envx envid) = k.dirs (envx envid) ∧
    (k'.envs (envx envid)).envId = (k.envs (envx envid)).envId ∧
    (k'.envs (envx envid)).envParentId = (k.envs (envx envid)).envParentId ∧
    (k'.envs (envx envid)).envUpcall = (k.envs (envx envid)).envUpcall ∧
    k'.spaces (envx envid) = k.spaces (envx envid)

/-- No page has its counter at the limit when `fork` maps it in the child. -/
def CountersLow (others : Gap → Kernel n → Kernel n) (upcalls : Exc → Word) (par : EnvIx)
    (handlers : Exc → Word) (pgfault : Word) (k : Kernel n) : Prop :=
  ∀ envid k₀, forkStart others upcalls par handlers pgfault k = .ok (some envid, k₀) →
    ∀ pn < userPages, ∀ k₁, dupPages others par envid pn k₀ = .ok (some (), k₁) →
      Visible (others (.page envid pn) k₁) par pn → RefRoom (others (.page envid pn) k₁) par pn

variable {S : Set (Fin n)} {x : Fin n → ℕ} {k k' : Kernel n} {par e : EnvIx} {envid : Word}
  {pn q : Nat} {p : Fin n} {gap : Gap} {perm : Word}

/-! ## Pages by number -/

theorem userPages_eq : userPages = 0xEEBFE := by
  unfold userPages
  rfl

theorem toNat_pnAddr (h : pn < userPages) : (pnAddr pn).toNat = pn * 4096 := by
  rw [userPages_eq] at h
  rw [pnAddr, BitVec.toNat_ofNat]
  omega

theorem pnAddr_lt_utop (h : pn < userPages) : pnAddr pn < utop := by
  have hn := h
  rw [userPages_eq] at hn
  rw [BitVec.lt_def, toNat_pnAddr h, toNat_utop]
  omega

theorem badUserPage_pnAddr (h : pn < userPages) : badUserPage (pnAddr pn) = false := by
  have halign : roundUp (pnAddr pn) pgsize = pnAddr pn := by
    rw [roundUp_eq_self_iff, toNat_pnAddr h]
    omega
  simp [badUserPage, halign, pnAddr_lt_utop h]

theorem pnAddr_inj (hp : pn < userPages) (hq : q < userPages)
    (hd : pdx (pnAddr q) = pdx (pnAddr pn)) (ht : ptx (pnAddr q) = ptx (pnAddr pn)) : q = pn := by
  have hd' := congrArg Fin.val hd
  have ht' := congrArg Fin.val ht
  simp only [pdx, ptx, toNat_pnAddr hp, toNat_pnAddr hq] at hd' ht'
  omega

/-- The entry that a new mapping changes. -/
theorem uvptAt_of_setSpace {i : EnvIx} {w : Word} (hp : pn < userPages) (hq : q < userPages)
    (h : k'.spaces = setSpace k.spaces e (pnAddr pn) w) :
    uvptAt k' i q = if i = e ∧ q = pn then w else uvptAt k i q := by
  rw [uvptAt, h, setSpace]
  by_cases hc : i = e ∧ q = pn
  · obtain ⟨rfl, rfl⟩ := hc
    simp
  · rw [if_neg hc, if_neg]
    · rfl
    · rintro ⟨hi, hd, ht⟩
      exact hc ⟨hi, pnAddr_inj hp hq hd ht⟩

/-- The test of the loop finds the pages that are mapped for user code. -/
theorem KInv.visible_iff (inv : KInv S x k) (h : pn < userPages) :
    Visible k e pn ↔ (∃ p, pageOf n (uvptAt k e pn) = some p) ∧ uvptAt k e pn &&& pteU ≠ 0 := by
  have hva := pnAddr_lt_utop h
  cases hg : k.dirs e with
  | none =>
    have hz : uvptAt k e pn = 0 := by simp [uvptAt, Kernel.spaces, Mem.spaces, hg]
    simp [Visible, hz]
  | some g =>
    have hpte : uvptAt k e pn = k.mem.pte g (pdx (pnAddr pn)) (ptx (pnAddr pn)) :=
      Mem.spaces_of_dir hg _ _
    constructor
    · rintro ⟨-, hp, hu⟩
      obtain ⟨p, hp, -⟩ := inv.mem.page_of_present hg (hpte ▸ hp)
      exact ⟨⟨p, hpte ▸ hp⟩, hu⟩
    · rintro ⟨⟨p, hp⟩, hu⟩
      refine ⟨?_, (pageOf_eq_some.mp hp).1, hu⟩
      cases ht : k.mem.ptab g (pdx (pnAddr pn)) with
      | none => simp [hpte, Mem.pte_of_no_ptab ht] at hp
      | some pt =>
        rw [Mem.ptab_eq (pdx_lt_userPdes hva)] at ht
        simpa only [uvpdAt, hg] using (pageOf_eq_some.mp ht).1

/-- Where a page is mapped there is a page table. -/
theorem KInv.not_lacksTable (inv : KInv S x k) (h : pn < userPages)
    (hp : pageOf n (uvptAt k e pn) = some p) : ¬LacksTable k e (pnAddr pn) := by
  rintro ⟨⟨g, hg, hno⟩, -⟩
  have hva := pnAddr_lt_utop h
  have ht : k.mem.ptab g (pdx (pnAddr pn)) = none :=
    (inv.needsTable_iff hg hva).mp ⟨g, hg, hno⟩
  rw [uvptAt, show k.spaces e _ _ = k.mem.pte g _ _ from Mem.spaces_of_dir hg _ _,
    Mem.pte_of_no_ptab ht] at hp
  simp at hp

/-! ## Between the calls -/

/-- The parent is there, and so is its child. -/
structure Forking (S : Set (Fin n)) (par : EnvIx) (envid : Word) (k : Kernel n) : Prop where
  inv : ∃ x, KInv S x k
  live : k.status par ≠ .free
  child : k.status (envx envid) ≠ .free
  ne : envx envid ≠ par
  nonzero : envid ≠ 0
  id : (k.envs (envx envid)).envId = envid
  parent : (k.envs (envx envid)).envParentId = (k.envs par).envId

namespace Forking

theorem envid2env (F : Forking S par envid k) :
    envid2env k par envid true = some (envx envid) := by
  rw [JosKernel.envid2env, if_neg F.nonzero, if_neg (by simp [F.child, F.id]),
    if_neg (by simp [F.parent])]

/-- The page calls change memory only. -/
theorem withMem (F : Forking S par envid k) (hinv : ∃ x, KInv S x k') (he : k'.envs = k.envs) :
    Forking S par envid k' where
  inv := hinv
  live := by simpa only [Kernel.status, he] using F.live
  child := by simpa only [Kernel.status, he] using F.child
  ne := F.ne
  nonzero := F.nonzero
  id := he ▸ F.id
  parent := he ▸ F.parent

theorem elsewhere (F : Forking S par envid k) (h : Elsewhere S par gap k k')
    (hg : gap.child = some envid) : Forking S par envid k' := by
  obtain ⟨x, inv⟩ := F.inv
  obtain ⟨x', inv'⟩ := h.inv
  obtain ⟨hdir, hid, hparent, -⟩ := h.child envid hg
  have hlive : ∀ i, k'.dirs i = k.dirs i → k.status i ≠ .free → k'.status i ≠ .free := by
    intro i hi hl
    rw [ne_eq, inv'.live, hi, ← inv.live]
    exact hl
  exact {
    inv := ⟨x', inv'⟩
    live := hlive par h.parDir F.live
    child := hlive _ hdir F.child
    ne := F.ne
    nonzero := F.nonzero
    id := hid.trans F.id
    parent := (hparent.trans F.parent).trans h.parId.symm }

/-- Mapping a page of the parent in the parent or in the child. -/
theorem map (F : Forking S par envid k) {dstid : Word}
    (hd : JosKernel.envid2env k par dstid true = some e) (hlive : k.status e ≠ .free)
    (hpn : pn < userPages) (hp : pageOf n (uvptAt k par pn) = some p)
    (hroom : RoomFor k p e (pnAddr pn)) (hperm : perm.toNat < 4096) (hup : lacksUP perm = false)
    (hW : perm &&& pteW = 0) :
    LacksTable k e (pnAddr pn) ∧
        sysPageMap k par 0 (pnAddr pn) dstid (pnAddr pn) perm = .ok (-eNoMem, k) ∨
      ¬LacksTable k e (pnAddr pn) ∧ ∃ k',
        sysPageMap k par 0 (pnAddr pn) dstid (pnAddr pn) perm = .ok (0, k') ∧
        Forking S par envid k' ∧ k'.spaces = setSpace k.spaces e (pnAddr pn) (newPte p perm) ∧
        pageOf n (newPte p perm) = some p := by
  obtain ⟨x, inv⟩ := F.inv
  have hsrc : JosKernel.envid2env k par 0 true = some par := rfl
  have hva := badUserPage_pnAddr hpn
  have hlook : lookedUp k par (pnAddr pn) = some p :=
    (inv.lookedUp_eq (pnAddr_lt_utop hpn)).trans hp
  refine (inv.pageMap_cases hsrc hd hlive hva hva hlook hup fun h => h.1 hW).imp_right ?_
  rintro ⟨htable, k', hok⟩
  obtain ⟨m, rfl, inv', hsp, hnew⟩ := inv.pageMap_mapped hsrc hd hva hperm hp hroom hok
  exact ⟨htable, _, hok, F.withMem ⟨x, inv'⟩ rfl, hsp, hnew⟩

end Forking

/-- Page `pn` of the parent is also the child's. -/
structure Dupped (par ch : EnvIx) (pn : Nat) (p : Fin n) (k k' : Kernel n) : Prop where
  page : pageOf n (uvptAt k' ch pn) = some p
  user : uvptAt k' ch pn &&& pteU ≠ 0
  child : ∀ q < userPages, q ≠ pn → uvptAt k' ch q = uvptAt k ch q
  parent : ∀ q < userPages, q ≠ pn → uvptAt k' par q = uvptAt k par q

/-- A new mapping in the child. -/
theorem Dupped.of_setSpace {ch : EnvIx} (hne : ch ≠ par) (hpn : pn < userPages)
    (hsp : k'.spaces = setSpace k.spaces ch (pnAddr pn) (newPte p perm))
    (hnew : pageOf n (newPte p perm) = some p) (hU : perm &&& pteU = pteU) :
    Dupped par ch pn p k k' := by
  have hself : uvptAt k' ch pn = newPte p perm :=
    (uvptAt_of_setSpace hpn hpn hsp).trans (if_pos ⟨rfl, rfl⟩)
  refine ⟨by rw [hself, hnew], ?_, fun q hq hqp => ?_, fun q hq hqp => ?_⟩
  · rw [hself]
    exact newPte_and_ne_zero p hU (by decide)
  · exact (uvptAt_of_setSpace hpn hq hsp).trans (if_neg fun h => hqp h.2)
  · exact (uvptAt_of_setSpace hpn hq hsp).trans (if_neg fun h => hne h.1.symm)

section
variable {others : Gap → Kernel n → Kernel n} {upcalls handlers : Exc → Word} {pgfault : Word}

/-- `duppage` fails without an effect when the child's page table cannot be made; else the child
has the page. -/
theorem Forking.duppage_cases (F : Forking S par envid k)
    (rely : ∀ gap k x, KInv S x k → Elsewhere S par gap k (others gap k))
    (hpn : pn < userPages) (hp : pageOf n (uvptAt k par pn) = some p) (room : RefRoom k par pn) :
    LacksTable k (envx envid) (pnAddr pn) ∧
        duppage others par k envid pn = .ok (some (-eNoMem), k) ∨
      ¬LacksTable k (envx envid) (pnAddr pn) ∧ ∃ k',
        duppage others par k envid pn = .ok (some 0, k') ∧ Forking S par envid k' ∧
        ∃ k₁, Dupped par (envx envid) pn p k k₁ ∧
          (∀ q < userPages, uvptAt k' (envx envid) q = uvptAt k₁ (envx envid) q) ∧
          ∀ q < userPages, pn < q → uvptAt k' par q = uvptAt k₁ par q := by
  have hU : ∀ flags : Word, flags = pteCow ||| pteU ||| pteP ∨ flags = pteU ||| pteP →
      flags.toNat < 4096 ∧ lacksUP flags = false ∧ flags &&& pteW = 0 ∧
        flags &&& pteU = pteU := by
    rintro _ (rfl | rfl)
    · decide
    · decide
  by_cases hcow : uvptAt k par pn &&& pteW ≠ 0 ∨ uvptAt k par pn &&& pteCow ≠ 0
  · obtain ⟨h₁, h₂, h₃, h₄⟩ := hU _ (.inl rfl)
    simp only [duppage, if_pos hcow]
    rcases F.map F.envid2env F.child hpn hp (.inl (room p hp)) h₁ h₂ h₃ with
      ⟨hlacks, hok⟩ | ⟨hroom, k₁, hok, F₁, hsp, hnew⟩
    · refine .inl ⟨hlacks, ?_⟩
      rw [hok, checked_neg eNoMem_neg, andThen_some, if_pos eNoMem_neg]
      rfl
    refine .inr ⟨hroom, ?_⟩
    have D := Dupped.of_setSpace F.ne hpn hsp hnew h₄
    obtain ⟨x₁, inv₁⟩ := F₁.inv
    -- the parent's own entry is still that of the page, so that its table is there, and its
    -- counter goes up and down again
    have E := rely (.again envid pn) k₁ x₁ inv₁
    have F₂ := F₁.elsewhere E rfl
    obtain ⟨x₂, inv₂⟩ := F₂.inv
    have hp₂ : pageOf n (uvptAt (others (.again envid pn) k₁) par pn) = some p := by
      rw [E.pages envid pn (.inr rfl) pn le_rfl hpn, uvptAt_of_setSpace hpn hpn hsp,
        if_neg fun h => F.ne h.1.symm, hp]
    have hself : JosKernel.envid2env (others (.again envid pn) k₁) par 0 true = some par := rfl
    rcases F₂.map hself F₂.live hpn hp₂ (.inr hp₂) h₁ h₂ h₃ with
      ⟨hlacks, -⟩ | ⟨-, k', hok', F', hsp', -⟩
    · exact absurd hlacks (inv₂.not_lacksTable hpn hp₂)
    refine ⟨k', ?_, F', k₁, D, fun q hq => ?_, fun q hq hlt => ?_⟩
    · rw [hok, checked_zero, andThen_some, if_neg (by decide), hok', checked_zero, andThen_some]
      rfl
    · rw [uvptAt_of_setSpace hpn hq hsp', if_neg fun h => F.ne h.1]
      have hsame := (E.child envid rfl).2.2.2.2
      exact congrFun (congrFun hsame _) _
    · rw [uvptAt_of_setSpace hpn hq hsp', if_neg fun h => hlt.ne' h.2]
      exact E.pages envid pn (.inr rfl) q hlt.le hq
  · obtain ⟨h₁, h₂, h₃, h₄⟩ := hU _ (.inr rfl)
    simp only [duppage, if_neg hcow]
    rcases F.map F.envid2env F.child hpn hp (.inl (room p hp)) h₁ h₂ h₃ with
      ⟨hlacks, hok⟩ | ⟨hroom, k₁, hok, F₁, hsp, hnew⟩
    · refine .inl ⟨hlacks, ?_⟩
      rw [hok, checked_neg eNoMem_neg, andThen_some, if_pos eNoMem_neg]
      rfl
    · refine .inr ⟨hroom, k₁, ?_, F₁, k₁, Dupped.of_setSpace F.ne hpn hsp hnew h₄,
        fun _ _ => rfl, fun _ _ _ => rfl⟩
      rw [hok, checked_zero, andThen_some]
      rfl

/-! ## The loop -/

/-- When `fork` comes to page `pn`, there is no memory for the child's page table. -/
def Short (others : Gap → Kernel n → Kernel n) (par : EnvIx) (envid : Word) (k₀ : Kernel n)
    (pn : Nat) : Prop :=
  ∃ k₁, dupPages others par envid pn k₀ = .ok (some (), k₁) ∧
    Visible (others (.page envid pn) k₁) par pn ∧
    LacksTable (others (.page envid pn) k₁) (envx envid) (pnAddr pn)

/-- The pages before `pn` have been copied, except where memory was short. -/
structure Copied (others : Gap → Kernel n → Kernel n) (par : EnvIx) (envid : Word)
    (k₀ : Kernel n) (pn : Nat) (k : Kernel n) : Prop where
  rest : ∀ q, pn ≤ q → q < userPages → uvptAt k par q = uvptAt k₀ par q
  empty : ∀ q, pn ≤ q → q < userPages → uvptAt k (envx envid) q = 0
  short : ∀ q < pn, Short others par envid k₀ q →
    Visible k₀ par q ∧ uvptAt k (envx envid) q = 0
  full : ∀ q < pn, Visible k₀ par q → ¬Short others par envid k₀ q →
    ∃ p, pageOf n (uvptAt k₀ par q) = some p ∧ pageOf n (uvptAt k (envx envid) q) = some p ∧
      uvptAt k (envx envid) q &&& pteU ≠ 0

namespace Copied

variable {k₀ : Kernel n}

/-- Going on after page `pn`, when the child's pages before it are as they were. -/
theorem next (C : Copied others par envid k₀ pn k) (hpn : pn < userPages)
    (hrest : ∀ q, pn < q → q < userPages → uvptAt k' par q = uvptAt k par q)
    (hchild : ∀ q < userPages, q ≠ pn → uvptAt k' (envx envid) q = uvptAt k (envx envid) q)
    (hshort : Short others par envid k₀ pn →
      Visible k₀ par pn ∧ uvptAt k' (envx envid) pn = 0)
    (hfull : Visible k₀ par pn → ¬Short others par envid k₀ pn →
      ∃ p, pageOf n (uvptAt k₀ par pn) = some p ∧
        pageOf n (uvptAt k' (envx envid) pn) = some p ∧ uvptAt k' (envx envid) pn &&& pteU ≠ 0) :
    Copied others par envid k₀ (pn + 1) k' := by
  refine ⟨fun q hq hlt => ?_, fun q hq hlt => ?_, fun q hq => ?_, fun q hq => ?_⟩
  · rw [hrest q hq hlt]
    exact C.rest q (Nat.le_of_succ_le hq) hlt
  · rw [hchild q hlt (by omega)]
    exact C.empty q (Nat.le_of_succ_le hq) hlt
  · rcases Nat.lt_succ_iff_lt_or_eq.mp hq with hlt | rfl
    · rw [hchild q (hlt.trans hpn) hlt.ne]
      exact C.short q hlt
    · exact hshort
  · rcases Nat.lt_succ_iff_lt_or_eq.mp hq with hlt | rfl
    · rw [hchild q (hlt.trans hpn) hlt.ne]
      exact C.full q hlt
    · exact hfull

/-- Other environments leave what `fork` has done and what it has still to do. -/
theorem elsewhere (C : Copied others par envid k₀ pn k)
    (E : Elsewhere S par (.page envid pn) k k') : Copied others par envid k₀ pn k' := by
  have hchild : ∀ q, uvptAt k' (envx envid) q = uvptAt k (envx envid) q := fun q =>
    congrFun (congrFun (E.child envid rfl).2.2.2.2 _) _
  refine ⟨fun q hq hlt => ?_, fun q hq hlt => ?_, fun q hq => ?_, fun q hq => ?_⟩
  · exact (E.pages envid pn (.inl rfl) q hq hlt).trans (C.rest q hq hlt)
  · exact (hchild q).trans (C.empty q hq hlt)
  · rw [hchild]
    exact C.short q hq
  · rw [hchild]
    exact C.full q hq

end Copied

/-- The loop always comes to its end, and has then copied every page, except where memory was
short. -/
theorem Forking.dupPages {k₀ : Kernel n} (F₀ : Forking S par envid k₀)
    (rely : ∀ gap k x, KInv S x k → Elsewhere S par gap k (others gap k))
    (room : ∀ pn < userPages, ∀ k₁, dupPages others par envid pn k₀ = .ok (some (), k₁) →
      Visible (others (.page envid pn) k₁) par pn → RefRoom (others (.page envid pn) k₁) par pn)
    (hempty : ∀ q, uvptAt k₀ (envx envid) q = 0) (pn : Nat) (hpn : pn ≤ userPages) :
    ∃ k, JosKernel.dupPages others par envid pn k₀ = .ok (some (), k) ∧
      Forking S par envid k ∧ Copied others par envid k₀ pn k := by
  induction pn with
  | zero =>
    refine ⟨k₀, rfl, F₀, fun _ _ _ => rfl, fun q _ _ => hempty q, ?_, ?_⟩
    · intro q hq
      exact absurd hq (Nat.not_lt_zero q)
    · intro q hq
      exact absurd hq (Nat.not_lt_zero q)
  | succ pn ih =>
    have hlt : pn < userPages := hpn
    obtain ⟨k₁, hok₁, F₁, C₁⟩ := ih hlt.le
    obtain ⟨x₁, inv₁⟩ := F₁.inv
    have E := rely (.page envid pn) k₁ x₁ inv₁
    have F₂ := F₁.elsewhere E rfl
    have C₂ := C₁.elsewhere E
    have hroom := room pn hlt k₁ hok₁
    have hshort : Short others par envid k₀ pn ↔ Visible (others (.page envid pn) k₁) par pn ∧
        LacksTable (others (.page envid pn) k₁) (envx envid) (pnAddr pn) := by
      constructor
      · rintro ⟨k₁', hok₁', h⟩
        obtain rfl : k₁ = k₁' := (Prod.mk.inj (Except.ok.inj (hok₁.symm.trans hok₁'))).2
        exact h
      · exact fun h => ⟨k₁, hok₁, h⟩
    rw [JosKernel.dupPages, hok₁, andThen_some]
    generalize others (.page envid pn) k₁ = k₂ at *
    obtain ⟨x₂, inv₂⟩ := F₂.inv
    have hsame := C₂.rest pn le_rfl hlt
    obtain ⟨x₀, inv₀⟩ := F₀.inv
    have hvis : Visible k₂ par pn ↔ Visible k₀ par pn := by
      rw [inv₂.visible_iff hlt, inv₀.visible_iff hlt, hsame]
    by_cases hv : Visible k₂ par pn
    · obtain ⟨⟨p, hp⟩, -⟩ := (inv₂.visible_iff hlt).mp hv
      simp only [if_pos hv]
      rcases F₂.duppage_cases rely hlt hp (hroom hv) with
        ⟨hlacks, hok⟩ | ⟨hno, k', hok, F', k₃, D, hc, hpar⟩
      · -- the failure of `duppage` goes unnoticed
        rw [hok, andThen_some]
        have hs := hshort.mpr ⟨hv, hlacks⟩
        exact ⟨k₂, rfl, F₂, C₂.next hlt (fun _ _ _ => rfl) (fun _ _ _ => rfl)
          (fun _ => ⟨hvis.mp hv, C₂.empty pn le_rfl hlt⟩) fun _ h => absurd hs h⟩
      · rw [hok, andThen_some]
        have hs : ¬Short others par envid k₀ pn := fun h => hno (hshort.mp h).2
        refine ⟨k', rfl, F', C₂.next hlt (fun q hq hqlt => ?_) (fun q hqlt hne => ?_)
          (fun h => absurd h hs) fun _ _ => ⟨p, hsame ▸ hp, ?_, ?_⟩⟩
        · rw [hpar q hqlt hq, D.parent q hqlt hq.ne']
        · rw [hc q hqlt, D.child q hqlt hne]
        · rw [hc pn hlt, D.page]
        · rw [hc pn hlt]
          exact D.user
    · simp only [if_neg hv]
      exact ⟨k₂, rfl, F₂, C₂.next hlt (fun _ _ _ => rfl) (fun _ _ _ => rfl)
        (fun h => absurd (hshort.mp h).1 hv) fun hv₀ _ => absurd (hvis.mpr hv₀) hv⟩

/-! ## Before and after the loop -/

/-- A successful `sys_exofork` makes a child that cannot run yet. -/
theorem sysExofork_forked {r : Int} (h : sysExofork k par = .ok (r, k')) (hr : ¬r < 0) :
    ∃ e g m, k.envFreeList = .env e ∧ envSetupVm k.mem = (some g, m) ∧
      k' = forked k par e g m ∧ r = (nextEnvId (k.envs e).envId e).toInt := by
  obtain ⟨⟨res, k₁⟩, halloc, h⟩ := bind_ok.mp h
  cases res with
  | error r' =>
    cases h
    exact absurd (envAlloc_refused halloc).1 hr
  | ok e =>
    obtain ⟨g, m, hfl, hvm, rfl⟩ := envAlloc_ok halloc
    obtain ⟨hid, hk⟩ := Prod.mk.inj (Except.ok.inj h)
    refine ⟨e, g, m, hfl, hvm, hk.symm.trans ?_, hid.symm.trans ?_⟩
    · by_cases hc : e = par
      · subst hc
        simp [allocated, forked, forkedEnv, Kernel.modEnv]
      · simp [allocated, forked, forkedEnv, Kernel.modEnv, hc, Ne.symm hc]
    · simp [allocated]

/-- When `sys_exofork` has returned, the child has no pages. -/
theorem KInv.forkStart (inv : KInv S x k) (hlive : k.status par ≠ .free)
    (rely : ∀ gap k x, KInv S x k → Elsewhere S par gap k (others gap k)) {k₀ : Kernel n}
    (h : forkStart others upcalls par handlers pgfault k = .ok (some envid, k₀)) :
    Forking S par envid k₀ ∧ (∀ q, uvptAt k₀ (envx envid) q = 0) ∧ 0 < envid.toInt := by
  have live : ∀ {gap k k' x}, KInv S x k → k.status par ≠ .free → Elsewhere S par gap k k' →
      k'.status par ≠ .free := by
    intro gap k k' x inv hl E
    obtain ⟨x', inv'⟩ := E.inv
    rw [ne_eq, inv'.live, E.parDir, ← inv.live]
    exact hl
  have E₁ := rely .handler k x inv
  have hlive₁ := live inv hlive E₁
  obtain ⟨x₁, inv₁⟩ := E₁.inv
  obtain ⟨handlers', k₂, hset, h⟩ := andThen_ok _ h
  obtain ⟨m, ⟨x₂, inv₂⟩, rfl⟩ := inv₁.setHandler_ok hlive₁ hset
  have inv₃ := inv₂.setUpcall par .pgfault (upcalls .pgfault)
  generalize hk₃ : withUpcall _ par .pgfault (upcalls .pgfault) = k₃ at h inv₃
  have hlive₃ : k₃.status par ≠ .free := by
    rw [← hk₃]
    simpa [withUpcall, Kernel.status] using hlive₁
  have E₄ := rely .exofork k₃ x₂ inv₃
  have hlive₄ := live inv₃ hlive₃ E₄
  obtain ⟨x₄, inv₄⟩ := E₄.inv
  obtain ⟨⟨r, k₅⟩, hexo, h⟩ := bind_ok.mp h
  by_cases hr : r < 0
  · simp only [if_pos hr] at h
    cases h
  · simp only [if_neg hr] at h
    obtain ⟨e, g, m', hfl, hvm, rfl, rfl⟩ := sysExofork_forked hexo hr
    generalize others .exofork k₃ = k₄ at *
    obtain ⟨hid, hk⟩ := Prod.mk.inj (Except.ok.inj h)
    obtain rfl := hk
    have hid' := Option.some.inj hid
    rw [BitVec.ofInt_toInt] at hid'
    have hx : envx envid = e := by rw [← hid', envx_nextEnvId]
    obtain ⟨inv₅, hsp, -, hnone⟩ := inv₄.addEnv (forked k₄ par e g m') hfl hvm rfl rfl rfl
      (fun i hi => by simp [forked, hi]) (by simp [forked, Kernel.dirs, forkedEnv])
      (by simp [forked, Kernel.status, forkedEnv])
    have hne : e ≠ par := by
      rintro rfl
      exact hlive₄ ((inv₄.live e).mpr hnone)
    refine ⟨⟨⟨x₄, inv₅⟩, ?_, ?_, hx ▸ hne, ?_, ?_, ?_⟩, fun q => ?_, ?_⟩
    · simpa [forked, Kernel.status, hne.symm] using hlive₄
    · simp [hx, forked, Kernel.status, forkedEnv]
    · rw [← hid']
      exact nextEnvId_ne_zero _ _
    · simp [hx, forked, forkedEnv, hid']
    · simp [hx, forked, forkedEnv, hne.symm]
    · rw [uvptAt, hsp, hx]
      simp [Kernel.spaces, Mem.spaces, hnone]
    · have h0 := nextEnvId_ne_zero (k₄.envs e).envId e
      rw [← hid']
      refine lt_of_le_of_ne (nextEnvId_nonneg _ _) fun h => h0 ?_
      exact BitVec.eq_of_toInt_eq h.symm

/-- The exception stack is not among the pages below `USTACKTOP`. -/
theorem uvptAt_of_xstack {i : EnvIx} {w : Word} (hq : q < userPages)
    (h : k'.spaces = setSpace k.spaces e xstack w) : uvptAt k' i q = uvptAt k i q := by
  rw [uvptAt, h, setSpace, if_neg]
  · rfl
  · rintro ⟨-, hd, ht⟩
    have hd' := congrArg Fin.val hd
    have ht' := congrArg Fin.val ht
    have hn := hq
    rw [userPages_eq] at hn
    have hx : xstack.toNat = 0xEEBFF000 := by decide
    simp only [pdx, ptx, toNat_pnAddr hq, hx] at hd' ht'
    omega

theorem Forking.setUpcall (F : Forking S par envid k) (w : Word) :
    Forking S par envid (withUpcall k (envx envid) .pgfault w) := by
  obtain ⟨x, inv⟩ := F.inv
  exact
    { inv := ⟨x, inv.setUpcall ..⟩
      live := by simpa [withUpcall, Kernel.status, F.ne.symm, Kernel.modEnv] using F.live
      child := by simpa [withUpcall, Kernel.status] using F.child
      ne := F.ne
      nonzero := F.nonzero
      id := by simpa [withUpcall] using F.id
      parent := by simpa [withUpcall, F.ne.symm, Kernel.modEnv] using F.parent }

/-- The end of `fork`: without memory the program panics, or the kernel does; else the child gets
its exception stack and its upcall, and can run. -/
theorem Forking.forkEnd_cases (F : Forking S par envid k) (upcalls : Exc → Word)
    (rely : ∀ gap k x, KInv S x k → Elsewhere S par gap k (others gap k)) :
    (LacksPages (others (.stack envid) k) (envx envid) xstack ∧
        forkEnd others upcalls par envid k ≠ .error .outOfBounds ∧
        ∀ r k', forkEnd others upcalls par envid k ≠ .ok (some r, k')) ∨
      ¬LacksPages (others (.stack envid) k) (envx envid) xstack ∧ ∃ k',
        forkEnd others upcalls par envid k = .ok (some envid.toInt, k') ∧
        (k'.envs (envx envid)).envId = envid ∧
        (∀ q < userPages, uvptAt k' (envx envid) q = uvptAt k (envx envid) q) ∧
        (∃ p, pageOf n (k'.spaces (envx envid) (pdx xstack) (ptx xstack)) = some p) ∧
        (∀ flag ∈ [pteW, pteU],
          k'.spaces (envx envid) (pdx xstack) (ptx xstack) &&& flag ≠ 0) ∧
        (k'.envs (envx envid)).envUpcall .pgfault = upcalls .pgfault ∧
        k'.status (envx envid) = .runnable := by
  obtain ⟨x, inv⟩ := F.inv
  have E₁ := rely (.stack envid) k x inv
  have F₁ := F.elsewhere E₁ rfl
  have hsp₁ := (E₁.child envid rfl).2.2.2.2
  obtain ⟨x₁, inv₁⟩ := F₁.inv
  unfold forkEnd
  generalize others (.stack envid) k = k₁ at *
  have hva : badUserPage xstack = false := by decide
  have hup : lacksUP (pteU ||| pteW ||| pteP) = false := by decide
  rcases inv₁.pageAlloc_cases F₁.child F₁.envid2env hva hup with
    ⟨hlacks, hok⟩ | ⟨hroom, k₂, hok⟩
  · rcases hok with hok | hok
    · rw [hok, checked_eNoMem, andThen_none]
      exact .inl ⟨hlacks, by simp, by simp⟩
    · rw [hok, checked_error, andThen_error]
      exact .inl ⟨hlacks, by simp, by simp⟩
  refine .inr ⟨hroom, ?_⟩
  obtain ⟨m, pp, rfl, inv₂, hsp₂, hpp, -⟩ :=
    inv₁.pageAlloc_mapped F₁.envid2env (by decide) (by decide) (by decide) hok
  have F₂ := F₁.withMem ⟨_, inv₂⟩ rfl
  rw [hok, checked_zero, andThen_some, if_neg (by decide)]
  generalize ({ k₁ with mem := m } : Kernel n) = k₂ at *
  -- the upcall
  have E₃ := rely (.upcall envid) k₂ _ inv₂
  have F₃ := F₂.elsewhere E₃ rfl
  have hsp₃ := (E₃.child envid rfl).2.2.2.2
  generalize others (.upcall envid) k₂ = k₃ at *
  have hset : sysEnvSetPgfaultUpcall k₃ par envid (upcalls .pgfault) =
      (0, withUpcall k₃ (envx envid) .pgfault (upcalls .pgfault)) := by
    rw [sysEnvSetPgfaultUpcall, ← dispatchSetUpcall_eq]
    exact dispatchSetUpcall_of_some F₃.envid2env _
  have F₄ := F₃.setUpcall (upcalls .pgfault)
  rw [hset]
  simp only [pure, Except.pure, checked_zero, andThen_some]
  have hup₄ : ((withUpcall k₃ (envx envid) .pgfault (upcalls .pgfault)).envs
      (envx envid)).envUpcall .pgfault = upcalls .pgfault := by simp [withUpcall]
  have hsp₄ := withUpcall_spaces k₃ (envx envid) .pgfault (upcalls .pgfault)
  generalize withUpcall k₃ (envx envid) .pgfault (upcalls .pgfault) = k₄ at *
  -- the status
  obtain ⟨x₄, inv₄⟩ := F₄.inv
  have E₅ := rely (.status envid) k₄ x₄ inv₄
  have F₅ := F₄.elsewhere E₅ rfl
  obtain ⟨-, -, -, hup₅, hsp₅⟩ := E₅.child envid rfl
  generalize others (.status envid) k₄ = k₅ at *
  have hstatus : sysEnvSetStatus k₅ par envid 2 = (0, k₅.setStatus (envx envid) .runnable) := by
    simp [sysEnvSetStatus, F₅.envid2env]
  rw [hstatus]
  simp only [checked_zero, andThen_some]
  have hsp : (k₅.setStatus (envx envid) .runnable).spaces (envx envid) =
      k₂.spaces (envx envid) := by
    have hsame : (k₅.setStatus (envx envid) .runnable).spaces = k₅.spaces :=
      Kernel.spaces_congr rfl (Kernel.dirs_modEnv _ rfl)
    rw [hsame, hsp₅, hsp₄, hsp₃]
  have hentry : k₂.spaces (envx envid) (pdx xstack) (ptx xstack) =
      newPte pp (pteU ||| pteW ||| pteP) := by
    rw [hsp₂]
    exact if_pos ⟨rfl, rfl, rfl⟩
  refine ⟨k₅.setStatus (envx envid) .runnable, ?_, ?_, fun q hq => ?_, ⟨pp, ?_⟩, ?_, ?_, ?_⟩
  · rw [if_neg (by decide)]
  · simpa [Kernel.setStatus] using F₅.id
  · calc uvptAt (k₅.setStatus (envx envid) .runnable) (envx envid) q
        = uvptAt k₂ (envx envid) q := congrFun (congrFun hsp _) _
      _ = uvptAt k₁ (envx envid) q := uvptAt_of_xstack hq hsp₂
      _ = uvptAt k (envx envid) q := congrFun (congrFun hsp₁ _) _
  · rw [hsp, hentry, hpp]
  · intro flag hflag
    rw [hsp, hentry]
    simp only [List.mem_cons, List.not_mem_nil, or_false] at hflag
    rcases hflag with rfl | rfl
    · exact newPte_and_ne_zero pp (by decide) (by decide)
    · exact newPte_and_ne_zero pp (by decide) (by decide)
  · rw [← hup₄, ← hup₅]
    simp [Kernel.setStatus]
  · simp [Kernel.setStatus_status]

/-- `sys_exofork` leaves the array only if there is a page for the directory. -/
theorem sysExofork_outOfBounds_iff : sysExofork k par = .error .outOfBounds ↔
    k.envFreeList = .pastEnd ∧ k.mem.pageFreeList ≠ none := by
  unfold sysExofork envAlloc
  by_cases hl : k.mem.pageFreeList = none
  · cases k.envFreeList <;> simp [envSetupVm_of_none hl, bind, Except.bind, pure, Except.pure, hl]
  · obtain ⟨g, m, hvm⟩ := envSetupVm_some hl
    cases k.envFreeList <;>
      simp [hvm, bind, Except.bind, pure, Except.pure, hl, throw, throwThe, MonadExceptOf.throw]

/-- The kernel does not leave the array when a handler is registered. -/
theorem KInv.setHandler_inBounds (inv : KInv S x k) (hc : k.status par ≠ .free) {exc : Exc} :
    setHandler exc upcalls k par handlers pgfault ≠ .error .outOfBounds := by
  by_cases hreg : handlers exc = 0
  · rcases inv.stack_cases hc with ⟨-, halloc | halloc⟩ | ⟨-, k₁, halloc⟩
    · rw [setHandler, if_pos hreg, halloc, checked_eNoMem, andThen_none]
      simp
    · rw [setHandler, if_pos hreg, halloc, checked_error, andThen_error]
      simp
    · simp [setHandler_of_alloc hreg halloc]
  · simp [setHandler_of_registered hreg]

/-- `fork` leaves the array in `sys_exofork`, if at all. -/
theorem KInv.forkStart_outOfBounds_iff (inv : KInv S x k) (hlive : k.status par ≠ .free)
    (rely : ∀ gap k x, KInv S x k → Elsewhere S par gap k (others gap k)) :
    JosKernel.forkStart others upcalls par handlers pgfault k = .error .outOfBounds ↔
      ¬SlotsLast others upcalls par handlers pgfault k := by
  have E := rely .handler k x inv
  obtain ⟨x₁, inv₁⟩ := E.inv
  have hlive₁ : (others .handler k).status par ≠ .free := by
    rw [ne_eq, inv₁.live, E.parDir, ← inv.live]
    exact hlive
  have hset : setPgfaultHandler upcalls (others .handler k) par handlers pgfault ≠
      .error .outOfBounds := inv₁.setHandler_inBounds hlive₁
  rw [SlotsLast, JosKernel.forkStart]
  rcases hres : setPgfaultHandler upcalls (others .handler k) par handlers pgfault with
    p | ⟨_ | handlers', k₁⟩
  · rw [hres] at hset
    simpa using hset
  · simp
  · have hexo : sysExofork (others .exofork k₁) par = .error .outOfBounds ↔
        (others .exofork k₁).envFreeList = .pastEnd ∧
          (others .exofork k₁).mem.pageFreeList ≠ none := sysExofork_outOfBounds_iff
    simp only [andThen_some, Except.ok.injEq, Prod.mk.injEq, Option.some.injEq, and_imp,
      forall_eq', forall_apply_eq_imp_iff]
    rw [Classical.not_imp, ← hexo]
    cases sysExofork (others .exofork k₁) par with
    | error p => simp [bind, Except.bind]
    | ok res =>
      by_cases hr : res.1 < 0 <;> simp [bind, Except.bind, pure, Except.pure, hr]

/-- Whether or not `fork` returns. -/
theorem KInv.allOrNothing_iff (inv : KInv S x k) (hlive : k.status par ≠ .free)
    (rely : ∀ gap k x, KInv S x k → Elsewhere S par gap k (others gap k))
    (low : CountersLow others upcalls par handlers pgfault k) :
    AllOrNothing others upcalls par handlers pgfault k ↔
      SlotsLast others upcalls par handlers pgfault k ∧
        MemoryLasts others upcalls par handlers pgfault k := by
  have hout : JosKernel.forkStart others upcalls par handlers pgfault k = .error .outOfBounds ↔
      ¬SlotsLast others upcalls par handlers pgfault k :=
    inv.forkStart_outOfBounds_iff hlive rely
  constructor
  · rintro ⟨hin, hall⟩
    refine ⟨?_, fun envid k₀ hstart => ?_⟩
    · by_contra hc
      exact hin (by rw [fork, hout.mpr hc, andThen_error])
    obtain ⟨F₀, hempty, hpos⟩ := inv.forkStart hlive rely hstart
    obtain ⟨k₁, hdup, F₁, C₁⟩ :=
      F₀.dupPages rely (low envid k₀ hstart) hempty userPages le_rfl
    rcases F₁.forkEnd_cases upcalls rely with ⟨hlacks, -⟩ | ⟨-, k', hend, -, hsp, -⟩
    · refine .inr fun k₁' hdup' => ?_
      rw [hdup] at hdup'
      rwa [← (Prod.mk.inj (Except.ok.inj hdup')).2]
    · -- `fork` returns, and a page where memory is short is missing in the child
      refine .inl fun pn hpn k₂ hk₂ hv hlacks => ?_
      have hfork : fork others upcalls par handlers pgfault k = .ok (some envid.toInt, k') := by
        rw [fork, hstart, andThen_some, if_neg F₀.nonzero, hdup, andThen_some, hend]
      obtain ⟨envid', k₀', hstart', -, -, full⟩ := (hall _ _ hfork).1 hpos
      rw [hstart] at hstart'
      obtain ⟨he, rfl⟩ := Prod.mk.inj (Except.ok.inj hstart')
      obtain rfl := Option.some.inj he
      obtain ⟨hv₀, hzero⟩ := C₁.short pn hpn ⟨k₂, hk₂, hv, hlacks⟩
      obtain ⟨p, -, hp, -⟩ := full.pages pn hpn hv₀
      rw [hsp pn hpn, hzero] at hp
      simp at hp
  · rintro ⟨hslots, hlasts⟩
    refine ⟨fun hfork => ?_, fun r k' hfork => ?_⟩
    · rcases hstart : JosKernel.forkStart others upcalls par handlers pgfault k with
        p | ⟨_ | envid, k₀⟩
      · rw [fork, hstart, andThen_error] at hfork
        cases hfork
        exact hout.mp hstart hslots
      · rw [fork, hstart, andThen_none] at hfork
        cases hfork
      · obtain ⟨F₀, hempty, -⟩ := inv.forkStart hlive rely hstart
        obtain ⟨k₁, hdup, F₁, -⟩ :=
          F₀.dupPages rely (low envid k₀ hstart) hempty userPages le_rfl
        rw [fork, hstart, andThen_some, if_neg F₀.nonzero, hdup, andThen_some] at hfork
        rcases F₁.forkEnd_cases upcalls rely with ⟨-, hne, -⟩ | ⟨-, k', hend, -⟩
        · exact hne hfork
        · rw [hend] at hfork
          cases hfork
    obtain ⟨envid, k₀, hstart, h⟩ := andThen_ok _ hfork
    obtain ⟨F₀, hempty, hpos⟩ := inv.forkStart hlive rely hstart
    rw [if_neg F₀.nonzero] at h
    obtain ⟨k₁, hdup, F₁, C₁⟩ :=
      F₀.dupPages rely (low envid k₀ hstart) hempty userPages le_rfl
    rw [hdup, andThen_some] at h
    rcases F₁.forkEnd_cases upcalls rely with
      ⟨-, -, hno⟩ | ⟨hroom, k'', hend, hid, hsp, hstack, hflags, hup, hrun⟩
    · exact absurd h (hno r k')
    rw [hend] at h
    obtain ⟨hr, rfl⟩ := Prod.mk.inj (Except.ok.inj h)
    obtain rfl := Option.some.inj hr
    refine ⟨fun _ => ⟨envid, k₀, hstart, rfl, hid, ⟨fun pn hpn hv => ?_, hstack, hflags, hup,
      hrun⟩⟩, fun hneg => absurd hpos hneg.le.not_gt⟩
    rw [hsp pn hpn]
    refine C₁.full pn hpn hv ?_
    rintro ⟨k₂, hk₂, hv₂, hlacks⟩
    rcases hlasts envid k₀ hstart with hnone | hshort
    · exact hnone pn hpn k₂ hk₂ hv₂ hlacks
    · exact hroom (hshort k₁ hdup)

/-- In a run that meets `StepOk`, and with room in the page counters, a `fork` is all or nothing
exactly if slots and memory last. -/
theorem allOrNothing_iff_lasts {c : Cpu}
    (h : Reachable (Boot S) (fun k a k' => StepOk k a ∧ Step k a k') k)
    (hcur : k.curenv c = some par)
    (rely : ∀ gap k x, KInv S x k → Elsewhere S par gap k (others gap k))
    (low : CountersLow others upcalls par handlers pgfault k) :
    AllOrNothing others upcalls par handlers pgfault k ↔
      SlotsLast others upcalls par handlers pgfault k ∧
        MemoryLasts others upcalls par handlers pgfault k := by
  obtain ⟨x, inv⟩ := kInv_of_reachable h
  exact inv.allOrNothing_iff (inv.cur c par hcur) rely low

/-! ## A parent alone -/

theorem elsewhere_refl (inv : KInv S x k) : Elsewhere S par gap k k :=
  ⟨⟨x, inv⟩, rfl, rfl, fun _ _ _ _ _ _ => rfl, fun _ _ => ⟨rfl, rfl, rfl, rfl, rfl⟩⟩

/-- Pages that the parent does not show are passed over. -/
theorem dupPages_skip {k₀ : Kernel n} {pn' : Nat}
    (h : dupPages (fun _ k => k) par envid pn k₀ = .ok (some (), k)) (hle : pn ≤ pn')
    (hv : ∀ q, pn ≤ q → q < pn' → ¬Visible k par q) :
    dupPages (fun _ k => k) par envid pn' k₀ = .ok (some (), k) := by
  induction pn', hle using Nat.le_induction with
  | base => exact h
  | succ q hq ih =>
    rw [dupPages, ih fun q' h₁ h₂ => hv q' h₁ (h₂.trans q.lt_succ_self), andThen_some]
    simp only [if_neg (hv q hq q.lt_succ_self)]
    rfl

theorem dupPages_visible {k₀ k₁ : Kernel n} {r : Int}
    (h : dupPages (fun _ k => k) par envid pn k₀ = .ok (some (), k)) (hv : Visible k par pn)
    (hdup : duppage (fun _ k => k) par k envid pn = .ok (some r, k₁)) :
    dupPages (fun _ k => k) par envid (pn + 1) k₀ = .ok (some (), k₁) := by
  rw [dupPages, h, andThen_some]
  simp only [if_pos hv, hdup, andThen_some]
  rfl

/-- The parent has a page at `0x800000`, which it can write, and one behind it, which it can only
read. -/
def twoPagesRun : List Action :=
  [.start 0, sysTrap 0 4 0 0x800000 7 0 0, sysTrap 0 4 0 0x801000 5 0 0]

/-- Environment 0 shows these two pages only. -/
def twoPages (k : Kernel n) : Bool :=
  decide (∀ d : Fin 1024, (d : Nat) < userPdes → d ≠ 2 → present (uvpdAt k 0 d) = false) &&
    decide (∀ t : Fin 1024, t ≠ 0 → t ≠ 1 → present (k.spaces 0 2 t) = false)

theorem visible_twoPages (h : twoPages k = true) (hq : q < userPages) (hv : Visible k 0 q) :
    q = 0x800 ∨ q = 0x801 := by
  simp only [twoPages, Bool.and_eq_true, decide_eq_true_eq] at h
  have hd : pdx (pnAddr q) = pdx (pnAddr 0x800) := by
    by_contra hd
    have := h.1 _ (pdx_lt_userPdes (pnAddr_lt_utop hq)) hd
    rw [hv.1] at this
    cases this
  have ht : ptx (pnAddr q) = ptx (pnAddr 0x800) ∨ ptx (pnAddr q) = ptx (pnAddr 0x801) := by
    by_contra ht
    rw [not_or] at ht
    have := h.2 _ ht.1 ht.2
    rw [show (2 : Fin 1024) = pdx (pnAddr q) from hd.symm] at this
    exact absurd (hv.2.1.symm.trans this) (by decide)
  rcases ht with ht | ht
  · exact .inl (pnAddr_inj (by rw [userPages_eq]; decide) hq hd ht)
  · exact .inr (pnAddr_inj (by rw [userPages_eq]; decide) hq hd ht)

/-- A state of the loop: two pages to copy, and enough memory. -/
def roomy (k : Kernel n) : Bool :=
  twoPages k && decide (k.mem.pageFreeList ≠ none ∧ ∀ p, k.mem.ref p < 65535)

/-- Both pages are copied, and the child is started. -/
theorem allOrNothing_twoPagesRun : ∃ k : Kernel 16, k.curenv 0 = some 0 ∧
    AllOrNothing (fun _ k => k) (fun _ => 0x800020) 0 onlyPgfault 0x800040 k ∧
    ∃ r k', fork (fun _ k => k) (fun _ => 0x800020) 0 onlyPgfault 0x800040 k =
      .ok (some r, k') ∧ 0 < r := by
  obtain ⟨k, hk, hp⟩ := reachable_runPlain (.init boot_small) twoPagesRun
    (fun k => decide (k.curenv 0 = some 0) &&
      returnsWith (fun _ k₁ => decide (k₁.envFreeList ≠ .pastEnd))
        (setPgfaultHandler (fun _ => 0x800020) k 0 onlyPgfault 0x800040) &&
      returnsWith (fun envid k₀ => roomy k₀ && decide (Visible k₀ 0 0x800) &&
          returnsWith (fun _ k₁ => roomy k₁ && decide (Visible k₁ 0 0x801) &&
              returnsWith (fun _ k₂ => twoPages k₂ &&
                  returnsWith (fun r _ => decide (0 < r))
                    (forkEnd (fun _ k => k) (fun _ => 0x800020) 0 envid k₂))
                (duppage (fun _ k => k) 0 k₁ envid 0x801))
            (duppage (fun _ k => k) 0 k₀ envid 0x800))
        (forkStart (fun _ k => k) (fun _ => 0x800020) 0 onlyPgfault 0x800040 k))
    (by decide +kernel)
  simp only [Bool.and_eq_true, decide_eq_true_eq] at hp
  obtain ⟨⟨hcur, hslots⟩, hp⟩ := hp
  obtain ⟨envid, k₀, hstart, hp⟩ := returnsWith_iff.mp hp
  simp only [roomy, Bool.and_eq_true, decide_eq_true_eq] at hp
  obtain ⟨⟨⟨htwo₀, hfree₀, href₀⟩, hv₀⟩, hp⟩ := hp
  obtain ⟨r₁, k₁, hdup₁, hp⟩ := returnsWith_iff.mp hp
  simp only [Bool.and_eq_true, decide_eq_true_eq] at hp
  obtain ⟨⟨⟨htwo₁, hfree₁, href₁⟩, hv₁⟩, hp⟩ := hp
  obtain ⟨r₂, k₂, hdup₂, hp⟩ := returnsWith_iff.mp hp
  rw [Bool.and_eq_true] at hp
  obtain ⟨htwo₂, hp⟩ := hp
  obtain ⟨r, k', hend, hr⟩ := returnsWith_iff.mp hp
  have hn := userPages_eq
  -- the loop stops at two pages only
  have hnone : dupPages (fun _ k => k) 0 envid 0 k₀ = .ok (some (), k₀) := rfl
  have hskip : ∀ pn ≤ 0x800, dupPages (fun _ k => k) 0 envid pn k₀ = .ok (some (), k₀) :=
    fun pn hpn => dupPages_skip hnone (Nat.zero_le pn) fun q _ hq hv => by
      have := visible_twoPages htwo₀ (by omega) hv
      omega
  have hone := dupPages_visible (hskip 0x800 le_rfl) hv₀ hdup₁
  have hrest : ∀ pn, 0x802 ≤ pn → pn ≤ userPages →
      dupPages (fun _ k => k) 0 envid pn k₀ = .ok (some (), k₂) :=
    fun pn hle hpn => dupPages_skip (dupPages_visible hone hv₁ hdup₂) hle fun q _ hq hv => by
      have := visible_twoPages htwo₂ (by omega) hv
      omega
  have hseen : ∀ envid' k₀', forkStart (fun _ k => k) (fun _ => 0x800020) 0 onlyPgfault 0x800040
      k = .ok (some envid', k₀') → ∀ pn < userPages, ∀ l,
        dupPages (fun _ k => k) 0 envid' pn k₀' = .ok (some (), l) → Visible l 0 pn →
          l.mem.pageFreeList ≠ none ∧ ∀ p, l.mem.ref p < 65535 := by
    intro envid' k₀' hstart' pn hpn l hl hv
    rw [hstart] at hstart'
    cases hstart'
    rcases lt_trichotomy pn 0x801 with hlt | rfl | hlt
    · cases (hskip pn (by omega)).symm.trans hl
      exact ⟨hfree₀, href₀⟩
    · cases hone.symm.trans hl
      exact ⟨hfree₁, href₁⟩
    · cases (hrest pn hlt hpn.le).symm.trans hl
      have := visible_twoPages htwo₂ hpn hv
      omega
  refine ⟨k, hcur, (allOrNothing_iff_lasts hk hcur (fun _ _ _ inv => elsewhere_refl inv)
    ?_).mpr ⟨?_, ?_⟩, r, k', ?_, of_decide_eq_true hr⟩
  · intro envid' k₀' hstart' pn hpn l hl hv p _
    exact (hseen envid' k₀' hstart' pn hpn l hl hv).2 p
  · intro handlers' l hset hpast
    obtain ⟨_, _, hset', hne⟩ := returnsWith_iff.mp hslots
    cases hset.symm.trans hset'
    exact absurd hpast (of_decide_eq_true hne)
  · intro envid' k₀' hstart'
    exact .inl fun pn hpn l hl hv hlacks => (hseen envid' k₀' hstart' pn hpn l hl hv).1 hlacks.2
  · have hne : envid ≠ 0 := by
      obtain ⟨x, inv⟩ := kInv_of_reachable hk
      have F := inv.forkStart (inv.cur 0 0 hcur) (fun _ _ _ inv => elsewhere_refl inv) hstart
      exact F.1.nonzero
    rw [fork, hstart, andThen_some, if_neg hne, hrest userPages (by omega) le_rfl, andThen_some,
      hend]

/-! ## Memory that comes back too late -/

/-- Another environment is destroyed before `fork` allocates the exception stack. -/
theorem elsewhere_destroyed {victim : EnvIx} {c : Cpu} (inv : KInv S x k)
    (hlive : k.status victim ≠ .free) (haway : Away k victim)
    (d : Destroyed k c victim (some ()) k') (hpar : par ≠ victim)
    (hch : envx envid ≠ victim) : Elsewhere S par (.stack envid) k k' := by
  have henvs : ∀ i, i ≠ victim → k'.envs i = k.envs i := by
    intro i hi
    cases d with
    | mark => exact Kernel.modEnv_of_ne _ _ hi
    | other _ _ free =>
      obtain ⟨g, m₁, m, -, -, -, rfl⟩ := envFree_ok free
      simp [freed, hi]
  have hdir : ∀ i, i ≠ victim → k'.dirs i = k.dirs i := fun i hi => by
    simp only [Kernel.dirs, henvs i hi]
  have hsp : k'.spaces (envx envid) = k.spaces (envx envid) := by
    rcases (inv.destroyed_spaces d).1 with hsp | ⟨-, hsp⟩
    · rw [hsp]
    · rw [hsp, Function.update_of_ne hch]
  refine ⟨⟨x, inv.destroyed hlive (.inl fun c' _ => haway c') d⟩, ?_, hdir par hpar, ?_, ?_⟩
  · rw [henvs par hpar]
  · rintro envid' pn (h | h)
    · cases h
    · cases h
  · intro envid' h
    cases h
    refine ⟨hdir _ hch, ?_, ?_, ?_, hsp⟩
    · rw [henvs _ hch]
    · rw [henvs _ hch]
    · rw [henvs _ hch]

/-- Environment 0 destroys its child 1. -/
def destroysOne (gap : Gap) (k : Kernel 16) : Kernel 16 :=
  match gap with
  | .stack envid =>
    if envx envid ≠ 1 ∧ (∀ c, k.curenv c ≠ some 1) ∧ k.status 1 ≠ .free ∧
        envid2env k 0 (k.envs 1).envId true = some 1 then
      match sysEnvDestroy k 0 0 (k.envs 1).envId with
      | .ok (some _, k') => k'
      | _ => k
    else k
  | _ => k

theorem elsewhere_destroysOne {S : Set (Fin 16)} {x : Fin 16 → ℕ} {k : Kernel 16} {par : EnvIx}
    (hpar : par ≠ 1) (gap : Gap) (inv : KInv S x k) :
    Elsewhere S par gap k (destroysOne gap k) := by
  cases gap with
  | stack envid =>
    simp only [destroysOne]
    split_ifs with h
    · obtain ⟨hch, haway, hlive, he⟩ := h
      simp only [sysEnvDestroy, he]
      cases hd : envDestroy k 0 1 with
      | error p => exact elsewhere_refl inv
      | ok res =>
        obtain ⟨r, k'⟩ := res
        cases r with
        | none => exact elsewhere_refl inv
        | some u => exact elsewhere_destroyed inv hlive haway (envDestroy_destroyed hd) hpar hch
    · exact elsewhere_refl inv
  | _ => exact elsewhere_refl inv

/-- Without memory and page tables for the child, the loop does nothing. -/
theorem Forking.dupPages_of_short {others : Gap → Kernel n → Kernel n}
    (F : Forking S par envid k)
    (rely : ∀ gap k x, KInv S x k → Elsewhere S par gap k (others gap k))
    (hself : ∀ pn, others (.page envid pn) k = k) (href : ∀ p, k.mem.ref p < 65535)
    (hshort : ∀ pn < userPages, LacksTable k (envx envid) (pnAddr pn)) (hpn : pn ≤ userPages) :
    JosKernel.dupPages others par envid pn k = .ok (some (), k) := by
  obtain ⟨x, inv⟩ := F.inv
  induction pn with
  | zero => rfl
  | succ pn ih =>
    have hlt : pn < userPages := hpn
    rw [JosKernel.dupPages, ih hlt.le, andThen_some, hself]
    by_cases hv : Visible k par pn
    · obtain ⟨⟨p, hp⟩, -⟩ := (inv.visible_iff hlt).mp hv
      have hlacks := hshort pn hlt
      simp only [if_pos hv]
      rcases F.duppage_cases rely hlt hp (fun p _ => href p) with ⟨-, hok⟩ | ⟨hno, -⟩
      · rw [hok, andThen_some]
        rfl
      · exact absurd hlacks hno
    · simp only [if_neg hv]
      rfl

/-- Environment 2 has used up the memory, except for one page. -/
def crowdedRun : List Action :=
  [.start 0, sysTrap 0 7 0 0 0 0 0, sysTrap 0 4 0x1001 0x800000 7 0 0, sysTrap 0 7 0 0 0 0 0,
    sysTrap 0 4 0x1002 0x800000 7 0 0, sysTrap 0 8 0x1002 2 0 0 0, .start 1,
    sysTrap 1 4 0 0x801000 7 0 0, sysTrap 1 4 0 0x802000 7 0 0, sysTrap 1 4 0 0x803000 7 0 0,
    sysTrap 1 4 0 0x804000 7 0 0, sysTrap 1 4 0 0x805000 7 0 0, sysTrap 1 4 0 0x806000 7 0 0,
    sysTrap 1 4 0 0x807000 7 0 0]

/-- Memory runs out with the child's directory, and comes back before the exception stack is
allocated. The child runs without any of its parent's pages. -/
theorem not_allOrNothing_crowdedRun : ∃ k : Kernel 16,
    Reachable (Boot {p : Fin 16 | p ≠ 0}) (fun k a k' => StepOk k a ∧ Step k a k') k ∧
      k.curenv 1 = some 2 ∧
      (∀ gap k x, KInv {p : Fin 16 | p ≠ 0} x k →
        Elsewhere {p : Fin 16 | p ≠ 0} 2 gap k (destroysOne gap k)) ∧
      ¬AllOrNothing destroysOne (fun _ => 0x800020) 2 onlyPgfault 0x800040 k := by
  obtain ⟨k, hk, hp⟩ := reachable_runPlain (.init boot_small) crowdedRun
    (fun k => decide (k.curenv 1 = some 2) &&
      returnsWith (fun envid k₀ => envid == 0x1003 && decide (k₀.mem.pageFreeList = none ∧
            (∀ p, k₀.mem.ref p < 65535) ∧ (k₀.dirs 3).isSome = true ∧
            (∀ d : Fin 1024, (d : Nat) < userPdes → present (uvpdAt k₀ 3 d) = false) ∧
            Visible k₀ 2 0x800) &&
          returnsWith (fun r k' => decide (0 < r) && uvptAt k' 3 0x800 == 0)
            (forkEnd destroysOne (fun _ => 0x800020) 2 envid k₀))
        (forkStart destroysOne (fun _ => 0x800020) 2 onlyPgfault 0x800040 k))
    (by decide +kernel)
  simp only [Bool.and_eq_true, decide_eq_true_eq] at hp
  obtain ⟨hcur, hp⟩ := hp
  have rely : ∀ gap k x, KInv {p : Fin 16 | p ≠ 0} x k →
      Elsewhere {p : Fin 16 | p ≠ 0} 2 gap k (destroysOne gap k) := fun gap k x inv =>
    elsewhere_destroysOne (by decide) gap inv
  refine ⟨k, hk, hcur, rely, fun hall => ?_⟩
  obtain ⟨x, inv⟩ := kInv_of_reachable hk
  obtain ⟨envid, k₀, hstart, hp⟩ := returnsWith_iff.mp hp
  simp only [Bool.and_eq_true, decide_eq_true_eq, beq_iff_eq] at hp
  obtain ⟨⟨rfl, hl, href, hdir, hno, hv⟩, hend⟩ := hp
  obtain ⟨F₀, -⟩ := inv.forkStart (inv.cur 1 2 hcur) rely hstart
  obtain ⟨g, hg⟩ := Option.isSome_iff_exists.mp hdir
  have hshort : ∀ pn < userPages, LacksTable k₀ (envx 0x1003) (pnAddr pn) := by
    intro pn hpn
    have hpde := hno (pdx (pnAddr pn)) (pdx_lt_userPdes (pnAddr_lt_utop hpn))
    exact ⟨⟨g, hg, by simpa only [uvpdAt, hg] using hpde⟩, hl⟩
  have hdup := F₀.dupPages_of_short rely (fun _ => rfl) href hshort le_rfl
  obtain ⟨r, k', hok, hend⟩ := returnsWith_iff.mp hend
  simp only [Bool.and_eq_true, decide_eq_true_eq, beq_iff_eq] at hend
  have hfork : fork destroysOne (fun _ => 0x800020) 2 onlyPgfault 0x800040 k =
      .ok (some r, k') := by
    rw [fork, hstart, andThen_some, if_neg F₀.nonzero, hdup, andThen_some, hok]
  obtain ⟨envid', k₀', hstart', -, -, full⟩ := (hall.2 r k' hfork).1 hend.1
  rw [hstart] at hstart'
  obtain ⟨he, rfl⟩ := Prod.mk.inj (Except.ok.inj hstart')
  obtain rfl := Option.some.inj he
  obtain ⟨p, -, hp, -⟩ := full.pages 0x800 (by rw [userPages_eq]; decide) hv
  rw [show envx 0x1003 = 3 by decide, hend.2] at hp
  simp at hp

end

end JosKernel
