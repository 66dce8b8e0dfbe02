import JosKernel.Env.Total
import JosKernel.Ipc.Waiting

/-!
# Failed system calls

`Refused` collects the requests that a system call cannot carry out: an id that leads nowhere or
to a stranger, a bad address or permission word, a page that is not mapped, no page left for the
new mapping or its page table, a target that is not receiving. Such a request should return a
negative error code, and a call that returns one should have changed nothing, except that the
sender waits after `-E_IPC_NOT_RECV`.

`Slips` says where this goes wrong.
-/
namespace JosKernel

open Lib

variable {n : Nat} {S : Set (Fin n)} {x : Fin n → ℕ} {k k' : Kernel n} {c : Cpu}
  {cur e : EnvIx}

/-! ## Requests -/

/-- A mapping at `va` needs a page table that does not exist yet. -/
def NeedsTable (k : Kernel n) (e : EnvIx) (va : Word) : Prop :=
  ∃ g, k.dirs e = some g ∧ present (k.mem.entry g (pdx va)) = false

/-- There is no page for a new mapping at `va`, or only one where a page table is needed, too. -/
def LacksPages (k : Kernel n) (e : EnvIx) (va : Word) : Prop :=
  k.mem.pageFreeList = none ∨
    NeedsTable k e va ∧ ∀ pp, k.mem.pageFreeList = some pp → (k.mem.pages pp).ppLink = none

/-- There is no page for the page table of a mapping at `va`. -/
def LacksTable (k : Kernel n) (e : EnvIx) (va : Word) : Prop :=
  NeedsTable k e va ∧ k.mem.pageFreeList = none

/-- The call cannot be carried out; `none` is an unknown call. -/
def Refused (k : Kernel n) (cur : EnvIx) (a : Args) : Option Sys → Prop
  | none => True
  | some .cputs | some .cgetc | some .getenvid | some .yield => False
  | some .envDestroy => envid2env k cur a.a1 true = none
  | some .pageAlloc => ∀ e, envid2env k cur a.a1 true = some e →
      badUserPage a.a2 = true ∨ lacksUP a.a3 = true ∨ LacksPages k e a.a2
  | some .pageMap => ∀ srce dste, envid2env k cur a.a1 true = some srce →
      envid2env k cur a.a3 true = some dste →
      (badUserPage a.a2 || badUserPage a.a4) = true ∨ lookedUp k srce a.a2 = none ∨
        lacksUP a.a5 = true ∨
        a.a5 &&& pteW ≠ 0 ∧ k.spaces srce (pdx a.a2) (ptx a.a2) &&& pteW = 0 ∨
        LacksTable k dste a.a4
  | some .pageUnmap => envid2env k cur a.a1 false = none ∨ badUserPage a.a2 = true
  | some .exofork => ∀ e, k.envFreeList = .env e → k.mem.pageFreeList = none
  | some .envSetStatus => envid2env k cur a.a1 true = none ∨ ¬(a.a2 = 2 ∨ a.a2 = 4)
  | some (.envSetUpcall _) => envid2env k cur a.a1 true = none
  | some .ipcTrySend => ∀ e, envid2env k cur a.a1 false = some e →
      (k.envs e).envIpcRecving = false ∨ a.a3 < utop ∧ (roundUp a.a3 pgsize ≠ a.a3 ∨
        lookedUp k cur a.a3 = none ∨ a.a4 &&& k.spaces cur (pdx a.a3) (ptx a.a3) ≠ a.a4 ∨
        (k.envs e).envIpcDstva < utop ∧ LacksTable k e (k.envs e).envIpcDstva)
  | some .ipcRecv => a.a1 < utop ∧ roundUp a.a1 pgsize ≠ a.a1

/-- The caller has entered the waiting queue of the target. -/
def Queued (k : Kernel n) (cur : EnvIx) (a : Args) (s : Option Sys) (k' : Kernel n) : Prop :=
  s = some .ipcTrySend ∧ ∃ e i, envid2env k cur a.a1 false = some e ∧ k' = enqueued k cur e i

/-- The call returns or switches to another environment without a panic, with a negative error
code if it is refused, and unchanged state if there is an error code. -/
def Clean (k : Kernel n) (refused : Prop) (queued : Kernel n → Prop)
    (res : Except Panic (Option Int × Kernel n)) : Prop :=
  ∃ r k', res = .ok (r, k') ∧ (refused → ∃ v, r = some v ∧ v < 0) ∧
    ∀ v, r = some v → v < 0 → k' = k ∨ v = -eIpcNotRecv ∧ queued k'

def FailsCleanly (k : Kernel n) (c : Cpu) (cur : EnvIx) (io : Inputs) (no : Word) (a : Args) :
    Prop :=
  Clean k (Refused k cur a (Sys.ofNat no.toNat)) (Queued k cur a (Sys.ofNat no.toNat))
    (syscall k c cur io no a.a1 a.a2 a.a3 a.a4 a.a5)

/-- The failures that are not handled: `sys_cputs` reads past a buffer that has no zero byte,
`sys_page_alloc` returns the positive `E_NO_MEM` or panics in `page_free`, the result of
`sys_env_destroy` is dropped, `env_alloc` runs over the end of the table (but it returns `-E_NO_MEM`
before that if there is no page for a directory), and `sys_ipc_recv` finds a stale id at the head
of its queue after it has set the receiving state. -/
def Slips (k : Kernel n) (c : Cpu) (cur : EnvIx) (a : Args) : Option Sys → Prop
  | some .cputs => (∃ g, k.dirs cur = some g ∧
        k.mem.userMemCheck g a.a1 a.a2 (0 ||| pteU) = .ok none) ∧
      a.a1 ≠ 0 ∧ ¬Ends (fun p => k.mem.loadByte (k.cpus c).cr3 p false) a.a1 a.a2.toInt
  | some .pageAlloc => ∃ e, envid2env k cur a.a1 true = some e ∧ badUserPage a.a2 = false ∧
      lacksUP a.a3 = false ∧ LacksPages k e a.a2
  | some .envDestroy => envid2env k cur a.a1 true = none
  | some .exofork => k.envFreeList = .pastEnd ∧ k.mem.pageFreeList ≠ none
  | some .ipcRecv => ¬(a.a1 < utop ∧ roundUp a.a1 pgsize ≠ a.a1) ∧
      (k.envs cur).envIpcWaitingHead ≠ (k.envs cur).envIpcWaitingTail ∧
      ∃ i : Fin 10, (k.envs cur).envIpcWaitingHead.toNat = i ∧
        envid2env k cur ((k.envs cur).envIpcWaiting i) false = none
  | _ => False

/-! ## Outcomes -/

namespace Clean

variable {P : Prop} {Q : Kernel n → Prop} {v : Int} {p : Panic}

theorem not_error : ¬Clean k P Q (.error p) := nofun

/-- An error code, with the state unchanged. -/
theorem same (hv : v < 0) : Clean k P Q (.ok (some v, k)) :=
  ⟨_, _, rfl, fun _ => ⟨v, rfl, hv⟩, fun _ _ _ => .inl rfl⟩

theorem wait (hQ : Q k') : Clean k P Q (.ok (some (-eIpcNotRecv), k')) :=
  ⟨_, _, rfl, fun _ => ⟨_, rfl, by decide⟩, fun _ h _ => .inr ⟨(Option.some.inj h).symm, hQ⟩⟩

/-- A result that is no error code. -/
theorem done (hP : ¬P) (hv : 0 ≤ v) : Clean k P Q (.ok (some v, k')) :=
  ⟨_, _, rfl, fun h => absurd h hP, fun _ h h0 => by cases h; omega⟩

theorem away (hP : ¬P) : Clean k P Q (.ok (none, k')) :=
  ⟨_, _, rfl, fun h => absurd h hP, nofun⟩

/-- Whatever a call that cannot be refused returns, if it leaves the state alone. -/
theorem read (hP : ¬P) : Clean k P Q (.ok (some v, k)) :=
  ⟨_, _, rfl, fun h => absurd h hP, fun _ _ _ => .inl rfl⟩

theorem not_of_nonneg (hP : P) (hv : 0 ≤ v) : ¬Clean k P Q (.ok (some v, k')) := by
  rintro ⟨r, k₁, h, hr, -⟩
  cases h
  obtain ⟨w, hw, hneg⟩ := hr hP
  cases hw
  omega

end Clean

/-- A new id is not negative. -/
theorem nextEnvId_nonneg (old : Word) (e : EnvIx) : 0 ≤ (nextEnvId old e).toInt := by
  have key : ∀ g : Word, 0 ≤ g.toInt → 0 ≤ (g ||| BitVec.ofNat 32 e).toInt := by
    intro g hg
    have hmsb : ∀ w : Word, 0 ≤ w.toInt ↔ w.msb = false := fun w => by
      rw [BitVec.msb_eq_toInt]
      simp
    have he : (BitVec.ofNat 32 (e : Nat)).msb = false := by
      rw [BitVec.msb_eq_false_iff_two_mul_lt, BitVec.toNat_ofNat]
      omega
    rw [hmsb] at hg ⊢
    rw [BitVec.msb_or, hg, he]
    rfl
  simp only [nextEnvId]
  split_ifs with h
  · exact key _ (by decide)
  · exact key _ (by omega)

/-! ## The calls -/

section
variable {a : Args} {io : Inputs} {no : Word}

theorem eBadEnv_neg : -eBadEnv < 0 := by decide
theorem eInval_neg : -eInval < 0 := by decide
theorem eNoMem_neg : -eNoMem < 0 := by decide

/-- `NeedsTable` in terms of the page table. -/
theorem KInv.needsTable_iff (inv : KInv S x k) {g : Fin n} {va : Word} (hg : k.dirs e = some g)
    (hva : va < utop) : NeedsTable k e va ↔ k.mem.ptab g (pdx va) = none := by
  have hd := pdx_lt_userPdes hva
  constructor
  · rintro ⟨g', hg', hp⟩
    obtain rfl := Option.some.inj (hg.symm.trans hg')
    rw [Mem.ptab_eq hd, pageOf_of_not_present hp]
  · exact fun ht => ⟨g, hg, inv.mem.not_present_of_ptab hg hd ht⟩

/-- `page_insert` for a page that is in use. -/
theorem KInv.insert_cases (inv : KInv S x k) {g : Fin n} {va : Word} (hg : k.dirs e = some g)
    (hva : va < utop) (pp : Fin n) (perm : Word) :
    k.mem.pageInsert g pp va perm = .ok (-eNoMem, k.mem) ∧ LacksTable k e va ∨
      (∃ m', k.mem.pageInsert g pp va perm = .ok (0, m')) ∧ ¬LacksTable k e va := by
  unfold LacksTable
  rw [inv.needsTable_iff hg hva]
  refine (inv.mem.pageInsert_total hg hva pp perm).imp id fun ⟨hok, hroom⟩ => ⟨hok, ?_⟩
  tauto

/-- A `sys_page_map` that passes its checks fails for want of a page table only. -/
theorem KInv.pageMap_cases (inv : KInv S x k) {srce dste : EnvIx} {pp : Fin n}
    {srcenvid srcva dstenvid dstva perm : Word} (hs : envid2env k cur srcenvid true = some srce)
    (hd : envid2env k cur dstenvid true = some dste) (hlive : k.status dste ≠ .free)
    (hsva : badUserPage srcva = false) (hdva : badUserPage dstva = false)
    (hlook : lookedUp k srce srcva = some pp) (hup : lacksUP perm = false)
    (hw : ¬(perm &&& pteW ≠ 0 ∧ k.spaces srce (pdx srcva) (ptx srcva) &&& pteW = 0)) :
    LacksTable k dste dstva ∧
        sysPageMap k cur srcenvid srcva dstenvid dstva perm = .ok (-eNoMem, k) ∨
      ¬LacksTable k dste dstva ∧
        ∃ k', sysPageMap k cur srcenvid srcva dstenvid dstva perm = .ok (0, k') := by
  obtain ⟨gs, pt, i, hgs, hpl⟩ := lookedUp_some hlook
  obtain ⟨gd, hgd⟩ := inv.dir_of_live hlive
  obtain ⟨-, hentry⟩ := inv.mem.lookup_some hgs (lt_utop_of_badUserPage hsva) hpl
  have hent : k.spaces srce (pdx srcva) (ptx srcva) = k.mem.entry pt i :=
    (Mem.spaces_of_dir hgs _ _).trans hentry.symm
  rw [hent] at hw
  simp only [sysPageMap, hs, hd, hsva, hdva, pgdirOf_eq hgs, pgdirOf_eq hgd, hpl, hup, if_neg hw,
    bind, Except.bind]
  rcases inv.insert_cases hgd (lt_utop_of_badUserPage hdva) pp perm with
    ⟨hok, hlacks⟩ | ⟨⟨m', hok⟩, hroom⟩
  · refine .inl ⟨hlacks, ?_⟩
    rw [hok]
    rfl
  · refine .inr ⟨hroom, { k with mem := m' }, ?_⟩
    rw [hok]
    rfl

theorem KInv.clean_pageMap (inv : KInv S x k) (hc : k.status cur ≠ .free) {Q : Kernel n → Prop} :
    Clean k (Refused k cur a (some .pageMap)) Q
      (returning (sysPageMap k cur a.a1 a.a2 a.a3 a.a4 a.a5)) := by
  cases hs : envid2env k cur a.a1 true with
  | none =>
    rw [sysPageMap, hs]
    exact .same eBadEnv_neg
  | some srce =>
    cases hd : envid2env k cur a.a3 true with
    | none =>
      rw [sysPageMap, hs, hd]
      exact .same eBadEnv_neg
    | some dste =>
      obtain ⟨gs, hgs⟩ := inv.dir_of_live (envid2env_live hs hc)
      by_cases hva : (badUserPage a.a2 || badUserPage a.a4) = true
      · simp only [sysPageMap, hs, hd, hva, if_true]
        exact .same eInval_neg
      · have hva' := hva
        rw [Bool.or_eq_true, not_or, Bool.not_eq_true, Bool.not_eq_true] at hva'
        have hpl := inv.mem.pageLookup hgs (lt_utop_of_badUserPage hva'.1)
        cases hlook : k.mem.pageLookup gs a.a2 with
        | error _ => simp [hlook] at hpl
        | ok o =>
          cases o with
          | none =>
            simp only [sysPageMap, hs, hd, hva, pgdirOf_eq hgs, hlook, bind, Except.bind]
            exact .same eInval_neg
          | some w =>
            obtain ⟨pp, pt, i⟩ := w
            obtain ⟨-, hentry⟩ :=
              inv.mem.lookup_some hgs (lt_utop_of_badUserPage hva'.1) hlook
            have hent : k.mem.entry pt i = k.spaces srce (pdx a.a2) (ptx a.a2) :=
              hentry.trans (Mem.spaces_of_dir hgs _ _).symm
            by_cases hup : lacksUP a.a5 = true
            · simp only [sysPageMap, hs, hd, hva, pgdirOf_eq hgs, hlook, hup, if_true, bind,
                Except.bind]
              exact .same eInval_neg
            by_cases hw : a.a5 &&& pteW ≠ 0 ∧ k.mem.entry pt i &&& pteW = 0
            · simp only [sysPageMap, hs, hd, hva, pgdirOf_eq hgs, hlook, hup, if_pos hw, bind,
                Except.bind]
              exact .same eInval_neg
            have hfound := lookedUp_of_ok hgs hlook
            rcases inv.pageMap_cases hs hd (envid2env_live hd hc) hva'.1 hva'.2 hfound
              (by simpa using hup) (hent ▸ hw) with ⟨-, hok⟩ | ⟨hroom, k', hok⟩
            · rw [hok]
              exact .same eNoMem_neg
            · rw [hok]
              refine .done (fun hP => ?_) le_rfl
              obtain h | h | h | h | h := hP srce dste hs hd
              · exact hva h
              · simp [hfound] at h
              · exact hup h
              · exact hw (hent ▸ h)
              · exact hroom h

theorem KInv.clean_pageUnmap (inv : KInv S x k) (hc : k.status cur ≠ .free)
    {Q : Kernel n → Prop} : Clean k (Refused k cur a (some .pageUnmap)) Q
      (returning (sysPageUnmap k cur a.a1 a.a2)) := by
  unfold sysPageUnmap
  cases he : envid2env k cur a.a1 false with
  | none => exact .same eBadEnv_neg
  | some e =>
    obtain ⟨g, hg⟩ := inv.dir_of_live (envid2env_live he hc)
    by_cases hva : badUserPage a.a2 = true
    · simp only [hva, if_true]
      exact .same eInval_neg
    · simp only [hva, pgdirOf_eq hg, bind, Except.bind]
      obtain ⟨m', hok, -⟩ := inv.mem.pageRemove hg (lt_utop_of_badUserPage (by simpa using hva))
      simp only [hok]
      exact .done (fun hP => hP.elim (by simp [he]) hva) le_rfl

/-- The page transfer of `sys_ipc_try_send` fails without an effect. -/
theorem KInv.ipcSendPage_cases (inv : KInv S x k) (hc : k.status cur ≠ .free)
    (he : k.status e ≠ .free) (srcva perm : Word) :
    let refused := srcva < utop ∧ (roundUp srcva pgsize ≠ srcva ∨
      lookedUp k cur srcva = none ∨ perm &&& k.spaces cur (pdx srcva) (ptx srcva) ≠ perm ∨
      (k.envs e).envIpcDstva < utop ∧ LacksTable k e (k.envs e).envIpcDstva)
    (∃ v, v < 0 ∧ ipcSendPage k cur e srcva perm = .ok (v, k)) ∨
      (∃ k₁, ipcSendPage k cur e srcva perm = .ok (0, k₁)) ∧ ¬refused := by
  intro refused
  obtain ⟨g, hg⟩ := inv.dir_of_live hc
  obtain ⟨ge, hge⟩ := inv.dir_of_live he
  unfold ipcSendPage
  by_cases hs : srcva < utop
  · rw [if_pos hs]
    by_cases ha : roundUp srcva pgsize ≠ srcva
    · rw [if_pos ha]
      exact .inl ⟨_, eInval_neg, rfl⟩
    · simp only [if_neg ha, pgdirOf_eq hg, pgdirOf_eq hge, bind, Except.bind]
      have hpl := inv.mem.pageLookup hg hs
      cases hlook : k.mem.pageLookup g srcva with
      | error _ => simp [hlook] at hpl
      | ok o =>
        cases o with
        | none => exact .inl ⟨_, eInval_neg, rfl⟩
        | some w =>
          obtain ⟨pp, pt, i⟩ := w
          obtain ⟨-, hentry⟩ := inv.mem.lookup_some hg hs hlook
          have hent : k.mem.entry pt i = k.spaces cur (pdx srcva) (ptx srcva) := by
            rw [hentry]
            exact (Mem.spaces_of_dir hg _ _).symm
          by_cases hperm : perm &&& k.mem.entry pt i ≠ perm
          · simp only [if_pos hperm]
            exact .inl ⟨_, eInval_neg, rfl⟩
          · by_cases hw : perm &&& pteW ≠ 0 ∧ k.mem.entry pt i &&& pteW = 0
            · simp only [if_neg hperm, if_pos hw]
              exact .inl ⟨_, eInval_neg, rfl⟩
            · simp only [if_neg hperm, if_neg hw]
              have hlooked := lookedUp_of_ok hg hlook
              by_cases hd : (k.envs e).envIpcDstva < utop
              · simp only [if_pos hd]
                rcases inv.insert_cases hge hd pp perm with ⟨hok, -⟩ | ⟨⟨m', hok⟩, hroom⟩
                · left
                  simp only [hok, eNoMem_neg, if_true]
                  exact ⟨_, eNoMem_neg, rfl⟩
                · right
                  simp only [hok]
                  refine ⟨⟨_, rfl⟩, ?_⟩
                  rintro ⟨-, h | h | h | h⟩
                  · exact ha h
                  · simp [hlooked] at h
                  · exact hperm (hent ▸ h)
                  · exact hroom h.2
              · right
                simp only [if_neg hd]
                refine ⟨⟨_, rfl⟩, ?_⟩
                rintro ⟨-, h | h | h | h⟩
                · exact ha h
                · simp [hlooked] at h
                · exact hperm (hent ▸ h)
                · exact hd h.1
  · rw [if_neg hs]
    exact .inr ⟨⟨_, rfl⟩, fun h => hs h.1⟩

theorem KInv.clean_ipcTrySend (inv : KInv S x k) (hc : k.status cur ≠ .free)
    (hq : k.view.QueueOk) :
    Clean k (Refused k cur a (some .ipcTrySend)) (Queued k cur a (some .ipcTrySend))
      (returning (sysIpcTrySend k cur a.a1 a.a2 a.a3 a.a4)) := by
  unfold sysIpcTrySend
  cases he : envid2env k cur a.a1 false with
  | none => exact .same eBadEnv_neg
  | some e =>
    cases hr : (k.envs e).envIpcRecving with
    | false =>
      simp only [hr, ipcEnqueue]
      by_cases room : ((k.envs e).envIpcWaitingTail + 1) % maxIpcWaiting ≠
          (k.envs e).envIpcWaitingHead
      · have hi : (k.envs e).envIpcWaitingTail.toNat < 10 := (hq e).2
        simp only [if_pos room, waitingIx, dif_pos hi, bind, Except.bind]
        refine .wait ⟨rfl, e, ⟨_, hi⟩, he, ?_⟩
        simp [enqueued, Kernel.setStatus]
      · simp only [if_neg room]
        exact .same (by decide)
    | true =>
      simp only [hr, if_true]
      rcases inv.ipcSendPage_cases hc (envid2env_live he hc) a.a3 a.a4 with
        ⟨v, hv, hok⟩ | ⟨⟨k₁, hok⟩, hP⟩
      · simp only [hok, bind, Except.bind, hv, if_true]
        exact .same hv
      · simp only [hok, bind, Except.bind]
        refine .done (fun h => (h e he).elim (by simp [hr]) hP) le_rfl

/-- `sys_page_alloc` succeeds exactly when there are pages for the mapping and its table. -/
theorem KInv.pageAlloc_cases (inv : KInv S x k) (hlive : k.status e ≠ .free) {envid va perm : Word}
    (he : envid2env k cur envid true = some e) (hva : badUserPage va = false)
    (hup : lacksUP perm = false) :
    LacksPages k e va ∧ (sysPageAlloc k cur envid va perm = .ok (eNoMem, k) ∨
        sysPageAlloc k cur envid va perm = .error .pageFreeRef) ∨
      ¬LacksPages k e va ∧ ∃ k', sysPageAlloc k cur envid va perm = .ok (0, k') := by
  obtain ⟨g, hg⟩ := inv.dir_of_live hlive
  have hlt := lt_utop_of_badUserPage hva
  simp only [sysPageAlloc, he, hva, hup, Bool.false_eq_true, if_false]
  cases hl : k.mem.pageFreeList with
  | none =>
    have halloc : k.mem.pageAlloc true = (none, k.mem) := by simp [Mem.pageAlloc, hl]
    rw [halloc]
    exact .inl ⟨.inl hl, .inl rfl⟩
  | some pp =>
    obtain ⟨m₁, halloc, inv₁, hframe, -, href, -⟩ := inv.mem.pageAlloc_some true hl
    have hlink : m₁.pageFreeList = (k.mem.pages pp).ppLink := by
      have h := halloc
      simp only [Mem.pageAlloc, hl, Prod.mk.injEq, true_and] at h
      rw [← h]
      rfl
    have hfree := inv.mem.onFreeList_head hl
    have inv₂ := inv₁.incRef (inv.mem.onFreeList_iff.mp hfree).1 (.inl (Set.mem_insert pp ∅))
      (by rw [href, inv.mem.ref_of_free hfree]; decide)
    have htab : (m₁.incRef pp).ptab g (pdx va) = k.mem.ptab g (pdx va) :=
      Mem.ptab_congr (hframe g fun h => inv.mem.fresh_of_free hfree (.dir e) (h ▸ hg))
    simp only [halloc, pgdirOf_eq hg, bind, Except.bind]
    rcases inv₂.pageInsert_total hg hlt pp perm with ⟨hok, ht, hl₁⟩ | ⟨⟨m₂, hok⟩, hroom⟩
    · -- the page has been counted, so that `page_free` panics
      have hlacks : LacksPages k e va := by
        refine .inr ⟨(inv.needsTable_iff hg hlt).mpr (htab ▸ ht), fun q hq => ?_⟩
        obtain rfl := Option.some.inj (hl.symm.trans hq)
        rw [← hlink]
        exact hl₁
      have hpanic : (m₁.incRef pp).pageFree pp = .error .pageFreeRef := by
        have h0 : ((m₁.incRef pp).pages pp).ppRef ≠ 0 := by
          have h0 : (m₁.pages pp).ppRef.toNat = 0 :=
            (congrFun href pp).trans (inv.mem.ref_of_free hfree)
          have h0' : (m₁.pages pp).ppRef = 0 := BitVec.eq_of_toNat_eq h0
          simp [Mem.incRef, Mem.setPage, h0']
        rw [Mem.pageFree, if_pos h0]
      simp only [hok, eNoMem_neg, if_true, hpanic]
      exact .inl ⟨hlacks, .inr trivial⟩
    · have hlacks : ¬LacksPages k e va := by
        rintro (h | ⟨ht, h⟩)
        · simp [hl] at h
        · rw [inv.needsTable_iff hg hlt, ← htab] at ht
          exact hroom.elim (fun h => h ht) fun hne => hne (hlink.trans (h pp hl))
      simp only [hok]
      exact .inr ⟨hlacks, _, rfl⟩

theorem KInv.clean_pageAlloc_iff (inv : KInv S x k) (hc : k.status cur ≠ .free)
    {Q : Kernel n → Prop} : Clean k (Refused k cur a (some .pageAlloc)) Q
      (returning (sysPageAlloc k cur a.a1 a.a2 a.a3)) ↔ ¬Slips k c cur a (some .pageAlloc) := by
  cases he : envid2env k cur a.a1 true with
  | none =>
    rw [sysPageAlloc, he]
    refine iff_of_true (.same eBadEnv_neg) ?_
    rintro ⟨e, h, -⟩
    simp [he] at h
  | some e =>
    by_cases hva : badUserPage a.a2 = true
    · simp only [sysPageAlloc, he, hva, if_true]
      refine iff_of_true (.same eInval_neg) ?_
      rintro ⟨-, -, h, -⟩
      simp [hva] at h
    by_cases hup : lacksUP a.a3 = true
    · simp only [sysPageAlloc, he, hva, hup, if_true]
      refine iff_of_true (.same eInval_neg) ?_
      rintro ⟨-, -, -, h, -⟩
      simp [hup] at h
    have refused : Refused k cur a (some .pageAlloc) ↔ LacksPages k e a.a2 := by
      refine ⟨fun h => ((h e he).resolve_left hva).resolve_left hup, fun h e' he' => ?_⟩
      rw [he] at he'
      cases he'
      exact .inr (.inr h)
    rw [Bool.not_eq_true] at hva hup
    rcases inv.pageAlloc_cases (envid2env_live he hc) he hva hup with
      ⟨hlacks, hok⟩ | ⟨hlacks, k', hok⟩
    · refine iff_of_false ?_ fun h => h ⟨e, he, hva, hup, hlacks⟩
      rcases hok with hok | hok
      · rw [hok]
        exact Clean.not_of_nonneg (refused.mpr hlacks) (by decide)
      · rw [hok]
        exact Clean.not_error
    · rw [hok]
      refine iff_of_true (.done (fun h => hlacks (refused.mp h)) le_rfl) ?_
      rintro ⟨e', he', -, -, h⟩
      rw [he] at he'
      cases he'
      exact hlacks h

theorem clean_exofork_iff {Q : Kernel n → Prop} :
    Clean k (Refused k cur a (some .exofork)) Q (returning (sysExofork k cur)) ↔
      ¬Slips k c cur a (some .exofork) := by
  unfold sysExofork envAlloc
  cases hfl : k.envFreeList with
  | null => exact iff_of_true (.same (by decide)) fun h => by simp [Slips, hfl] at h
  | pastEnd =>
    cases hl : k.mem.pageFreeList with
    | none =>
      simp only [envSetupVm_of_none hl, bind, Except.bind]
      rw [← hfl]
      exact iff_of_true (.same eNoMem_neg) fun h => h.2 hl
    | some p =>
      obtain ⟨g, m, hvm⟩ := envSetupVm_some (m := k.mem) (by simp [hl])
      simp only [hvm, bind, Except.bind]
      exact iff_of_false Clean.not_error fun h => h ⟨hfl, by simp [hl]⟩
  | env e =>
    refine iff_of_true ?_ fun h => by simp [Slips, hfl] at h
    cases hl : k.mem.pageFreeList with
    | none =>
      simp only [envSetupVm_of_none hl, bind, Except.bind]
      rw [← hfl]
      exact .same eNoMem_neg
    | some p =>
      obtain ⟨g, m, hvm⟩ := envSetupVm_some (m := k.mem) (by simp [hl])
      simp only [hvm, bind, Except.bind, pure, Except.pure]
      refine .done (fun h => ?_) ?_
      · simp [h e hfl] at hl
      · simp only [Kernel.modEnv_self]
        exact nextEnvId_nonneg _ _

theorem KInv.clean_ipcRecv_iff (inv : KInv S x k) (hc : k.status cur ≠ .free)
    (hq : k.view.QueueOk) {Q : Kernel n → Prop} :
    Clean k (Refused k cur a (some .ipcRecv)) Q (sysIpcRecv k c cur a.a1) ↔
      ¬Slips k c cur a (some .ipcRecv) := by
  unfold sysIpcRecv
  by_cases hva : a.a1 < utop ∧ roundUp a.a1 pgsize ≠ a.a1
  · rw [if_pos hva]
    exact iff_of_true (.same eInval_neg) fun h => h.1 hva
  have inv₁ : KInv S x (receiving k cur a.a1) :=
    inv.modEnv _ rfl ⟨fun h => absurd h (by simp), fun h => absurd h hc⟩ rfl
  have hlive₁ : (receiving k cur a.a1).status cur ≠ .free := by simp [receiving, Kernel.status]
  -- the queue, before and after the caller has started to receive
  have hrecv : (receiving k cur a.a1).envs cur = { k.envs cur with
      envIpcRecving := true, envIpcDstva := a.a1, envStatus := .notRunnable } := by
    simp [receiving]
  have hi : (k.envs cur).envIpcWaitingHead.toNat < 10 := (hq cur).1
  have hid : ∀ id, envid2env (dequeued (receiving k cur a.a1) cur) cur id false =
      envid2env k cur id false := by
    intro id
    have hother : ∀ i, i ≠ cur → (dequeued (receiving k cur a.a1) cur).envs i = k.envs i :=
      fun i hi => by simp [dequeued, receiving, Kernel.modEnv_of_ne _ _ hi]
    have hself : (dequeued (receiving k cur a.a1) cur).envs cur = { k.envs cur with
        envIpcRecving := true, envIpcDstva := a.a1, envStatus := .notRunnable
        envIpcWaitingHead := ((k.envs cur).envIpcWaitingHead + 1) % maxIpcWaiting } := by
      simp [dequeued, receiving]
    refine envid2env_congr (fun i => ?_) (fun i => ?_) fun i => ?_
    · by_cases h : i = cur
      · rw [h, hself]
      · rw [hother i h]
    · by_cases h : i = cur
      · rw [h, hself]
      · rw [hother i h]
    · by_cases h : i = cur
      · rw [Kernel.status, h, hself]
        exact ⟨fun h => (by cases h), fun h => absurd h hc⟩
      · rw [Kernel.status, hother i h]
        rfl
  have sched : ∀ {k₁}, Woken (receiving k cur a.a1) cur 0 k₁ → ∃ k₂, schedYield k₁ c = .ok k₂ :=
    fun wake => schedYield_total (inv₁.woken hlive₁ wake).1.live_dirs c
  rw [if_neg hva]
  change Clean k _ Q (ipcWakeup (receiving k cur a.a1) cur >>= _) ↔ _
  have hqueue : ((receiving k cur a.a1).envs cur).envIpcWaitingHead =
      ((receiving k cur a.a1).envs cur).envIpcWaitingTail ↔
      (k.envs cur).envIpcWaitingHead = (k.envs cur).envIpcWaitingTail := by rw [hrecv]
  by_cases hne : (k.envs cur).envIpcWaitingHead = (k.envs cur).envIpcWaitingTail
  · have wake : Woken (receiving k cur a.a1) cur 0 (receiving k cur a.a1) := .empty (hqueue.mpr hne)
    obtain ⟨k₂, hk₂⟩ := sched wake
    simp only [wake.ipcWakeup, sysYield, hk₂, bind, Except.bind]
    exact iff_of_true (.away hva) fun h => h.2.1 hne
  · have hi₁ : ((receiving k cur a.a1).envs cur).envIpcWaitingHead.toNat = (⟨_, hi⟩ : Fin 10) := by
      rw [hrecv]
    have hfirst : envid2env (dequeued (receiving k cur a.a1) cur) cur
        (((receiving k cur a.a1).envs cur).envIpcWaiting ⟨_, hi⟩) false =
        envid2env k cur ((k.envs cur).envIpcWaiting ⟨_, hi⟩) false := by rw [hid, hrecv]
    cases he : envid2env k cur ((k.envs cur).envIpcWaiting ⟨_, hi⟩) false with
    | some e =>
      have wake : Woken (receiving k cur a.a1) cur 0 _ :=
        .wake (hqueue.not.mpr hne) hi₁ (hfirst.trans he)
      obtain ⟨k₂, hk₂⟩ := sched wake
      simp only [wake.ipcWakeup, sysYield, hk₂, bind, Except.bind]
      refine iff_of_true (.away hva) ?_
      rintro ⟨-, -, i, hi', h⟩
      obtain rfl : i = ⟨_, hi⟩ := Fin.ext hi'.symm
      simp [he] at h
    | none =>
      have wake : Woken (receiving k cur a.a1) cur (-eBadEnv) _ :=
        .stale (hqueue.not.mpr hne) hi₁ (hfirst.trans he)
      simp only [wake.ipcWakeup, bind, Except.bind, eBadEnv_neg, if_true]
      refine iff_of_false ?_ fun h => h ⟨hva, hne, ⟨_, hi⟩, rfl, he⟩
      rintro ⟨r, k', h, -, hsame⟩
      cases h
      obtain h | ⟨h, -⟩ := hsame _ rfl eBadEnv_neg
      · -- the queue has lost its first entry
        have hhead := congrArg (fun k : Kernel n => (k.envs cur).envIpcWaitingHead) h
        simp only [dequeued, Kernel.modEnv_self, hrecv] at hhead
        have hnext := View.next_toNat hi
        rw [hhead] at hnext
        omega
      · exact absurd h (by decide)

theorem KInv.clean_cputs_iff (inv : KInv S x k) (hc : k.status cur ≠ .free)
    (hcur : k.curenv c = some cur) {Q : Kernel n → Prop} :
    Clean k (Refused k cur a (some .cputs)) Q (sysCputs k c cur a.a1 a.a2) ↔
      ¬Slips k c cur a (some .cputs) := by
  obtain ⟨g, hg⟩ := inv.dir_of_live hc
  obtain ⟨r, hr, -⟩ := inv.mem.userMemCheckLoop hg a.a1 (0 ||| pteU) (visited a.a1 a.a2)
  have hchk : k.mem.userMemCheck g a.a1 a.a2 (0 ||| pteU) = .ok r := hr
  simp only [sysCputs, userMemAssert, pgdirOf_eq hg, hchk, bind, Except.bind]
  cases r with
  | none =>
    have hends := vprintfmt_buffer_isSome (fun p => k.mem.loadByte (k.cpus c).cr3 p false) a.a2 a.a1
    dsimp only [pure, Except.pure]
    cases hp : (cprintf k c "%.*s" [a.a2, a.a1]).result with
    | none =>
      rw [cprintf] at hp
      simp only [hp, Option.isSome_none, Bool.false_eq_true, false_iff, not_or] at hends
      exact iff_of_false Clean.not_error fun h => h ⟨⟨g, hg, hchk⟩, hends⟩
    | some _ =>
      rw [cprintf] at hp
      simp only [hp, Option.isSome_some, true_iff] at hends
      exact iff_of_true (.done id le_rfl) fun h => h.2.2 (hends.resolve_left h.2.1)
  | some va =>
    obtain ⟨r, k₁, hd⟩ := inv.envDestroy_total hc c
    simp only [hd]
    cases envDestroy_destroyed hd with
    | mark _ hne => exact absurd hcur hne
    | other _ hne => exact absurd hcur hne
    | self =>
      refine iff_of_true (.away id) fun ⟨⟨g', hg', hok⟩, _⟩ => ?_
      cases hg.symm.trans hg'
      rw [hchk] at hok
      cases hok

/-- A call of the kernel fails cleanly exactly if it does not slip. -/
theorem KInv.failsCleanly_iff (inv : KInv S x k) (hc : k.status cur ≠ .free)
    (hcur : k.curenv c = some cur) (hq : k.view.QueueOk) :
    FailsCleanly k c cur io no a ↔ ¬Slips k c cur a (Sys.ofNat no.toNat) := by
  obtain ⟨g, hg⟩ := inv.dir_of_live hc
  unfold FailsCleanly syscall
  cases Sys.ofNat no.toNat with
  | none => exact iff_of_true (.same (by decide)) id
  | some s =>
    cases s with
    | cputs => exact inv.clean_cputs_iff hc hcur
    | cgetc => exact iff_of_true (.read id) id
    | getenvid => exact iff_of_true (.read id) id
    | envDestroy =>
      unfold sysEnvDestroy
      cases he : envid2env k cur a.a1 true with
      | none => exact iff_of_false (Clean.not_of_nonneg he le_rfl) fun h => h he
      | some e =>
        obtain ⟨r, k₁, hd⟩ := inv.envDestroy_total (envid2env_live he hc) c
        simp only [hd, bind, Except.bind]
        refine iff_of_true ?_ fun h => by simp [Slips, he] at h
        have hP : ¬Refused k cur a (some .envDestroy) := by simp [Refused, he]
        cases r with
        | none => exact .away hP
        | some _ => exact .done hP le_rfl
    | pageAlloc => exact inv.clean_pageAlloc_iff hc
    | pageMap => exact iff_of_true (inv.clean_pageMap hc) id
    | pageUnmap => exact iff_of_true (inv.clean_pageUnmap hc) id
    | exofork => exact clean_exofork_iff
    | envSetStatus =>
      refine iff_of_true ?_ id
      by_cases hst : a.a2 = 2 ∨ a.a2 = 4
      · simp only [sysEnvSetStatus, if_pos hst]
        cases he : envid2env k cur a.a1 true with
        | none => exact .same eBadEnv_neg
        | some e => exact .done (fun h => h.elim (by simp [he]) fun h => h hst) le_rfl
      · simp only [sysEnvSetStatus, if_neg hst]
        exact .same eInval_neg
    | yield =>
      obtain ⟨k₁, hk₁⟩ := schedYield_total inv.live_dirs c
      simp only [sysYield, hk₁, bind, Except.bind]
      exact iff_of_true (.away id) id
    | ipcTrySend => exact iff_of_true (inv.clean_ipcTrySend hc hq) id
    | ipcRecv => exact inv.clean_ipcRecv_iff hc hq
    | envSetUpcall exc =>
      refine iff_of_true ?_ id
      simp only [dispatchSetUpcall_eq, sysEnvSetUpcall]
      cases he : envid2env k cur a.a1 true with
      | none => exact .same eBadEnv_neg
      | some e => exact .done (by simp [Refused, he]) le_rfl

end

/-! ## Runs -/

/-- The invariant and the bounds of the waiting queues hold in runs that meet `StepOk`. -/
theorem kInv_queueOk_of_reachable
    (h : Reachable (Boot S) (fun k a k' => StepOk k a ∧ Step k a k') k) :
    (∃ x, KInv S x k) ∧ k.view.QueueOk := by
  refine h.invariant (P := fun k => (∃ x, KInv S x k) ∧ k.view.QueueOk)
    (fun _ hb => ⟨⟨0, (boot_kInv hb).1⟩, queueOk_boot hb⟩) ?_
  rintro k a k' ⟨⟨x, inv⟩, hq⟩ ⟨ok, hs⟩
  exact ⟨(inv.step ok hs).1.kInv, (hs.view inv.slots).queueOk hq⟩

/-- The same for a call by the current environment, with its trap frame saved. -/
theorem KInv.failsCleanly_saved_iff (inv : KInv S x k) (hq : k.view.QueueOk)
    (hc : k.curenv c = some cur) (tf : Trapframe) (io : Inputs) (no : Word) (a : Args) :
    FailsCleanly (saved k cur tf) c cur io no a ↔
      ¬Slips (saved k cur tf) c cur a (Sys.ofNat no.toNat) := by
  have hlive : (saved k cur tf).status cur ≠ .free := by
    rw [saved_status]
    exact inv.cur c cur hc
  refine (inv.save cur tf).failsCleanly_iff hlive (by simpa using hc) fun e => ?_
  have hq' := hq e
  show ((saved k cur tf).envs e).envIpcWaitingHead.toNat < 10 ∧
    ((saved k cur tf).envs e).envIpcWaitingTail.toNat < 10
  rw [saved_env]
  exact hq'

/-- In a run that meets `StepOk`, the system calls that do not fail cleanly are those of
`Slips`. -/
theorem failsCleanly_iff_not_slips
    (h : Reachable (Boot S) (fun k a k' => StepOk k a ∧ Step k a k') k)
    (hc : k.curenv c = some cur) (tf : Trapframe) (io : Inputs) (no : Word) (a : Args) :
    FailsCleanly (saved k cur tf) c cur io no a ↔
      ¬Slips (saved k cur tf) c cur a (Sys.ofNat no.toNat) := by
  obtain ⟨⟨x, inv⟩, hq⟩ := kInv_queueOk_of_reachable h
  exact inv.failsCleanly_saved_iff hq hc tf io no a

/-- An unmap request with an id that does not exist. -/
theorem failsCleanly_pageUnmap :
    FailsCleanly (saved smallRunning 0 freshTf) 0 0 ⟨0, 0⟩ 6 ⟨0x5000, 0x800000, 0, 0, 0⟩ :=
  (failsCleanly_iff_not_slips (.step (.init boot_small) ⟨stepOk_of_plain rfl, step_smallRunning⟩)
    (by decide +kernel) _ _ _ _).mpr id

/-- When page directories have used up all pages, `sys_page_alloc` returns a positive number. -/
theorem not_failsCleanly_pageAlloc : ∃ k : Kernel 16,
    Reachable (Boot {p : Fin 16 | p ≠ 0}) (fun k a k' => StepOk k a ∧ Step k a k') k ∧
      k.curenv 0 = some 0 ∧
      ¬FailsCleanly (saved k 0 freshTf) 0 0 ⟨0, 0⟩ 4 ⟨0, 0x900000, 7, 0, 0⟩ := by
  obtain ⟨k, hk, hp⟩ := reachable_runPlain (.init boot_small)
    (.start 0 :: List.replicate 14 (sysTrap 0 7 0 0 0 0 0))
    (fun k => decide (k.curenv 0 = some 0 ∧ k.mem.pageFreeList = none)) (by decide +kernel)
  obtain ⟨hcur, hl⟩ := of_decide_eq_true hp
  obtain ⟨⟨x, inv⟩, hq⟩ := kInv_queueOk_of_reachable hk
  refine ⟨k, hk, hcur, fun h => (inv.failsCleanly_saved_iff hq hcur _ _ _ _).mp h ?_⟩
  have he : envid2env (saved k 0 freshTf) 0 0 true = some 0 := if_pos rfl
  exact ⟨0, he, by decide, by decide, .inl hl⟩

end JosKernel
