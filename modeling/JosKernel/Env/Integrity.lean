import JosKernel.Env.Counts

/-!
# Page-table integrity

Every mapping is one that the kernel meant to make, with flags that system calls may use. The
intention is a history variable: each time a call reports success, `intend` records the page that
the call allocated or looked up. Pages that can be mapped are those that `mem_init` left free and
that hold neither a directory nor a table.

`sys_page_alloc` and `sys_page_map` test the bits that must be present in the permission word, but
no others, so the words have to be restricted: `PermOk`.
-/
namespace JosKernel

open Lib

variable {n : Nat} {S : Set (Fin n)} {x : Fin n → ℕ} {k k' : Kernel n} {c : Cpu}
  {cur e : EnvIx}

/-! ## Flags -/

/-- The word has no bits but those of `PTE_SYSCALL`. -/
def SysPerm (perm : Word) : Prop := perm &&& ~~~pteSyscall = 0

instance {perm : Word} : Decidable (SysPerm perm) :=
  inferInstanceAs (Decidable (perm &&& ~~~pteSyscall = 0))

/-- The flag bits that no entry should have. -/
def otherFlags : Word := 0xFFF &&& ~~~(pteSyscall ||| pteA ||| pteD)

/-- The flags of the entry are in `PTE_SYSCALL`, apart from the accessed and dirty bits. -/
def SysFlags (w : Word) : Prop := w &&& otherFlags = 0

theorem SysPerm.and_eq {perm : Word} (h : SysPerm perm) : perm &&& pteSyscall = perm := by
  unfold SysPerm at h
  ext i hi
  have hbit := congrArg (fun u : Word => u[i]) h
  simp only [BitVec.getElem_and, BitVec.getElem_not] at hbit ⊢
  cases h1 : perm[i] <;> simp_all

theorem SysPerm.lt {perm : Word} (h : SysPerm perm) : perm.toNat < 4096 := by
  rw [← h.and_eq, BitVec.toNat_and]
  have hle : perm.toNat &&& pteSyscall.toNat ≤ pteSyscall.toNat := Nat.and_le_right
  have : pteSyscall.toNat = 3591 := by decide
  omega

theorem SysFlags.of_and {w v : Word} (h : SysFlags v) (hw : w &&& v = w) : SysFlags w := by
  unfold SysFlags at h ⊢
  rw [← hw, BitVec.and_assoc, h]
  exact BitVec.and_zero

theorem SysPerm.flags {perm : Word} (h : SysPerm perm) : SysFlags perm :=
  SysFlags.of_and (by unfold SysFlags; decide) h.and_eq

theorem SysFlags.newPte {perm : Word} (h : SysFlags perm) (pp : Fin n) :
    SysFlags (newPte pp perm) := by
  have hP : pteP &&& otherFlags = 0 := by decide
  unfold SysFlags at h ⊢
  rw [JosKernel.newPte, pteAddr_or_and (by decide), BitVec.and_or_distrib_right, h, hP]
  rfl

theorem SysFlags.touched {w : Word} (h : SysFlags w) (store : Option Byte) :
    SysFlags (touched store w) := by
  have hA : otherFlags &&& pteA = 0 := by decide
  have hD : otherFlags &&& pteD = 0 := by decide
  unfold SysFlags at h ⊢
  rw [BitVec.and_comm] at h ⊢
  cases store with
  | none => rw [JosKernel.touched, BitVec.and_or_distrib_left, h, hA]; rfl
  | some b =>
    rw [JosKernel.touched, BitVec.and_or_distrib_left, BitVec.and_or_distrib_left, h, hA, hD]
    rfl

/-- The address in an entry is that of its page. -/
theorem pteAddr_eq_page2pa {w : Word} {pp : Fin n} (h : pageOf n w = some pp) :
    pteAddr w = page2pa pp := by
  have hnum := (pageOf_eq_some.mp h).2
  have hlow := toNat_pteAddr_mod w
  have hpg : (pteAddr w).toNat / 4096 = pp := (pgnum_pteAddr w).trans hnum
  have := (pteAddr w).isLt
  apply BitVec.eq_of_toNat_eq
  rw [page2pa, BitVec.toNat_ofNat]
  omega

/-! ## Intentions -/

/-- For every user page of every environment, the page that was to be mapped there last. -/
abbrev Intent (n : Nat) := EnvIx → Fin 1024 → Fin 1024 → Option (Fin n)

/-- The intentions after a step: a call that left zero in `eax` has made its mapping. -/
def intend (k : Kernel n) (a : Action) (k' : Kernel n) (I : Intent n) : Intent n :=
  match callOf k a with
  | none => I
  | some (cur, s, args) =>
    if k'.eax cur = 0 then
      match intended k cur s args with
      | none => I
      | some (e, va, pp) => fun e' d t =>
        if e' = e ∧ d = pdx va ∧ t = ptx va then some pp else I e' d t
    else I

/-- Every mapping is as intended, has allowed flags, and leads to a page that is not used by the
kernel. -/
def Integrity (S : Set (Fin n)) (k : Kernel n) (I : Intent n) : Prop :=
  ∀ e d t, k.status e ≠ .free → present (k.spaces e d t) = true →
    ∃ pp, I e d t = some pp ∧ pteAddr (k.spaces e d t) = page2pa pp ∧
      SysFlags (k.spaces e d t) ∧ pp ∈ S ∧ NotStruct k.mem k.dirs pp

/-- A request that passes the other checks asks for flags in `PTE_SYSCALL` only. -/
def PermOk (k : Kernel n) (_ : Cpu) (cur : EnvIx) (s : Sys) (a : Args) : Prop :=
  match s with
  | .pageAlloc => envid2env k cur a.a1 true ≠ none → badUserPage a.a2 = false →
      lacksUP a.a3 = false → SysPerm a.a3
  | .pageMap => ∀ e g pp pt i, envid2env k cur a.a1 true = some e →
      envid2env k cur a.a3 true ≠ none → badUserPage a.a2 = false → badUserPage a.a4 = false →
      k.dirs e = some g → k.mem.pageLookup g a.a2 = .ok (some (pp, pt, i)) →
      lacksUP a.a5 = false → SysPerm a.a5
  | .ipcTrySend => ∀ g pp pt i, k.dirs cur = some g →
      k.mem.pageLookup g a.a3 = .ok (some (pp, pt, i)) → a.a4 &&& k.mem.entry pt i = a.a4 →
      SysPerm a.a4
  | _ => True

structure IntegrityOk (k : Kernel n) (a : Action) : Prop where
  step : StepOk k a
  perm : OnCall PermOk k a

/-- The request names live environments and asks for other flags. -/
def BadRequest (k : Kernel n) (cur : EnvIx) (s : Sys) (a : Args) : Prop :=
  match s with
  | .pageAlloc => envid2env k cur a.a1 true ≠ none ∧ ¬SysPerm a.a3
  | .pageMap => envid2env k cur a.a1 true ≠ none ∧ envid2env k cur a.a3 true ≠ none ∧
      ¬SysPerm a.a5
  | .ipcTrySend => (∃ e, envid2env k cur a.a1 false = some e ∧
      (k.envs e).envIpcRecving = true) ∧ a.a3 < utop ∧ ¬SysPerm a.a4
  | _ => False

/-! ## The invariant -/

def PteInv (k : Kernel n) (I : Intent n) : Prop :=
  ∀ e d t, present (k.spaces e d t) = true →
    ∃ pp, I e d t = some pp ∧ pageOf n (k.spaces e d t) = some pp ∧ SysFlags (k.spaces e d t)

theorem KInv.integrity {I : Intent n} (inv : KInv S x k) (h : PteInv k I) : Integrity S k I := by
  intro e d t _ hp
  obtain ⟨pp, hI, hpp, hf⟩ := h e d t hp
  obtain ⟨hS, -, hns⟩ := inv.mem.of_mapped ⟨e, d, t, hpp⟩
  exact ⟨pp, hI, pteAddr_eq_page2pa hpp, hf, hS, hns⟩

/-- The entry that a call writes is the intended one. -/
theorem Remaps.pteInv {s : Sys} {a : Args} {va w : Word} {I : Intent n} (inv : KInv S x k)
    (hI : PteInv k I) (ok : PermOk k c cur s a) (h : Remaps k cur s a e va w) :
    (s = .pageUnmap ∧ w = 0) ∨ ∃ pp, intended k cur s a = some (e, va, pp) ∧
      pageOf n w = some pp ∧ SysFlags w := by
  cases h with
  | @alloc _ _ pp he hva hperm hpp =>
    have hok : SysPerm a.a3 := ok (by simp [he]) hva hperm
    exact .inr ⟨pp, by simp [intended, he, hpp], inv.mem.pageOf_newPte hok.lt pp,
      hok.flags.newPte pp⟩
  | @map _ srce _ pp hs hd hsva hva hperm hlook hpp _ =>
    obtain ⟨g, pt, i, hg, hpl⟩ := lookedUp_some hlook
    have hok : SysPerm a.a5 := ok _ _ _ _ _ hs (by simp [hd]) hsva hva hg hpl hperm
    exact .inr ⟨pp, by simp [intended, hs, hd, hlook], inv.mem.pageOf_newPte hok.lt pp,
      hok.flags.newPte pp⟩
  | unmap => exact .inl ⟨rfl, rfl⟩
  | @send _ _ pp he hr hs _ hva hlook hpp hperm =>
    -- the flags are among those of the sender's own entry
    obtain ⟨pp', -, -, hf⟩ := hI _ _ _ (pageOf_eq_some.mp hpp).1
    exact .inr ⟨pp, by simp [intended, he, hs, hva, hlook],
      inv.mem.pageOf_newPte_of_subset hpp hperm, (hf.of_and hperm).newPte pp⟩

/-- One step keeps every mapping as intended. -/
theorem PteInv.step {a : Action} {I : Intent n} (inv : KInv S x k) (hI : PteInv k I)
    (ok : OnCall PermOk k a) (hstep : Step k a k') (hm : Moved k a k') :
    PteInv k' (intend k a k' I) := by
  cases hm with
  | @call cur s args r hc eff hr _ =>
    obtain ⟨c, tf, io, rfl, hcur, hd, hno, hs, rfl, -⟩ := step_call hc hstep
    have hok : PermOk k c cur s (argsOf tf) := ok cur s hcur hd hno hs
    -- nothing is recorded unless the call reports a mapping
    have hsame : intended k cur s (argsOf tf) = none → intend k (.trap c tf io) k' I = I := by
      intro hn
      simp [intend, hc, hn]
    cases eff with
    | same hsp hr' =>
      have hI' : intend k (.trap c tf io) k' I = I := by
        by_cases h0 : k'.eax cur = 0
        · exact hsame (hr' fun v hv => (hr v hv).symm.trans h0)
        · unfold intend
          rw [hc]
          exact if_neg h0
      rw [hI']
      intro e d t hp
      rw [hsp] at hp ⊢
      exact hI e d t hp
    | @remap e va w _ hre hsp =>
      have h0 : k'.eax cur = 0 := hr 0 rfl
      intro e' d t hp
      rw [hsp, setSpace] at hp ⊢
      rcases hre.pteInv inv hI hok with ⟨rfl, rfl⟩ | ⟨pp, hint, hpp, hf⟩
      · split_ifs at hp ⊢
        · simp at hp
        · rw [hsame rfl]
          exact hI e' d t hp
      · have hI' : intend k (.trap c tf io) k' I e' d t =
            if e' = e ∧ d = pdx va ∧ t = ptx va then some pp else I e' d t := by
          unfold intend
          rw [hc]
          simp only [if_pos h0, hint]
        rw [hI']
        split_ifs at hp ⊢
        · exact ⟨pp, rfl, hpp, hf⟩
        · exact hI e' d t hp
    | @clear e _ _ hs' _ _ hsp =>
      rw [hsame (intended_of_not_reports (by simp [hs']) _)]
      intro e' d t hp
      rw [hsp, Function.update_apply] at hp ⊢
      split_ifs at hp ⊢
      · simp at hp
      · exact hI e' d t hp
  | idle hc hsp _ =>
    intro e d t hp
    rw [hsp] at hp ⊢
    simpa [intend, hc] using hI e d t hp
  | upcall _ hc _ hsp _ =>
    intro e d t hp
    rw [hsp] at hp ⊢
    simpa [intend, hc] using hI e d t hp
  | @death e hc _ hsp _ =>
    intro e' d t hp
    rw [hsp, Function.update_apply] at hp ⊢
    split_ifs at hp ⊢
    · simp at hp
    · simpa [intend, hc] using hI e' d t hp
  | @touch c va store e p ha _ _ _ hsp _ =>
    subst ha
    intro e' d t hp
    rw [hsp, setSpace] at hp ⊢
    split_ifs at hp ⊢ with h
    · obtain ⟨rfl, rfl, rfl⟩ := h
      rw [present_touched] at hp
      obtain ⟨pp, hpp, hpage, hf⟩ := hI e' _ _ hp
      refine ⟨pp, hpp, ?_, hf.touched store⟩
      rw [pageOf, present_touched, pgnum_touched]
      exact hpage
    · exact hI e' d t hp

/-! ## Refusals -/

theorem pgdirOf_eq {g : Fin n} (h : k.dirs e = some g) : pgdirOf k e = .ok g := by
  have h' : (k.envs e).envPgdir = some g := h
  simp [pgdirOf, h']

/-- A request for other flags is refused. -/
theorem KInv.refused (inv : KInv S x k) {s : Sys} {a : Args} {no : Word} (io : Inputs)
    (hcur : k.status cur ≠ .free) (hs : Sys.ofNat no.toNat = some s) (ok : PermOk k c cur s a)
    (bad : BadRequest k cur s a) :
    syscall k c cur io no a.a1 a.a2 a.a3 a.a4 a.a5 = .ok (some (-eInval), k) := by
  unfold syscall
  rw [hs]
  cases s <;> try exact bad.elim
  case pageAlloc =>
    obtain ⟨he, hperm⟩ := bad
    obtain ⟨e, he⟩ := Option.ne_none_iff_exists'.mp he
    have h : badUserPage a.a2 = true ∨ lacksUP a.a3 = true := by
      by_contra hc
      simp only [not_or, Bool.not_eq_true] at hc
      exact hperm (ok (by simp [he]) hc.1 hc.2)
    simp only [sysPageAlloc, he]
    by_cases hva : badUserPage a.a2 = true
    · simp [hva, returning, Except.map, pure, Except.pure]
    · simp [hva, h.resolve_left hva, returning, Except.map, pure, Except.pure]
  case pageMap =>
    obtain ⟨hs, hd, hperm⟩ := bad
    obtain ⟨srce, hs⟩ := Option.ne_none_iff_exists'.mp hs
    obtain ⟨dste, hd⟩ := Option.ne_none_iff_exists'.mp hd
    obtain ⟨g, hg⟩ := inv.dir_of_live (envid2env_live hs hcur)
    simp only [sysPageMap, hs, hd]
    by_cases hva : (badUserPage a.a2 || badUserPage a.a4) = true
    · rw [if_pos hva]
      rfl
    · rw [if_neg hva]
      rw [Bool.or_eq_true, not_or, Bool.not_eq_true, Bool.not_eq_true] at hva
      have hpl := inv.mem.pageLookup hg (lt_utop_of_badUserPage hva.1)
      simp only [pgdirOf_eq hg, bind, Except.bind]
      cases hlook : k.mem.pageLookup g a.a2 with
      | error _ => simp [hlook] at hpl
      | ok r =>
        rcases r with _ | ⟨pp, pt, i⟩
        · rfl
        · have hup : lacksUP a.a5 = true := by
            by_contra hc
            exact hperm (ok _ _ _ _ _ hs (by simp [hd]) hva.1 hva.2 hg hlook (by simpa using hc))
          simp [hup, returning, Except.map, pure, Except.pure]
  case ipcTrySend =>
    obtain ⟨⟨e, he, hr⟩, hlt, hperm⟩ := bad
    obtain ⟨g, hg⟩ := inv.dir_of_live hcur
    have hpl := inv.mem.pageLookup hg hlt
    have hpage : ipcSendPage k cur e a.a3 a.a4 = .ok (-eInval, k) := by
      unfold ipcSendPage
      rw [if_pos hlt]
      by_cases ha : roundUp a.a3 pgsize ≠ a.a3
      · rw [if_pos ha]
        rfl
      · rw [if_neg ha]
        simp only [pgdirOf_eq hg, bind, Except.bind]
        cases hlook : k.mem.pageLookup g a.a3 with
        | error _ => simp [hlook] at hpl
        | ok r =>
          rcases r with _ | ⟨pp, pt, i⟩
          · rfl
          · have hne : a.a4 &&& k.mem.entry pt i ≠ a.a4 := fun hc =>
              hperm (ok _ _ _ _ hg hlook hc)
            simp [hne, pure, Except.pure]
    have hneg : 0 < eInval := by decide
    simp [sysIpcTrySend, he, hr, hpage, hneg, bind, Except.bind, returning, Except.map, pure,
      Except.pure]

/-! ## Runs -/

/-- The mappings of the binaries, as loaded at boot. -/
def bootIntent (k : Kernel n) : Intent n := fun e d t => pageOf n (k.spaces e d t)

/-- A booted kernel with its initial intentions. -/
def BootIntent (S : Set (Fin n)) (σ : Kernel n × Intent n) : Prop :=
  Boot S σ.1 ∧ σ.2 = bootIntent σ.1

/-- A step of the machine together with the intentions. -/
def StepIntent (σ : Kernel n × Intent n) (a : Action) (σ' : Kernel n × Intent n) : Prop :=
  Step σ.1 a σ'.1 ∧ σ'.2 = intend σ.1 a σ'.1 σ.2

theorem pteInv_boot (inv : KInv S x k) (h : RegionPtes n k.spaces) : PteInv k (bootIntent k) := by
  intro e d t hp
  obtain ⟨pp, hw⟩ := h e d t hp
  have hpp : pageOf n (k.spaces e d t) = some pp := hw ▸ inv.mem.pageOf_newPte (by decide) pp
  have hflags : SysPerm (pteW ||| pteU) := by unfold SysPerm; decide
  exact ⟨pp, hpp, hpp, hw ▸ hflags.flags.newPte pp⟩

/-- In a run whose steps meet `IntegrityOk`, every mapping is the intended one, and a request for
flags outside of `PTE_SYSCALL` is refused. -/
theorem integrity_of_integrityOk {σ : Kernel n × Intent n}
    (h : Reachable (BootIntent S) (fun σ a σ' => IntegrityOk σ.1 a ∧ StepIntent σ a σ') σ) :
    Integrity S σ.1 σ.2 ∧ ∀ c cur s a no io, σ.1.curenv c = some cur →
      Sys.ofNat no.toNat = some s → PermOk σ.1 c cur s a → BadRequest σ.1 cur s a →
      syscall σ.1 c cur io no a.a1 a.a2 a.a3 a.a4 a.a5 = .ok (some (-eInval), σ.1) := by
  have hinv : (∃ x, KInv S x σ.1) ∧ PteInv σ.1 σ.2 := by
    refine h.invariant (P := fun σ => (∃ x, KInv S x σ.1) ∧ PteInv σ.1 σ.2) ?_ ?_
    · rintro σ ⟨hb, hI⟩
      obtain ⟨inv, hre⟩ := boot_kInv hb
      exact ⟨⟨0, inv⟩, hI ▸ pteInv_boot inv hre⟩
    · rintro σ a σ' ⟨⟨x, inv⟩, hI⟩ ⟨ok, hstep, hI'⟩
      obtain ⟨hg, hm⟩ := inv.step ok.step hstep
      exact ⟨hg.kInv, hI' ▸ hI.step inv ok.perm hstep hm⟩
  obtain ⟨⟨x, inv⟩, hI⟩ := hinv
  exact ⟨inv.integrity hI, fun c cur s a no io hc hs ok bad =>
    inv.refused io (inv.cur c cur hc) hs ok bad⟩

/-- Every run of the machine is one with intentions. -/
theorem reachable_intent {P : Kernel n → Action → Prop}
    (h : Reachable (Boot S) (fun k a k' => P k a ∧ Step k a k') k) :
    ∃ I, Reachable (BootIntent S) (fun σ a σ' => P σ.1 a ∧ StepIntent σ a σ') (k, I) := by
  induction h with
  | @init k hb => exact ⟨bootIntent k, .init ⟨hb, rfl⟩⟩
  | @step k k' a _ hs ih =>
    obtain ⟨I, hI⟩ := ih
    exact ⟨intend k a k' I, hI.step ⟨hs.1, hs.2, rfl⟩⟩

/-- The permission word of a call is within `PTE_SYSCALL`. -/
def Sys.modest (a : Args) : Sys → Bool
  | .pageAlloc => decide (SysPerm a.a3)
  | .pageMap => decide (SysPerm a.a5)
  | .ipcTrySend => decide (SysPerm a.a4)
  | _ => true

/-- A test that is enough for `PermOk`. -/
def modest : Action → Bool
  | .trap _ tf _ => (Sys.ofNat tf.tfRegs.regEax.toNat).all (Sys.modest (argsOf tf))
  | _ => true

theorem integrityOk_of_modest {a : Action} (h : (plain k a && modest a) = true) :
    IntegrityOk k a := by
  rw [Bool.and_eq_true] at h
  obtain ⟨hplain, hmodest⟩ := h
  refine ⟨stepOk_of_plain hplain, ?_⟩
  cases a with
  | trap c tf io =>
    intro cur s _ _ _ hs
    have hm : s.modest (argsOf tf) = true := by
      simpa only [modest, hs, Option.all_some] using hmodest
    cases s
    case pageAlloc => exact fun _ _ _ => of_decide_eq_true hm
    case pageMap => exact fun _ _ _ _ _ _ _ _ _ _ _ _ => of_decide_eq_true hm
    case ipcTrySend => exact fun _ _ _ _ _ _ _ => of_decide_eq_true hm
    all_goals trivial
  | _ => trivial

/-- A page is mapped in two environments, as intended, and a request for `PTE_PWT` is refused. -/
theorem integrity_pairRun : ∃ (k : Kernel 16) (I : Intent 16), Integrity {p : Fin 16 | p ≠ 0} k I ∧
    present (k.spaces 0 2 0) = true ∧ I 0 2 0 = I 1 2 256 ∧ (I 1 2 256).isSome = true ∧
    syscall k 0 0 ⟨0, 0⟩ 4 0 0x800001 0xF 0 0 = .ok (some (-eInval), k) := by
  obtain ⟨k, hk, hp⟩ := reachable_runWhile (fun k a => plain k a && modest a)
    (fun _ _ => integrityOk_of_modest) (.init boot_small) pairRun
    (fun k => decide (k.curenv 0 = some 0 ∧ k.status 0 ≠ .free ∧ k.status 1 ≠ .free ∧
      present (k.spaces 0 2 0) = true ∧ present (k.spaces 1 2 256) = true ∧
      pteAddr (k.spaces 0 2 0) = pteAddr (k.spaces 1 2 256)))
    (by decide +kernel)
  obtain ⟨hcur, hlive₀, hlive₁, hp₀, hp₁, haddr⟩ := of_decide_eq_true hp
  obtain ⟨I, hI⟩ := reachable_intent hk
  obtain ⟨h, hrefused⟩ := integrity_of_integrityOk hI
  dsimp only at h hrefused
  obtain ⟨p₀, hI₀, ha₀, -⟩ := h 0 2 0 hlive₀ hp₀
  obtain ⟨p₁, hI₁, ha₁, -⟩ := h 1 2 256 hlive₁ hp₁
  have hinj : ∀ p q : Fin 16, page2pa p = page2pa q → p = q := by decide
  have hsame := hinj p₀ p₁ (ha₀.symm.trans (haddr.trans ha₁))
  refine ⟨k, I, h, hp₀, by rw [hI₀, hI₁, hsame], by simp [hI₁], ?_⟩
  exact hrefused 0 0 .pageAlloc ⟨0, 0x800001, 0xF, 0, 0⟩ 4 ⟨0, 0⟩ hcur rfl
    (fun _ hva => absurd hva (by decide)) ⟨by simp [envid2env], by decide⟩

/-- `sys_page_alloc` with `PTE_PWT` in the permission word succeeds and sets this flag. -/
theorem not_integrity_pageAlloc : ∃ (k : Kernel 16) (I : Intent 16),
    Reachable (BootIntent {p : Fin 16 | p ≠ 0}) StepIntent (k, I) ∧
      ¬Integrity {p : Fin 16 | p ≠ 0} k I := by
  obtain ⟨k, hk, hp⟩ := reachable_runActions (.init boot_small)
    [.start 0, sysTrap 0 4 0 0x800000 0xF 0 0]
    (fun k => decide (k.status 0 ≠ .free ∧ present (k.spaces 0 2 0) = true ∧
      k.spaces 0 2 0 &&& otherFlags ≠ 0)) (by decide +kernel)
  obtain ⟨hlive, hpres, hflags⟩ := of_decide_eq_true hp
  obtain ⟨I, hI⟩ := reachable_intent (P := fun _ _ => True) (hk.mono fun _ _ _ h => ⟨trivial, h⟩)
  refine ⟨k, I, hI.mono fun _ _ _ h => h.2, fun h => ?_⟩
  obtain ⟨pp, -, -, hf, -⟩ := h 0 2 0 hlive hpres
  exact hflags hf

end JosKernel
