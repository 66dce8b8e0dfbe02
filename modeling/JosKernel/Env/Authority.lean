import JosKernel.Env.Integrity

/-!
# Authority

What a system call can do to an environment that is neither the caller nor one of its children.
Calls that check permissions do not reach it. A message may complete its `sys_ipc_recv`. The one
call that translates an id without a permission check and then changes the address space is
`sys_page_unmap`: it removes a mapping of any environment.
-/
namespace JosKernel

open Lib

variable {n : Nat} {S : Set (Fin n)} {x : Fin n → ℕ} {k k' k'' : Kernel n} {c : Cpu}
  {cur e i : EnvIx}

/-- The upcalls and the saved registers are unchanged. -/
def Spared (k k' : Kernel n) (i : EnvIx) : Prop :=
  (k'.envs i).envUpcall = (k.envs i).envUpcall ∧ (k'.envs i).envTf = (k.envs i).envTf

/-- `i` is live, and neither `cur` nor a child of `cur`. -/
structure Foreign (k : Kernel n) (cur i : EnvIx) : Prop where
  live : k.status i ≠ .free
  ne : i ≠ cur
  parent : (k.envs i).envParentId ≠ (k.envs cur).envId

/-- The call completes the pending `sys_ipc_recv` of `i`. -/
def Completes (k : Kernel n) (cur : EnvIx) (s : Sys) (a : Args) (i : EnvIx) : Prop :=
  s = .ipcTrySend ∧ envid2env k cur a.a1 false = some i ∧ (k.envs i).envIpcRecving = true

/-- Upcalls, saved registers and mappings of `i` are unchanged, except for the completion of its
`sys_ipc_recv`: `eax`, and the page at `env_ipc_dstva`. -/
def Isolated (k : Kernel n) (cur : EnvIx) (s : Sys) (a : Args) (i : EnvIx) (k' : Kernel n) :
    Prop :=
  (Spared k k' i ∧ k'.spaces i = k.spaces i) ∨
    (Completes k cur s a i ∧ k'.eax cur = 0 ∧
      (k'.envs i).envUpcall = (k.envs i).envUpcall ∧
      (k'.envs i).envTf.setEax 0 = (k.envs i).envTf.setEax 0 ∧
      ∀ d t, ¬(d = pdx (k.envs i).envIpcDstva ∧ t = ptx (k.envs i).envIpcDstva) →
        k'.spaces i d t = k.spaces i d t)

/-- The call takes a mapping away from `i`. -/
def Unmaps (k : Kernel n) (cur : EnvIx) (s : Sys) (a : Args) (i : EnvIx) : Prop :=
  s = .pageUnmap ∧ envid2env k cur a.a1 false = some i ∧ badUserPage a.a2 = false ∧
    present (k.spaces i (pdx a.a2) (ptx a.a2)) = true

/-! ## Registers and upcalls -/

namespace Spared

theorem refl (k : Kernel n) (i : EnvIx) : Spared k k i := ⟨rfl, rfl⟩

theorem trans (h : Spared k k' i) (h' : Spared k' k'' i) : Spared k k'' i :=
  ⟨h'.1.trans h.1, h'.2.trans h.2⟩

theorem of_core (h : ∀ i, (k'.envs i).core = (k.envs i).core) : Spared k k' i := by
  constructor
  · show (k'.envs i).core.envUpcall = (k.envs i).core.envUpcall
    rw [h]
  · show (k'.envs i).core.envTf = (k.envs i).core.envTf
    rw [h]

theorem of_ne (f : Env n → Env n) (h : i ≠ e) : Spared k (k.modEnv e f) i := by
  rw [Spared, Kernel.modEnv_of_ne _ _ h]
  exact ⟨rfl, rfl⟩

theorem modEnv (f : Env n → Env n) (hu : (f (k.envs e)).envUpcall = (k.envs e).envUpcall)
    (ht : (f (k.envs e)).envTf = (k.envs e).envTf) : Spared k (k.modEnv e f) i := by
  by_cases h : i = e
  · subst h
    rw [Spared, Kernel.modEnv_self]
    exact ⟨hu, ht⟩
  · exact of_ne f h

theorem freed {m : Mem n} : Spared k (freed k c e m) i := by
  by_cases h : i = e
  · subst h; simp [Spared, JosKernel.freed]
  · simp [Spared, JosKernel.freed, h]

end Spared

theorem Destroyed.spared {r : Option Unit} (d : Destroyed k c e r k') : Spared k k' i := by
  cases d with
  | mark => exact .modEnv _ rfl rfl
  | other _ _ free =>
    obtain ⟨_, _, m, -, -, -, rfl⟩ := envFree_ok free
    exact .freed
  | self _ free sched =>
    obtain ⟨_, _, m, -, -, -, rfl⟩ := envFree_ok free
    exact (Spared.freed (m := m) (c := c) (e := e)).trans (.of_core sched.core)

theorem Woken.spared {v : Int} (w : Woken k cur v k') : Spared k k' i := by
  have hd : Spared k (dequeued k cur) i := .modEnv _ rfl rfl
  cases w with
  | empty => exact .refl k i
  | wake => exact hd.trans (.modEnv _ rfl rfl)
  | stale => exact hd

/-- A system call spares foreign environments, apart from the delivery of a message. -/
theorem Called.spared {s : Sys} {a : Args} {r : Option Int} (hslots : SlotInv k)
    (hf : Foreign k cur i) (h : Called k c cur s a r k') :
    Spared k k' i ∨ (Completes k cur s a i ∧ r = some 0 ∧
      (k'.envs i).envUpcall = (k.envs i).envUpcall ∧
      (k'.envs i).envTf.setEax 0 = (k.envs i).envTf.setEax 0) := by
  -- a call with a permission check does not reach `i`
  have hperm : ∀ {id : Word} {e : EnvIx}, envid2env k cur id true = some e → i ≠ e := by
    rintro id e he rfl
    rcases envid2env_perm he with h | h
    · exact hf.ne h
    · exact hf.parent h
  cases h with
  | memory => exact .inl ⟨rfl, rfl⟩
  | cputs _ _ d => exact .inl d.spared
  | destroy _ d => exact .inl d.spared
  | yield sched => exact .inl (.of_core sched.core)
  | @fork _ e g m free _ =>
    have hne : i ≠ e := fun h => hf.live (h ▸ (hslots.forked cur g m free).1)
    exact .inl (by simp [Spared, forked, hne])
  | setStatus => exact .inl (.modEnv _ rfl rfl)
  | setUpcall he => exact .inl (.of_ne _ (hperm he))
  | enqueue =>
    exact .inl ((Spared.modEnv (e := cur) (k := k) _ rfl rfl).trans (.modEnv _ rfl rfl))
  | full => exact .inl (.refl k i)
  | @deliver _ e k₁ _ he hr page _ =>
    obtain ⟨m, p, rfl⟩ := page.state
    by_cases h : i = e
    · subst h
      refine .inr ⟨⟨rfl, he, hr⟩, rfl, ?_, ?_⟩
      · simp [delivered]
      · simp [delivered, Trapframe.setEax]
    · exact .inl ((Spared.of_ne (k := { k with mem := m }) _ h).trans (.of_ne _ h))
  | @refuse _ e k₁ _ _ _ page _ =>
    obtain ⟨m, p, rfl⟩ := page.state
    exact .inl (Spared.modEnv (k := { k with mem := m }) _ rfl rfl)
  | recv _ wake sched =>
    exact .inl ((Spared.modEnv (e := cur) (k := k) _ rfl rfl).trans
      (wake.spared.trans (.of_core sched.core)))
  | recvStale _ wake =>
    exact .inl ((Spared.modEnv (e := cur) (k := k) _ rfl rfl).trans wake.spared)

/-! ## Steps -/

/-- `sys_page_unmap` needs no authority. -/
theorem KInv.unmapped (inv : KInv S x k) {a : Action} {s : Sys} {args : Args}
    (hc : callOf k a = some (cur, s, args)) (hu : Unmaps k cur s args i) (h : Step k a k') :
    k'.spaces i (pdx args.a2) (ptx args.a2) = 0 := by
  obtain ⟨rfl, hi, hva, hp⟩ := hu
  obtain ⟨c, tf, io, rfl, hcur, hd, hno, hs, rfl, -⟩ := step_call hc h
  have hlive := envid2env_live hi (inv.cur c cur hcur)
  obtain ⟨g, hg⟩ := inv.dir_of_live hlive
  obtain ⟨m, hok, -, hsp, -⟩ := inv.mem.pageRemove hg (lt_utop_of_badUserPage hva)
  have hsys : syscall (saved k cur tf) c cur io tf.tfRegs.regEax (argsOf tf).a1 (argsOf tf).a2
      (argsOf tf).a3 (argsOf tf).a4 (argsOf tf).a5 =
      .ok (some 0, { saved k cur tf with mem := m }) := by
    have hg' : pgdirOf (saved k cur tf) i = .ok g := pgdirOf_eq (by rw [saved_dirs]; exact hg)
    unfold syscall
    rw [hs]
    simp only [sysPageUnmap, envid2env_saved, hi, hva, hg', saved_mem, hok, bind, Except.bind,
      pure, Except.pure, returning, Except.map]
    rfl
  have hret := trapReturn_resumed ((trap_syscall hcur hd hno hsys).symm.trans h.2)
  obtain ⟨hm, hdirs⟩ := hret.mem_dirs
  have hspaces : k'.spaces = m.spaces k.dirs := by
    rw [Kernel.spaces, hm, hdirs, setResult, Kernel.dirs_modEnv _ rfl]
    show m.spaces (saved k cur tf).dirs = _
    rw [saved_dirs]
  rw [Kernel.spaces, Mem.spaces_of_dir hg] at hp
  rw [hspaces, hsp, if_pos hp]
  simp [setSpace]

/-- A system call isolates a foreign environment unless it takes a mapping away from it. -/
theorem KInv.isolated_iff (inv : KInv S x k) {a : Action} {s : Sys} {args : Args}
    (ok : StepOk k a) (h : Step k a k') (hc : callOf k a = some (cur, s, args))
    (hf : Foreign k cur i) : Isolated k cur s args i k' ↔ ¬Unmaps k cur s args i := by
  constructor
  · intro hiso hu
    have hz := inv.unmapped hc hu h
    obtain ⟨rfl, -, -, hp⟩ := hu
    rcases hiso with ⟨-, hsp⟩ | ⟨⟨hs, -⟩, -⟩
    · rw [← hsp, hz] at hp
      simp at hp
    · cases hs
  · intro hu
    -- the registers
    have hregs : Spared k k' i ∨ (Completes k cur s args i ∧ k'.eax cur = 0 ∧
        (k'.envs i).envUpcall = (k.envs i).envUpcall ∧
        (k'.envs i).envTf.setEax 0 = (k.envs i).envTf.setEax 0) := by
      obtain ⟨c, tf, io, rfl, hcur, hd, hno, hs, rfl, hcalled⟩ := step_call hc h
      have hsaved : Spared k (saved k cur tf) i := .of_ne _ hf.ne
      have hf' : Foreign (saved k cur tf) cur i :=
        ⟨by simpa using hf.live, hf.ne, by simpa [saved_env] using hf.parent⟩
      rcases hcalled with ⟨v, k₁, called, ret⟩ | called
      · have hret : Spared k₁ k' i := Spared.trans (.of_ne _ hf.ne) (.of_core ret.core)
        rcases called.spared (inv.save cur tf).slots hf' with hsp | ⟨hcomp, hv, hup, htf⟩
        · exact .inl (hsaved.trans (hsp.trans hret))
        · cases hv
          refine .inr ⟨?_, ret.eax, ?_, ?_⟩
          · simpa [Completes, envid2env_saved, saved_env] using hcomp
          · rw [hret.1, hup, hsaved.1]
          · rw [hret.2, htf, hsaved.2]
      · rcases called.spared (inv.save cur tf).slots hf' with hsp | ⟨-, hv, -⟩
        · exact .inl (hsaved.trans hsp)
        · cases hv
    -- the mappings
    have hmaps : k'.spaces i = k.spaces i ∨ (Completes k cur s args i ∧ k'.eax cur = 0 ∧
        ∀ d t, ¬(d = pdx (k.envs i).envIpcDstva ∧ t = ptx (k.envs i).envIpcDstva) →
          k'.spaces i d t = k.spaces i d t) := by
      cases (inv.step ok h).2 with
      | idle hn => simp [hn] at hc
      | upcall _ hn => simp [hn] at hc
      | death hn => simp [hn] at hc
      | touch ha => subst ha; cases hc
      | call hc' eff hr _ =>
        rw [hc] at hc'
        cases hc'
        cases eff with
        | same hsp _ => exact .inl (by rw [hsp])
        | @clear e _ _ _ he _ hsp =>
          have hne : i ≠ e := by
            rintro rfl
            rcases he with h | ⟨-, h⟩
            · exact hf.ne h
            · exact (envid2env_perm h).elim hf.ne hf.parent
          exact .inl (by rw [hsp, Function.update_of_ne hne])
        | @remap e va w _ hre hsp =>
          by_cases hie : i = e
          · subst hie
            cases hre with
            | alloc he => exact ((envid2env_perm he).elim hf.ne hf.parent).elim
            | map _ hd => exact ((envid2env_perm hd).elim hf.ne hf.parent).elim
            | unmap he hva hp => exact (hu ⟨rfl, he, hva, hp⟩).elim
            | send he hr' _ _ _ _ _ _ =>
              refine .inr ⟨⟨rfl, he, hr'⟩, hr 0 rfl, fun d t hdt => ?_⟩
              rw [hsp, setSpace, if_neg fun h => hdt h.2]
          · refine .inl ?_
            funext d t
            rw [hsp, setSpace, if_neg fun h => hie h.1]
    rcases hregs with hregs | ⟨hcomp, hz, hup, htf⟩
    · rcases hmaps with hmaps | ⟨hcomp, hz, hmaps⟩
      · exact .inl ⟨hregs, hmaps⟩
      · exact .inr ⟨hcomp, hz, hregs.1, by rw [hregs.2], hmaps⟩
    · rcases hmaps with hmaps | ⟨-, -, hmaps⟩
      · exact .inr ⟨hcomp, hz, hup, htf, fun d t _ => by rw [hmaps]⟩
      · exact .inr ⟨hcomp, hz, hup, htf, hmaps⟩

/-- After a run whose steps meet `StepOk`, a further such step that makes a system call isolates
every foreign environment, unless it is a `sys_page_unmap` of a page that is mapped there. -/
theorem isolated_iff_not_unmaps {a : Action} {s : Sys} {args : Args}
    (hk : Reachable (Boot S) (fun k a k' => StepOk k a ∧ Step k a k') k) (ok : StepOk k a)
    (h : Step k a k') (hc : callOf k a = some (cur, s, args)) (hf : Foreign k cur i) :
    Isolated k cur s args i k' ↔ ¬Unmaps k cur s args i := by
  obtain ⟨x, inv⟩ := kInv_of_reachable hk
  exact inv.isolated_iff ok h hc hf

/-- The child removes its own mapping of the page that it shares with its parent. -/
theorem isolated_unmapShared : ∃ (k k' : Kernel 16) (args : Args),
    Step k (sysTrap 1 6 0 0x900000 0 0 0) k' ∧ Foreign k 1 0 ∧
      k'.spaces 1 2 256 ≠ k.spaces 1 2 256 ∧ Isolated k 1 .pageUnmap args 0 k' := by
  obtain ⟨k, hk, hp⟩ := reachable_runPlain (.init boot_small) pairRun
    (fun k => decide (k.curenv 1 = some 1 ∧ k.status 1 ≠ .dying ∧ k.status 0 ≠ .free ∧
      (k.envs 0).envParentId ≠ (k.envs 1).envId ∧
      plain k (sysTrap 1 6 0 0x900000 0 0 0) = true ∧ Enabled k (sysTrap 1 6 0 0x900000 0 0 0) ∧
      (perform k (sysTrap 1 6 0 0x900000 0 0 0)).isOk = true ∧
      (after k (sysTrap 1 6 0 0x900000 0 0 0)).spaces 1 2 256 ≠ k.spaces 1 2 256))
    (by decide +kernel)
  obtain ⟨hcur, hd, hlive, hpar, hplain, hen, hok, hsp⟩ := of_decide_eq_true hp
  have hf : Foreign k 1 0 := ⟨hlive, by decide, hpar⟩
  have step := step_after hen hok
  refine ⟨k, _, _, step, hf, hsp, (isolated_iff_not_unmaps hk (stepOk_of_plain hplain) step
    (callOf_eq_some hcur hd rfl rfl) hf).mpr ?_⟩
  rintro ⟨-, he, -⟩
  exact absurd he (by simp [envid2env, argsOf])

/-- The child removes a page of its parent. -/
theorem not_isolated_pageUnmap : ∃ (k k' : Kernel 16) (a : Action) (args : Args),
    Reachable (Boot {p : Fin 16 | p ≠ 0}) Step k ∧ Step k a k' ∧
      callOf k a = some (1, .pageUnmap, args) ∧ Foreign k 1 0 ∧
      ¬Isolated k 1 .pageUnmap args 0 k' := by
  obtain ⟨k, hk, hp⟩ := reachable_runActions (.init boot_small)
    [.start 0, sysTrap 0 4 0 0x800000 7 0 0, sysTrap 0 7 0 0 0 0 0,
      sysTrap 0 8 0x1001 2 0 0 0, .start 1]
    (fun k => decide (k.curenv 1 = some 1 ∧ k.status 1 ≠ .dying ∧ k.status 0 ≠ .free ∧
      (k.envs 0).envParentId ≠ (k.envs 1).envId ∧
      Enabled k (sysTrap 1 6 0x1000 0x800000 0 0 0) ∧
      (perform k (sysTrap 1 6 0x1000 0x800000 0 0 0)).isOk = true ∧
      (after k (sysTrap 1 6 0x1000 0x800000 0 0 0)).spaces 0 2 0 ≠ k.spaces 0 2 0))
    (by decide +kernel)
  obtain ⟨hcur, hd, hlive, hpar, hen, hok, hsp⟩ := of_decide_eq_true hp
  refine ⟨k, _, _, _, hk, step_after hen hok, callOf_eq_some hcur hd rfl rfl,
    ⟨hlive, by decide, hpar⟩, ?_⟩
  rintro (⟨-, h⟩ | ⟨⟨h, -⟩, -⟩)
  · exact hsp (by rw [h])
  · cases h

end JosKernel
