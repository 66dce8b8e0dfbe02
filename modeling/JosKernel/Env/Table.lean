import JosKernel.Env.Entries

/-!
# The environment table

Which steps free an environment (`Frees`), and what is kept by every step that frees none that is
current on another CPU: the free list holds the free slots, and current environments are live.
Memory plays no part here, so nothing is asked of the page calls.
-/
namespace JosKernel

open Lib

variable {n : Nat} {S : Set (Fin n)} {k k' k₁ : Kernel n} {c : Cpu} {cur e : EnvIx}

/-- The call destroys `e` on the spot. -/
def CallFrees (k : Kernel n) (c : Cpu) (cur : EnvIx) (s : Sys) (a : Args) (e : EnvIx) : Prop :=
  match s with
  | .envDestroy =>
    envid2env k cur a.a1 true = some e ∧ (k.curenv c = some e ∨ k.status e ≠ .running)
  | .cputs => e = cur ∧ ∃ g va, k.dirs cur = some g ∧
      k.mem.userMemCheck g a.a1 a.a2 (0 ||| pteU) = .ok (some va)
  | _ => False

/-- The action frees the environment `e`: its own trap kills it, or it is destroyed while it does
not run elsewhere. -/
def Frees (k : Kernel n) (a : Action) (e : EnvIx) : Prop :=
  match a with
  | .trap c tf _ => ∃ cur, k.curenv c = some cur ∧
      (e = cur ∧ (k.status cur = .dying ∨ Doomed k cur tf) ∨
        k.status cur ≠ .dying ∧ tf.tfTrapno = 48 ∧ ∃ s,
          Sys.ofNat tf.tfRegs.regEax.toNat = some s ∧ CallFrees k c cur s (argsOf tf) e)
  | _ => False

/-- An environment that is freed is current on no CPU but the one that frees it. -/
theorem FreeOk.quiet {a : Action} {tf : Trapframe} {io : Inputs} (ok : FreeOk k a)
    (ha : a = .trap c tf io) (h : Frees k a e) : Quiet k c e := by
  subst ha
  obtain ⟨cur, hc, ⟨rfl, hd⟩ | ⟨hd, hno, s, hs, hf⟩⟩ := h
  · exact ok.2 e hc (hd.imp_right .inl)
  · cases s with
    | envDestroy =>
      obtain ⟨he, hself⟩ := hf
      rcases ok.1 cur _ hc hd hno hs e he with hq | ⟨hne, hr⟩
      · exact hq
      · rcases hself with hself | hself
        · exact absurd (Option.some.inj (hself.symm.trans hc)) hne
        · exact absurd hr hself
    | cputs =>
      obtain ⟨rfl, hbad⟩ := hf
      exact ok.2 e hc (.inr (.inr ⟨hno, hs, hbad⟩))
    | _ => exact hf.elim

/-! ## What a step does to the free list -/

theorem SameSlots.refl (k : Kernel n) : SameSlots k k := ⟨rfl, fun _ => rfl, fun _ => .rfl⟩

theorem SameSlots.trans {k₂ : Kernel n} (h : SameSlots k k₁) (h' : SameSlots k₁ k₂) :
    SameSlots k k₂ :=
  ⟨h'.head.trans h.head, fun e => (h'.link e).trans (h.link e),
    fun e => (h'.free e).trans (h.free e)⟩

/-- The free slots stay, one that satisfies `W` joins them, or the first one leaves. -/
inductive SlotStep (k : Kernel n) (W : EnvIx → Prop) (k' : Kernel n) : Prop
  | same (h : SameSlots k k')
  | free {k₁ : Kernel n} {c : Cpu} {e : EnvIx} {m : Mem n} (hw : W e) (base : SameSlots k k₁)
      (live : k.status e ≠ .free) (h : SameSlots (freed k₁ c e m) k')
  | take {k₁ : Kernel n} {cur e : EnvIx} {g : Fin n} {m : Mem n} (base : SameSlots k k₁)
      (hfree : k.envFreeList = .env e) (h : SameSlots (forked k₁ cur e g m) k')

namespace SlotStep

variable {W W' : EnvIx → Prop}

theorem andThen (h : SlotStep k W k₁) (h' : SameSlots k₁ k') : SlotStep k W k' := by
  cases h with
  | same h => exact .same (h.trans h')
  | free hw base live h => exact .free hw base live (h.trans h')
  | take base hfree h => exact .take base hfree (h.trans h')

theorem after (base : SameSlots k k₁) (h : SlotStep k₁ W k') : SlotStep k W k' := by
  cases h with
  | same h => exact .same (base.trans h)
  | free hw base' live h =>
    exact .free hw (base.trans base') (fun hf => live ((base.free _).mpr hf)) h
  | take base' hfree h => exact .take (base.trans base') (base.head ▸ hfree) h

theorem mono (h : SlotStep k W k') (hw : ∀ e, W e → W' e) : SlotStep k W' k' := by
  cases h with
  | same h => exact .same h
  | free h base live h' => exact .free (hw _ h) base live h'
  | take base hfree h => exact .take base hfree h

theorem slotInv (inv : SlotInv k) (h : SlotStep k W k') : SlotInv k' := by
  cases h with
  | same h => exact inv.congr h
  | @free k₁ c e m _ base live h =>
    exact ((inv.congr base).freed fun hf => live ((base.free _).mp hf)).congr h
  | @take k₁ cur e g m base hfree h =>
    exact ((inv.congr base).forked cur g m (base.head.trans hfree)).2.congr h

/-- An environment that becomes free satisfies `W`. -/
theorem frees (h : SlotStep k W k') (he : k.status e ≠ .free) (he' : k'.status e = .free) :
    W e := by
  cases h with
  | same h => exact absurd ((h.free e).mp he') he
  | free hw base live h =>
    have h' := (h.free e).mp he'
    rw [freed_status] at h'
    split_ifs at h' with hi
    · exact hi ▸ hw
    · exact absurd ((base.free e).mp h') he
  | @take k₁ cur i g m base hfree h =>
    have h' := (h.free e).mp he'
    by_cases hi : e = i
    · subst hi
      simp [forked, Kernel.status, forkedEnv] at h'
    · simp only [forked, Kernel.status, Function.update_of_ne hi] at h'
      exact absurd ((base.free e).mp h') he

end SlotStep

theorem SameSlots.freeSelf (free : envFree k c e = .ok k₁)
    (sched : Scheduled (k₁.modCpu c fun cpu => { cpu with cpuEnv := none }) c k') :
    ∃ m, SameSlots (freed k c e m) k' := by
  obtain ⟨g, m₁, m, -, -, -, rfl⟩ := envFree_ok free
  have base : SameSlots (freed k c e m)
      ((freed k c e m).modCpu c fun cpu => { cpu with cpuEnv := none }) := .of_envs rfl rfl
  exact ⟨m, base.trans sched.sameSlots⟩

theorem Destroyed.slots {r : Option Unit} (hlive : k.status e ≠ .free)
    (d : Destroyed k c e r k') :
    SlotStep k (fun i => i = e ∧ (k.curenv c = some e ∨ k.status e ≠ .running)) k' := by
  cases d with
  | mark _ _ => exact .same (.setStatus hlive (by simp))
  | other hr _ free =>
    obtain ⟨g, m₁, m, -, -, -, rfl⟩ := envFree_ok free
    exact .free ⟨rfl, .inr hr⟩ (.refl k) hlive (.refl _)
  | self hc free sched =>
    obtain ⟨m, h⟩ := SameSlots.freeSelf free sched
    exact .free ⟨rfl, .inl hc⟩ (.refl k) hlive h

theorem SameSlots.delivered {value : Word} {srcva perm : Word} {r : Int}
    (he : k.status e ≠ .free) (page : Sent k cur e srcva perm r k₁) :
    SameSlots k (delivered k₁ cur e value) := by
  obtain ⟨m, p, rfl⟩ := page.state
  have hmem : SameSlots k { k with mem := m } := .of_envs rfl rfl
  refine hmem.trans (.trans (.of_modEnv _ rfl .rfl) (.of_modEnv _ rfl ?_))
  simp only [Kernel.modEnv_self]
  exact ⟨fun h => by simp at h, fun h => absurd h he⟩

theorem Woken.sameSlots {r : Int} (hc : k.status cur ≠ .free) (w : Woken k cur r k') :
    SameSlots k k' := by
  have hdeq : SameSlots k (dequeued k cur) := .of_modEnv _ rfl .rfl
  cases w with
  | empty _ => exact .refl k
  | wake _ _ he =>
    exact hdeq.trans (.setStatus (envid2env_live he fun h => hc ((hdeq.free _).mp h)) (by simp))
  | stale _ _ _ => exact hdeq

theorem Called.slots {s : Sys} {a : Args} {r : Option Int} (hlive : k.status cur ≠ .free)
    (h : Called k c cur s a r k') : SlotStep k (CallFrees k c cur s a) k' := by
  have hrecv : ∀ d, SameSlots k (receiving k cur d) := fun d =>
    .of_modEnv _ rfl ⟨fun h => by simp at h, fun h => absurd h hlive⟩
  have hnr : ∀ d, (receiving k cur d).status cur ≠ .free := by
    simp [receiving, Kernel.status]
  cases h with
  | memory _ => exact .same (.of_envs rfl rfl)
  | cputs hg bad d => exact (d.slots hlive).mono fun i h => ⟨h.1, _, _, hg, bad⟩
  | destroy he d =>
    exact (d.slots (envid2env_live he hlive)).mono fun i h => by
      obtain ⟨rfl, h⟩ := h
      exact ⟨he, h⟩
  | yield sched => exact .same sched.sameSlots
  | fork free _ => exact .take (.refl k) free (.refl _)
  | setStatus he hs =>
    refine .same (.setStatus (envid2env_live he hlive) ?_)
    split_ifs <;> simp
  | setUpcall _ => exact .same (.of_modEnv _ rfl .rfl)
  | enqueue _ _ _ _ =>
    refine .same (.trans (.setStatus hlive ?_) (.of_modEnv _ rfl .rfl))
    simp
  | full _ _ _ => exact .same (.refl k)
  | deliver he _ page _ => exact .same (.delivered (envid2env_live he hlive) page)
  | refuse _ _ page _ =>
    obtain ⟨m, p, rfl⟩ := page.state
    have hmem : SameSlots k { k with mem := m } := .of_envs rfl rfl
    exact .same (hmem.trans (.of_modEnv _ rfl .rfl))
  | recv _ wake sched =>
    exact .same ((hrecv _).trans ((wake.sameSlots (hnr _)).trans sched.sameSlots))
  | recvStale _ wake => exact .same ((hrecv _).trans (wake.sameSlots (hnr _)))

theorem SameSlots.saved (k : Kernel n) (cur : EnvIx) (tf : Trapframe) :
    SameSlots k (saved k cur tf) := .of_modEnv _ rfl .rfl

theorem SameSlots.setResult (k : Kernel n) (cur : EnvIx) (v : Int) :
    SameSlots k (setResult k cur v) := .of_modEnv _ rfl .rfl

theorem callFrees_saved (tf : Trapframe) {s : Sys} {a : Args}
    (h : CallFrees (saved k cur tf) c cur s a e) : CallFrees k c cur s a e := by
  cases s with
  | envDestroy =>
    obtain ⟨he, hself⟩ := h
    rw [envid2env_saved] at he
    refine ⟨he, hself.imp_right fun h hr => h ?_⟩
    rwa [saved_status]
  | cputs =>
    obtain ⟨rfl, g, va, hg, hbad⟩ := h
    refine ⟨rfl, g, va, ?_, hbad⟩
    rwa [saved_dirs] at hg
  | _ => exact h

theorem Trapped.slots {tf : Trapframe} {io : Inputs} (hcur : k.curenv c = some cur)
    (hlive : k.status cur ≠ .free) (h : Trapped k c cur tf io k') :
    SlotStep k (Frees k (.trap c tf io)) k' := by
  have base : SameSlots k (saved k cur tf) := .saved k cur tf
  have hlive' : (saved k cur tf).status cur ≠ .free := by rwa [saved_status]
  have hcalled : ∀ {s r k₁}, k.status cur ≠ .dying → tf.tfTrapno = 48 →
      Sys.ofNat tf.tfRegs.regEax.toNat = some s →
      Called (saved k cur tf) c cur s (argsOf tf) r k₁ →
      SlotStep k (Frees k (.trap c tf io)) k₁ := fun hd hno hs called =>
    .after base ((called.slots hlive').mono fun _ h =>
      ⟨cur, hcur, .inr ⟨hd, hno, _, hs, callFrees_saved tf h⟩⟩)
  cases h with
  | zombie hd free sched =>
    obtain ⟨m, h⟩ := SameSlots.freeSelf free sched
    exact .free ⟨cur, hcur, .inl ⟨rfl, .inl hd⟩⟩ (.refl k) hlive h
  | destroy hd why free sched =>
    obtain ⟨m, h⟩ := SameSlots.freeSelf free sched
    exact .free ⟨cur, hcur, .inl ⟨rfl, .inr why⟩⟩ base hlive h
  | @upcall exc g m k' hd _ _ _ _ _ run =>
    have hmem : SameSlots (saved k cur tf) { saved k cur tf with mem := m } := .of_envs rfl rfl
    have hup : SameSlots k (upcalled k cur tf exc m) :=
      base.trans (hmem.trans (.of_modEnv _ rfl .rfl))
    exact .same (hup.trans (.ran (fun h => hlive ((hup.free cur).mp h)) run))
  | nosys _ _ _ ret => exact .same (base.trans ((SameSlots.setResult _ cur _).trans ret.sameSlots))
  | call hd hno hs called ret =>
    exact (hcalled hd hno hs called).andThen ((SameSlots.setResult _ cur _).trans ret.sameSlots)
  | leave hd hno hs called => exact hcalled hd hno hs called
  | spurious _ _ ret => exact .same (base.trans ret.sameSlots)
  | timer _ _ sched => exact .same (base.trans sched.sameSlots)

/-- What a step does to the free list, when current environments are live. -/
theorem step_slots {a : Action} (live : ∀ c e, k.curenv c = some e → k.status e ≠ .free)
    (h : Step k a k') : SlotStep k (Frees k a) k' := by
  cases a with
  | trap c tf io =>
    obtain ⟨-, -, cur, hc, ht⟩ := step_trap h
    exact ht.slots hc (live c cur hc)
  | wake c no =>
    obtain ⟨-, -, hs | hs⟩ := step_wake h
    · exact .same hs.sameSlots
    · exact .same hs.sameSlots
  | start c =>
    obtain ⟨-, -, hs⟩ := step_start h
    exact .same hs.sameSlots
  | access c va store =>
    obtain ⟨-, -, rfl | ⟨m, -, rfl⟩⟩ := step_access h
    · exact .same (.refl _)
    · exact .same (.of_envs rfl rfl)

end JosKernel
