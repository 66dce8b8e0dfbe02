import JosKernel.Env.Table
import JosKernel.Pmap.PageInit

/-!
# Allocation of environment slots

Runs of `env_alloc` and `env_free` from `env_init`, with anything in between that leaves the table
alone. A log records which slots were handed out and given back, latest event first, so that
"live" means allocated and not freed since: `env_init` does not write `env_status`, and what a
slot that was never used holds is up to the boot memory.
-/
namespace JosKernel

open Lib

variable {n : Nat}

inductive TableEvent where
  | alloc (e : EnvIx) (envid : Word)
  | free (e : EnvIx)
  deriving DecidableEq

/-- The slot has been allocated and not been freed since. -/
def Alive (e : EnvIx) : List TableEvent → Prop
  | [] => False
  | .alloc i _ :: log => i = e ∨ Alive e log
  | .free i :: log => i ≠ e ∧ Alive e log

instance decidableAlive (e : EnvIx) : (log : List TableEvent) → Decidable (Alive e log)
  | [] => isFalse id
  | .alloc i _ :: log =>
    have := decidableAlive e log
    inferInstanceAs (Decidable (i = e ∨ Alive e log))
  | .free i :: log =>
    have := decidableAlive e log
    inferInstanceAs (Decidable (i ≠ e ∧ Alive e log))

/-- The ids that `env_alloc` gave to a slot, the latest first. -/
def givenIds (e : EnvIx) : List TableEvent → List Word
  | [] => []
  | .alloc i envid :: log => if i = e then envid :: givenIds e log else givenIds e log
  | .free _ :: log => givenIds e log

/-- The slots that `env_alloc` returned, the latest first. -/
def allocOrder : List TableEvent → List EnvIx
  | [] => []
  | .alloc i _ :: log => i :: allocOrder log
  | .free _ :: log => allocOrder log

inductive TableCall where
  | envAlloc (parentId : Word)
  | envFree (c : Cpu) (e : EnvIx)
  | other

/-- The steps of a run. Other code writes neither ids nor links, and makes no environment free. -/
inductive TableStep :
    Kernel n × List TableEvent → TableCall → Kernel n × List TableEvent → Prop
  | envAlloc {k k' : Kernel n} {log : List TableEvent} {parentId : Word} {e : EnvIx} :
    envAlloc k parentId = .ok (.ok e, k') →
      TableStep (k, log) (.envAlloc parentId) (k', .alloc e (k'.envs e).envId :: log)
  | refused {k k' : Kernel n} {log : List TableEvent} {parentId : Word} {r : Int} :
    envAlloc k parentId = .ok (.error r, k') →
      TableStep (k, log) (.envAlloc parentId) (k', log)
  | envFree {k k' : Kernel n} {log : List TableEvent} {c : Cpu} {e : EnvIx} :
    Alive e log → envFree k c e = .ok k' → TableStep (k, log) (.envFree c e) (k', .free e :: log)
  | other {k k' : Kernel n} {log : List TableEvent} :
    SameSlots k k' → (∀ e, (k'.envs e).envId = (k.envs e).envId) →
      TableStep (k, log) .other (k', log)

/-- The states right after `env_init`, with the boot memory's contents in `envs`. -/
def AfterInit (m : Mem n) (envs : EnvIx → Env n) (cpus : Cpu → CpuInfo n)
    (s : Kernel n × List TableEvent) : Prop :=
  s = (⟨m, envInit envs, .env 0, cpus⟩, [])

/-- What `env_alloc` should do with enough memory: it hands out a free slot, or reports that
there is none. -/
def AllocOk (k : Kernel n) (parentId : Word) : Prop :=
  (∃ e k', envAlloc k parentId = .ok (.ok e, k') ∧ k.status e = .free) ∨
    ((∃ k', envAlloc k parentId = .ok (.error (-eNoFreeEnv), k')) ∧ ∀ e, k.status e ≠ .free)

/-- What the slot allocator promises in a state of a run. -/
structure SlotsOk (s : Kernel n × List TableEvent) : Prop where
  /-- The links lead through all free slots, once through each. -/
  list : ∃ l, ListSeg EnvPtr.env (fun e => (s.1.envs e).envLink) s.1.envFreeList l .pastEnd ∧
    l.Nodup ∧ ∀ e, e ∈ l ↔ s.1.status e = .free
  /-- The environments that are live are those with another status than `ENV_FREE`. -/
  live : ∀ e, Alive e s.2 ↔ s.1.status e ≠ .free
  /-- As long as none is freed, slots are handed out in order. -/
  order : (∀ e, .free e ∉ s.2) →
    (allocOrder s.2).reverse = (List.finRange 1024).take (allocOrder s.2).length
  /-- With memory left, the next allocation is as it should be when there is a free slot. -/
  alloc : s.1.mem.pageFreeList ≠ none → ∀ parentId,
    (AllocOk s.1 parentId ↔ ∃ e, s.1.status e = .free)

/-! ## The invariant -/

/-- The list has the slots that are not live. Without a call of `env_free`, those are the slots
after the ones that were handed out. -/
def ListInv (s : Kernel n × List TableEvent) : Prop :=
  ∃ l, ListSeg EnvPtr.env (fun e => (s.1.envs e).envLink) s.1.envFreeList l .pastEnd ∧ l.Nodup ∧
    (∀ e, e ∈ l ↔ ¬Alive e s.2) ∧
    ((∀ e, .free e ∉ s.2) → (allocOrder s.2).reverse ++ l = List.finRange 1024)

/-- The statuses agree with the log. -/
def StatusInv (s : Kernel n × List TableEvent) : Prop := ∀ e, Alive e s.2 ↔ s.1.status e ≠ .free

variable {k k' : Kernel n} {s s' : Kernel n × List TableEvent} {log : List TableEvent}
  {a : TableCall} {e i : EnvIx} {m : Mem n} {envs : EnvIx → Env n} {cpus : Cpu → CpuInfo n}

theorem allocated_env (k : Kernel n) (e : EnvIx) (g : Fin n) (m : Mem n) (parentId : Word)
    (h : i ≠ e) : (allocated k e g m parentId).envs i = k.envs i := Function.update_of_ne h ..

theorem freed_env (k : Kernel n) (c : Cpu) (e : EnvIx) (m : Mem n) (h : i ≠ e) :
    (freed k c e m).envs i = k.envs i := by
  simp [freed, h]

theorem listInv_afterInit (h : AfterInit m envs cpus s) : ListInv s := by
  subst h
  obtain ⟨l, hl, hseg⟩ := listSeg_envInit envs
  refine ⟨l, hseg, hl ▸ List.nodup_finRange 1024, fun e => ?_, fun _ => hl⟩
  exact iff_of_true (hl ▸ List.mem_finRange e) id

theorem ListInv.step (h : ListInv s) (hstep : TableStep s a s') : ListInv s' := by
  obtain ⟨l, hseg, hnd, hmem, horder⟩ := h
  cases hstep with
  | @envAlloc k k' log parentId e halloc =>
    obtain ⟨g, m, hfree, -, rfl⟩ := envAlloc_ok halloc
    simp only at hseg
    rw [hfree] at hseg
    obtain ⟨l', rfl, hseg'⟩ := hseg.of_node (fun _ _ h => EnvPtr.env.inj h) (by simp)
    obtain ⟨hel, hnd'⟩ := List.nodup_cons.mp hnd
    refine ⟨l', ?_, hnd', fun i => ?_, fun hf => ?_⟩
    · refine hseg'.congr fun i hi => ?_
      rw [allocated_env _ _ _ _ _ (ne_of_mem_of_not_mem hi hel)]
    · have hi := hmem i
      rw [List.mem_cons] at hi
      show i ∈ l' ↔ ¬(e = i ∨ Alive i log)
      rw [not_or, ← hi]
      constructor
      · exact fun h => ⟨fun he => hel (he ▸ h), .inr h⟩
      · exact fun h => h.2.resolve_left fun he => h.1 he.symm
    · have hord := horder fun i hi => hf i (List.mem_cons_of_mem _ hi)
      simpa [allocOrder] using hord
  | refused halloc =>
    obtain ⟨-, henvs, hfl⟩ := envAlloc_refused halloc
    refine ⟨l, ?_, hnd, hmem, horder⟩
    simpa [henvs, hfl] using hseg
  | @envFree k k' log c e hlive hfree =>
    obtain ⟨g, m₁, m, -, -, -, rfl⟩ := envFree_ok hfree
    have hel : e ∉ l := fun h => (hmem e).mp h hlive
    refine ⟨e :: l, ⟨rfl, ?_⟩, List.nodup_cons.mpr ⟨hel, hnd⟩, fun i => ?_, fun hf => ?_⟩
    · have hlink : ((freed k c e m).envs e).envLink = k.envFreeList := by simp [freed]
      simp only [hlink]
      refine hseg.congr fun i hi => ?_
      rw [freed_env _ _ _ _ (ne_of_mem_of_not_mem hi hel)]
    · show i ∈ e :: l ↔ ¬(e ≠ i ∧ Alive i log)
      rw [List.mem_cons, hmem, not_and_or, not_ne_iff]
      exact or_congr_left eq_comm
    · exact absurd List.mem_cons_self (hf e)
  | other hs _ =>
    refine ⟨l, ?_, hnd, hmem, horder⟩
    simp only [hs.head]
    exact hseg.congr fun i _ => hs.link i

theorem StatusInv.step (h : StatusInv s) (hstep : TableStep s a s') : StatusInv s' := by
  cases hstep with
  | @envAlloc k k' log parentId e halloc =>
    obtain ⟨g, m, -, -, rfl⟩ := envAlloc_ok halloc
    intro i
    show e = i ∨ Alive i log ↔ _
    by_cases hi : i = e
    · subst hi
      simp [allocated, Kernel.status]
    · have hs : (allocated k e g m parentId).status i = k.status i := by
        rw [Kernel.status, allocated_env _ _ _ _ _ hi, Kernel.status]
      rw [hs, or_iff_right (Ne.symm hi)]
      exact h i
  | refused halloc =>
    intro i
    have hi := h i
    rw [Kernel.status] at hi ⊢
    rwa [(envAlloc_refused halloc).2.1]
  | @envFree k k' log c e _ hfree =>
    obtain ⟨g, m₁, m, -, -, -, rfl⟩ := envFree_ok hfree
    intro i
    show e ≠ i ∧ Alive i log ↔ _
    rw [freed_status]
    by_cases hi : i = e
    · subst hi
      simp
    · rw [if_neg hi, and_iff_right (Ne.symm hi)]
      exact h i
  | other hs _ => exact fun i => (h i).trans (not_congr (hs.free i)).symm

/-! ## The allocator -/

/-- With memory and a free slot at the head of the list, `env_alloc` hands that slot out. -/
theorem envAlloc_of_head (parentId : Word) (hmem : k.mem.pageFreeList ≠ none)
    (he : k.envFreeList = .env e) : ∃ k', envAlloc k parentId = .ok (.ok e, k') := by
  obtain ⟨g, m, hvm⟩ := envSetupVm_some hmem
  unfold envAlloc
  simp only [he, hvm]
  exact ⟨_, rfl⟩

theorem allocOk_iff (hlist : ListInv s) (hstatus : StatusInv s)
    (hmem : s.1.mem.pageFreeList ≠ none) (parentId : Word) :
    AllocOk s.1 parentId ↔ ∃ e, s.1.status e = .free := by
  obtain ⟨l, hseg, -, hl, -⟩ := hlist
  have hfree : ∀ e, e ∈ l ↔ s.1.status e = .free := fun e => by
    rw [hl, hstatus, not_ne_iff]
  constructor
  · rintro (⟨e, k', -, he⟩ | ⟨⟨k', hk'⟩, hnone⟩)
    · exact ⟨e, he⟩
    · -- the list is empty, so its head is the pointer past the array
      have hnil : l = [] := List.eq_nil_iff_forall_not_mem.mpr fun e he => hnone e ((hfree e).mp he)
      subst hnil
      obtain ⟨g, m', hvm⟩ := envSetupVm_some hmem
      unfold envAlloc at hk'
      rw [show s.1.envFreeList = .pastEnd from hseg] at hk'
      simp [hvm, throw, throwThe, MonadExceptOf.throw] at hk'
  · rintro ⟨e, he⟩
    cases l with
    | nil => exact absurd ((hfree e).mpr he) (by simp)
    | cons i l =>
      obtain ⟨k', hk'⟩ := envAlloc_of_head parentId hmem hseg.1
      exact .inl ⟨i, k', hk', (hfree i).mp List.mem_cons_self⟩

theorem slotsOk_of_inv (hlist : ListInv s) (hstatus : StatusInv s) : SlotsOk s := by
  obtain ⟨l, hseg, hnd, hl, horder⟩ := id hlist
  refine
    { list := ⟨l, hseg, hnd, fun e => by rw [hl, hstatus, not_ne_iff]⟩
      live := hstatus
      order := fun hf => ?_
      alloc := fun hmem parentId => allocOk_iff hlist hstatus hmem parentId }
  rw [← horder hf, ← List.length_reverse, List.take_left]

theorem listInv_of_reachable (h : Reachable (AfterInit m envs cpus) TableStep s) : ListInv s :=
  h.invariant (fun _ hs => listInv_afterInit hs) fun _ _ _ hi hs => hi.step hs

/-- The slot allocator keeps its promises in every state of every run exactly when the boot
memory had `ENV_FREE` in all slots; the allocations that fail are those with all slots in use. -/
theorem slotsOk_iff (m : Mem n) (envs : EnvIx → Env n) (cpus : Cpu → CpuInfo n) :
    (∀ s, Reachable (AfterInit m envs cpus) TableStep s → SlotsOk s) ↔
      ∀ e, (envs e).envStatus = .free := by
  constructor
  · intro h e
    have hlive := (h _ (.init rfl)).live e
    exact not_not.mp fun hne => hlive.mpr hne
  · intro henvs s hs
    refine slotsOk_of_inv (listInv_of_reachable hs) (hs.invariant ?_ fun _ _ _ hi hs => hi.step hs)
    rintro s rfl e
    exact iff_of_false id (not_not.mpr (henvs e))

/-! ## The exhausted table -/

/-- A new address space takes one page off the list. -/
theorem envSetupVm_freeList {p : Fin n} {l : List (Fin n)} (h : m.FreeList (p :: l))
    (hp : p ∉ l) : ∃ m', envSetupVm m = (some p, m') ∧ m'.FreeList l := by
  obtain ⟨hres, hhead, hpages⟩ := pageAlloc_some true h.1
  obtain ⟨m₁, hm₁⟩ : ∃ m₁, m.pageAlloc true = (some p, m₁) := ⟨_, Prod.ext hres rfl⟩
  rw [hm₁] at hhead hpages
  unfold envSetupVm
  rw [hm₁]
  refine ⟨_, rfl, ?_⟩
  show ListSeg some (fun q => ((m₁.incRef p).pages q).ppLink) m₁.pageFreeList l none
  rw [show m₁.pageFreeList = (m.pages p).ppLink from hhead]
  refine h.2.congr fun q hq => ?_
  have hqp : q ≠ p := ne_of_mem_of_not_mem hq hp
  rw [Mem.incRef, pages_setPage_of_ne _ hqp, show m₁.pages = _ from hpages,
    Function.update_of_ne hqp]

/-- With enough pages, the first allocations all succeed. -/
theorem exists_run_allocs (envs : EnvIx → Env n) (cpus : Cpu → CpuInfo n) {l : List (Fin n)}
    (hfree : m.FreeList l) (hnd : l.Nodup) {j : ℕ} (hj : j ≤ 1024) (hl : j ≤ l.length) :
    ∃ s, Reachable (AfterInit m envs cpus) TableStep s ∧ (∀ e, .free e ∉ s.2) ∧
      (allocOrder s.2).length = j ∧ s.1.mem.FreeList (l.drop j) := by
  induction j with
  | zero => exact ⟨_, .init rfl, by simp, rfl, hfree⟩
  | succ j ih =>
    obtain ⟨⟨k, log⟩, hs, hnofree, hlen, hpages⟩ := ih (by omega) (by omega)
    obtain ⟨slots, hseg, -, -, horder⟩ := listInv_of_reachable hs
    have hcount := congrArg List.length (horder hnofree)
    rw [List.length_append, List.length_reverse, hlen, List.length_finRange] at hcount
    rw [List.drop_eq_getElem_cons (show j < l.length by omega)] at hpages
    have hp : l[j] ∉ l.drop (j + 1) := fun hmem => by
      have hdrop := hnd.sublist (List.drop_sublist j l)
      rw [List.drop_eq_getElem_cons (show j < l.length by omega)] at hdrop
      exact (List.nodup_cons.mp hdrop).1 hmem
    obtain ⟨m', hvm, hpages'⟩ := envSetupVm_freeList hpages hp
    cases slots with
    | nil => simp at hcount; omega
    | cons e slots =>
      have hhead : k.envFreeList = .env e := hseg.1
      have halloc : envAlloc k 0 = .ok (.ok e, allocated k e l[j] m' 0) := by
        unfold envAlloc
        simp only [hhead, show envSetupVm k.mem = _ from hvm]
        simp [allocated, Kernel.modEnv, pure, Except.pure]
      refine ⟨_, hs.step (.envAlloc halloc), fun i hi => ?_, ?_, hpages'⟩
      · rcases List.mem_cons.mp hi with h | h
        · cases h
        · exact hnofree i h
      · exact congrArg (· + 1) hlen

/-- On a machine with 1300 pages, the allocation that follows the first 1024 reads the link of
an element past the array instead of reporting that no slot is free. -/
theorem not_allocOk_exhausted :
    ∃ m, pageInit (n := 1300) ⟨fun _ => ⟨none, 0⟩, none, fun _ _ => 0, 0⟩ 161 = .ok m ∧
      ∃ s, Reachable (AfterInit m (fun _ => .zero) fun _ => ⟨.boot, none, 0⟩) TableStep s ∧
        s.1.mem.pageFreeList ≠ none ∧ (∀ e, s.1.status e ≠ .free) ∧ ¬AllocOk s.1 0 := by
  obtain ⟨m, hm, hfree, -⟩ := pageInit_spec (n := 1300)
    ⟨fun _ => ⟨none, 0⟩, none, fun _ _ => 0, 0⟩ (show ioPage < 161 by decide) (by decide)
  have hpagecount : (unreserved 1300 161 1300).length = 1297 := by decide +kernel
  have hnd := nodup_unreserved 1300 161 1300
  generalize unreserved 1300 161 1300 = free at hfree hpagecount hnd
  obtain ⟨s, hs, hnofree, hlen, hpages⟩ := exists_run_allocs
    (fun _ => Env.zero) (fun _ => ⟨.boot, none, 0⟩) hfree hnd (j := 1024) le_rfl (by omega)
  have hlist := listInv_of_reachable hs
  have hstatus : StatusInv s := hs.invariant (fun s hs e => by
    subst hs
    exact iff_of_false id (not_not.mpr rfl)) fun _ _ _ hi hst => hi.step hst
  have hmem : s.1.mem.pageFreeList ≠ none := by
    rw [List.drop_eq_getElem_cons (show 1024 < _ by omega)] at hpages
    rw [hpages.1]
    simp
  have hfull : ∀ e, s.1.status e ≠ .free := by
    obtain ⟨l, -, -, hl, horder⟩ := hlist
    have hcount := congrArg List.length (horder hnofree)
    rw [List.length_append, List.length_reverse, hlen, List.length_finRange] at hcount
    have hnil : l = [] := List.eq_nil_of_length_eq_zero (by omega)
    intro e
    rw [← hstatus e, ← not_not (a := Alive e s.2), ← hl e, hnil]
    simp
  refine ⟨m, hm, s, hs, hmem, hfull, fun hok => ?_⟩
  obtain ⟨e, he⟩ := (allocOk_iff hlist hstatus hmem 0).mp hok
  exact hfull e he

end JosKernel
