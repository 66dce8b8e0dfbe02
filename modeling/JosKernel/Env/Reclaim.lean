import JosKernel.Env.Total
import JosKernel.Env.Counts

/-!
# What `env_free` reclaims

`Exact` describes the states in which nothing is lost: every counter of the pages in `S` is the
number of references, the free list holds the pages without any, and page tables are not shared.
Nothing else is assumed: an environment may map its own directory and tables as data, and the
scheduler and the CPUs may be in any state. `env_free` leads from such a state to another one, and
takes away the references of the one environment only.
-/
namespace JosKernel

open Lib

variable {n : Nat} {S : Set (Fin n)} {k k' : Kernel n} {c : Cpu} {e e' : EnvIx} {g p : Fin n}

/-- The page that a slot of a live environment refers to. -/
def Kernel.owned (k : Kernel n) : Slot EnvIx → Option (Fin n) := k.mem.target k.liveDirs

structure Exact (S : Set (Fin n)) (k : Kernel n) : Prop where
  refs : ExactRefs S k
  list : ∃ free, k.mem.FreeList free ∧ (∀ p ∈ free, p ∈ S) ∧
    ∀ p ∈ S, p ∉ free → (k.mem.pages p).ppLink = none
  live : ∀ e, k.status e ≠ .free → k.dirs e ≠ none
  managed : ∀ s p, k.owned s = some p → p ∈ S
  pdeOk : ∀ e g (d : Fin 1024), k.liveDirs e = some g → (d : Nat) < userPdes →
    present (k.mem.entry g d) = true → pgnum (k.mem.entry g d) < n
  pteOk : ∀ e g d t, k.liveDirs e = some g → present (k.mem.pte g d t) = true →
    pgnum (k.mem.pte g d t) < n
  /-- Directories and tables have one slot, and no mappings by other environments. -/
  unshared : ∀ s s' p, s.Struct → k.owned s = some p → k.owned s' = some p →
    s' = s ∨ ¬s'.Struct ∧ s'.space = s.space
  /-- Above `UTOP` there are none but the environment's own directory. -/
  window : ∀ e g (d : Fin 1024) s p, k.liveDirs e = some g → userPdes ≤ (d : Nat) →
    pageOf n (k.mem.entry g d) = some p → s.Struct → k.owned s = some p → s = .dir e

/-- The references of all environments but `e`. -/
def Kernel.others (k : Kernel n) (e : EnvIx) : Slot EnvIx → Option (Fin n) :=
  fun s => if s.space = e then none else k.owned s

/-- `k'` is what is left of `k` without `e`. -/
structure Reclaimed (S : Set (Fin n)) (k : Kernel n) (e : EnvIx) (k' : Kernel n) : Prop where
  exact : Exact S k'
  /-- Directory, tables and pages of `e` alone are free, once each. -/
  freed : ∃ free, k'.mem.FreeList free ∧ free.Nodup ∧ ∀ s p, s.space = e → k.owned s = some p →
    s.Struct ∨ (∀ s', k.owned s' = some p → s'.space = e) → p ∈ free
  /-- All other references are there, and no more. -/
  kept : k'.owned = k.others e
  ref : ∀ p ∈ S, k'.mem.ref p = count (k.others e) p
  inUse : ∀ s p, s.space ≠ e → k.owned s = some p → ¬k'.mem.OnFreeList p
  dirs : ∀ e', e' ≠ e → k'.liveDirs e' = k.liveDirs e'
  translate : ∀ e' g va user write, e' ≠ e → k.liveDirs e' = some g →
    k'.mem.translate g va user write = k.mem.translate g va user write

/-! ## Exact states and accounted references -/

namespace Exact

theorem distinct (ex : Exact S k) : Distinct k.mem k.liveDirs := fun s s' p hs hs' hp hp' =>
  (ex.unshared s s' p hs hp hp').resolve_right fun h => h.1 hs'

theorem accounted (ex : Exact S k) : Accounted S k.liveDirs 0 ∅ k.mem := by
  obtain ⟨free, hfree, hsub, hlink⟩ := ex.list
  have hcount : ∀ p, count (k.mem.target k.liveDirs) p = k.refs p :=
    count_target_liveDirs fun e e' g he he' => ex.distinct.dir_inj he he'
  refine ⟨⟨free, hfree, ⟨?_, fun p => ?_, fun p hp => ?_, ex.managed, ?_⟩, hlink⟩, ex.distinct,
    ex.pdeOk, ex.pteOk⟩
  · exact ListSeg.nodup (Option.some_injective _) (by simp) hfree
  · rw [hcount, Pi.zero_apply, Nat.add_zero]
    constructor
    · intro hp
      have hS := hsub p hp
      exact ⟨hS, (ex.refs p hS).2.mp (hfree.onFreeList_iff.mpr hp), Set.notMem_empty p⟩
    · rintro ⟨hS, h0, -⟩
      exact hfree.onFreeList_iff.mp ((ex.refs p hS).2.mpr h0)
  · rw [hcount, Pi.zero_apply, Nat.add_zero]
    exact (ex.refs p hp).1
  · exact fun p hp => absurd hp (Set.notMem_empty p)

end Exact

/-- Accounted references without outside ones are exact counts. -/
theorem Accounted.exactRefs (acc : Accounted S k.liveDirs 0 ∅ k.mem) : ExactRefs S k := by
  obtain ⟨free, hfree, c, -⟩ := acc.account
  intro p hp
  have hcount : count (k.mem.target k.liveDirs) p = k.refs p :=
    count_target_liveDirs (fun e e' g he he' => acc.distinct.dir_inj he he') p
  have href := c.ref_eq p hp
  have hmem := c.mem_free p
  rw [Pi.zero_apply, Nat.add_zero] at href hmem
  rw [hfree.onFreeList_iff, hmem, ← hcount]
  exact ⟨href, fun h => h.2.1, fun h => ⟨hp, h, Set.notMem_empty p⟩⟩

theorem liveDirs_freed (k : Kernel n) (c : Cpu) (e : EnvIx) (m : Mem n) :
    (freed k c e m).liveDirs = Function.update k.liveDirs e none := by
  funext i
  unfold Kernel.liveDirs
  rw [freed_status, KInv.dirs_freed, Function.update_apply, Function.update_apply]
  by_cases hi : i = e <;> simp [hi]

theorem Accounted.list (acc : Accounted S k.liveDirs 0 ∅ k.mem) :
    ∃ free, k.mem.FreeList free ∧ (∀ p ∈ free, p ∈ S) ∧
      ∀ p ∈ S, p ∉ free → (k.mem.pages p).ppLink = none := by
  obtain ⟨free, hfree, c, hlink⟩ := acc.account
  exact ⟨free, hfree, fun p hp => ((c.mem_free p).mp hp).1, hlink⟩

/-! ## Under the kernel invariant -/

/-- States in which nothing is unaccounted for are exact, when the allocator has none of the
kernel's tables. -/
theorem KInv.exact {x : Fin n → ℕ} (inv : KInv S x k) (hx : ∀ p ∈ S, x p = 0)
    (high : ∀ (d : Fin 1024) p, userPdes ≤ (d : Nat) → d ≠ pdx uvpt →
      pageOf n (k.mem.entry k.mem.kernPgdir d) = some p → p ∉ S) : Exact S k where
  refs := inv.exactRefs_iff.mpr hx
  list := by
    obtain ⟨free, hfree, c, hlink⟩ := inv.mem.account
    exact ⟨free, hfree, fun p hp => ((c.mem_free p).mp hp).1, hlink⟩
  live := inv.live_dirs
  managed s p hs := by
    rw [Kernel.owned, inv.liveDirs] at hs
    exact inv.mem.target_mem hs
  pdeOk e g d he hd hp := by
    rw [inv.liveDirs] at he
    exact (inv.mem.pdeOk e g d he hd hp).1
  pteOk e g d t he := by
    rw [inv.liveDirs] at he
    exact inv.mem.pteOk e g d t he
  unshared s s' p hs hp hp' := by
    rw [Kernel.owned, inv.liveDirs] at hp hp'
    exact .inl (inv.mem.excl s s' p hs hp hp')
  window e g d s p he hd hp hs hsp := by
    rw [inv.liveDirs] at he
    rw [Kernel.owned, inv.liveDirs] at hsp
    rw [inv.mem.dirHigh e g d he hd, highPde] at hp
    split_ifs at hp with huvpt
    · obtain rfl : g = p := by
        have hno := (pageOf_eq_some.mp hp).2
        rw [pgnum_or, pgnum_or, pgnum_page2pa inv.mem.small, show pgnum pteP = 0 from rfl,
          show pgnum pteU = 0 from rfl, Nat.or_zero, Nat.or_zero] at hno
        exact Fin.ext hno
      exact (inv.mem.excl s (.dir e) g hs hsp he).symm
    · exact absurd (inv.mem.target_mem hsp) (high d p hd huvpt hp)

/-! ## `env_free` -/

/-- The slots of `e` are empty, and no pages but its directory and tables were written. -/
structure Emptied (S : Set (Fin n)) (k : Kernel n) (e : EnvIx) (k' : Kernel n) : Prop where
  acc : Accounted S k'.liveDirs 0 ∅ k'.mem
  cleared : Cleared {s | s.space = e} k.owned k'.owned
  live : ∀ e', k'.status e' ≠ .free → e' ≠ e ∧ k.status e' ≠ .free
  dirs : ∀ e', e' ≠ e → k'.dirs e' = k.dirs e' ∧ k'.liveDirs e' = k.liveDirs e'
  frame : ∀ q, (∀ s : Slot EnvIx, s.Struct → s.space = e → k.owned s ≠ some q) →
    k'.mem.frame q = k.mem.frame q

theorem envFree_emptied (ex : Exact S k) (hlive : k.status e ≠ .free) (c : Cpu) :
    ∃ k', envFree k c e = .ok k' ∧ Emptied S k e k' := by
  obtain ⟨g, hg⟩ := Option.ne_none_iff_exists'.mp (ex.live e hlive)
  have hlg : k.liveDirs e = some g := (liveDirs_of_live hlive).trans hg
  obtain ⟨m₁, m, hpdes, hdec, acc, hc, hf, -⟩ := ex.accounted.envFreeMem hlg
  refine ⟨freed k c e m, envFree_eq hg hpdes hdec, ?_, ?_, fun e' he' => ?_, fun e' hne => ?_,
    fun q hq => ?_⟩
  · rw [liveDirs_freed]
    exact acc
  · rw [Kernel.owned, Kernel.owned, liveDirs_freed]
    exact hc
  · rw [freed_status] at he'
    split_ifs at he' with hne
    · exact absurd rfl he'
    · exact ⟨hne, he'⟩
  · rw [liveDirs_freed, KInv.dirs_freed, Function.update_of_ne hne, Function.update_of_ne hne]
    exact ⟨rfl, rfl⟩
  · refine hf q (fun hqg => hq (.dir e) trivial rfl (hqg ▸ hlg)) fun d hd => ?_
    exact hq (.pde e d) trivial rfl ((Mem.target_pde hlg).trans hd)

namespace Emptied

theorem owned_iff (h : Emptied S k e k') {s : Slot EnvIx} :
    k'.owned s = some p ↔ s.space ≠ e ∧ k.owned s = some p := h.cleared.eq_some_iff

theorem dir_of_dir (h : Emptied S k e k') (he' : k'.liveDirs e' = some g) :
    e' ≠ e ∧ k.liveDirs e' = some g := h.owned_iff (s := .dir e') |>.mp he'

/-- The directories of other environments are as before. -/
theorem frame_dir (h : Emptied S k e k') (ex : Exact S k) (he' : k.liveDirs e' = some g)
    (hne : e' ≠ e) : k'.mem.frame g = k.mem.frame g :=
  h.frame g fun s hs hse hsp => by
    have hsame := ex.distinct s (.dir e') g hs trivial hsp he'
    rw [← hsame] at hse
    exact hne hse

/-- So are the tables that they refer to, also above `UTOP`. -/
theorem frame_table (h : Emptied S k e k') (ex : Exact S k) (he' : k.liveDirs e' = some g)
    (hne : e' ≠ e) {d : Fin 1024} {pt : Fin n} (hpt : pageOf n (k.mem.entry g d) = some pt) :
    k'.mem.frame pt = k.mem.frame pt := h.frame pt fun s hs hse hsp => by
  by_cases hd : (d : Nat) < userPdes
  · have htab : k.owned (.pde e' d) = some pt :=
      (Mem.target_pde he').trans ((Mem.ptab_eq hd).trans hpt)
    have hsame := ex.distinct s (.pde e' d) pt hs trivial hsp htab
    rw [← hsame] at hse
    exact hne hse
  · rw [ex.window e' g d s pt he' (by omega) hpt hs hsp] at hse
    exact hne hse

theorem exact (h : Emptied S k e k') (ex : Exact S k) : Exact S k' where
  refs := h.acc.exactRefs
  list := h.acc.list
  live e' he' := by
    obtain ⟨hne, hlive⟩ := h.live e' he'
    rw [(h.dirs e' hne).1]
    exact ex.live e' hlive
  managed s p hs := h.acc.target_mem hs
  pdeOk := h.acc.pdeOk
  pteOk := h.acc.pteOk
  unshared s s' p hs hp hp' := ex.unshared s s' p hs (h.owned_iff.mp hp).2 (h.owned_iff.mp hp').2
  window e' g d s p he' hd hp hs hsp := by
    obtain ⟨hne, he₀⟩ := h.dir_of_dir he'
    rw [Mem.entry, h.frame_dir ex he₀ hne] at hp
    exact ex.window e' g d s p he₀ hd hp hs (h.owned_iff.mp hsp).2

/-- What is freed: pages that only `e` refers to. -/
theorem mem_free (h : Emptied S k e k') {free : List (Fin n)} (hfree : k'.mem.FreeList free)
    (hS : p ∈ S) :
    p ∈ free ↔ ∀ s', k.owned s' = some p → s'.space = e := by
  obtain ⟨free', hfree', c, -⟩ := h.acc.account
  obtain rfl := hfree.unique hfree'
  have hcount : count (k'.mem.target k'.liveDirs) p = 0 ↔ _ := h.cleared.count_eq_zero
  rw [c.mem_free, Pi.zero_apply, Nat.add_zero, hcount]
  exact ⟨fun hm => hm.2.1, fun hall => ⟨hS, hall, Set.notMem_empty p⟩⟩

theorem kept (h : Emptied S k e k') : k'.owned = k.others e := by
  funext s
  unfold Kernel.others
  split_ifs with hs
  · exact h.cleared.empty s hs
  · exact h.cleared.keep s hs

theorem reclaimed (h : Emptied S k e k') (ex : Exact S k) : Reclaimed S k e k' where
  exact := h.exact ex
  freed := by
    obtain ⟨free, hfree, -, -⟩ := h.acc.list
    refine ⟨free, hfree, ListSeg.nodup (Option.some_injective _) (by simp) hfree,
      fun s p hse hp hown => (h.mem_free hfree (ex.managed s p hp)).mpr ?_⟩
    rcases hown with hs | hall
    · intro s' hp'
      rcases ex.unshared s s' p hs hp hp' with rfl | ⟨-, hspace⟩
      · exact hse
      · exact hspace.trans hse
    · exact hall
  kept := h.kept
  ref p hp := by
    obtain ⟨free, -, c, -⟩ := h.acc.account
    have href := c.ref_eq p hp
    rw [Pi.zero_apply, Nat.add_zero] at href
    rw [← h.kept]
    exact href
  inUse s p hse hp hfree := by
    obtain ⟨free, hlist, hmem⟩ := hfree
    exact hse ((h.mem_free hlist (ex.managed s p hp)).mp hmem s hp)
  dirs e' hne := (h.dirs e' hne).2
  translate e' g va user write hne he' :=
    Mem.translate_congr (congrArg (rd32 · (pdx va)) (h.frame_dir ex he' hne))
      (fun _ hpt => congrArg (rd32 · (ptx va)) (h.frame_table ex he' hne hpt)) ..

end Emptied

/-- In a state with exact counts, `env_free` reclaims what the environment owns and nothing else,
and does not panic. -/
theorem envFree_reclaims (ex : Exact S k) (hlive : k.status e ≠ .free) (c : Cpu) :
    ∃ k', envFree k c e = .ok k' ∧ Reclaimed S k e k' := by
  obtain ⟨k', hfree, h⟩ := envFree_emptied ex hlive c
  exact ⟨k', hfree, h.reclaimed ex⟩

/-- `env_create` for a program that has one segment, without contents. -/
def createRegion (k : Kernel n) (va len : Word) : Kernel n :=
  match envAlloc k 0 with
  | .ok (.ok e, k₁) =>
    match (k₁.envs e).envPgdir with
    | some g =>
      match regionAlloc k₁.mem g va len with
      | .ok m => entered { k₁ with mem := m } e va
      | .error _ => k
    | none => k
  | _ => k

theorem created_createRegion {va len : Word} (h : Created S k)
    (user : va.toNat + len.toNat ≤ utop.toNat) : Created S (createRegion k va len) := by
  unfold createRegion
  split
  · next halloc =>
    split
    · next hg =>
      split
      · next hreg => exact .create h halloc hg (.region .done user hreg)
      · exact h
    · exact h
  · exact h

/-- The small machine with two pages in the first environment. -/
def smallRegion : Kernel 16 := createRegion smallInit 0x800000 0x2000

theorem boot_smallRegion : Boot {p : Fin 16 | p ≠ 0} smallRegion := by
  refine ⟨created_createRegion (.init memInit_small (fun _ => rfl) ?_ ?_ ?_) (by decide), ?_⟩
  · decide
  · decide
  · decide
  · decide +kernel

/-- The environment forks and maps its first page into the child as well. -/
def sharingRun : List Action :=
  [.start 0, sysTrap 0 7 0 0 0 0 0, sysTrap 0 5 0 0x800000 0x1001 0x900000 5]

theorem exact_sharingRun : Exact {p : Fin 16 | p ≠ 0} (stateAt smallRegion sharingRun 3) := by
  have hrun : IsRun (fun k a k' => StepOk k a ∧ Step k a k') 3 (stateAt smallRegion sharingRun)
      (actionAt sharingRun) := isRun_plain (by decide +kernel)
  obtain ⟨x, inv, hx⟩ := kInv_of_run boot_smallRegion hrun
  have hnone : ∀ d : Fin 1024, userPdes ≤ (d : Nat) → d ≠ pdx uvpt →
      present ((stateAt smallRegion sharingRun 3).mem.entry 0 d) = false := by decide +kernel
  have hkern : (stateAt smallRegion sharingRun 3).mem.kernPgdir = 0 := by decide +kernel
  refine inv.exact (hx.mpr fun i hi => ?_) fun d p hd hne hp => ?_
  · interval_cases i
    · exact not_allocates rfl
    · exact not_allocates_of_no (by decide)
    · exact not_allocates_of_no (by decide)
  · rw [hkern, pageOf_of_not_present (hnone d hd hne)] at hp
    cases hp

/-- The child has page 2 as well; page 4 is the environment's own. -/
theorem envFree_reclaims_sharingRun :
    let k := stateAt smallRegion sharingRun 3
    (pageOf 16 (k.spaces 0 2 0) = some 2 ∧ pageOf 16 (k.spaces 1 2 0x100) = some 2 ∧
      pageOf 16 (k.spaces 0 2 1) = some 4) ∧
      ∃ k', envFree k 0 0 = .ok k' ∧ Reclaimed {p : Fin 16 | p ≠ 0} k 0 k' :=
  ⟨by decide +kernel, envFree_reclaims exact_sharingRun (by decide +kernel) 0⟩

end JosKernel
