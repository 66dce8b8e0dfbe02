import JosKernel.Env.Trap
import JosKernel.Lib.Runs
import JosKernel.Pmap.Spec

/-!
# Boot

The states in which `i386_init` enters the scheduler. `MemInit` says what `mem_init` leaves
behind; `S` is the set of pages that are free at that point. Then `env_init` sets up the
environment table and `env_create` adds environments one by one: it allocates the environment,
maps the regions of its binary and copies the binary into them.

`env_init` writes ids and links only, and nothing else clears the table. What it relies on is
`ZeroEnvs`: the memory behind the kernel, where `boot_alloc` puts the table, is zero at power-on.

All CPUs run on `kern_pgdir` with no current environment. A machine has up to `NCPU` CPUs, so
some may be `off`.
-/
namespace JosKernel

open Lib

variable {n : Nat}

/-- The state of memory after `mem_init`. -/
structure MemInit (S : Set (Fin n)) (m : Mem n) : Prop where
  small : n ≤ 2 ^ 20
  free : ∃ l, m.FreeList l ∧ l.Nodup ∧ ∀ p, p ∈ l ↔ p ∈ S
  ref : ∀ p ∈ S, (m.pages p).ppRef = 0
  kern : m.kernPgdir ∉ S
  kernUser : ∀ d : Fin 1024, (d : Nat) < userPdes → present (m.entry m.kernPgdir d) = false
  kernHigh : KernHigh m

/-- A slot of `envs[]` at power-on. -/
def Env.zero : Env n where
  envTf := .zero
  envLink := .null
  envId := 0
  envParentId := 0
  envStatus := .free
  envRuns := 0
  envCpunum := 0
  envPgdir := none
  envUpcall := fun _ => 0
  envIpcRecving := false
  envIpcDstva := 0
  envIpcValue := 0
  envIpcFrom := 0
  envIpcPerm := 0
  envIpcWaitingHead := 0
  envIpcWaitingTail := 0
  envIpcWaiting := fun _ => 0

/-- The table before `env_init`. -/
def ZeroEnvs (envs : EnvIx → Env n) : Prop := ∀ e, envs e = .zero

theorem ZeroEnvs.eq {envs : EnvIx → Env n} (h : ZeroEnvs envs) : envs = fun _ => .zero := funext h

/-- What `load_icode` does to memory: regions are allocated and bytes stored in them, all in user
memory. -/
inductive Load (g : Fin n) : Mem n → Mem n → Prop
  | done {m : Mem n} : Load g m m
  | region {m m₁ m₂ : Mem n} {va len : Word} (h : Load g m m₁)
      (user : va.toNat + len.toNat ≤ utop.toNat) (ok : regionAlloc m₁ g va len = .ok m₂) :
      Load g m m₂
  | store {m m₁ m₂ : Mem n} {va : Word} {b : Byte} (h : Load g m m₁) (user : va < utop)
      (ok : m₁.storeByte g va b false = some m₂) : Load g m m₂

/-- An environment with its entry point set. -/
def entered (k : Kernel n) (e : EnvIx) (eip : Word) : Kernel n :=
  k.modEnv e fun env => { env with envTf := { env.envTf with tfEip := eip } }

/-- `env_init` and any number of calls of `env_create` have been made. -/
inductive Created (S : Set (Fin n)) : Kernel n → Prop
  | init {m : Mem n} {envs : EnvIx → Env n} {cpus : Cpu → CpuInfo n} (mem : MemInit S m)
      (zero : ZeroEnvs envs)
      (mode : ∀ c, (cpus c).cpuMode = .off ∨ (cpus c).cpuMode = .boot)
      (idle : ∀ c, (cpus c).cpuEnv = none) (cr3 : ∀ c, (cpus c).cr3 = m.kernPgdir) :
      Created S ⟨m, envInit envs, .env 0, cpus⟩
  | create {k k₁ : Kernel n} {e : EnvIx} {g : Fin n} {m : Mem n} {eip : Word}
      (h : Created S k) (alloc : envAlloc k 0 = .ok (.ok e, k₁))
      (hg : (k₁.envs e).envPgdir = some g) (load : Load g k₁.mem m) :
      Created S (entered { k₁ with mem := m } e eip)

/-- The kernel has booted, and there is memory left. -/
def Boot (S : Set (Fin n)) (k : Kernel n) : Prop := Created S k ∧ k.mem.pageFreeList ≠ none

/-- Running actions from a state that can be reached leads to such a state. -/
theorem reachable_runActions {init : Kernel n → Prop} {k : Kernel n}
    (hk : Reachable init Step k) (as : List Action) (p : Kernel n → Bool)
    (h : (runActions k as).any p = true) :
    ∃ k', Reachable init Step k' ∧ p k' = true := by
  induction as generalizing k with
  | nil => exact ⟨k, hk, by simpa [runActions] using h⟩
  | cons a as ih =>
    simp only [runActions] at h
    split_ifs at h with hen
    · split at h
      · rename_i k' hp
        exact ih (hk.step ⟨hen, hp⟩) h
      · simp at h
    · simp at h

/-- The state after the given actions, if all of them are possible and pass a test. -/
def runWhile (ok : Kernel n → Action → Bool) (k : Kernel n) : List Action → Option (Kernel n)
  | [] => some k
  | a :: as =>
    if ok k a = true ∧ Enabled k a then
      match perform k a with
      | .ok k' => runWhile ok k' as
      | .error _ => none
    else none

/-- A test that is enough for `P` makes the steps of the run meet `P`. -/
theorem reachable_runWhile {init : Kernel n → Prop} {k : Kernel n}
    {P : Kernel n → Action → Prop} (ok : Kernel n → Action → Bool)
    (hok : ∀ k a, ok k a = true → P k a)
    (hk : Reachable init (fun k a k' => P k a ∧ Step k a k') k) (as : List Action)
    (p : Kernel n → Bool) (h : (runWhile ok k as).any p = true) :
    ∃ k', Reachable init (fun k a k' => P k a ∧ Step k a k') k' ∧ p k' = true := by
  induction as generalizing k with
  | nil => exact ⟨k, hk, by simpa [runWhile] using h⟩
  | cons a as ih =>
    simp only [runWhile] at h
    split_ifs at h with hen
    · split at h
      · rename_i k' hp
        exact ih (hk.step ⟨hok k a hen.1, hen.2, hp⟩) h
      · simp at h
    · simp at h

/-- The state after an action. -/
def after (k : Kernel n) (a : Action) : Kernel n :=
  match perform k a with
  | .ok k' => k'
  | .error _ => k

theorem step_after {k : Kernel n} {a : Action} (hen : Enabled k a)
    (hok : (perform k a).isOk = true) : Step k a (after k a) := by
  refine ⟨hen, ?_⟩
  unfold after
  cases h : perform k a with
  | error _ => simp [h, Except.isOk, Except.toBool] at hok
  | ok k' => rfl

/-! ### Runs given by a list of actions -/

def actionAt (as : List Action) (i : ℕ) : Action := as.getD i (.start 0)

/-- The state after the first `i` actions. -/
def stateAt (k : Kernel n) (as : List Action) : ℕ → Kernel n
  | 0 => k
  | i + 1 => after (stateAt k as i) (actionAt as i)

theorem isRun_stateAt {k : Kernel n} {as : List Action} {N : ℕ}
    (h : ∀ i < N, Enabled (stateAt k as i) (actionAt as i) ∧
      (perform (stateAt k as i) (actionAt as i)).isOk = true) :
    IsRun Step N (stateAt k as) (actionAt as) := fun i hi => step_after (h i hi).1 (h i hi).2

/-! ## A small machine

Sixteen pages, the first of which holds `kern_pgdir`, two CPUs, and one environment without any
mappings. Counterexamples are runs of this machine. -/

def smallMem : Mem 16 where
  pages p :=
    { ppLink := if h : 0 < (p : Nat) ∧ (p : Nat) + 1 < 16 then some ⟨p + 1, h.2⟩ else none
      ppRef := if p = 0 then 1 else 0 }
  pageFreeList := some 1
  frame := fun _ _ => 0
  kernPgdir := 0

def smallInit : Kernel 16 :=
  ⟨smallMem, envInit fun _ => .zero, .env 0,
    fun c => ⟨if c < 2 then .boot else .off, none, 0⟩⟩

/-- `env_create` for a program without segments. -/
def createEmpty (k : Kernel n) : Kernel n :=
  match envAlloc k 0 with
  | .ok (.ok e, k₁) => entered k₁ e 0x800020
  | _ => k

def small : Kernel 16 := createEmpty smallInit

/-- User code on CPU `c` makes system call `no`. -/
def sysTrap (c : Cpu) (no a1 a2 a3 a4 a5 : Word) : Action :=
  .trap c { freshTf with tfTrapno := 48, tfRegs := ⟨a4, a5, 0, 0, a3, a1, a2, no⟩ } ⟨0, 0⟩

/-- The environment maps a page, forks, maps the page into the child as well, and makes the child
runnable, which then runs on the second CPU. -/
def pairRun : List Action :=
  [.start 0, sysTrap 0 4 0 0x800000 7 0 0, sysTrap 0 7 0 0 0 0 0,
    sysTrap 0 5 0 0x800000 0x1001 0x900000 5, sysTrap 0 8 0x1001 2 0 0 0, .start 1]

/-- With a `kern_pgdir` that is clear, only the pages matter. -/
theorem memInit_of_clear {S : Set (Fin n)} {m : Mem n} (small : n ≤ 2 ^ 20)
    (free : ∃ l, m.FreeList l ∧ l.Nodup ∧ ∀ p, p ∈ l ↔ p ∈ S)
    (ref : ∀ p ∈ S, (m.pages p).ppRef = 0) (kern : m.kernPgdir ∉ S)
    (hclear : m.frame m.kernPgdir = fun _ => 0) : MemInit S m := by
  have hzero : ∀ d, m.entry m.kernPgdir d = 0#32 := fun d => by rw [Mem.entry, hclear, rd32_zero]
  refine ⟨small, free, ref, kern, fun d _ => ?_, fun d _ _ hp => ?_⟩
  · rw [hzero]
    exact present_zero
  · rw [hzero, present_zero] at hp
    cases hp

theorem memInit_small : MemInit {p : Fin 16 | p ≠ 0} smallMem :=
  memInit_of_clear (by decide) ⟨(List.finRange 16).tail, by decide, by decide, by decide⟩
    (by decide) (by simp [smallMem]) rfl

theorem created_createEmpty {S : Set (Fin n)} {k k₁ : Kernel n} {e : EnvIx} (h : Created S k)
    (ok : envAlloc k 0 = .ok (.ok e, k₁)) (hg : ((k₁.envs e).envPgdir).isSome = true) :
    Created S (createEmpty k) := by
  obtain ⟨g, hg⟩ := Option.isSome_iff_exists.mp hg
  have : createEmpty k = entered { k₁ with mem := k₁.mem } e 0x800020 := by
    rw [createEmpty, ok]
  rw [this]
  exact .create h ok hg .done

theorem boot_small : Boot {p : Fin 16 | p ≠ 0} small := by
  refine ⟨created_createEmpty (.init memInit_small (fun _ => rfl) ?_ ?_ ?_) rfl rfl, ?_⟩
  · decide
  · decide
  · decide
  · decide

-- runs of the small machine are evaluated by the kernel only
attribute [irreducible] small

end JosKernel
