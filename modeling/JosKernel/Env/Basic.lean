import JosKernel.Env.State

/-!
# Environments and scheduling

The functions of `kern/env.c` and `kern/sched.c`. Functions that do not return to their caller
(`env_run`, `sched_yield`, `sched_halt`) end with the CPU in user mode, halted, or in the
monitor; a function that may or may not return yields an `Option`, with `none` for "does not
return".
-/
namespace JosKernel

variable {n : Nat}

/-! ## Creating environments -/

/-- `env_init`: the last link is the address just past the array. -/
def envInit (envs : EnvIx → Env n) : EnvIx → Env n := fun i =>
  { envs i with
    envId := 0
    envLink := if h : (i : Nat) + 1 < 1024 then .env ⟨i + 1, h⟩ else .pastEnd }

/-- `env_setup_vm`: the new page directory, or `none` for `-E_NO_MEM`. -/
def envSetupVm (m : Mem n) : Option (Fin n) × Mem n :=
  match m.pageAlloc true with
  | (none, m) => (none, m)
  | (some p, m) =>
    let m := m.incRef p
    let m := m.setFrame p (m.frame m.kernPgdir)
    (some p, m.setEntry p (pdx uvpt) (page2pa p ||| pteP ||| pteU))

/-- The id for the next environment in slot `e`, whose last id is `old`. -/
def nextEnvId (old : Word) (e : EnvIx) : Word :=
  let generation := (old + 0x1000) &&& ~~~0x3FF#32
  let generation := if generation.toInt ≤ 0 then 0x1000 else generation
  generation ||| BitVec.ofNat 32 e

/-- Trap frame of a fresh environment. -/
def freshTf : Trapframe :=
  { Trapframe.zero with
    tfDs := 0x23, tfEs := 0x23, tfSs := 0x23, tfCs := 0x1b
    tfEsp := ustacktop, tfEflags := 0x200 }

/-- `env_alloc`: the new environment or a negative return value. -/
def envAlloc (k : Kernel n) (parentId : Word) : Except Panic (Except Int EnvIx × Kernel n) :=
  match k.envFreeList with
  | .null => pure (.error (-eNoFreeEnv), k)
  | .pastEnd =>
    match envSetupVm k.mem with
    | (none, m) => pure (.error (-eNoMem), { k with mem := m })
    -- the source goes on with the element behind the array
    | (some _, _) => throw .outOfBounds
  | .env e =>
    match envSetupVm k.mem with
    | (none, m) => pure (.error (-eNoMem), { k with mem := m })
    | (some pgdir, m) =>
      let k := { k with mem := m }
      let k := k.modEnv e fun env =>
        { env with
          envPgdir := some pgdir
          envId := nextEnvId env.envId e
          envParentId := parentId
          envStatus := .runnable
          envRuns := 0
          envTf := freshTf
          envUpcall := fun _ => 0
          envIpcRecving := false }
      pure (.ok e, { k with envFreeList := (k.envs e).envLink })

/-- The loop of `region_alloc` over the pages of the region. The result of `page_insert` is
ignored. -/
def regionAllocLoop (m : Mem n) (pgdir : Fin n) : List Word → Except Panic (Mem n)
  | [] => pure m
  | va :: vas =>
    match m.pageAlloc false with
    | (none, _) => throw .regionAlloc
    | (some pp, m) => do
      let (_, m) ← m.pageInsert pgdir pp va (pteW ||| pteU)
      regionAllocLoop m pgdir vas

def regionAlloc (m : Mem n) (pgdir : Fin n) (va len : Word) : Except Panic (Mem n) :=
  regionAllocLoop m pgdir (Mem.pageRange (roundDown va pgsize) (roundUp (va + len) pgsize))

/-! ## Destroying environments -/

/-- The loop of `env_free` over the entries of one page table. -/
def envFreePtes (m : Mem n) (pgdir pt : Fin n) (d : Fin 1024) :
    List (Fin 1024) → Except Panic (Mem n)
  | [] => pure m
  | t :: ts => do
    let m ← if present (m.entry pt t) then m.pageRemove pgdir (pgaddr d t 0) else pure m
    envFreePtes m pgdir pt d ts

/-- One directory entry: its mappings, then the page table itself. -/
def envFreePde (m : Mem n) (pgdir : Fin n) (d : Fin 1024) : Except Panic (Mem n) :=
  if present (m.entry pgdir d) then do
    let pa := pteAddr (m.entry pgdir d)
    let pt ← kaddr n pa
    let m ← envFreePtes m pgdir pt d (List.finRange 1024)
    let pp ← pa2page n pa
    (m.setEntry pgdir d 0).pageDecref pp
  else pure m

/-- The loop of `env_free` over the directory entries of user memory. -/
def envFreePdes (m : Mem n) (pgdir : Fin n) : List (Fin 1024) → Except Panic (Mem n)
  | [] => pure m
  | d :: ds => do
    let m ← envFreePde m pgdir d
    envFreePdes m pgdir ds

/-- The directory indices below `PDX(UTOP)`. -/
def userPdxs : List (Fin 1024) := (List.finRange 1024).filter fun d => (d : Nat) < userPdes

def envFree (k : Kernel n) (c : Cpu) (e : EnvIx) : Except Panic (Kernel n) := do
  let k := if k.curenv c = some e then
      k.modCpu c fun cpu => { cpu with cr3 := k.mem.kernPgdir } else k
  match (k.envs e).envPgdir with
  | none => throw .nullPgdir
  | some pgdir => do
    let m ← envFreePdes k.mem pgdir userPdxs
    let m ← m.pageDecref pgdir
    let k := { k with mem := m }
    let k := k.modEnv e fun env =>
      { env with envPgdir := none, envStatus := .free, envLink := k.envFreeList }
    pure { k with envFreeList := .env e }

/-! ## Running environments -/

/-- The context switch of `env_run`: the environment that was running becomes runnable again. -/
def switchTo (k : Kernel n) (c : Cpu) (e : EnvIx) : Except Panic (Kernel n) :=
  let k : Kernel n := match k.curenv c with
    | some cur => if k.status cur = .running then k.setStatus cur .runnable else k
    | none => k
  let k := k.modCpu c fun cpu => { cpu with cpuEnv := some e }
  let k := k.modEnv e fun env =>
    { env with envStatus := .running, envRuns := env.envRuns + 1 }
  match (k.envs e).envPgdir with
  | none => .error .paddr
  | some pgdir => .ok (k.modCpu c fun cpu => { cpu with cr3 := pgdir })

/-- `env_run`, up to the `iret` into user mode. -/
def envRun (k : Kernel n) (c : Cpu) (e : EnvIx) : Except Panic (Kernel n) := do
  let k ← if k.curenv c = some e then pure k else switchTo k c e
  let k := k.modEnv e fun env => { env with envCpunum := c }
  pure (k.modCpu c fun cpu => { cpu with cpuMode := .user })

/-- `sched_halt`. With nothing left to run the CPU stays in the monitor. -/
def schedHalt (k : Kernel n) (c : Cpu) : Kernel n :=
  if ∃ e, k.status e = .runnable ∨ k.status e = .running ∨ k.status e = .dying then
    k.modCpu c fun _ => { cpuMode := .halted, cpuEnv := none, cr3 := k.mem.kernPgdir }
  else k.modCpu c fun cpu => { cpu with cpuMode := .monitor }

/-- The slots in the order in which `sched_yield` looks at them. -/
def schedOrder (offset : EnvIx) : List EnvIx := (List.finRange 1024).map fun i => i + offset

/-- The slot at which `sched_yield` starts. -/
def schedOffset (k : Kernel n) (c : Cpu) : EnvIx :=
  match k.curenv c with
  | some cur => envx (k.envs cur).envId
  | none => 0

def schedYield (k : Kernel n) (c : Cpu) : Except Panic (Kernel n) :=
  match (schedOrder (schedOffset k c)).find? fun e => k.status e = .runnable with
  | some e => envRun k c e
  | none =>
    match k.curenv c with
    | some cur => if k.status cur = .running then envRun k c cur else pure (schedHalt k c)
    | none => pure (schedHalt k c)

/-- `env_destroy`; it does not return when it frees the current environment. -/
def envDestroy (k : Kernel n) (c : Cpu) (e : EnvIx) :
    Except Panic (Option Unit × Kernel n) := do
  if k.status e = .running ∧ k.curenv c ≠ some e then
    pure (some (), k.setStatus e .dying)
  else
    let k ← envFree k c e
    if k.curenv c = some e then
      let k ← schedYield (k.modCpu c fun cpu => { cpu with cpuEnv := none }) c
      pure (none, k)
    else pure (some (), k)

end JosKernel
