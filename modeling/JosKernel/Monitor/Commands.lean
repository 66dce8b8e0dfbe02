import JosKernel.Pmap.Insert
import JosKernel.Console.Printfmt

/-!
# The kernel monitor

What the commands of `kern/monitor.c` have in common. A command works on the physical memory,
prints with `cprintf` and reads its arguments. A `char *` is the list of the bytes in memory from
there on, so what lies behind the end of an argument is part of it; the list ends where memory
ends, and `argv` may hold anything from entry `argc` on.

Address 0 is not mapped: a null `pte_t *` leads to a page fault in the kernel.
-/
namespace JosKernel

/-- `argv`: for each entry, what is in memory at that address. -/
abbrev Argv := Nat → List Byte

structure MonState (n : Nat) where
  mem : Mem n
  /-- The calls of `cprintf`. -/
  out : List (String × List Word)
  /-- The entries of `argv` that have been read. -/
  read : List Nat

/-- A command, which may panic. -/
abbrev Mon (n : Nat) := ExceptT Panic (StateM (MonState n))

variable {n : Nat} {α β : Type}

namespace Mon

/-- The result and the state that a command leaves. -/
def exec (x : Mon n α) (s : MonState n) : Except Panic α × MonState n := x.run s

def printf (fmt : String) (ap : List Word) : Mon n Unit :=
  modify fun s => { s with out := s.out ++ [(fmt, ap)] }

/-- `argv[i]`. -/
def arg (argv : Argv) (i : Nat) : Mon n (List Byte) := do
  modify fun s => { s with read := s.read ++ [i] }
  pure (argv i)

/-- `s[i]`. -/
def byte (s : List Byte) (i : Nat) : Mon n Byte :=
  match s[i]? with
  | some c => pure c
  | none => throw .kernelPageFault

/-- `argv[i][j]`. -/
def argByte (argv : Argv) (i j : Nat) : Mon n Byte := do
  let s ← arg argv i
  byte s j

/-- `pgdir_walk(kern_pgdir, va, 1)`. -/
def walk (va : Word) : Mon n (Option (Fin n × Fin 1024)) := do
  let s ← get
  match s.mem.pgdirWalk s.mem.kernPgdir va true with
  | .ok (ppte, m) =>
    set { s with mem := m }
    pure ppte
  | .error p => throw p

/-- `*ppte`. -/
def load (ppte : Option (Fin n × Fin 1024)) : Mon n Word :=
  match ppte with
  | some (pt, i) => return (← get).mem.entry pt i
  | none => throw .kernelPageFault

/-- `*ppte = w`. -/
def store (ppte : Option (Fin n × Fin 1024)) (w : Word) : Mon n Unit :=
  match ppte with
  | some (pt, i) => modify fun s => { s with mem := s.mem.setEntry pt i w }
  | none => throw .kernelPageFault

/-- `*ppte = f(*ppte)`. -/
def update (ppte : Option (Fin n × Fin 1024)) (f : Word → Word) : Mon n Unit := do
  let pte ← load ppte
  store ppte (f pte)

variable {x : Mon n α} {f : α → Mon n β} {a : α} {p : Panic} {s s' : MonState n} {argv : Argv}
  {i : Nat} {va w : Word} {pt : Fin n} {t : Fin 1024}

@[simp] theorem exec_pure : (pure a : Mon n α).exec s = (.ok a, s) := rfl

@[simp] theorem exec_get : (get : Mon n (MonState n)).exec s = (.ok s, s) := rfl

@[simp] theorem exec_throw : (throw p : Mon n α).exec s = (.error p, s) := rfl

theorem exec_bind_eq (x : Mon n α) (f : α → Mon n β) (s : MonState n) :
    (x >>= f).exec s = match x.exec s with
      | (.ok a, s') => (f a).exec s'
      | (.error p, s') => (.error p, s') := by
  simp only [exec, bind, ExceptT.bind, ExceptT.bindCont, ExceptT.run, ExceptT.mk, StateT.bind]
  rcases x s with ⟨r, s'⟩
  cases r <;> rfl

theorem exec_bind (h : x.exec s = (.ok a, s')) : (x >>= f).exec s = (f a).exec s' := by
  rw [exec_bind_eq, h]

theorem exec_bind_error (h : x.exec s = (.error p, s')) : (x >>= f).exec s = (.error p, s') := by
  rw [exec_bind_eq, h]

@[simp] theorem exec_printf (fmt : String) (ap : List Word) : (printf fmt ap).exec s =
    (.ok (), { s with out := s.out ++ [(fmt, ap)] }) := rfl

@[simp] theorem exec_arg : (arg argv i).exec s =
    (.ok (argv i), { s with read := s.read ++ [i] }) := rfl

@[simp] theorem exec_load : (load (some (pt, t))).exec s = (.ok (s.mem.entry pt t), s) := rfl

@[simp] theorem exec_load_none : (load none).exec s = (.error .kernelPageFault, s) := rfl

@[simp] theorem exec_store : (store (some (pt, t)) w).exec s =
    (.ok (), { s with mem := s.mem.setEntry pt t w }) := rfl

@[simp] theorem exec_liftExcept (r : Except Panic α) : (liftM r : Mon n α).exec s = (r, s) := by
  cases r <;> rfl

theorem exec_byte {str : List Byte} {c : Byte} (h : str[i]? = some c) :
    (byte str i).exec s = (.ok c, s) := by
  unfold byte
  rw [h]
  rfl

theorem exec_byte_none {str : List Byte} (h : str[i]? = none) :
    (byte str i).exec s = (.error .kernelPageFault, s) := by
  unfold byte
  rw [h]
  rfl

theorem exec_argByte {j : Nat} {c : Byte} (h : (argv i)[j]? = some c) :
    (argByte argv i j).exec s = (.ok c, { s with read := s.read ++ [i] }) := by
  unfold argByte
  rw [exec_bind exec_arg, exec_byte h]

theorem exec_argByte_none {j : Nat} (h : (argv i)[j]? = none) :
    (argByte argv i j).exec s = (.error .kernelPageFault, { s with read := s.read ++ [i] }) := by
  unfold argByte
  rw [exec_bind exec_arg, exec_byte_none h]

@[simp] theorem exec_update (g : Word → Word) : (update (some (pt, t)) g).exec s =
    (.ok (), { s with mem := s.mem.setEntry pt t (g (s.mem.entry pt t)) }) := rfl

@[simp] theorem exec_update_none (g : Word → Word) :
    (update none g).exec s = (.error .kernelPageFault, s) := rfl

theorem exec_walk {m : Mem n} {ppte : Option (Fin n × Fin 1024)}
    (h : s.mem.pgdirWalk s.mem.kernPgdir va true = .ok (ppte, m)) :
    (walk va).exec s = (.ok ppte, { s with mem := m }) := by
  unfold walk
  rw [exec_bind exec_get, h]
  rfl

theorem exec_walk_error (h : s.mem.pgdirWalk s.mem.kernPgdir va true = .error p) :
    (walk va).exec s = (.error p, s) := by
  unfold walk
  rw [exec_bind exec_get, h]
  rfl

end Mon

/-! ## Arguments -/

/-- The loop of `xtoi`. -/
def xtoiLoop (result : Word) : List Byte → Except Panic Word
  | [] => .error .kernelPageFault
  | c :: s =>
    if c = 0 then .ok result
    else if chr '0' ≤ c ∧ c ≤ chr '9' then
      xtoiLoop (result * 16 + c.setWidth 32 - (chr '0').setWidth 32) s
    else if chr 'a' ≤ c ∧ c ≤ chr 'f' then
      xtoiLoop (result * 16 + c.setWidth 32 - (chr 'a').setWidth 32 + 10) s
    else if chr 'A' ≤ c ∧ c ≤ chr 'F' then
      xtoiLoop (result * 16 + c.setWidth 32 - (chr 'A').setWidth 32 + 10) s
    else .error .xtoi

/-- `xtoi`, which skips the first two characters whatever they are. -/
def xtoi (s : List Byte) : Except Panic Word := xtoiLoop 0 (s.drop 2)

/-- `xtoi(argv[i])`. -/
def Mon.argNum (argv : Argv) (i : Nat) : Mon n Word := do
  let s ← Mon.arg argv i
  xtoi s

theorem Mon.exec_argNum {argv : Argv} {i : Nat} {s : MonState n} {r : Except Panic Word}
    (h : xtoi (argv i) = r) :
    (Mon.argNum argv i).exec s = (r, { s with read := s.read ++ [i] }) := by
  unfold argNum
  rw [exec_bind exec_arg, exec_liftExcept, h]

/-- A string that is no number makes `xtoi` panic, unless memory ends before the string does. -/
theorem xtoi_error {s : List Byte} {p : Panic} (h : xtoi s = .error p) :
    p = .xtoi ∨ p = .kernelPageFault := by
  unfold xtoi at h
  generalize (0 : Word) = v at h
  generalize s.drop 2 = l at h
  induction l generalizing v with
  | nil =>
    cases h
    exact .inr rfl
  | cons c l ih =>
    rw [xtoiLoop] at h
    split_ifs at h
    · exact ih _ h
    · exact ih _ h
    · exact ih _ h
    · cases h
      exact .inl rfl

/-- A character of `WHITESPACE`. -/
def isBlank (c : Byte) : Bool := c == 9 || c == 13 || c == 10 || c == 32

def maxargs : Nat := 16

mutual

/-- The loop of `runcmd`, with `argc` arguments saved: the bytes from here on as it leaves them,
and the other arguments. There are none when the line has too many arguments. -/
def splitGap (argc : Nat) : List Byte → Option (List Byte × List (List Byte))
  | [] => none
  | c :: buf =>
    if c = 0 then some (c :: buf, [])
    else if isBlank c then (splitGap argc buf).map fun (b, args) => (0 :: b, args)
    else if argc = maxargs - 1 then none
    else (splitWord (argc + 1) buf).map fun (b, args) => (c :: b, (c :: b) :: args)

/-- Within an argument. -/
def splitWord (argc : Nat) : List Byte → Option (List Byte × List (List Byte))
  | [] => none
  | c :: buf =>
    if c = 0 then some (c :: buf, [])
    else if isBlank c then (splitGap argc buf).map fun (b, args) => (0 :: b, args)
    else (splitWord argc buf).map fun (b, args) => (c :: b, args)

end

/-- The arguments that `runcmd` passes to a command. -/
def Passed (argc : Nat) (argv : Argv) : Prop :=
  ∃ buf b args, splitGap 0 buf = some (b, args) ∧ 0 < argc ∧ argc = args.length ∧
    ∀ i (h : i < args.length), argv i = args[i]

/-- A string that is not empty. -/
def IsWord (s : List Byte) : Prop := ∃ c l, s = c :: l ∧ c ≠ 0 ∧ 0 ∈ l

/-- What `runcmd` has done at the end of the line. -/
structure Split (argc : Nat) (r : List Byte × List (List Byte)) : Prop where
  zero : 0 ∈ r.1
  count : argc + r.2.length < maxargs
  word : ∀ s ∈ r.2, IsWord s

section
variable {argc : Nat} {b buf : List Byte} {c : Byte} {args : List (List Byte)}
  {r : List Byte × List (List Byte)}

theorem Split.nil (h : argc < maxargs) (buf : List Byte) : Split argc (0 :: buf, []) :=
  ⟨List.mem_cons_self, h, fun _ hs => by cases hs⟩

theorem Split.cons (h : Split argc (b, args)) (c : Byte) : Split argc (c :: b, args) :=
  ⟨List.mem_cons_of_mem c h.zero, h.count, h.word⟩

/-- An argument starts. -/
theorem Split.save (h : Split (argc + 1) (b, args)) (hc : c ≠ 0) :
    Split argc (c :: b, (c :: b) :: args) := by
  refine ⟨List.mem_cons_of_mem c h.zero, ?_, ?_⟩
  · have hcount := h.count
    simp only [List.length_cons] at hcount ⊢
    omega
  · intro s hs
    rcases List.mem_cons.mp hs with rfl | hs
    · exact ⟨c, b, rfl, hc, h.zero⟩
    · exact h.word s hs

theorem split_spec (buf : List Byte) : ∀ argc r, argc < maxargs →
    (splitGap argc buf = some r → Split argc r) ∧ (splitWord argc buf = some r → Split argc r) := by
  induction buf with
  | nil =>
    intro argc r _
    constructor
    · intro h
      cases h
    · intro h
      cases h
  | cons c buf ih =>
    intro argc r hargc
    -- a blank is overwritten, both before and after an argument
    have hblank : (splitGap argc buf).map (fun (b, args) => (0 :: b, args)) = some r →
        Split argc r := by
      intro h
      obtain ⟨⟨b, args⟩, hb, rfl⟩ := Option.map_eq_some_iff.mp h
      exact ((ih argc _ hargc).1 hb).cons 0
    constructor
    · intro h
      rw [splitGap] at h
      split_ifs at h with hzero hb hmax
      · cases h
        exact hzero ▸ .nil hargc buf
      · exact hblank h
      · obtain ⟨⟨b, args⟩, hb, rfl⟩ := Option.map_eq_some_iff.mp h
        unfold maxargs at hargc hmax
        exact ((ih (argc + 1) _ (by unfold maxargs; omega)).2 hb).save hzero
    · intro h
      rw [splitWord] at h
      split_ifs at h with hzero hb
      · cases h
        exact hzero ▸ .nil hargc buf
      · exact hblank h
      · obtain ⟨⟨b, args⟩, hb, rfl⟩ := Option.map_eq_some_iff.mp h
        exact ((ih argc _ hargc).2 hb).cons c

end

namespace Passed

variable {argc i : Nat} {argv : Argv}

theorem argc_lt (h : Passed argc argv) : argc < maxargs := by
  obtain ⟨buf, b, args, hsplit, -, rfl, -⟩ := h
  have hcount := ((split_spec buf 0 _ (by decide)).1 hsplit).count
  simpa using hcount

theorem isWord (h : Passed argc argv) (hi : i < argc) : IsWord (argv i) := by
  obtain ⟨buf, b, args, hsplit, -, rfl, hargv⟩ := h
  rw [hargv i hi]
  exact ((split_spec buf 0 _ (by decide)).1 hsplit).word _ (List.getElem_mem hi)

end Passed

/-- The arguments of a line. -/
def lineArgs (line : String) : List (List Byte) :=
  ((splitGap 0 (str line ++ [0])).map Prod.snd).getD []

/-- `argv` for a line, with nothing behind the arguments. -/
def lineArgv (line : String) : Argv := fun i => (lineArgs line).getD i []

theorem passed_lineArgv {line : String} {argc : Nat} (h : (lineArgs line).length = argc)
    (hpos : 0 < argc) : Passed argc (lineArgv line) := by
  cases hsplit : splitGap 0 (str line ++ [0]) with
  | none =>
    rw [lineArgs, hsplit] at h
    exact absurd h hpos.ne
  | some r =>
    have hargs : lineArgs line = r.2 := by
      rw [lineArgs, hsplit]
      rfl
    refine ⟨_, r.1, r.2, hsplit, hpos, by rw [← h, hargs], fun i hi => ?_⟩
    rw [lineArgv, hargs, List.getD_eq_getElem _ _ hi]

/-- The first two bytes of an argument. -/
theorem IsWord.bytes {s : List Byte} (h : IsWord s) : ∃ c d, s[0]? = some c ∧ s[1]? = some d := by
  obtain ⟨c, l, rfl, -, hz⟩ := h
  cases l with
  | nil => cases hz
  | cons d l => exact ⟨c, d, rfl, rfl⟩

/-! ## Looking up an entry -/

namespace Mem

variable {m : Mem n} {g p : Fin n} {va : Word}

/-- The page `p` is taken from the free list and counted. -/
structure Took (m : Mem n) (p : Fin n) (m' : Mem n) : Prop where
  head : m.pageFreeList = some p
  pages : m'.pages = Function.update m.pages p ⟨none, (m.pages p).ppRef + 1⟩
  list : m'.pageFreeList = (m.pages p).ppLink

/-- A new table. -/
theorem pgdirWalk_of_missing (small : n ≤ 2 ^ 20) (hp : present (m.entry g (pdx va)) = false)
    (hl : m.pageFreeList = some p) :
    ∃ m', m.pgdirWalk g va true = .ok (some (p, ptx va), m') ∧ Took m p m' := by
  exact ⟨m.withTable g (pdx va) p, pgdirWalk_withTable hl small hp, hl, pages_withTable .., rfl⟩

end Mem

/-! ## Printing an entry -/

/-- `print_pte_info`. -/
def pteInfo (w : Word) : String × List Word :=
  ("Phys memory: 0x%08x, PTE_P: %x, PTE_W: %x, PTE_U: %x\n",
    [pteAddr w, w &&& pteP, w &&& pteW, w &&& pteU])

def printPteInfo (ppte : Option (Fin n × Fin 1024)) : Mon n Unit := do
  let w ← Mon.load ppte
  Mon.printf (pteInfo w).1 (pteInfo w).2

end JosKernel
