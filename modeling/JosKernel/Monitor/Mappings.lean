import JosKernel.Lib.Loop
import JosKernel.Monitor.Commands

/-!
# `showmappings`

The command of `kern/monitor.c` that prints what a range of addresses is mapped to. It looks the
entries up with `pgdir_walk` in its creating mode, so it makes the page tables that are missing,
and an address without a table is never shown as such before there is one. The loop counter is
32 bits wide: a range in the last page of the address space is never left.
-/
namespace JosKernel

open Lib

variable {n : Nat}

/-! ## The command -/

def showUsage : String :=
  "Usage: showmappings 0xbegin 0xend\nshow page mappings from begin to end.\n"

/-- Up to the loop: the two addresses, unless the usage is printed. -/
def showArgs (argc : Nat) (argv : Argv) : Mon n (Option (Word × Word)) :=
  if argc ≠ 3 then do
    Mon.printf showUsage []
    pure none
  else do
    let va ← Mon.argNum argv 1
    let vend ← Mon.argNum argv 2
    Mon.printf "begin: %x, end: %x\n" [va, vend]
    pure (some (va, vend))

/-- The body of the loop, with the entry at hand. -/
def showEntry (va : Word) (ppte : Option (Fin n × Fin 1024)) : Mon n Unit := do
  let pte ← Mon.load ppte
  if present pte then
    Mon.printf "page of 0x%x: " [va]
    printPteInfo ppte
  else Mon.printf "page not exist: %x\n" [va]

/-- The body of the loop. -/
def showPage (va : Word) : Mon n Unit := do
  let ppte ← Mon.walk va
  if ppte = none then throw .showmappings
  else showEntry va ppte

/-- `for (; va <= vend; va += PGSIZE)`. -/
def showRound (vend : Word) (x : Word × MonState n) :
    (Except Panic Int × MonState n) ⊕ (Word × MonState n) :=
  if x.1 ≤ vend then
    match (showPage x.1).exec x.2 with
    | (.ok (), s) => .inr (x.1 + pgsize, s)
    | (.error p, s) => .inl (.error p, s)
  else .inl (.ok 0, x.2)

/-- `showmappings`; `none` when it has not returned after so many rounds. -/
def showmappings (fuel argc : Nat) (argv : Argv) (s : MonState n) :
    Option (Except Panic Int × MonState n) :=
  match (showArgs argc argv).exec s with
  | (.ok (some (va, vend)), s) => loop (showRound vend) fuel (va, s)
  | (.ok none, s) => some (.ok 0, s)
  | (.error p, s) => some (.error p, s)

/-! ## What it is for -/

/-- The addresses `begin`, `begin + PGSIZE`, … up to `end`. -/
def shown (va vend : Word) : List Word :=
  (List.range ((vend.toNat - va.toNat) / 4096 + 1)).map fun i => va + BitVec.ofNat 32 (i * 4096)

/-- The line for an address with the given entry. -/
def entryLine (va pte : Word) : List (String × List Word) :=
  if present pte then [("page of 0x%x: ", [va]), pteInfo pte] else [("page not exist: %x\n", [va])]

/-- The line for an address that the kernel's directory maps or not. -/
def mappingLine (m : Mem n) (va : Word) : List (String × List Word) :=
  entryLine va (m.pteAt m.kernPgdir (pdx va) (ptx va))

/-- The command returns, has printed the mapping of each address, and has changed nothing. -/
def LooksOnly (argv : Argv) (s : MonState n) (va vend : Word) : Prop :=
  ∃ fuel s', showmappings fuel 3 argv s = some (.ok 0, s') ∧ s'.mem = s.mem ∧
    s'.out = s.out ++ ("begin: %x, end: %x\n", [va, vend]) ::
      (shown va vend).flatMap (mappingLine s.mem)

/-! ## Looking at one page -/

section
variable {s s' : MonState n} {va vend : Word} {pt : Fin n} {m m' : Mem n} {g p : Fin n}

theorem exec_showEntry (t : Fin 1024) : (showEntry va (some (pt, t))).exec s =
    (.ok (), { s with out := s.out ++ entryLine va (s.mem.entry pt t) }) := by
  unfold showEntry entryLine
  rw [Mon.exec_bind Mon.exec_load]
  split_ifs with hp
  · rw [Mon.exec_bind (Mon.exec_printf _ _), printPteInfo, Mon.exec_bind Mon.exec_load,
      Mon.exec_printf, List.append_assoc]
    rfl
  · rw [Mon.exec_printf]

theorem showPage_of_table (ht : s.mem.table s.mem.kernPgdir (pdx va) = some pt) :
    (showPage va).exec s = (.ok (), { s with out := s.out ++ mappingLine s.mem va }) := by
  unfold showPage
  rw [Mon.exec_bind (Mon.exec_walk (Mem.pgdirWalk_of_table ht true)), if_neg (by simp),
    exec_showEntry, mappingLine, Mem.pteAt_of_table ht]

/-- The pages with a link, and the head of the free list. Taking a page leaves less. -/
def Mem.spare (m : Mem n) : ℕ :=
  (Finset.univ.filter fun p => (m.pages p).ppLink ≠ none).card +
    if m.pageFreeList = none then 0 else 1

theorem Mem.Took.spare_lt (h : Took m p m') : m'.spare < m.spare := by
  have hhead : m.pageFreeList ≠ none := by simp [h.head]
  have hlink : ∀ q, (m'.pages q).ppLink = if q = p then none else (m.pages q).ppLink := by
    intro q
    rw [h.pages, Function.update_apply]
    split_ifs <;> rfl
  have herase : (Finset.univ.filter fun q => (m'.pages q).ppLink ≠ none) =
      (Finset.univ.filter fun q => (m.pages q).ppLink ≠ none).erase p := by
    ext q
    by_cases hq : q = p <;> simp [hlink, hq]
  unfold spare
  rw [herase, h.list, if_neg hhead]
  by_cases hp : (m.pages p).ppLink = none
  · rw [Finset.erase_eq_of_notMem (by simp [hp]), if_pos hp]
    omega
  · have hmem : p ∈ Finset.univ.filter fun q => (m.pages q).ppLink ≠ none := by simp [hp]
    have hpos := Finset.card_pos.mpr ⟨p, hmem⟩
    rw [Finset.card_erase_of_mem hmem, if_neg hp]
    omega

/-- A walk that takes no page has found a table. -/
theorem walk_spare (small : n ≤ 2 ^ 20) {i : Fin n × Fin 1024}
    (h : m.pgdirWalk g va true = .ok (some i, m')) :
    m'.spare ≤ m.spare ∧ (m'.spare = m.spare → m' = m ∧ ∃ pt, m.table g (pdx va) = some pt) := by
  cases ht : m.table g (pdx va) with
  | some pt =>
    cases (Mem.pgdirWalk_of_table ht true).symm.trans h
    exact ⟨le_rfl, fun _ => ⟨rfl, pt, rfl⟩⟩
  | none =>
    cases hp : present (m.entry g (pdx va)) with
    | true => cases (Mem.pgdirWalk_of_beyond hp ht true).symm.trans h
    | false =>
      cases hl : m.pageFreeList with
      | none => cases (Mem.pgdirWalk_of_full hp hl).symm.trans h
      | some p =>
        obtain ⟨m₁, hwalk, htook⟩ := Mem.pgdirWalk_of_missing small hp hl
        cases hwalk.symm.trans h
        exact ⟨htook.spare_lt.le, fun he => absurd he htook.spare_lt.ne⟩

theorem showPage_spare (small : n ≤ 2 ^ 20) (h : (showPage va).exec s = (.ok (), s')) :
    s'.mem.spare ≤ s.mem.spare ∧ (s'.mem.spare = s.mem.spare →
      s'.mem = s.mem ∧ ∃ pt, s.mem.table s.mem.kernPgdir (pdx va) = some pt) := by
  unfold showPage at h
  cases hw : s.mem.pgdirWalk s.mem.kernPgdir va true with
  | error e =>
    rw [Mon.exec_bind_error (Mon.exec_walk_error hw)] at h
    cases h
  | ok r =>
    obtain ⟨ppte, m₁⟩ := r
    rw [Mon.exec_bind (Mon.exec_walk hw)] at h
    cases ppte with
    | none =>
      rw [if_pos rfl] at h
      cases h
    | some i =>
      rw [if_neg (by simp), exec_showEntry] at h
      cases h
      exact walk_spare small hw

/-! ## The loop -/

theorem mem_shown {a : Word} : a ∈ shown va vend ↔
    ∃ i ≤ (vend.toNat - va.toNat) / 4096, va + BitVec.ofNat 32 (i * 4096) = a := by
  simp [shown]

theorem length_shown : (shown va vend).length = (vend.toNat - va.toNat) / 4096 + 1 := by
  simp [shown]

theorem add_shown_le {i : ℕ} (hle : va ≤ vend) (hi : i ≤ (vend.toNat - va.toNat) / 4096) :
    va + BitVec.ofNat 32 (i * 4096) ≤ vend := by
  have hv := BitVec.le_def.mp hle
  have hlt := vend.isLt
  rw [BitVec.le_def, BitVec.toNat_add, BitVec.toNat_ofNat]
  omega

theorem ofNat_succ_page (i : ℕ) : va + BitVec.ofNat 32 (i * 4096) + pgsize =
    va + BitVec.ofNat 32 ((i + 1) * 4096) := by
  rw [Nat.add_mul, BitVec.ofNat_add, BitVec.add_assoc]
  rfl

/-- Where all pages have tables and the counter does not wrap around, the loop prints the lines. -/
theorem endsIn_showRound (hle : va ≤ vend)
    (ht : ∀ a ∈ shown va vend, ∃ pt, s.mem.table s.mem.kernPgdir (pdx a) = some pt)
    (hwrap : va.toNat + (shown va vend).length * 4096 < 2 ^ 32) :
    EndsIn (showRound vend) (va, s)
      (.ok 0, { s with out := s.out ++ (shown va vend).flatMap (mappingLine s.mem) }) := by
  -- the state after `i` rounds
  let x : ℕ → Word × MonState n := fun i =>
    (va + BitVec.ofNat 32 (i * 4096), { s with out := s.out ++
      ((List.range i).map fun i => va + BitVec.ofNat 32 (i * 4096)).flatMap (mappingLine s.mem) })
  have hstart : x 0 = (va, s) := by simp [x]
  rw [← hstart]
  refine EndsIn.of_states (k := (shown va vend).length) (fun i hi => ?_) ?_
  · rw [length_shown] at hi
    have hi' : i ≤ (vend.toNat - va.toNat) / 4096 := Nat.lt_succ_iff.mp hi
    obtain ⟨pt, hpt⟩ := ht _ (mem_shown.mpr ⟨i, hi', rfl⟩)
    have hpage := showPage_of_table (s := (x i).2) hpt
    rw [showRound, if_pos (add_shown_le hle hi'), hpage]
    simp [x, ofNat_succ_page, List.range_succ]
  · have hgt : ¬va + BitVec.ofNat 32 ((shown va vend).length * 4096) ≤ vend := by
      rw [BitVec.le_def, BitVec.toNat_add, BitVec.toNat_ofNat]
      rw [length_shown] at hwrap ⊢
      omega
    rw [showRound, if_neg hgt, length_shown]
    rfl

/-- A loop that ends and has taken no page has found a table for every page it shows. -/
theorem tables_of_endsIn (small : n ≤ 2 ^ 20) {x : Word × MonState n}
    {r : Except Panic Int × MonState n} (h : EndsIn (showRound vend) x r) (hok : r.1 = .ok 0) :
    r.2.mem.spare ≤ x.2.mem.spare ∧ (r.2.mem.spare = x.2.mem.spare →
      ∀ i, (∀ j ≤ i, x.1 + BitVec.ofNat 32 (j * 4096) ≤ vend) →
        ∃ pt, x.2.mem.table x.2.mem.kernPgdir (pdx (x.1 + BitVec.ofNat 32 (i * 4096))) =
          some pt) := by
  induction h with
  | @done x r hs =>
    unfold showRound at hs
    split_ifs at hs with hle
    · split at hs
      · cases hs
      · cases hs
        cases hok
    · cases hs
      exact ⟨le_rfl, fun _ i hi => absurd (by simpa using hi 0 (Nat.zero_le i)) hle⟩
  | @next x x' r hs _ ih =>
    unfold showRound at hs
    split_ifs at hs with hle
    split at hs
    next s₁ hpage =>
      obtain rfl := Sum.inr.inj hs
      obtain ⟨hspare, hsame⟩ := showPage_spare small hpage
      obtain ⟨hrest, htables⟩ := ih hok
      refine ⟨hrest.trans hspare, fun heq i hi => ?_⟩
      obtain ⟨hmem, pt, hpt⟩ := hsame (le_antisymm hspare (heq ▸ hrest))
      cases i with
      | zero => exact ⟨pt, by simpa using hpt⟩
      | succ i =>
        have hstep : ∀ j, x.1 + pgsize + BitVec.ofNat 32 (j * 4096) =
            x.1 + BitVec.ofNat 32 ((j + 1) * 4096) := by
          intro j
          rw [← ofNat_succ_page, BitVec.add_assoc, BitVec.add_comm pgsize, ← BitVec.add_assoc]
        rw [← hstep, ← hmem]
        refine htables (by rw [heq, hmem]) i fun j hj => ?_
        rw [hstep]
        exact hi (j + 1) (Nat.succ_le_succ hj)
    next => cases hs

/-- The loop does not end when no address at this offset in its page is above `vend`. -/
theorem not_endsIn_ok {x : Word × MonState n} {r : Except Panic Int × MonState n}
    (hall : ∀ a : Word, a.toNat % 4096 = x.1.toNat % 4096 → a ≤ vend)
    (h : EndsIn (showRound vend) x r) : r.1 ≠ .ok 0 := by
  refine h.invariant (I := fun y => y.1.toNat % 4096 = x.1.toNat % 4096)
    (Q := fun r => r.1 ≠ .ok 0) rfl ?_ ?_
  · intro y y' hy hs
    unfold showRound at hs
    split_ifs at hs
    split at hs
    · obtain rfl := Sum.inr.inj hs
      have hpg : pgsize.toNat = 4096 := rfl
      rw [BitVec.toNat_add, hpg]
      omega
    · cases hs
  · intro y r hy hs
    unfold showRound at hs
    rw [if_pos (hall y.1 hy)] at hs
    split at hs
    · cases hs
    · cases hs
      simp

/-! ## Only looking -/

variable {argv : Argv}

theorem exec_showArgs (hva : xtoi (argv 1) = .ok va) (hvend : xtoi (argv 2) = .ok vend) :
    (showArgs 3 argv).exec s = (.ok (some (va, vend)), { s with
      out := s.out ++ [("begin: %x, end: %x\n", [va, vend])], read := s.read ++ [1] ++ [2] }) := by
  unfold showArgs
  rw [if_neg (by decide), Mon.exec_bind (Mon.exec_argNum hva),
    Mon.exec_bind (Mon.exec_argNum hvend), Mon.exec_bind (Mon.exec_printf _ _)]
  rfl

/-- The command does what its loop does. -/
theorem looksOnly_iff_endsIn (hva : xtoi (argv 1) = .ok va) (hvend : xtoi (argv 2) = .ok vend) :
    LooksOnly argv s va vend ↔ ∃ s', EndsIn (showRound vend)
      (va, { s with out := s.out ++ [("begin: %x, end: %x\n", [va, vend])],
                    read := s.read ++ [1] ++ [2] }) (.ok 0, s') ∧ s'.mem = s.mem ∧
      s'.out = s.out ++ ("begin: %x, end: %x\n", [va, vend]) ::
        (shown va vend).flatMap (mappingLine s.mem) := by
  unfold LooksOnly showmappings
  simp only [exec_showArgs hva hvend, endsIn_iff]
  constructor
  · rintro ⟨fuel, s', hrun, h⟩
    exact ⟨s', ⟨fuel, hrun⟩, h⟩
  · rintro ⟨s', ⟨fuel, hrun⟩, h⟩
    exact ⟨fuel, s', hrun, h⟩

theorem LooksOnly.tables (h : LooksOnly argv s va vend) (small : n ≤ 2 ^ 20)
    (hva : xtoi (argv 1) = .ok va) (hvend : xtoi (argv 2) = .ok vend) (hle : va ≤ vend) :
    ∀ a ∈ shown va vend, ∃ pt, s.mem.table s.mem.kernPgdir (pdx a) = some pt := by
  obtain ⟨s', hrun, hmem, -⟩ := (looksOnly_iff_endsIn hva hvend).mp h
  intro a ha
  obtain ⟨i, hi, rfl⟩ := mem_shown.mp ha
  refine (tables_of_endsIn small hrun rfl).2 (congrArg Mem.spare hmem) i fun j hj => ?_
  exact add_shown_le hle (hj.trans hi)

theorem LooksOnly.no_wrap (h : LooksOnly argv s va vend) (hva : xtoi (argv 1) = .ok va)
    (hvend : xtoi (argv 2) = .ok vend) (hle : va ≤ vend) :
    va.toNat + (shown va vend).length * 4096 < 2 ^ 32 := by
  obtain ⟨s', hrun, -⟩ := (looksOnly_iff_endsIn hva hvend).mp h
  by_contra hwrap
  refine not_endsIn_ok (fun a ha => ?_) hrun rfl
  have hv := BitVec.le_def.mp hle
  have hlt := a.isLt
  rw [length_shown] at hwrap
  dsimp only at ha
  rw [BitVec.le_def]
  omega

/-- `showmappings` only looks if and only if all addresses that it visits have page tables and
the address after the last one is still an address. -/
theorem looksOnly_iff (small : n ≤ 2 ^ 20) (hva : xtoi (argv 1) = .ok va)
    (hvend : xtoi (argv 2) = .ok vend) (hle : va ≤ vend) :
    LooksOnly argv s va vend ↔
      (∀ a ∈ shown va vend, ∃ pt, s.mem.table s.mem.kernPgdir (pdx a) = some pt) ∧
        va.toNat + (shown va vend).length * 4096 < 2 ^ 32 := by
  constructor
  · exact fun h => ⟨h.tables small hva hvend hle, h.no_wrap hva hvend hle⟩
  · rintro ⟨htables, hwrap⟩
    refine (looksOnly_iff_endsIn hva hvend).mpr ⟨_, endsIn_showRound hle htables hwrap, rfl, ?_⟩
    simp

end

/-! ## Two pages -/

/-- The arguments of `showmappings 0x1000 0x2000`. -/
def showArgv : Argv
  | 1 => str "0x1000" ++ [0]
  | 2 => str "0x2000" ++ [0]
  | _ => []

/-- The directory is page 0, and page 1 is free. -/
def lowMem : Mem 2 where
  pages _ := ⟨none, 0⟩
  pageFreeList := some 1
  frame _ _ := 0
  kernPgdir := 0

/-- Page 1 is the table for the lowest addresses. -/
def lowTableMem : Mem 2 := { lowMem with pageFreeList := none }.setEntry 0 0 0x1007

theorem shown_two : shown 0x1000 0x2000 = [0x1000, 0x2000] := by decide

theorem table_lowMem (d : Fin 1024) : lowMem.table 0 d = none := by
  rw [Mem.table, Mem.entry, show lowMem.frame 0 = fun _ => 0 from rfl, rd32_zero]
  rfl

theorem table_lowTableMem : lowTableMem.table 0 0 = some 1 := by
  rw [lowTableMem, Mem.table_setEntry, if_pos ⟨rfl, rfl⟩]
  decide

theorem looksOnly_lowTableMem : LooksOnly showArgv ⟨lowTableMem, [], []⟩ 0x1000 0x2000 := by
  refine (looksOnly_iff (by decide) (by decide) (by decide) (by decide)).mpr ⟨?_, by decide⟩
  rw [shown_two]
  simp only [List.forall_mem_cons]
  exact ⟨⟨1, table_lowTableMem⟩, ⟨1, table_lowTableMem⟩, fun _ h => by cases h⟩

/-- Without a table, the command makes one. -/
theorem not_looksOnly_lowMem : ¬LooksOnly showArgv ⟨lowMem, [], []⟩ 0x1000 0x2000 := by
  intro h
  obtain ⟨pt, hpt⟩ := h.tables (by decide) (by decide) (by decide) (by decide) 0x1000
    (by rw [shown_two]; exact List.mem_cons_self)
  cases (table_lowMem 0).symm.trans hpt

end JosKernel
