import JosKernel.Monitor.Mappings

/-!
# `setperm`

The command of `kern/monitor.c` that changes the flags of an entry of `kern_pgdir`'s page tables.
What it does is recognised by the second letter of `clear`, `set` and `change`. It reads up to
three arguments whatever `argc` is, makes a page table where there is none, and for `change` keeps
no more than bits 3 to 15 of the entry.
-/
namespace JosKernel

variable {n : Nat}

/-! ## The command -/

def setpermUsage : String :=
  "Usage: setperm 0xaddr [(clear | set) [P | W | U] | change 0x<perm> ]\n"

def setpermError : String :=
  "Parameters error!\nUsage: setperm 0xaddr [(clear | set) [P | W | U] | change <perm> ]\n"

/-- The flag that a letter stands for. -/
def permLetter (c : Byte) : Word :=
  if c = chr 'U' then pteU else if c = chr 'W' then pteW else if c = chr 'P' then pteP else 0

/-- The last lines of `setperm`. -/
def setpermDone (addr : Word) (ppte : Option (Fin n × Fin 1024)) : Mon n Int := do
  Mon.printf "setperm success.\npage of 0x%x: " [addr]
  printPteInfo ppte
  pure 0

/-- `setperm` once the entry has been looked up. -/
def setpermEntry (argv : Argv) (addr : Word) (ppte : Option (Fin n × Fin 1024)) : Mon n Int := do
  let c ← Mon.argByte argv 2 1
  if c = chr 'h' then
    let perm ← Mon.argNum argv 3
    Mon.update ppte fun pte => pte &&& 0xfff8 ||| perm
    setpermDone addr ppte
  else
    let letter ← Mon.argByte argv 3 0
    let c ← Mon.argByte argv 2 1
    if c = chr 'l' then
      Mon.update ppte fun pte => pte &&& ~~~permLetter letter
      setpermDone addr ppte
    else
      let c ← Mon.argByte argv 2 1
      if c = chr 'e' then
        Mon.update ppte fun pte => pte ||| permLetter letter
        setpermDone addr ppte
      else
        Mon.printf setpermError []
        pure 0

def setperm (argc : Nat) (argv : Argv) : Mon n Int :=
  if argc = 1 then do
    Mon.printf setpermUsage []
    pure 0
  else do
    let addr ← Mon.argNum argv 1
    let ppte ← Mon.walk addr
    setpermEntry argv addr ppte

/-! ## What it is for -/

/-- The only difference is in the flags of the entry for `addr`. -/
structure PermsOnly (m m' : Mem n) (addr : Word) : Prop where
  pages : m'.pages = m.pages
  list : m'.pageFreeList = m.pageFreeList
  kern : m'.kernPgdir = m.kernPgdir
  dir : ∀ d, m'.entry m.kernPgdir d = m.entry m.kernPgdir d
  others : ∀ d t, ¬(d = pdx addr ∧ t = ptx addr) →
    m'.pteAt m.kernPgdir d t = m.pteAt m.kernPgdir d t
  address : pteAddr (m'.pteAt m.kernPgdir (pdx addr) (ptx addr)) =
    pteAddr (m.pteAt m.kernPgdir (pdx addr) (ptx addr))

/-- A message, which is that of a panic if the command does not return, and no change. -/
def Complains (m : Mem n) (r : Except Panic Int × MonState n) : Prop :=
  r.2.mem = m ∧ (r.1 = .error .xtoi ∨ r.1 = .error .kaddr ∨
    r.1 = .ok 0 ∧ (r.2.out = [(setpermUsage, [])] ∨ r.2.out = [(setpermError, [])]))

/-- The command reads the arguments that it has, and complains or changes permissions only. -/
def SetsPermsOnly (argc : Nat) (argv : Argv) (m : Mem n) : Prop :=
  let r := (setperm argc argv).exec ⟨m, [], []⟩
  (∀ i ∈ r.2.read, i < argc) ∧
    (Complains m r ∨ ∃ addr, xtoi (argv 1) = .ok addr ∧ r.1 = .ok 0 ∧ PermsOnly m r.2.mem addr)

/-! ## What the arguments ask for -/

/-- A change of an entry. -/
inductive PermOp where
  | change (perm : Word)
  | clear (letter : Byte)
  | set (letter : Byte)
  deriving DecidableEq

namespace PermOp

def apply (pte : Word) : PermOp → Word
  | .change perm => pte &&& 0xfff8 ||| perm
  | .clear letter => pte &&& ~~~permLetter letter
  | .set letter => pte ||| permLetter letter

/-- The number that is given has the address of the entry, up to bits that stay. -/
def KeepsAddr (pte : Word) : PermOp → Prop
  | .change perm => pte &&& 0xf000 ||| pteAddr perm = pteAddr pte
  | _ => True

/-- There is nothing to change. -/
def Idle (pte : Word) : PermOp → Prop
  | .change perm => pte &&& 0xfff8 ||| perm = pte
  | .clear letter => pte &&& permLetter letter = 0
  | .set letter => pte &&& permLetter letter = permLetter letter

/-- From the arguments; `none` when there is no such command. -/
def parse (argv : Argv) : Except Panic (Option PermOp) :=
  match (argv 2)[1]?, (argv 3)[0]? with
  | none, _ => .error .kernelPageFault
  | some c, letter =>
    if c = chr 'h' then (xtoi (argv 3)).map fun perm => some (.change perm)
    else
      match letter with
      | none => .error .kernelPageFault
      | some letter =>
        if c = chr 'l' then .ok (some (.clear letter))
        else if c = chr 'e' then .ok (some (.set letter))
        else .ok none

variable {pte : Word} {op : PermOp} {argv : Argv}

theorem permLetter_mem (c : Byte) : permLetter c ∈ [pteU, pteW, pteP, 0] := by
  unfold permLetter
  split_ifs <;> simp

theorem pteAddr_and_not_letter (pte : Word) (c : Byte) :
    pteAddr (pte &&& ~~~permLetter c) = pteAddr pte := by
  have hmask : ∀ w ∈ [pteU, pteW, pteP, 0], ~~~w &&& ~~~0xFFF#32 = ~~~0xFFF#32 := by
    simp only [List.forall_mem_cons]
    exact ⟨by decide, by decide, by decide, by decide, fun _ h => by cases h⟩
  rw [pteAddr, BitVec.and_assoc, hmask _ (permLetter_mem c), pteAddr]

theorem pteAddr_or_letter (pte : Word) (c : Byte) :
    pteAddr (pte ||| permLetter c) = pteAddr pte := by
  have hmask : ∀ w ∈ [pteU, pteW, pteP, 0], w &&& ~~~0xFFF#32 = 0#32 := by
    simp only [List.forall_mem_cons]
    exact ⟨by decide, by decide, by decide, by decide, fun _ h => by cases h⟩
  rw [pteAddr, BitVec.and_or_distrib_right, hmask _ (permLetter_mem c), BitVec.or_zero, pteAddr]

theorem keepsAddr_iff : op.KeepsAddr pte ↔ pteAddr (op.apply pte) = pteAddr pte := by
  cases op with
  | change perm =>
    have hmask : (0xfff8 &&& ~~~0xFFF#32 : Word) = 0xf000 := by decide
    have haddr : pteAddr (pte &&& 0xfff8 ||| perm) = pte &&& 0xf000 ||| pteAddr perm := by
      rw [pteAddr, BitVec.and_or_distrib_right, BitVec.and_assoc, hmask, pteAddr]
    rw [apply, haddr, KeepsAddr]
  | clear letter => exact iff_of_true trivial (pteAddr_and_not_letter pte letter)
  | set letter => exact iff_of_true trivial (pteAddr_or_letter pte letter)

theorem and_not_eq_self_iff (a b : Word) : a &&& ~~~b = a ↔ a &&& b = 0 := by
  simp only [BitVec.eq_of_getLsbD_eq_iff, BitVec.getLsbD_and, BitVec.getLsbD_not]
  grind

theorem or_eq_self_iff (a b : Word) : a ||| b = a ↔ a &&& b = b := by
  simp only [BitVec.eq_of_getLsbD_eq_iff, BitVec.getLsbD_and, BitVec.getLsbD_or]
  grind

theorem idle_iff : op.Idle pte ↔ op.apply pte = pte := by
  cases op with
  | change perm => exact Iff.rfl
  | clear letter => exact (and_not_eq_self_iff _ _).symm
  | set letter => exact (or_eq_self_iff _ _).symm

theorem parse_error {p : Panic} (h : parse argv = .error p) :
    p = .xtoi ∨ p = .kernelPageFault := by
  unfold parse at h
  cases hc : (argv 2)[1]? with
  | none =>
    rw [hc] at h
    cases h
    exact .inr rfl
  | some c =>
    rw [hc] at h
    dsimp only at h
    by_cases hh : c = chr 'h'
    · rw [if_pos hh] at h
      cases hx : xtoi (argv 3) with
      | ok perm =>
        rw [hx] at h
        cases h
      | error q =>
        rw [hx] at h
        cases h
        exact xtoi_error hx
    · rw [if_neg hh] at h
      cases hl : (argv 3)[0]? with
      | none =>
        rw [hl] at h
        cases h
        exact .inr rfl
      | some letter =>
        rw [hl] at h
        dsimp only at h
        split_ifs at h

end PermOp

/-! ## Runs of the command -/

/-- The result and the memory once the entry has been looked up. -/
def setpermResult (m : Mem n) (ppte : Option (Fin n × Fin 1024)) :
    Except Panic (Option PermOp) → Except Panic Int × Mem n
  | .error p => (.error p, m)
  | .ok none => (.ok 0, m)
  | .ok (some op) =>
    match ppte with
    | none => (.error .kernelPageFault, m)
    | some (pt, t) => (.ok 0, m.setEntry pt t (op.apply (m.entry pt t)))

section
variable {m m' : Mem n} {s s' : MonState n} {argv : Argv} {addr w : Word} {pt : Fin n}
  {t : Fin 1024} {ppte : Option (Fin n × Fin 1024)} {argc : Nat}

theorem exec_setpermDone : (setpermDone addr (some (pt, t))).exec s =
    (.ok 0, { s with out := s.out ++ [("setperm success.\npage of 0x%x: ", [addr]),
      pteInfo (s.mem.entry pt t)] }) := by
  unfold setpermDone printPteInfo
  rw [Mon.exec_bind (Mon.exec_printf _ _), Mon.exec_bind_eq, Mon.exec_bind Mon.exec_load,
    Mon.exec_printf, List.append_assoc]
  rfl

/-- One change of the entry and the last lines. -/
theorem exec_changeEntry (op : PermOp) (addr : Word) (ppte : Option (Fin n × Fin 1024))
    (s : MonState n) : ∃ out,
    (Mon.update ppte (fun pte => op.apply pte) >>= fun _ => setpermDone addr ppte).exec s =
      ((setpermResult s.mem ppte (.ok (some op))).1,
        ⟨(setpermResult s.mem ppte (.ok (some op))).2, out, s.read⟩) := by
  cases ppte with
  | none => exact ⟨_, Mon.exec_bind_error (Mon.exec_update_none _)⟩
  | some i =>
    obtain ⟨pt, t⟩ := i
    exact ⟨_, (Mon.exec_bind (Mon.exec_update _)).trans exec_setpermDone⟩

/-- The entries of `argv` that `setperm` reads after the first, in any order. -/
structure ReadRest (argv : Argv) (old new : List Nat) : Prop where
  two : 2 ∈ new
  three : (argv 2)[1]? ≠ none → 3 ∈ new
  only : ∀ i ∈ new, i ∈ old ∨ i = 2 ∨ i = 3

theorem exec_setpermEntry (argv : Argv) (addr : Word) (ppte : Option (Fin n × Fin 1024))
    (s : MonState n) : ∃ out read, (setpermEntry argv addr ppte).exec s =
      ((setpermResult s.mem ppte (PermOp.parse argv)).1,
        ⟨(setpermResult s.mem ppte (PermOp.parse argv)).2, out, read⟩) ∧
      ReadRest argv s.read read ∧
      (PermOp.parse argv = .ok none → out = s.out ++ [(setpermError, [])]) := by
  unfold setpermEntry PermOp.parse
  cases hc : (argv 2)[1]? with
  | none =>
    refine ⟨s.out, s.read ++ [2], Mon.exec_bind_error (Mon.exec_argByte_none hc), ?_, ?_⟩
    · exact ⟨by simp, fun h => absurd hc h, by grind⟩
    · simp
  | some c =>
    rw [Mon.exec_bind (Mon.exec_argByte hc)]
    dsimp only
    by_cases hh : c = chr 'h'
    · rw [if_pos hh, if_pos hh]
      have hread : ReadRest argv s.read (s.read ++ [2] ++ [3]) :=
        ⟨by simp, by simp, by simp⟩
      cases hx : xtoi (argv 3) with
      | error p =>
        refine ⟨s.out, _, Mon.exec_bind_error (Mon.exec_argNum hx), hread, ?_⟩
        intro h
        cases h
      | ok perm =>
        obtain ⟨out, hout⟩ := exec_changeEntry (.change perm) addr ppte
          { s with read := s.read ++ [2] ++ [3] }
        refine ⟨out, _, (Mon.exec_bind (Mon.exec_argNum hx)).trans hout, hread, ?_⟩
        intro h
        cases h
    · rw [if_neg hh, if_neg hh]
      cases hl : (argv 3)[0]? with
      | none =>
        refine ⟨s.out, _, Mon.exec_bind_error (Mon.exec_argByte_none hl), ?_, ?_⟩
        · exact ⟨by simp, by simp, by simp⟩
        · intro h
          cases h
      | some letter =>
        rw [Mon.exec_bind (Mon.exec_argByte hl), Mon.exec_bind (Mon.exec_argByte hc)]
        dsimp only
        by_cases hclear : c = chr 'l'
        · rw [if_pos hclear, if_pos hclear]
          obtain ⟨out, hout⟩ := exec_changeEntry (.clear letter) addr ppte
            { s with read := s.read ++ [2] ++ [3] ++ [2] }
          exact ⟨out, _, hout, ⟨by simp, by simp, by grind⟩, fun h => by cases h⟩
        · rw [if_neg hclear, if_neg hclear, Mon.exec_bind (Mon.exec_argByte hc)]
          dsimp only
          by_cases hset : c = chr 'e'
          · rw [if_pos hset, if_pos hset]
            obtain ⟨out, hout⟩ := exec_changeEntry (.set letter) addr ppte
              { s with read := s.read ++ [2] ++ [3] ++ [2] ++ [2] }
            exact ⟨out, _, hout, ⟨by simp, by simp, by grind⟩, fun h => by cases h⟩
          · rw [if_neg hset, if_neg hset, Mon.exec_bind (Mon.exec_printf _ _)]
            exact ⟨_, _, rfl, ⟨by simp, by simp, by grind⟩, fun _ => rfl⟩

/-! ## The entry -/

/-- No other entry of the directory has the table, and it is not the directory itself. -/
structure SoleTable (m : Mem n) (addr : Word) (pt : Fin n) : Prop where
  notDir : pt ≠ m.kernPgdir
  unique : ∀ d, m.table m.kernPgdir d = some pt → d = pdx addr

theorem PermsOnly.refl (h : m'.pages = m.pages) (hl : m'.pageFreeList = m.pageFreeList)
    (hk : m'.kernPgdir = m.kernPgdir) (he : ∀ p i, m'.entry p i = m.entry p i) :
    PermsOnly m m' addr := by
  have hpte : ∀ d t, m'.pteAt m.kernPgdir d t = m.pteAt m.kernPgdir d t := by
    intro d t
    simp only [Mem.pteAt, Mem.table, he]
  exact ⟨h, hl, hk, fun d => he _ d, fun d t _ => hpte d t, congrArg _ (hpte _ _)⟩

/-- Writing the entry for `addr` changes flags only when the address stays and no other entry is
written with it. -/
theorem permsOnly_setEntry_iff (ht : m.table m.kernPgdir (pdx addr) = some pt) :
    PermsOnly m (m.setEntry pt (ptx addr) w) addr ↔
      w = m.entry pt (ptx addr) ∨
        pteAddr w = pteAddr (m.entry pt (ptx addr)) ∧ SoleTable m addr pt := by
  constructor
  · intro h
    by_cases hw : w = m.entry pt (ptx addr)
    · exact .inl hw
    refine .inr ?_
    have hne : pt ≠ m.kernPgdir := by
      intro hpt
      have hdir := h.dir (ptx addr)
      rw [← hpt, Mem.entry_setEntry, if_pos ⟨rfl, rfl⟩] at hdir
      exact hw hdir
    have htab : ∀ d, (m.setEntry pt (ptx addr) w).table m.kernPgdir d = m.table m.kernPgdir d := by
      intro d
      rw [Mem.table_setEntry, if_neg fun hc => hne hc.1.symm]
    refine ⟨?_, hne, fun d hd => ?_⟩
    · have haddr := h.address
      rwa [Mem.pteAt_of_table ((htab _).trans ht), Mem.pteAt_of_table ht, Mem.entry_setEntry,
        if_pos ⟨rfl, rfl⟩] at haddr
    · by_contra hdne
      have hother := h.others d (ptx addr) fun hc => hdne hc.1
      rw [Mem.pteAt_of_table ((htab _).trans hd), Mem.pteAt_of_table hd, Mem.entry_setEntry,
        if_pos ⟨rfl, rfl⟩] at hother
      exact hw hother
  · rintro (hw | ⟨haddr, hsole⟩)
    · refine .refl rfl rfl rfl fun p i => ?_
      rw [Mem.entry_setEntry]
      split_ifs with hc
      · rw [hc.1, hc.2, hw]
      · rfl
    · have htab : ∀ d, (m.setEntry pt (ptx addr) w).table m.kernPgdir d =
          m.table m.kernPgdir d := by
        intro d
        rw [Mem.table_setEntry, if_neg fun hc => hsole.notDir hc.1.symm]
      refine ⟨rfl, rfl, rfl, fun d => ?_, fun d t hdt => ?_, ?_⟩
      · rw [Mem.entry_setEntry, if_neg fun hc => hsole.notDir hc.1.symm]
      · cases hd : m.table m.kernPgdir d with
        | none => rw [Mem.pteAt_of_no_table ((htab d).trans hd), Mem.pteAt_of_no_table hd]
        | some q =>
          rw [Mem.pteAt_of_table ((htab d).trans hd), Mem.pteAt_of_table hd, Mem.entry_setEntry,
            if_neg]
          rintro ⟨rfl, rfl⟩
          exact hdt ⟨hsole.unique d hd, rfl⟩
      · rwa [Mem.pteAt_of_table ((htab _).trans ht), Mem.pteAt_of_table ht, Mem.entry_setEntry,
          if_pos ⟨rfl, rfl⟩]

/-! ## When only permissions change -/

/-- The arguments after the address name no change. -/
def Refuses (argv : Argv) : Prop :=
  PermOp.parse argv = .ok none ∨ PermOp.parse argv = .error .xtoi

/-- There is an address and a change, which keeps the address of the entry and affects no other
entry, or has no effect. -/
def FlagsOnly (m : Mem n) (argv : Argv) (addr : Word) : Prop :=
  ∃ op pt, PermOp.parse argv = .ok (some op) ∧ m.table m.kernPgdir (pdx addr) = some pt ∧
    (op.Idle (m.entry pt (ptx addr)) ∨
      op.KeepsAddr (m.entry pt (ptx addr)) ∧ SoleTable m addr pt)

/-- The condition on the arguments and the tables. -/
def SetpermOk (argc : Nat) (argv : Argv) (m : Mem n) : Prop :=
  argc = 1 ∨ xtoi (argv 1) = .error .xtoi ∨ ∃ addr, xtoi (argv 1) = .ok addr ∧
    (present (m.entry m.kernPgdir (pdx addr)) = true ∧
        m.table m.kernPgdir (pdx addr) = none ∨
      4 ≤ argc ∧ (FlagsOnly m argv addr ∨ Refuses argv ∧
        (m.table m.kernPgdir (pdx addr) ≠ none ∨ m.pageFreeList = none)))

/-- All entries of `argv` that are read are there if and only if there are four. -/
theorem ReadRest.lt_iff {read : List Nat} (h : ReadRest argv [1] read) (hp : Passed argc argv) :
    (∀ i ∈ read, i < argc) ↔ 4 ≤ argc := by
  constructor
  · intro hall
    have htwo := hall 2 h.two
    obtain ⟨-, d, -, hd⟩ := (hp.isWord htwo).bytes
    exact hall 3 (h.three (by simp [hd]))
  · intro h4 i hi
    rcases h.only i hi with h1 | h2 | h3
    · rw [List.mem_singleton] at h1
      omega
    · omega
    · omega

theorem exec_setperm {ppte : Option (Fin n × Fin 1024)} (hargc : argc ≠ 1)
    (haddr : xtoi (argv 1) = .ok addr)
    (hw : m.pgdirWalk m.kernPgdir addr true = .ok (ppte, m')) :
    (setperm argc argv).exec ⟨m, [], []⟩ =
      (setpermEntry argv addr ppte).exec ⟨m', [], [1]⟩ := by
  unfold setperm
  rw [if_neg hargc, Mon.exec_bind (Mon.exec_argNum haddr)]
  exact Mon.exec_bind (Mon.exec_walk hw)

/-- Without a new table, the outcome is decided by what the arguments ask for. -/
theorem setsPermsOnly_iff_of_walk (hp : Passed argc argv) (hargc : argc ≠ 1)
    (haddr : xtoi (argv 1) = .ok addr)
    (hw : m.pgdirWalk m.kernPgdir addr true = .ok (ppte, m))
    (ht : ppte = (m.table m.kernPgdir (pdx addr)).map fun pt => (pt, ptx addr)) :
    SetsPermsOnly argc argv m ↔ 4 ≤ argc ∧ (FlagsOnly m argv addr ∨ Refuses argv) := by
  obtain ⟨out, read, hexec, hread, hout⟩ := exec_setpermEntry argv addr ppte
    (⟨m, [], [1]⟩ : MonState n)
  unfold SetsPermsOnly
  rw [exec_setperm hargc haddr hw, hexec]
  dsimp only
  refine and_congr (hread.lt_iff hp) ?_
  have haddr' : ∀ P : Word → Prop, (∃ a, xtoi (argv 1) = .ok a ∧ P a) ↔ P addr := by
    intro P
    constructor
    · rintro ⟨a, ha, hP⟩
      cases haddr.symm.trans ha
      exact hP
    · exact fun hP => ⟨addr, haddr, hP⟩
  rw [haddr']
  unfold Complains FlagsOnly Refuses
  cases hparse : PermOp.parse argv with
  | error p =>
    rcases PermOp.parse_error hparse with rfl | rfl
    · simp [setpermResult]
    · simp [setpermResult]
  | ok op =>
    cases op with
    | none => simp [setpermResult, hout hparse]
    | some op =>
      cases htab : m.table m.kernPgdir (pdx addr) with
      | none =>
        rw [htab] at ht
        obtain rfl : ppte = none := ht
        simp [setpermResult]
      | some pt =>
        rw [htab] at ht
        obtain rfl : ppte = some (pt, ptx addr) := ht
        have hiff := permsOnly_setEntry_iff (w := op.apply (m.entry pt (ptx addr))) htab
        rw [← PermOp.idle_iff, ← PermOp.keepsAddr_iff] at hiff
        constructor
        · rintro (⟨hmem, -⟩ | ⟨-, hperms⟩)
          · dsimp only [setpermResult] at hmem
            refine .inl ⟨op, pt, rfl, rfl, hiff.mp ?_⟩
            rw [hmem]
            exact .refl rfl rfl rfl fun _ _ => rfl
          · exact .inl ⟨op, pt, rfl, rfl, hiff.mp hperms⟩
        · rintro (⟨op', pt', hop, hpt, h⟩ | h | h)
          · cases hop
            cases hpt
            exact .inr ⟨rfl, hiff.mpr h⟩
          · cases h
          · cases h

/-- A new table is counted. -/
theorem not_setsPermsOnly_of_took {p : Fin n} (hargc : argc ≠ 1)
    (haddr : xtoi (argv 1) = .ok addr) {ppte : Option (Fin n × Fin 1024)}
    (hw : m.pgdirWalk m.kernPgdir addr true = .ok (ppte, m')) (took : Mem.Took m p m') :
    ¬SetsPermsOnly argc argv m := by
  obtain ⟨out, read, hexec, -, -⟩ := exec_setpermEntry argv addr ppte (⟨m', [], [1]⟩ : MonState n)
  have hpages : (setpermResult m' ppte (PermOp.parse argv)).2.pages = m'.pages := by
    unfold setpermResult
    split
    · rfl
    · rfl
    · split <;> rfl
  have hne : m'.pages ≠ m.pages := by
    intro h
    have href := congrArg PageInfo.ppRef (congrFun (took.pages.symm.trans h) p)
    rw [Function.update_self] at href
    dsimp only at href
    generalize (m.pages p).ppRef = r at href
    bv_omega
  rintro ⟨-, h⟩
  rw [exec_setperm hargc haddr hw, hexec] at h
  rcases h with ⟨hmem, -⟩ | ⟨_, -, -, hperms⟩
  · dsimp only at hmem
    exact hne (hpages.symm.trans (congrArg Mem.pages hmem))
  · exact hne (hpages.symm.trans hperms.pages)

/-- `setperm` changes permissions only if and only if the condition holds. -/
theorem setsPermsOnly_iff (small : n ≤ 2 ^ 20) (hp : Passed argc argv) :
    SetsPermsOnly argc argv m ↔ SetpermOk argc argv m := by
  by_cases hargc : argc = 1
  · refine iff_of_true ?_ (.inl hargc)
    have hexec : (setperm argc argv).exec ⟨m, [], []⟩ =
        (.ok 0, ⟨m, [(setpermUsage, [])], []⟩) := by
      unfold setperm
      rw [if_pos hargc]
      rfl
    unfold SetsPermsOnly
    rw [hexec]
    dsimp only
    exact ⟨fun i hi => by simp at hi, .inl ⟨rfl, .inr (.inr ⟨rfl, .inl rfl⟩)⟩⟩
  have hpos : 1 < argc := by
    obtain ⟨_, _, _, -, hpos, -⟩ := hp
    omega
  unfold SetpermOk
  simp only [hargc, false_or]
  cases haddr : xtoi (argv 1) with
  | error p =>
    have hexec : (setperm argc argv).exec ⟨m, [], []⟩ = (.error p, ⟨m, [], [1]⟩) := by
      unfold setperm
      rw [if_neg hargc]
      exact Mon.exec_bind_error (Mon.exec_argNum haddr)
    unfold SetsPermsOnly Complains
    rw [hexec]
    rcases xtoi_error haddr with rfl | rfl
    · simp [hpos]
    · simp
  | ok addr =>
    simp only [reduceCtorEq, false_or, Except.ok.injEq, exists_eq_left']
    cases ht : m.table m.kernPgdir (pdx addr) with
    | some pt =>
      rw [setsPermsOnly_iff_of_walk hp hargc haddr (Mem.pgdirWalk_of_table ht true)
        (by rw [ht]; rfl)]
      simp
    | none =>
      cases hpde : present (m.entry m.kernPgdir (pdx addr)) with
      | true =>
        have hexec : (setperm argc argv).exec ⟨m, [], []⟩ = (.error .kaddr, ⟨m, [], [1]⟩) := by
          unfold setperm
          rw [if_neg hargc, Mon.exec_bind (Mon.exec_argNum haddr)]
          exact Mon.exec_bind_error (Mon.exec_walk_error (Mem.pgdirWalk_of_beyond hpde ht true))
        refine iff_of_true ?_ (.inl ⟨rfl, rfl⟩)
        unfold SetsPermsOnly Complains
        rw [hexec]
        simp [hpos]
      | false =>
        cases hl : m.pageFreeList with
        | none =>
          rw [setsPermsOnly_iff_of_walk hp hargc haddr (Mem.pgdirWalk_of_full hpde hl)
            (by rw [ht]; rfl)]
          simp
        | some p =>
          obtain ⟨m', hw, took⟩ := Mem.pgdirWalk_of_missing small hpde hl
          refine iff_of_false (not_setsPermsOnly_of_took hargc haddr hw took) ?_
          simp [FlagsOnly, ht]

end

/-! ## Two lines -/

theorem soleTable_lowTableMem : SoleTable lowTableMem 0x1000 1 := by
  refine ⟨by decide, fun d hd => ?_⟩
  rw [lowTableMem, Mem.table_setEntry] at hd
  split_ifs at hd with hc
  · exact hc.2
  · cases (table_lowMem d).symm.trans hd

theorem setsPermsOnly_set :
    SetsPermsOnly 4 (lineArgv "setperm 0x1000 set P") lowTableMem := by
  have hp : Passed 4 (lineArgv "setperm 0x1000 set P") := passed_lineArgv (by decide) (by decide)
  refine (setsPermsOnly_iff (by decide) hp).mpr (.inr (.inr ⟨0x1000, by decide, .inr ⟨le_rfl, ?_⟩⟩))
  exact .inl ⟨.set (chr 'P'), 1, by decide, table_lowTableMem,
    .inr ⟨trivial, soleTable_lowTableMem⟩⟩

/-- Page 16 is mapped at `0x1000`. -/
def mappedMem : Mem 32 :=
  (({ pages _ := ⟨none, 1⟩, pageFreeList := none, frame _ _ := 0, kernPgdir := 0 } :
    Mem 32).setEntry 0 0 0x1007).setEntry 1 1 0x10003

theorem table_mappedMem : mappedMem.table mappedMem.kernPgdir (pdx 0x1000) = some 1 := by
  have hdir : mappedMem.kernPgdir = 0 := rfl
  rw [hdir, mappedMem, Mem.table_setEntry, if_neg (by decide), Mem.table_setEntry,
    if_pos ⟨rfl, by decide⟩]
  decide

/-- A change of the flags to their values moves the mapping to page 0. -/
theorem not_setsPermsOnly_change : Passed 4 (lineArgv "setperm 0x1000 change 0x3") ∧
    ¬SetsPermsOnly 4 (lineArgv "setperm 0x1000 change 0x3") mappedMem := by
  have hp : Passed 4 (lineArgv "setperm 0x1000 change 0x3") :=
    passed_lineArgv (by decide) (by decide)
  have haddr : xtoi (lineArgv "setperm 0x1000 change 0x3" 1) = .ok 0x1000 := by decide
  have hparse : PermOp.parse (lineArgv "setperm 0x1000 change 0x3") = .ok (some (.change 3)) := by
    decide
  have hpte : mappedMem.entry 1 (ptx 0x1000) = 0x10003 := by
    rw [mappedMem, Mem.entry_setEntry, if_pos ⟨rfl, by decide⟩]
  refine ⟨hp, fun h => ?_⟩
  obtain ⟨-, ⟨op, pt, hop, hpt, hkeep⟩ | hrefuses⟩ :=
    (setsPermsOnly_iff_of_walk hp (by decide) haddr (Mem.pgdirWalk_of_table table_mappedMem true)
      (by rw [table_mappedMem]; rfl)).mp h
  · cases hparse.symm.trans hop
    cases table_mappedMem.symm.trans hpt
    rw [hpte] at hkeep
    rcases hkeep with hidle | ⟨hsame, -⟩
    · have hne : (0x10003 &&& 0xfff8 ||| 3 : Word) ≠ 0x10003 := by decide
      exact hne hidle
    · have hne : (0x10003 &&& 0xf000 ||| pteAddr 3 : Word) ≠ pteAddr 0x10003 := by decide
      exact hne hsame
  · rw [Refuses, hparse] at hrefuses
    rcases hrefuses with h | h <;> cases h

end JosKernel
