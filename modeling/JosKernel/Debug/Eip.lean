import JosKernel.Debug.Stabs

/-!
# Finding out about an instruction address

`debuginfo_eip` of `kern/kdebug.c`. For an address of a user program, where the table and its
strings are comes from the program itself. `mem` is memory as the kernel reads it, and `check` tells
which ranges `user_mem_check` accepts for the current environment. The sum of two indices overflows
only in tables of more than `2 ^ 30` entries, which do not fit in memory; of a search in these only
the first probe is as it is here.
-/
namespace JosKernel

open Lib

def ustabdata : Word := 0x200000

def nSo : Int := 0x64

def nSline : Int := 0x44

def nSol : Int := 0x84

def nPsym : Int := 0xa0

/-- `struct UserStabData`. -/
structure UserStabData where
  stabs : Word
  stabEnd : Word
  stabstr : Word
  stabstrEnd : Word
  deriving DecidableEq

/-- The result; `none` is the string `<unknown>`. -/
structure Eipdebuginfo where
  file : Option Word
  line : Int
  fnName : Option Word
  fnNamelen : Word
  fnAddr : Word
  fnNarg : Nat

section Model

variable (mem : Word → Byte) (check : Word → Word → Bool)

/-- `user_mem_check(curenv, va, len, PTE_U) == 0`. -/
def accepts (va len : Word) : Traced Probe Bool :=
  if check va len then do
    .emit (.checked va len)
    pure true
  else pure false

/-- The stabs of the user program, if they are valid. -/
def userStabs : Traced Probe (Option UserStabData) := do
  if !(← accepts check ustabdata 16) then pure none
  else
    let stabs ← load32 mem ustabdata
    let stabEnd ← load32 mem (ustabdata + 4)
    let stabstr ← load32 mem (ustabdata + 8)
    let stabstrEnd ← load32 mem (ustabdata + 12)
    if !(← accepts check stabs 12) then pure none
    else if !(← accepts check stabstr (stabstrEnd - stabstr)) then pure none
    else pure (some ⟨stabs, stabEnd, stabstr, stabstrEnd⟩)

/-- `stab_end - stabs`, the number of entries. The division by twelve is a shift and a
multiplication by the inverse of 3, also for pointers that are not a whole number of entries
apart. -/
def UserStabData.count (d : UserStabData) : Word :=
  (d.stabEnd - d.stabs).sshiftRight 2 * 0xaaaaaaab

/-- A whole number of entries. -/
theorem UserStabData.count_eq {d : UserStabData} {n : Nat} (hn : 12 * n < 2 ^ 31)
    (h : d.stabEnd = d.stabs + BitVec.ofNat 32 (12 * n)) : d.count = BitVec.ofNat 32 n := by
  have hdiff : d.stabEnd - d.stabs = BitVec.ofNat 32 (12 * n) := by
    rw [h, BitVec.add_comm, BitVec.add_sub_cancel]
  have hval : (BitVec.ofNat 32 (12 * n)).toNat = 12 * n := by
    rw [BitVec.toNat_ofNat, Nat.mod_eq_of_lt (hn.trans (by decide))]
  have hshift : (BitVec.ofNat 32 (12 * n)).sshiftRight 2 = BitVec.ofNat 32 (3 * n) := by
    apply BitVec.eq_of_toNat_eq
    have hmsb : (BitVec.ofNat 32 (12 * n)).msb = false := by
      rw [BitVec.msb_eq_decide, hval]
      exact decide_eq_false (not_le.mpr hn)
    rw [BitVec.sshiftRight_eq_of_msb_false hmsb, BitVec.toNat_ushiftRight, hval,
      BitVec.toNat_ofNat, Nat.shiftRight_eq_div_pow]
    omega
  rw [count, hdiff, hshift]
  apply BitVec.eq_of_toNat_eq
  rw [BitVec.toNat_mul, BitVec.toNat_ofNat, BitVec.toNat_ofNat,
    show (0xaaaaaaab : Word).toNat = 0xaaaaaaab from rfl]
  omega

/-- `(stab_end - stabs) - 1`. -/
def UserStabData.last (d : UserStabData) : Int := (d.count - 1).toInt

/-- `strfind`. -/
def strfind (c : Byte) : Nat → Word → Traced Probe Word
  | 0, _ => .stuck
  | fuel + 1, s => do
    let ch ← load8 mem s
    if ch = 0 ∨ ch = c then pure s else strfind c fuel (s + 1)

/-- `stabs[m].n_strx`, as a pointer, if it is in the string table. -/
def stabString (d : UserStabData) (m : Int) : Traced Probe (Option Word) := do
  let strx ← load32 mem (stabAt d.stabs m)
  pure (if strx < d.stabstrEnd - d.stabstr then some (d.stabstr + strx) else none)

/-- The test of the search for a file name. -/
def namesFile (stabs : Word) (m : Int) : Traced Probe Bool := do
  if ← hasType mem stabs nSol m then pure true
  else if ← hasType mem stabs nSo m then do
    let v ← load32 mem (stabAt stabs m + 8)
    pure (decide (v ≠ 0))
  else pure false

/-- The number of parameter stabs from `m` on. -/
def countArgs (stabs : Word) (rfun : Int) : Nat → Int → Traced Probe Nat
  | 0, _ => .stuck
  | fuel + 1, m =>
    if m < rfun then do
      if ← hasType mem stabs nPsym m then do
        let n ← countArgs stabs rfun fuel (m + 1)
        pure (n + 1)
      else pure 0
    else pure 0

/-- The number of arguments of the function. -/
def fnNarg (stabs : Word) (lfun rfun : Int) : Traced Probe Nat :=
  if lfun < rfun then countArgs mem stabs rfun ((rfun - lfun).toNat + 1) (lfun + 1) else pure 0

/-- What is known at first. -/
def Eipdebuginfo.init (addr : Word) : Eipdebuginfo := ⟨none, 0, none, 9, addr, 0⟩

/-- The function: its name and address, and the address and region to search for the line. -/
def findFun (d : UserStabData) (lfile rfile lfun rfun : Int) (addr : Word) :
    Traced Probe (Option Word × Word × Word × Int × Int) :=
  if lfun ≤ rfun then do
    let name ← stabString mem d lfun
    let v ← load32 mem (stabAt d.stabs lfun + 8)
    pure (name, v, addr - v, lfun, rfun)
  else pure (none, addr, addr, lfile, rfile)

/-- `strfind(info->eip_fn_name, ':') - info->eip_fn_name`; the other name is a constant. -/
def nameLength (name : Option Word) : Traced Probe Word :=
  match name with
  | none => pure 9
  | some p => do
    let q ← strfind mem 0x3a (2 ^ 32) p
    pure (q - p)

/-- `stabs[rline].n_desc`, if there is a line. -/
def lineNumber (stabs : Word) (lline rline : Int) : Traced Probe Int :=
  if lline ≤ rline then do
    let desc ← load16 mem (stabAt stabs rline + 6)
    pure desc.toNat
  else pure (-1)

/-- The name of the file, looked for from `lline` down to `lfile`. -/
def fileName (d : UserStabData) (lfile lline : Int) : Traced Probe (Option Word) := do
  let m ← backward lfile (namesFile mem d.stabs) ((lline + 1 - lfile).toNat + 1) lline
  if m ≥ lfile then stabString mem d m else pure none

/-- What follows in a file that contains the address. -/
def inFile (d : UserStabData) (lfile rfile : Int) (addr : Word) :
    Traced Probe (Int × Eipdebuginfo) := do
  let (lfun, rfun) ← stabBinsearch mem d.stabs lfile rfile nFun addr
  let (name, fnAddr, off, l, r) ← findFun mem d lfile rfile lfun rfun addr
  let namelen ← nameLength mem name
  let (lline, rline) ← stabBinsearch mem d.stabs l r nSline off
  let line ← lineNumber mem d.stabs lline rline
  let file ← fileName mem d lfile lline
  let narg ← fnNarg mem d.stabs lfun rfun
  pure (0, ⟨file, line, name, namelen, fnAddr, narg⟩)

/-- What follows when the stabs are known. -/
def searchStabs (d : UserStabData) (addr : Word) : Traced Probe (Int × Eipdebuginfo) := do
  if d.stabstrEnd ≤ d.stabstr then pure (-1, .init addr)
  else
    let last ← load8 mem (d.stabstrEnd - 1)
    if last ≠ 0 then pure (-1, .init addr)
    else
      let (lfile, rfile) ← stabBinsearch mem d.stabs 0 d.last nSo addr
      if lfile = 0 then pure (-1, .init addr) else inFile mem d lfile rfile addr

/-- `debuginfo_eip`; `kern` are the stabs of the kernel. -/
def debuginfoEip (kern : UserStabData) (addr : Word) : Traced Probe (Int × Eipdebuginfo) := do
  if addr ≥ ulim then searchStabs mem kern addr
  else
    match ← userStabs mem check with
    | none => pure (-1, .init addr)
    | some d => searchStabs mem d addr

end Model

/-! ## The entries that are read -/

/-- A read in one of the entries from `lo` to `hi`. -/
def InEntries (stabs : Word) (lo hi : Int) : Probe → Prop
  | .checked _ _ => False
  | .read a n => ∃ i, lo ≤ i ∧ i ≤ hi ∧ ∃ j : Nat, j + n ≤ 12 ∧
      a = stabAt stabs i + BitVec.ofNat 32 j

variable {mem : Word → Byte} {check : Word → Word → Bool} {stabs : Word} {type lo hi m : Int}
  {s s' : Search} {e : Probe} {fuel : Nat}

theorem InEntries.mono {lo' hi' : Int} (hlo : lo' ≤ lo) (hhi : hi ≤ hi')
    (h : InEntries stabs lo hi e) : InEntries stabs lo' hi' e := by
  cases e with
  | checked => exact h
  | read a n =>
    obtain ⟨i, hl, hr, hj⟩ := h
    exact ⟨i, hlo.trans hl, hr.trans hhi, hj⟩

theorem hasType_meets (hlo : lo ≤ m) (hhi : m ≤ hi) :
    (hasType mem stabs type m).Meets (InEntries stabs lo hi)
      fun b => b = decide (IsStab mem stabs type m) := by
  refine ⟨fun e he => ?_, _, rfl, rfl⟩
  have he : e = .read (stabAt stabs m + 4) 1 := by simpa [hasType, load8] using he
  subst he
  exact ⟨m, hlo, hhi, 4, by decide, rfl⟩

theorem nValue_meets (hlo : lo ≤ m) (hhi : m ≤ hi) :
    (load32 mem (stabAt stabs m + 8)).Meets (InEntries stabs lo hi)
      fun v => v = nValue mem stabs m := by
  refine ⟨fun e he => ?_, _, rfl, rfl⟩
  have he : e = .read (stabAt stabs m + 8) 4 := by simpa [load32] using he
  subst he
  exact ⟨m, hlo, hhi, 8, by decide, rfl⟩

theorem backward_meets {P : Probe → Prop} {lo m : Int} {stop : Int → Traced Probe Bool}
    (hstop : ∀ i, lo ≤ i → i ≤ m → (stop i).Meets P fun _ => True)
    (hf : (m + 1 - lo).toNat < fuel) :
    (backward lo stop fuel m).Meets P fun k => min m (lo - 1) ≤ k ∧ k ≤ m := by
  induction fuel generalizing m with
  | zero => omega
  | succ fuel ih =>
    unfold backward
    split_ifs with hlo
    · apply (hstop m hlo le_rfl).bind
      rintro (_ | _) -
      · refine (ih (m := m - 1) (fun i hi him => hstop i hi (by omega)) (by omega)).mono
          (fun _ h => h) fun k hk => ?_
        omega
      · exact .pure ⟨min_le_left _ _, le_rfl⟩
    · exact .pure ⟨min_le_left _ _, le_rfl⟩

theorem searchBody_within (h0 : 0 ≤ s.l ∨ s.r ≤ s.l) (hle : s.l ≤ s.r) :
    ∀ e ∈ (searchBody mem stabs type s).trace, InEntries stabs s.l s.r e := by
  have hmid : s.l ≤ s.mid ∧ s.mid ≤ s.r := by unfold Search.mid; omega
  have h : (searchBody mem stabs type s).Meets (InEntries stabs s.l s.r) fun _ => True := by
    unfold searchBody
    rw [s.tdiv_eq_mid (by omega)]
    apply (backward_meets (fun i hi him =>
      (hasType_meets hi (by omega)).mono (fun _ h => h) fun _ _ => trivial)
      (Nat.lt_succ_self _)).bind
    rintro m ⟨-, hm⟩
    split_ifs with hlt
    · exact .pure trivial
    · apply (nValue_meets (by omega) (by omega)).bind
      rintro v rfl
      split_ifs <;> exact .pure trivial
  exact h.1

/-- The search has just come upon its address. -/
def Search.AtHit (key : Int → Prop) (val : Int → Word) (s : Search) : Prop :=
  key s.l ∧ val s.l + 1 = s.addr

/-- A search that has not just come upon its address may do so without getting on. -/
noncomputable def Search.rank (key : Int → Prop) (val : Int → Word) (s : Search) : Nat :=
  open Classical in 2 * s.size + if s.AtHit key val then 0 else 1

theorem Turn.rank_lt {key : Int → Prop} {val : Int → Word} (h : Turn key val s s')
    (hle : s.l ≤ s.r) : s'.rank key val < s.rank key val := by
  have hsmall : s'.size < s.size → s'.rank key val < s.rank key val := by
    intro hlt
    unfold Search.rank
    split_ifs <;> omega
  by_cases haddr : s'.addr = s.addr
  · exact hsmall (h.shrinks hle haddr).1
  have hmid : s.mid ≤ s.r := by unfold Search.mid; omega
  cases h with
  | @hit m hl hm hk hno heq =>
    have hhit : Search.AtHit key val
        { s with anyMatches := true, regionLeft := m, l := m, addr := s.addr + 1 } :=
      ⟨hk, by rw [heq]⟩
    by_cases hs : s.AtHit key val
    · -- the entry that was hit is not hit again
      have hne : m ≠ s.l := by
        rintro rfl
        have := hs.2
        rw [heq] at this
        have := congrArg BitVec.toNat this
        rw [BitVec.toNat_add] at this
        simp at this
        omega
      apply hsmall
      unfold Search.size
      dsimp only
      omega
    · unfold Search.rank
      rw [if_pos hhit, if_neg hs]
      unfold Search.size
      dsimp only
      omega
  | _ => exact absurd rfl haddr

/-- The bounds of the region in the course of a search. -/
structure Search.Bounded (lo hi : Int) (s : Search) : Prop where
  lo_le : lo ≤ s.l
  le_hi : s.r ≤ hi
  signed : 0 ≤ s.l ∨ s.r ≤ s.l
  lo_le_left : lo ≤ s.regionLeft
  left_le : s.regionLeft ≤ max lo hi
  lo_le_right : lo - 1 ≤ s.regionRight
  right_le : s.regionRight ≤ hi
  unmatched : s.anyMatches = false → s.regionLeft = lo

theorem Search.Bounded.turn {key : Int → Prop} {val : Int → Word} (h : s.Bounded lo hi)
    (hle : s.l ≤ s.r) (hturn : Turn key val s s') : s'.Bounded lo hi := by
  have hmid : s.l ≤ s.mid ∧ s.mid ≤ s.r := by unfold Search.mid; omega
  obtain ⟨h1, h2, h3, h4, h5, h6, h7, h8⟩ := h
  cases hturn <;> constructor <;> grind

theorem Search.Bounded.searchLoop (h : s.Bounded lo hi)
    (hf : s.rank (IsStab mem stabs type) (nValue mem stabs) < fuel) :
    (searchLoop mem stabs type fuel s).Meets (InEntries stabs lo hi) (·.Bounded lo hi) := by
  induction fuel generalizing s with
  | zero => omega
  | succ fuel ih =>
    unfold JosKernel.searchLoop
    split_ifs with hle
    · obtain ⟨s', hs', hturn⟩ := searchBody_turn mem stabs type h.signed hle
      have hbody : (searchBody mem stabs type s).Meets (InEntries stabs lo hi) (· = s') :=
        ⟨fun e he => (searchBody_within h.signed hle e he).mono h.lo_le h.le_hi, s', hs', rfl⟩
      apply hbody.bind
      rintro _ rfl
      have := hturn.rank_lt hle
      exact ih (h.turn hle hturn) (by omega)
    · exact .pure h

/-- What every search makes of a region: it may grow by one entry at the left end. -/
structure RegionIn (lo hi : Int) (reg : Int × Int) : Prop where
  lo_le : lo - 1 ≤ reg.1
  le_max : reg.1 ≤ max lo hi
  lo_le_right : lo - 1 ≤ reg.2
  right_le : reg.2 ≤ hi
  outside : reg.1 = lo - 1 → reg.2 = lo - 1
  le : reg.1 ≠ lo → reg.1 ≤ reg.2

theorem stabBinsearch_meets (mem : Word → Byte) (stabs : Word) (type : Int) (hle : lo ≤ hi + 1)
    (h0 : 0 ≤ lo ∨ hi ≤ lo) (addr : Word) :
    (stabBinsearch mem stabs lo hi type addr).Meets (InEntries stabs lo hi) (RegionIn lo hi) := by
  have hinit : Search.Bounded lo hi ⟨lo, hi, false, addr, lo, hi⟩ := by
    constructor <;> grind
  unfold stabBinsearch
  have hrank : Search.rank (IsStab mem stabs type) (nValue mem stabs)
      ⟨lo, hi, false, addr, lo, hi⟩ < 2 * (hi + 1 - lo).toNat + 2 := by
    unfold Search.rank Search.size
    dsimp only
    split_ifs <;> omega
  apply (hinit.searchLoop hrank).bind
  intro s hs
  have hl := hs.lo_le_left
  have hl' := hs.left_le
  have hr := hs.lo_le_right
  have hr' := hs.right_le
  unfold searchEnd
  split_ifs with hany
  · have hlo := hs.unmatched (by simpa using hany)
    apply Traced.Meets.pure
    constructor <;> dsimp only <;> omega
  · apply (backward_meets (fun i hi him => (hasType_meets (by omega) (by omega)).mono
      (fun _ h => h) fun _ _ => trivial) (by omega)).bind
    rintro k ⟨hmin, hk⟩
    apply Traced.Meets.pure
    constructor <;> dsimp only <;> omega

/-- The search in an empty region. -/
theorem stabBinsearch_empty {left right : Int} (h : right < left) (addr : Word) :
    stabBinsearch mem stabs left right type addr = ⟨[], some (left, left - 1)⟩ := by
  rw [stabBinsearch, searchLoop, if_neg (by dsimp only; omega)]
  rfl

/-- `stab_binsearch` comes to an end, whatever the table holds, and reads entries of its region
only. -/
theorem stabBinsearch_inEntries (mem : Word → Byte) (stabs : Word) (type : Int) (h0 : 0 ≤ lo)
    (addr : Word) :
    (stabBinsearch mem stabs lo hi type addr).Meets (InEntries stabs lo hi) fun _ => True := by
  by_cases hle : lo ≤ hi + 1
  · apply (stabBinsearch_meets mem stabs type hle (.inl h0) addr).mono
    · exact fun _ h => h
    · exact fun _ _ => trivial
  · rw [stabBinsearch_empty (by omega)]
    exact .pure trivial

/-- Two equal entries, and an address that the search comes upon twice. -/
theorem stabBinsearch_inEntries_zero :
    (stabBinsearch (fun _ => 0) 0x200000 0 1 0 0).Meets (InEntries 0x200000 0 1) fun _ => True :=
  stabBinsearch_inEntries _ _ _ le_rfl _

/-! ## All reads -/

variable {d : UserStabData} {p : Word} {addr : Word} {lfile rfile : Int}

/-- The string table ends with a zero byte. -/
structure ValidStrings (mem : Word → Byte) (d : UserStabData) : Prop where
  lt : d.stabstr < d.stabstrEnd
  last : mem (d.stabstrEnd - 1) = 0

/-- A read in the string table. -/
def InStrings (d : UserStabData) : Probe → Prop
  | .checked _ _ => False
  | .read a n => n = 1 ∧ d.stabstr ≤ a ∧ a < d.stabstrEnd

/-- A read in an entry from `lo` on or in the string table. -/
def InTables (d : UserStabData) (lo hi : Int) (e : Probe) : Prop :=
  InEntries d.stabs lo hi e ∨ InStrings d e

/-- A search in the string table stops at the zero byte at the latest. -/
theorem strfind_meets (hv : ValidStrings mem d) (c : Byte) (hlo : d.stabstr ≤ p)
    (hhi : p < d.stabstrEnd) (hf : d.stabstrEnd.toNat - p.toNat ≤ fuel) :
    (strfind mem c fuel p).Meets (InStrings d) fun _ => True := by
  rw [BitVec.lt_def] at hhi
  induction fuel generalizing p with
  | zero => omega
  | succ fuel ih =>
    unfold strfind
    have hread : (load8 mem p).Meets (InStrings d) (· = mem p) := by
      refine ⟨fun e he => ?_, _, rfl, rfl⟩
      have he : e = .read p 1 := by simpa [load8] using he
      subst he
      exact ⟨rfl, hlo, BitVec.lt_def.mpr hhi⟩
    apply hread.bind
    rintro _ rfl
    split_ifs with hz
    · exact .pure trivial
    · have hnotlast : p.toNat + 1 ≠ d.stabstrEnd.toNat := by
        intro heq
        apply hz
        left
        have hp : p = d.stabstrEnd - 1 := by
          apply BitVec.eq_of_toNat_eq
          rw [BitVec.toNat_sub]
          simp
          omega
        rw [hp, hv.last]
      have hsucc : (p + 1).toNat = p.toNat + 1 := by
        have := d.stabstrEnd.isLt
        rw [BitVec.toNat_add]
        simp
        omega
      rw [BitVec.le_def] at hlo
      apply ih
      · rw [BitVec.le_def, hsucc]
        omega
      · omega
      · omega

theorem stabString_meets (hv : ValidStrings mem d) {m : Int} (hlo : lo ≤ m) (hhi : m ≤ hi) :
    (stabString mem d m).Meets (InEntries d.stabs lo hi)
      fun name => ∀ p ∈ name, d.stabstr ≤ p ∧ p < d.stabstrEnd := by
  have hread : (load32 mem (stabAt d.stabs m)).Meets (InEntries d.stabs lo hi) fun _ => True := by
    refine ⟨fun e he => ?_, _, rfl, trivial⟩
    have he : e = .read (stabAt d.stabs m) 4 := by simpa [load32] using he
    subst he
    exact ⟨m, hlo, hhi, 0, by decide, by simp⟩
  apply hread.bind
  rintro strx -
  apply Traced.Meets.pure
  intro p hp
  split_ifs at hp with hlt
  · cases hp
    have hle := hv.lt
    rw [BitVec.lt_def] at hlt hle ⊢
    rw [BitVec.le_def]
    rw [BitVec.toNat_sub] at hlt
    have := d.stabstrEnd.isLt
    rw [BitVec.toNat_add]
    omega
  · cases hp

theorem namesFile_meets (lo hi : Int) {m : Int} (hlo : lo ≤ m) (hhi : m ≤ hi) :
    (namesFile mem stabs m).Meets (InEntries stabs lo hi) fun _ => True := by
  unfold namesFile
  apply (hasType_meets hlo hhi).bind
  rintro _ rfl
  split_ifs with hsol
  · exact .pure trivial
  · apply (hasType_meets hlo hhi).bind
    rintro _ rfl
    split_ifs with hso
    · apply (nValue_meets hlo hhi).bind
      rintro _ rfl
      exact .pure trivial
    · exact .pure trivial

theorem countArgs_meets (lo hi : Int) {m r : Int} (hlo : lo ≤ m) (hhi : r ≤ hi + 1)
    (hf : (r - m).toNat < fuel) :
    (countArgs mem stabs r fuel m).Meets (InEntries stabs lo hi) fun _ => True := by
  induction fuel generalizing m with
  | zero => omega
  | succ fuel ih =>
    unfold countArgs
    split_ifs with hlt
    · apply (hasType_meets hlo (by omega)).bind
      rintro _ rfl
      split_ifs with hp
      · apply (ih (by omega) (by omega)).bind
        rintro n -
        exact .pure trivial
      · exact .pure trivial
    · exact .pure trivial

/-- The name of a function is in the string table. -/
theorem findFun_meets (hv : ValidStrings mem d) (lfile rfile : Int) {lfun rfun : Int}
    (hle : lfun ≤ rfun) (addr : Word) :
    (findFun mem d lfile rfile lfun rfun addr).Meets (InEntries d.stabs lfun lfun) fun res =>
      (∀ p ∈ res.1, d.stabstr ≤ p ∧ p < d.stabstrEnd) ∧
        res.2 = (nValue mem d.stabs lfun, addr - nValue mem d.stabs lfun, lfun, rfun) := by
  unfold findFun
  rw [if_pos hle]
  apply (stabString_meets hv (le_refl lfun) le_rfl).bind
  rintro name hname
  apply (nValue_meets (le_refl lfun) le_rfl).bind
  rintro _ rfl
  exact .pure ⟨hname, rfl⟩

theorem nameLength_meets (hv : ValidStrings mem d) {name : Option Word}
    (hname : ∀ p ∈ name, d.stabstr ≤ p ∧ p < d.stabstrEnd) :
    (nameLength mem name).Meets (InStrings d) fun _ => True := by
  unfold nameLength
  cases name with
  | none => exact .pure trivial
  | some p =>
    obtain ⟨hplo, hphi⟩ := hname p rfl
    have := d.stabstrEnd.isLt
    apply (strfind_meets hv 0x3a hplo hphi (by omega)).bind
    rintro q -
    exact .pure trivial

/-- The line is the one of the last entry of the region. -/
theorem lineNumber_meets (mem : Word → Byte) (stabs : Word) (l r : Int) :
    (lineNumber mem stabs l r).Meets (InEntries stabs l r)
      (· = if l ≤ r then ((nDesc mem stabs r).toNat : Int) else -1) := by
  unfold lineNumber
  split_ifs with hle
  · refine ⟨fun e he => ?_, _, rfl, rfl⟩
    have he : e = .read (stabAt stabs r + 6) 2 := by simpa [load16] using he
    subst he
    exact ⟨r, hle, le_rfl, 6, by decide, rfl⟩
  · exact .pure rfl

theorem fileName_meets (hv : ValidStrings mem d) (lfile l : Int) :
    (fileName mem d lfile l).Meets (InEntries d.stabs lfile l) fun _ => True := by
  unfold fileName
  apply (backward_meets (fun i hi him => namesFile_meets lfile l hi him)
    (Nat.lt_succ_self _)).bind
  rintro k ⟨-, hk⟩
  split_ifs with hge
  · exact (stabString_meets hv hge hk).mono (fun _ h => h) fun _ _ => trivial
  · exact .pure trivial

theorem fnNarg_meets (mem : Word → Byte) (stabs : Word) (l r : Int) :
    (fnNarg mem stabs l r).Meets (InEntries stabs l r) fun _ => True := by
  unfold fnNarg
  split_ifs with hlt
  · exact countArgs_meets l r (by omega) (by omega) (by omega)
  · exact .pure trivial

/-- Every read is in the entries of the file, or in one of the two before them, or in the string
table. -/
theorem inFile_meets (hv : ValidStrings mem d) (hle : lfile ≤ rfile)
    (h0 : 0 ≤ lfile ∨ rfile ≤ lfile) :
    (inFile mem d lfile rfile addr).Meets (InTables d (lfile - 2) rfile) fun _ => True := by
  have htable : ∀ {α : Type} {x : Traced Probe α} {lo hi : Int} {Q : α → Prop},
      x.Meets (InEntries d.stabs lo hi) Q → lfile - 2 ≤ lo → hi ≤ rfile →
      x.Meets (InTables d (lfile - 2) rfile) Q := fun hx hlo hhi =>
    hx.mono (fun e he => .inl (he.mono hlo hhi)) fun _ hq => hq
  unfold inFile
  apply (htable (stabBinsearch_meets mem d.stabs nFun (by omega) h0 addr) (by omega) le_rfl).bind
  rintro ⟨lfun, rfun⟩ ⟨f1, f2, f3, f4, f5, -⟩
  dsimp only at f1 f2 f3 f4 f5 ⊢
  have hfun : (findFun mem d lfile rfile lfun rfun addr).Meets
      (InTables d (lfile - 2) rfile) fun res =>
      (∀ p ∈ res.1, d.stabstr ≤ p ∧ p < d.stabstrEnd) ∧
        lfile - 1 ≤ res.2.2.2.1 ∧ res.2.2.2.1 ≤ res.2.2.2.2 ∧ res.2.2.2.2 ≤ rfile ∧
        (0 ≤ res.2.2.2.1 ∨ res.2.2.2.2 ≤ res.2.2.2.1) := by
    by_cases hfr : lfun ≤ rfun
    · refine (htable (findFun_meets hv lfile rfile hfr addr) (by omega) (by omega)).mono
        (fun _ h => h) ?_
      rintro ⟨name, v, off, l, r⟩ ⟨hname, heq⟩
      cases heq
      exact ⟨hname, f1, hfr, f4, by dsimp only; omega⟩
    · rw [findFun, if_neg hfr]
      exact .pure ⟨by simp, by dsimp only; omega, hle, le_rfl, h0⟩
  apply hfun.bind
  rintro ⟨name, fnAddr, off, l, r⟩ ⟨hname, g1, g2, g3, g4⟩
  dsimp only at hname g1 g2 g3 g4 ⊢
  apply ((nameLength_meets hv hname).mono (fun e he => .inr he) fun _ h => h).bind
  rintro namelen -
  apply (htable (stabBinsearch_meets mem d.stabs nSline (by omega) g4 off) (by omega) g3).bind
  rintro ⟨lline, rline⟩ ⟨l1, l2, l3, l4, l5, -⟩
  dsimp only at l1 l2 l3 l4 l5 ⊢
  apply (htable (lineNumber_meets mem d.stabs lline rline) (by omega) (by omega)).bind
  rintro line -
  apply (htable (fileName_meets hv lfile lline) (by omega) (by omega)).bind
  rintro file -
  apply (htable (fnNarg_meets mem d.stabs lfun rfun) (by omega) (by omega)).bind
  rintro narg -
  exact .pure trivial

/-- The line that is found, when there is a function with a line. -/
theorem inFile_line (hv : ValidStrings mem d) {lfun rfun lline rline : Int}
    (hfun : (stabBinsearch mem d.stabs lfile rfile nFun addr).result = some (lfun, rfun))
    (hfr : lfun ≤ rfun)
    (hline : (stabBinsearch mem d.stabs lfun rfun nSline
      (addr - nValue mem d.stabs lfun)).result = some (lline, rline)) :
    ∃ info, (inFile mem d lfile rfile addr).result = some (0, info) ∧
      info.line = if lline ≤ rline then ((nDesc mem d.stabs rline).toNat : Int) else -1 := by
  obtain ⟨-, ⟨name, v, off, l, r⟩, hres, hname, heq⟩ := findFun_meets hv lfile rfile hfr addr
  cases heq
  obtain ⟨-, namelen, hnamelen, -⟩ := nameLength_meets hv hname
  obtain ⟨-, line, hlineres, rfl⟩ := lineNumber_meets mem d.stabs lline rline
  obtain ⟨-, file, hfile, -⟩ := fileName_meets hv lfile lline
  obtain ⟨-, narg, hnarg, -⟩ := fnNarg_meets mem d.stabs lfun rfun
  refine ⟨⟨file, _, name, namelen, nValue mem d.stabs lfun, narg⟩, ?_, rfl⟩
  unfold inFile
  rw [Traced.result_bind_of_some hfun]
  dsimp only
  rw [Traced.result_bind_of_some hres]
  dsimp only
  rw [Traced.result_bind_of_some hnamelen, Traced.result_bind_of_some hline]
  dsimp only
  rw [Traced.result_bind_of_some hlineres, Traced.result_bind_of_some hfile,
    Traced.result_bind_of_some hnarg]
  rfl

/-! ## Trust -/

/-- An address in a range, which is given by its first address and its length. -/
def InRange (r : Word × Word) (a : Word) : Prop := (a - r.1).toNat < r.2.toNat

instance (r : Word × Word) (a : Word) : Decidable (InRange r a) :=
  inferInstanceAs (Decidable (_ < _))

theorem inRange_add {r : Word × Word} {j : Nat} (h : j < r.2.toNat) :
    InRange r (r.1 + BitVec.ofNat 32 j) := by
  have := r.2.isLt
  have := r.1.isLt
  unfold InRange
  rw [BitVec.toNat_sub, BitVec.toNat_add, BitVec.toNat_ofNat]
  omega

/-- All bytes of a read are in some ranges. -/
def ReadIn (rs : List (Word × Word)) : Probe → Prop
  | .checked _ _ => False
  | .read a n => ∀ i < n, ∃ r ∈ rs, InRange r (a + BitVec.ofNat 32 i)

/-- Every byte that is read is in a range that has been accepted before. -/
def Trusts : List (Word × Word) → List Probe → Prop
  | _, [] => True
  | rs, .checked va len :: t => Trusts ((va, len) :: rs) t
  | rs, .read a n :: t => ReadIn rs (.read a n) ∧ Trusts rs t

instance (rs : List (Word × Word)) (e : Probe) : Decidable (ReadIn rs e) :=
  match e with
  | .checked _ _ => .isFalse id
  | .read a n => decidable_of_iff
      (((List.range n).all fun i => rs.any fun r => InRange r (a + BitVec.ofNat 32 i)) = true)
      (by simp [ReadIn])

instance Trusts.decidable : ∀ (rs : List (Word × Word)) (t : List Probe), Decidable (Trusts rs t)
  | _, [] => .isTrue trivial
  | rs, .checked va len :: t => Trusts.decidable ((va, len) :: rs) t
  | rs, .read a n :: t =>
    have := Trusts.decidable rs t
    inferInstanceAs (Decidable (ReadIn rs (.read a n) ∧ Trusts rs t))

theorem trusts_iff {rs : List (Word × Word)} {t : List Probe}
    (h : ∀ e ∈ t, ∀ va len, e ≠ .checked va len) : Trusts rs t ↔ ∀ e ∈ t, ReadIn rs e := by
  induction t with
  | nil => simp [Trusts]
  | cons e t ih =>
    cases e with
    | checked va len => exact absurd rfl (h _ List.mem_cons_self va len)
    | read a n =>
      rw [Trusts, ih fun e he => h e (List.mem_cons_of_mem _ he), List.forall_mem_cons]

/-- The data of the user program. -/
def userData (mem : Word → Byte) : UserStabData :=
  ⟨word32 mem ustabdata, word32 mem (ustabdata + 4), word32 mem (ustabdata + 8),
    word32 mem (ustabdata + 12)⟩

/-- The ranges that are checked. -/
def UserStabData.ranges (d : UserStabData) : List (Word × Word) :=
  [(d.stabstr, d.stabstrEnd - d.stabstr), (d.stabs, 12), (ustabdata, 16)]

/-- The checks accept all ranges. -/
def Accepted (mem : Word → Byte) (check : Word → Word → Bool) : Prop :=
  ∀ r ∈ (userData mem).ranges, check r.1 r.2

/-- What the checks do and read. -/
def userEvents (mem : Word → Byte) : List Probe :=
  [.checked ustabdata 16, .read ustabdata 4, .read (ustabdata + 4) 4, .read (ustabdata + 8) 4,
    .read (ustabdata + 12) 4, .checked (userData mem).stabs 12,
    .checked (userData mem).stabstr ((userData mem).stabstrEnd - (userData mem).stabstr)]

theorem readIn_header {rs : List (Word × Word)} (h : (ustabdata, 16) ∈ rs) {k : Nat}
    (hk : k ≤ 12) : ReadIn rs (.read (ustabdata + BitVec.ofNat 32 k) 4) := by
  intro i hi
  refine ⟨_, h, ?_⟩
  rw [BitVec.add_assoc, ← BitVec.ofNat_add]
  exact inRange_add (r := (ustabdata, 16)) (show k + i < 16 by omega)

theorem trusts_userEvents (t : List Probe) :
    Trusts [] (userEvents mem ++ t) ↔ Trusts (userData mem).ranges t := by
  have h : ∀ rs : List (Word × Word), (ustabdata, 16) ∈ rs →
      ReadIn rs (.read ustabdata 4) ∧ ReadIn rs (.read (ustabdata + 4) 4) ∧
        ReadIn rs (.read (ustabdata + 8) 4) ∧ ReadIn rs (.read (ustabdata + 12) 4) := by
    intro rs hrs
    refine ⟨?_, readIn_header hrs (k := 4) (by decide), readIn_header hrs (k := 8) (by decide),
      readIn_header hrs (k := 12) (by decide)⟩
    simpa using readIn_header hrs (k := 0) (by decide)
  obtain ⟨h0, h4, h8, h12⟩ := h [(ustabdata, 16)] List.mem_cons_self
  simp only [userEvents, List.cons_append, List.nil_append, Trusts, h0, h4, h8, h12, true_and]
  rfl

theorem Trusts.of_append {rs : List (Word × Word)} {t t' : List Probe} (h : Trusts rs (t ++ t')) :
    Trusts rs t := by
  induction t generalizing rs with
  | nil => trivial
  | cons e t ih =>
    cases e with
    | checked va len => exact ih h
    | read a n => exact ⟨h.1, ih h.2⟩

/-- The checks: either they accept all ranges, or nothing else is done. -/
theorem userStabs_cases (mem : Word → Byte) (check : Word → Word → Bool) :
    (Accepted mem check ∧ userStabs mem check = ⟨userEvents mem, some (some (userData mem))⟩) ∨
    (¬Accepted mem check ∧ ∃ t, userStabs mem check = ⟨t, some none⟩ ∧ Trusts [] t) := by
  have hall : Trusts [] (userEvents mem) := by
    rw [← List.append_nil (userEvents mem), trusts_userEvents]
    trivial
  have hyes : ∀ {va len}, check va len → accepts check va len = ⟨[.checked va len], some true⟩ := by
    intro va len h
    rw [accepts, if_pos h]
    rfl
  have hno : ∀ {va len}, ¬check va len → accepts check va len = ⟨[], some false⟩ := by
    intro va len h
    rw [accepts, if_neg h]
    rfl
  have hmem : Accepted mem check ↔ check (userData mem).stabstr
      ((userData mem).stabstrEnd - (userData mem).stabstr) ∧ check (userData mem).stabs 12 ∧
        check ustabdata 16 := by
    simp only [Accepted, UserStabData.ranges, List.forall_mem_cons, List.not_mem_nil,
      false_imp_iff, implies_true, and_true]
  unfold userStabs
  rw [hmem]
  by_cases h1 : check ustabdata 16
  · by_cases h2 : check (userData mem).stabs 12
    · by_cases h3 : check (userData mem).stabstr
          ((userData mem).stabstrEnd - (userData mem).stabstr)
      · left
        refine ⟨⟨h3, h2, h1⟩, ?_⟩
        simp only [userData] at h2 h3
        simp only [hyes h1, load32, Traced.bind_some, hyes h2, hyes h3]
        rfl
      · right
        refine ⟨fun h => h3 h.1, (userEvents mem).take 6, ?_, ?_⟩
        · simp only [userData] at h2 h3
          simp only [hyes h1, load32, Traced.bind_some, hyes h2, hno h3]
          rfl
        · rw [← List.take_append_drop 6 (userEvents mem)] at hall
          exact hall.of_append
    · right
      refine ⟨fun h => h2 h.2.1, (userEvents mem).take 5, ?_, ?_⟩
      · simp only [userData] at h2
        simp only [hyes h1, load32, Traced.bind_some, hno h2]
        rfl
      · rw [← List.take_append_drop 5 (userEvents mem)] at hall
        exact hall.of_append
  · right
    refine ⟨fun h => h1 h.2.2, [], ?_, trivial⟩
    rw [hno h1]
    rfl

/-! ## When only checked memory is read -/

/-- There are too few stabs for the search to leave the first entry. -/
def FewStabs (mem : Word → Byte) (d : UserStabData) (addr : Word) : Prop :=
  d.last < 0 ∨ d.last = 0 ∧ ¬(IsStab mem d.stabs nSo 0 ∧ addr < nValue mem d.stabs 0)

/-- All entries, and the three before them, are in checked ranges. -/
structure Covered (d : UserStabData) : Prop where
  fits : d.last < 2 ^ 30
  covered : ∀ i, -3 ≤ i → i ≤ d.last → ∀ j < 12,
    ∃ r ∈ d.ranges, InRange r (stabAt d.stabs i + BitVec.ofNat 32 j)

/-- With more stabs, an entry besides the first one that is probed. -/
def otherStab (mem : Word → Byte) (d : UserStabData) (addr : Word) : Int :=
  if d.last ≤ 1 ∧ IsStab mem d.stabs nSo 0 ∧ addr < nValue mem d.stabs 0 then -1
  else if d.last = 1 then 1
  else d.last / 2

theorem add_ofNat_add (a : Word) (i j : Nat) :
    a + BitVec.ofNat 32 i + BitVec.ofNat 32 j = a + BitVec.ofNat 32 (i + j) := by
  rw [BitVec.add_assoc, ← BitVec.ofNat_add]

theorem readIn_of_inStrings (h : InStrings d e) : ReadIn d.ranges e := by
  cases e with
  | checked => exact h
  | read a n =>
    obtain ⟨rfl, hlo, hhi⟩ := h
    rw [BitVec.le_def] at hlo
    rw [BitVec.lt_def] at hhi
    rintro i hi
    obtain rfl : i = 0 := by omega
    refine ⟨_, List.mem_cons_self, ?_⟩
    simp only [InRange, BitVec.add_zero, BitVec.toNat_sub]
    omega

theorem readIn_of_inEntries {rs : List (Word × Word)}
    (h : ∀ i, lo ≤ i → i ≤ hi → ∀ j < 12,
      ∃ r ∈ rs, InRange r (stabAt stabs i + BitVec.ofNat 32 j))
    (he : InEntries stabs lo hi e) : ReadIn rs e := by
  cases e with
  | checked => exact he
  | read a n =>
    obtain ⟨i, hlo, hhi, j, hj, rfl⟩ := he
    intro k hk
    rw [add_ofNat_add]
    exact h i hlo hhi (j + k) (by omega)

/-- What follows the search for a file. -/
def afterFile (mem : Word → Byte) (d : UserStabData) (addr : Word) (reg : Int × Int) :
    Traced Probe (Int × Eipdebuginfo) :=
  if reg.1 = 0 then pure (-1, .init addr) else inFile mem d reg.1 reg.2 addr

theorem searchStabs_valid (hv : ValidStrings mem d) (addr : Word) :
    searchStabs mem d addr = load8 mem (d.stabstrEnd - 1) >>= fun _ =>
      stabBinsearch mem d.stabs 0 d.last nSo addr >>= afterFile mem d addr := by
  have hlt : ¬d.stabstrEnd ≤ d.stabstr := BitVec.not_le.mpr hv.lt
  unfold searchStabs
  have hlast : (load8 mem (d.stabstrEnd - 1)).result = some 0 := congrArg some hv.last
  rw [if_neg hlt]
  apply Traced.bind_congr_of_some hlast
  rw [if_neg (not_not.mpr rfl)]
  rfl

theorem last_inStrings (h : d.stabstr < d.stabstrEnd) :
    InStrings d (.read (d.stabstrEnd - 1) 1) := by
  rw [BitVec.lt_def] at h
  have hlast : (d.stabstrEnd - 1).toNat = d.stabstrEnd.toNat - 1 := by
    rw [BitVec.toNat_sub]
    simp
    omega
  refine ⟨rfl, ?_, ?_⟩
  · rw [BitVec.le_def, hlast]
    omega
  · rw [BitVec.lt_def, hlast]
    omega

/-- Without a valid string table at most its last byte is read. -/
theorem searchStabs_invalid (hv : ¬ValidStrings mem d) (addr : Word) :
    (searchStabs mem d addr).Meets (InStrings d) fun _ => True := by
  unfold searchStabs
  split_ifs with hle
  · exact .pure trivial
  · have hread : (load8 mem (d.stabstrEnd - 1)).Meets (InStrings d)
        (· = mem (d.stabstrEnd - 1)) := by
      refine ⟨fun e he => ?_, _, rfl, rfl⟩
      have he : e = .read (d.stabstrEnd - 1) 1 := by simpa [load8] using he
      exact he ▸ last_inStrings (BitVec.not_le.mp hle)
    apply hread.bind
    rintro _ rfl
    rw [if_pos fun h0 => hv ⟨BitVec.not_le.mp hle, h0⟩]
    exact .pure trivial

/-- With few stabs there is no file. -/
theorem FewStabs.meets (h : FewStabs mem d addr) (haddr : addr < ulim) :
    (stabBinsearch mem d.stabs 0 d.last nSo addr).Meets (InEntries d.stabs 0 0) (·.1 = 0) := by
  rcases h with hlt | ⟨hone, hnot⟩
  · rw [stabBinsearch_empty hlt]
    exact ⟨by simp, _, rfl, rfl⟩
  · rw [hone]
    have rise : Rising (IsStab mem d.stabs nSo) (nValue mem d.stabs) 0 0 :=
      fun i j _ _ _ => by omega
    obtain ⟨hreads, ⟨l, r⟩, hres, h1, h2, h3, h4, -, -⟩ := stabBinsearch_meets mem d.stabs
      nSo (by decide : (0 : Int) ≤ 0 + 1) (.inl le_rfl) addr
    obtain ⟨l', r', hres', hiff⟩ := stabBinsearch_foundIn mem d.stabs nSo addr le_rfl le_rfl rise
    cases hres.symm.trans hres'
    refine ⟨hreads, _, hres, ?_⟩
    dsimp only at h1 h2 h3 h4 ⊢
    by_cases hk : IsStab mem d.stabs nSo 0
    · have hle : nValue mem d.stabs 0 ≤ addr := BitVec.not_lt.mp fun hlt => hnot ⟨hk, hlt⟩
      have hfound :=
        hiff.mpr (.inr ⟨0, le_rfl, le_rfl, hk, hle, fun i _ _ => by omega, fun _ => ?_⟩)
      · exact hfound.eq_of_last le_rfl le_rfl hk hle fun i _ _ => by omega
      · refine ⟨?_, fun n _ _ => by omega⟩
        rintro rfl
        exact absurd haddr (by decide)
    · have hfound := hiff.mpr (.inl fun i hi hir => by
        obtain rfl : i = 0 := by omega
        exact hk)
      have hlt := hfound.2 fun i hi hir hki => by
        obtain rfl : i = 0 := by omega
        exact absurd hki hk
      omega

/-- With any number of stabs, only the tables and the three entries before them are read. -/
theorem searchStabs_meets (hv : ValidStrings mem d) (hc : 0 ≤ d.last) (addr : Word) :
    (searchStabs mem d addr).Meets (InTables d (-3) d.last) fun _ => True := by
  rw [searchStabs_valid hv]
  have hread : (load8 mem (d.stabstrEnd - 1)).Meets (InTables d (-3) d.last)
      fun _ => True := by
    refine ⟨fun e he => .inr ?_, _, rfl, trivial⟩
    have he : e = .read (d.stabstrEnd - 1) 1 := by simpa [load8] using he
    exact he ▸ last_inStrings hv.lt
  apply hread.bind
  rintro last -
  apply ((stabBinsearch_meets mem d.stabs nSo (by omega) (.inl le_rfl) addr).mono
    (fun e he => .inl (he.mono (by omega) le_rfl)) fun _ h => h).bind
  rintro ⟨lfile, rfile⟩ ⟨h1, h2, h3, h4, h5, h6⟩
  dsimp only at h1 h2 h3 h4 h5 h6
  unfold afterFile
  dsimp only
  split_ifs with h0
  · exact .pure trivial
  · refine (inFile_meets hv (h6 h0) (by omega)).mono (fun e he => ?_) fun _ h => h
    exact he.imp (fun h => h.mono (by omega) h4) fun h => h

/-! ## Reads behind the first entry -/

/-- The first entry that is probed. -/
theorem searchLoop_probes (h0 : 0 ≤ s.l + s.r ∨ s.l = s.r) (hle : s.l ≤ s.r) :
    .read (stabAt stabs s.mid + 4) 1 ∈ (searchLoop mem stabs type (fuel + 1) s).trace := by
  have hmid : s.l ≤ s.mid := by unfold Search.mid; omega
  rw [searchLoop, if_pos hle]
  apply Traced.mem_bind_left
  rw [searchBody, s.tdiv_eq_mid h0]
  apply Traced.mem_bind_left
  rw [backward, if_pos hmid]
  apply Traced.mem_bind_left
  exact List.mem_cons_self

/-- The entry that is probed after a turn. -/
theorem searchLoop_probes_next (hle : s.l ≤ s.r)
    (hs' : (searchBody mem stabs type s).result = some s')
    (he : e ∈ (searchLoop mem stabs type fuel s').trace) :
    e ∈ (searchLoop mem stabs type (fuel + 1) s).trace := by
  rw [searchLoop, if_pos hle, Traced.trace_bind_of_some hs']
  exact List.mem_append_right _ he

/-- The search in a region that begins with an entry above the address. -/
theorem stabBinsearch_above {right : Int} (h0 : 0 ≤ right) (h1 : right ≤ 1)
    (hk : IsStab mem stabs type 0) (habove : addr < nValue mem stabs 0) :
    (stabBinsearch mem stabs 0 right type addr).result = some (-1, -1) := by
  have hmid : Search.mid ⟨0, right, false, addr, 0, right⟩ = 0 := by
    unfold Search.mid
    dsimp only
    omega
  obtain ⟨s', hs', hturn⟩ := searchBody_turn mem stabs type
    (s := ⟨0, right, false, addr, 0, right⟩) (.inl le_rfl) h0
  have hs'eq : s' = ⟨0, -1, true, addr, 0, -1⟩ := by
    cases hturn with
    | none hno => exact absurd hk (hno 0 le_rfl hmid.ge)
    | @lower m hl hm hkm hno hlow =>
      obtain rfl : m = 0 := le_antisymm (hmid ▸ hm) hl
      exact absurd hlow (BitVec.lt_asymm habove)
    | @higher m hl hm hkm hno hhigh =>
      obtain rfl : m = 0 := le_antisymm (hmid ▸ hm) hl
      rfl
    | @hit m hl hm hkm hno heq =>
      obtain rfl : m = 0 := le_antisymm (hmid ▸ hm) hl
      exact absurd (heq ▸ habove) (BitVec.lt_irrefl _)
  subst hs'eq
  rw [stabBinsearch, Traced.result_bind, searchLoop_turn (by exact h0) hs',
    searchLoop_done (by exact neg_one_lt_zero)]
  rfl

/-- The search among two entries probes the second one, unless the first is above the address. -/
theorem stabBinsearch_two (haddr : addr ≠ 0xffffffff)
    (h : ¬(IsStab mem stabs type 0 ∧ addr < nValue mem stabs 0)) :
    .read (stabAt stabs 1 + 4) 1 ∈ (stabBinsearch mem stabs 0 1 type addr).trace := by
  apply Traced.mem_bind_left
  have hprobe : ∀ (s : Search) (fuel : Nat), s.l = 1 → s.r = 1 →
      .read (stabAt stabs 1 + 4) 1 ∈ (searchLoop mem stabs type (fuel + 1) s).trace := by
    intro s fuel hl hr
    have hmid : s.mid = 1 := by
      unfold Search.mid
      omega
    rw [← hmid]
    exact searchLoop_probes (by omega) (by omega)
  have hmid : ∀ s : Search, s.l = 0 → s.r = 1 → s.mid = 0 := by
    intro s hl hr
    unfold Search.mid
    omega
  obtain ⟨s₁, hs₁, hturn⟩ := searchBody_turn mem stabs type
    (s := ⟨0, 1, false, addr, 0, 1⟩) (.inl le_rfl) (by exact zero_le_one)
  apply searchLoop_probes_next (by exact zero_le_one) hs₁
  cases hturn with
  | none => exact hprobe _ _ (by rw [hmid _ rfl rfl]; rfl) rfl
  | lower => exact hprobe _ _ (by dsimp only; rw [hmid _ rfl rfl]; rfl) rfl
  | @higher m hl hm hkm hno hhigh =>
    obtain rfl : m = 0 := le_antisymm (hmid ⟨0, 1, false, addr, 0, 1⟩ rfl rfl ▸ hm) hl
    exact absurd ⟨hkm, hhigh⟩ h
  | @hit m hl hm hkm hno heq =>
    -- the first entry is probed once more
    obtain rfl : m = 0 := le_antisymm (hmid ⟨0, 1, false, addr, 0, 1⟩ rfl rfl ▸ hm) hl
    have hval : nValue mem stabs 0 = addr := heq
    have hlt : nValue mem stabs 0 < addr + 1 := by
      rw [BitVec.lt_def, hval, toNat_add_one haddr]
      exact Nat.lt_succ_self _
    obtain ⟨s₂, hs₂, hturn₂⟩ := searchBody_turn mem stabs type
      (s := ⟨0, 1, true, addr + 1, 0, 1⟩) (.inl le_rfl) (by exact zero_le_one)
    apply searchLoop_probes_next (by exact zero_le_one) hs₂
    cases hturn₂ with
    | none hno' => exact absurd hkm (hno' 0 le_rfl (hmid _ rfl rfl).ge)
    | lower => exact hprobe _ _ (by dsimp only; rw [hmid _ rfl rfl]; rfl) rfl
    | @higher m' hl' hm' hkm' hno' hhigh' =>
      obtain rfl : m' = 0 := le_antisymm (hmid ⟨0, 1, true, addr + 1, 0, 1⟩ rfl rfl ▸ hm') hl'
      exact absurd hhigh' (BitVec.lt_asymm hlt)
    | @hit m' hl' hm' hkm' hno' heq' =>
      obtain rfl : m' = 0 := le_antisymm (hmid ⟨0, 1, true, addr + 1, 0, 1⟩ rfl rfl ▸ hm') hl'
      exact absurd (heq' ▸ hlt) (BitVec.lt_irrefl _)

/-- Otherwise the type of another entry than the first is read. -/
theorem searchStabs_reads_other (hv : ValidStrings mem d) (haddr : addr < ulim)
    (h : ¬FewStabs mem d addr) :
    .read (stabAt d.stabs (otherStab mem d addr) + 4) 1 ∈ (searchStabs mem d addr).trace := by
  have hpos : 0 ≤ d.last := not_lt.mp fun hlt => h (.inl hlt)
  have hsearch : ∀ {e}, e ∈ (stabBinsearch mem d.stabs 0 d.last nSo addr).trace →
      e ∈ (searchStabs mem d addr).trace := by
    intro e he
    rw [searchStabs_valid hv]
    exact Traced.mem_bind_right rfl (Traced.mem_bind_left he)
  have hmax : addr ≠ 0xffffffff := by
    rintro rfl
    exact absurd haddr (by decide)
  unfold otherStab
  split_ifs with habove htwo
  · -- the entry before the first one
    obtain ⟨hle, hk, hlt⟩ := habove
    have hres := stabBinsearch_above hpos hle hk hlt
    rw [searchStabs_valid hv]
    apply Traced.mem_bind_right rfl
    apply Traced.mem_bind_right hres
    unfold afterFile inFile
    rw [if_neg (by decide)]
    apply Traced.mem_bind_left
    apply Traced.mem_bind_left
    exact searchLoop_probes (s := ⟨-1, -1, false, addr, -1, -1⟩) (.inr rfl) le_rfl
  · apply hsearch
    rw [htwo]
    exact stabBinsearch_two hmax fun hc => habove ⟨htwo.le, hc⟩
  · apply hsearch
    apply Traced.mem_bind_left
    have hmid : d.last / 2 = Search.mid ⟨0, d.last, false, addr, 0, d.last⟩ := by
      rw [Search.mid, zero_add]
    rw [hmid]
    exact searchLoop_probes (.inl (by dsimp only; omega)) hpos

/-! ## What `debuginfo_eip` does -/

theorem debuginfoEip_refused (kern : UserStabData) (haddr : addr < ulim)
    (h : ¬Accepted mem check) : Trusts [] (debuginfoEip mem check kern addr).trace := by
  obtain ⟨ha, -⟩ | ⟨-, t, heq, ht⟩ := userStabs_cases mem check
  · exact absurd ha h
  · rw [debuginfoEip, if_neg (BitVec.not_le.mpr haddr), heq, Traced.bind_some]
    exact (List.append_nil t).symm ▸ ht

theorem debuginfoEip_accepted (kern : UserStabData) (haddr : addr < ulim)
    (h : Accepted mem check) :
    (debuginfoEip mem check kern addr).trace =
        userEvents mem ++ (searchStabs mem (userData mem) addr).trace ∧
      (debuginfoEip mem check kern addr).result =
        (searchStabs mem (userData mem) addr).result := by
  obtain ⟨-, heq⟩ | ⟨hn, -⟩ := userStabs_cases mem check
  · rw [debuginfoEip, if_neg (BitVec.not_le.mpr haddr), heq, Traced.bind_some]
    exact ⟨rfl, rfl⟩
  · exact absurd h hn

theorem ne_checked_of_inTables (h : InTables d lo hi e) (va len : Word) :
    e ≠ .checked va len := by
  rintro rfl
  exact h.elim id id

theorem trusts_of_readIn {rs : List (Word × Word)} {t : List Probe}
    (h : ∀ e ∈ t, ReadIn rs e) : Trusts rs t := by
  rw [trusts_iff fun e he va len heq => by subst heq; exact h _ he]
  exact h

/-- The first entry is checked. -/
theorem readIn_first (h : InEntries d.stabs 0 0 e) : ReadIn d.ranges e := by
  apply readIn_of_inEntries _ h
  intro i hlo hhi j hj
  obtain rfl : i = 0 := by omega
  have hzero : stabAt d.stabs 0 = d.stabs := by simp [stabAt]
  rw [hzero]
  exact ⟨(d.stabs, 12), by simp [UserStabData.ranges], inRange_add (r := (d.stabs, 12)) hj⟩

/-- The searches read checked memory if the tables are small or all checked. -/
theorem searchStabs_trusts (haddr : addr < ulim)
    (h : ¬ValidStrings mem d ∨ FewStabs mem d addr ∨ Covered d) :
    Trusts d.ranges (searchStabs mem d addr).trace := by
  apply trusts_of_readIn
  intro e he
  by_cases hv : ValidStrings mem d
  · by_cases hfew : FewStabs mem d addr
    · have hread : (load8 mem (d.stabstrEnd - 1)).Meets (InTables d 0 0) fun _ => True := by
        refine ⟨fun e he => .inr ?_, _, rfl, trivial⟩
        have he : e = .read (d.stabstrEnd - 1) 1 := by simpa [load8] using he
        exact he ▸ last_inStrings hv.lt
      have hall : (searchStabs mem d addr).Meets (InTables d 0 0) fun _ => True := by
        rw [searchStabs_valid hv]
        apply hread.bind
        rintro last -
        apply ((hfew.meets haddr).mono (fun e he => .inl he) fun _ h => h).bind
        rintro reg h0
        rw [afterFile, if_pos h0]
        exact .pure trivial
      exact (hall.1 e he).elim readIn_first readIn_of_inStrings
    · have hcov := (h.resolve_left (not_not.mpr hv)).resolve_left hfew
      have hpos : 0 ≤ d.last := not_lt.mp fun hlt => hfew (.inl hlt)
      exact ((searchStabs_meets hv hpos addr).1 e he).elim (readIn_of_inEntries hcov.covered)
        readIn_of_inStrings
  · exact readIn_of_inStrings ((searchStabs_invalid hv addr).1 e he)

/-- Otherwise another entry is read, which no check has been made for. -/
theorem readIn_otherStab (hv : ValidStrings mem d) (haddr : addr < ulim)
    (hfew : ¬FewStabs mem d addr) (h : Trusts d.ranges (searchStabs mem d addr).trace) :
    ReadIn d.ranges (.read (stabAt d.stabs (otherStab mem d addr) + 4) 1) := by
  have hpos : 0 ≤ d.last := not_lt.mp fun hlt => hfew (.inl hlt)
  have hall := (searchStabs_meets hv hpos addr).1
  rw [trusts_iff fun e he => ne_checked_of_inTables (hall e he)] at h
  exact h _ (searchStabs_reads_other hv haddr hfew)

/-- The searches find the entries that enclose the address. -/
structure Enclosed (mem : Word → Byte) (d : UserStabData) (addr : Word)
    (lfile rfile lfun rfun lline rline : Int) : Prop where
  fits : d.last < 2 ^ 30
  file : (stabBinsearch mem d.stabs 0 d.last nSo addr).result = some (lfile, rfile)
  fileEncloses : Encloses (IsStab mem d.stabs nSo) (nValue mem d.stabs) 0 d.last addr lfile rfile
  function : (stabBinsearch mem d.stabs lfile rfile nFun addr).result = some (lfun, rfun)
  functionEncloses : Encloses (IsStab mem d.stabs nFun) (nValue mem d.stabs) lfile rfile addr
    lfun rfun
  line : (stabBinsearch mem d.stabs lfun rfun nSline (addr - nValue mem d.stabs lfun)).result =
    some (lline, rline)
  lineEncloses : Encloses (IsStab mem d.stabs nSline) (nValue mem d.stabs) lfun rfun
    (addr - nValue mem d.stabs lfun) lline rline

/-- Only checked memory is read if the data is refused, if there are few stabs, or if all of them
are in checked memory; in other cases it is only if another stab happens to be in one of the
checked ranges. The line is the one of the entry that encloses the address exactly when the last
entry before the next line has the same number; in a file that begins with the first entry it is
0. -/
theorem debuginfoEip_trusts (mem : Word → Byte) (check : Word → Word → Bool)
    (kern : UserStabData) (haddr : addr < ulim) :
    (¬Accepted mem check ∨ ¬ValidStrings mem (userData mem) ∨
      FewStabs mem (userData mem) addr ∨ Covered (userData mem) →
      Trusts [] (debuginfoEip mem check kern addr).trace) ∧
    (Trusts [] (debuginfoEip mem check kern addr).trace →
      ¬Accepted mem check ∨ ¬ValidStrings mem (userData mem) ∨
        FewStabs mem (userData mem) addr ∨ ReadIn (userData mem).ranges
          (.read (stabAt (userData mem).stabs (otherStab mem (userData mem) addr) + 4) 1)) ∧
    ∀ lfile rfile lfun rfun lline rline, Accepted mem check → ValidStrings mem (userData mem) →
      Enclosed mem (userData mem) addr lfile rfile lfun rfun lline rline →
      ∃ r info, (debuginfoEip mem check kern addr).result = some (r, info) ∧
        (info.line = (nDesc mem (userData mem).stabs lline).toNat ↔
          if lfile = 0 then nDesc mem (userData mem).stabs lline = 0
          else nDesc mem (userData mem).stabs rline = nDesc mem (userData mem).stabs lline) := by
  refine ⟨fun h => ?_, fun htrusts => ?_, ?_⟩
  · by_cases ha : Accepted mem check
    · rw [(debuginfoEip_accepted kern haddr ha).1, trusts_userEvents]
      exact searchStabs_trusts haddr (h.resolve_left (not_not.mpr ha))
    · exact debuginfoEip_refused kern haddr ha
  · by_contra hc
    simp only [not_or, not_not] at hc
    obtain ⟨ha, hv, hfew, hother⟩ := hc
    rw [(debuginfoEip_accepted kern haddr ha).1, trusts_userEvents] at htrusts
    exact hother (readIn_otherStab hv haddr hfew htrusts)
  · intro lfile rfile lfun rfun lline rline ha hv henc
    have hfound : (debuginfoEip mem check kern addr).result =
        (afterFile mem (userData mem) addr (lfile, rfile)).result := by
      rw [(debuginfoEip_accepted kern haddr ha).2, searchStabs_valid hv,
        Traced.result_bind_of_some rfl, Traced.result_bind_of_some henc.file]
    unfold afterFile at hfound
    dsimp only at hfound
    split_ifs at hfound with h0
    · refine ⟨-1, .init addr, hfound, ?_⟩
      rw [if_pos h0, ← BitVec.toNat_inj]
      exact Nat.cast_inj.trans eq_comm
    · obtain ⟨info, hres, hline⟩ := inFile_line hv henc.function henc.functionEncloses.le henc.line
      refine ⟨0, info, hfound.trans hres, ?_⟩
      rw [hline, if_pos henc.lineEncloses.le, Nat.cast_inj, BitVec.toNat_inj, if_neg h0]

/-! ## A program -/

/-- A program with a table at `0x300000` that ends at `0x300000 + size`, and an empty string table:
an entry without a type, a file, a function, the line 7, and the beginning of a block. -/
def program (size : Byte) : Word → Byte := fun a =>
  ([(0x200002, 0x30), (0x200004, size), (0x200006, 0x30), (0x20000A, 0x40), (0x20000C, 1),
    (0x20000E, 0x40), (0x300010, 0x64), (0x300016, 0x80), (0x30001C, 0x24), (0x300020, 0x20),
    (0x300022, 0x80), (0x300028, 0x44), (0x30002A, 7), (0x300034, 0xC0), (0x300038, 8)].lookup
      a).getD 0

/-- The program has three pages. -/
def programCheck (va len : Word) : Bool :=
  let page (a : Word) : Bool := a >>> 12 = 0x200 || a >>> 12 = 0x300 || a >>> 12 = 0x400
  page va && page (va + len - 1)

def noStabs : UserStabData := ⟨0, 0, 0, 0⟩

/-- The searches in the table of five entries. -/
theorem enclosed_program :
    Enclosed (program 60) ⟨0x300000, 0x30003C, 0x400000, 0x400001⟩ 0x800024 1 4 2 4 3 4 := by
  have hfour : ∀ i : Int, 1 < i → i ≤ 4 → i = 2 ∨ i = 3 ∨ i = 4 := by omega
  refine ⟨by decide, by decide +kernel, ⟨by decide, by decide, by decide, by decide +kernel,
    by decide +kernel, ?_, ?_, .inl rfl⟩, by decide +kernel, ⟨by decide, by decide,
    by decide, by decide +kernel, by decide +kernel, ?_, ?_, .inl rfl⟩, by decide +kernel,
    ⟨by decide, by decide, by decide, by decide +kernel, by decide +kernel, ?_, ?_, .inl rfl⟩⟩
  all_goals
    intro i hlo hhi
    rcases hfour i (by omega) hhi with rfl | rfl | rfl <;> first | omega | decide +kernel

theorem userData_program :
    userData (program 60) = ⟨0x300000, 0x30003C, 0x400000, 0x400001⟩ := by
  decide +kernel

theorem accepted_program : Accepted (program 60) programCheck := by
  unfold Accepted
  rw [userData_program]
  simp only [UserStabData.ranges, List.forall_mem_cons, List.not_mem_nil, false_imp_iff,
    implies_true, and_true]
  decide +kernel

/-- With one entry only checked memory is read; with five the line is not the right one. -/
theorem debuginfoEip_trusts_program :
    Trusts [] (debuginfoEip (program 12) programCheck noStabs 0x800024).trace ∧
    ∃ r info, (debuginfoEip (program 60) programCheck noStabs 0x800024).result = some (r, info) ∧
      info.line ≠ 7 := by
  constructor
  · exact (debuginfoEip_trusts (program 12) programCheck noStabs (by decide)).1
      (.inr (.inr (.inl (.inr (by decide +kernel)))))
  · have htable := (debuginfoEip_trusts (program 60) programCheck noStabs
      (by decide : (0x800024 : Word) < ulim)).2.2 1 4 2 4 3 4
    rw [userData_program] at htable
    obtain ⟨r, info, hres, hiff⟩ := htable accepted_program ⟨by decide +kernel, by decide +kernel⟩
      enclosed_program
    refine ⟨r, info, hres, fun h => absurd (hiff.mp ?_) (by decide +kernel)⟩
    rw [h]
    decide +kernel

/-- The table of five entries is in memory that has not been checked, and the line that is found is
`0` instead of 7. -/
theorem not_debuginfoEip_trusts :
    ¬Trusts [] (debuginfoEip (program 60) programCheck noStabs 0x800024).trace ∧
      Enclosed (program 60) ⟨0x300000, 0x30003C, 0x400000, 0x400001⟩ 0x800024 1 4 2 4 3 4 ∧
      nDesc (program 60) 0x300000 3 = 7 ∧
      (debuginfoEip (program 60) programCheck noStabs 0x800024).result.map (·.2.line) =
        some 0 := by
  refine ⟨by decide +kernel, enclosed_program, by decide +kernel, by decide +kernel⟩

end JosKernel
