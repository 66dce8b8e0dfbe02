import JosKernel.Lib.Traced
import JosKernel.Machine.Mmu

/-!
# The multiprocessor configuration table

`mp_init` of `kern/mpconfig.c`, for a table that `mpconfig` has found. `tbl` gives the bytes from
the beginning of the table on, also those behind its end. The entries follow the header of 44
bytes; an entry for a processor has 20 bytes, the others have 8.
-/
namespace JosKernel

open Lib

def ncpuMax : Nat := 8

/-- `MPPROC_BOOT`. -/
def mpprocBoot : Byte := 2

inductive CpuStatus where
  | unused
  | started
  | halted
  deriving DecidableEq

structure MpCpuInfo where
  cpuId : Byte
  cpuStatus : CpuStatus

/-- What `mp_init` sets; `bootcpu` is the index of the element that the pointer points to. -/
structure MpState where
  cpus : Fin ncpuMax → MpCpuInfo
  ncpu : Nat
  bootcpu : Nat
  ismp : Bool
  lapicaddr : Word

/-- `cpus[ncpu].cpu_id = ncpu; ncpu++`, if there is room. -/
def MpState.addCpu (st : MpState) : MpState :=
  if h : st.ncpu < ncpuMax then
    { st with
      cpus := Function.update st.cpus ⟨_, h⟩ { st.cpus ⟨_, h⟩ with cpuId := .ofNat 8 st.ncpu }
      ncpu := st.ncpu + 1 }
  else st

/-- A read of some bytes of the table. -/
structure TblRead where
  off : Nat
  len : Nat
  deriving DecidableEq

section Model

variable (tbl : Nat → Byte)

/-- `conf->length`. -/
def mpLength : Nat := (tbl 5 ++ tbl 4).toNat

/-- `conf->entry`. -/
def mpEntry : Nat := (tbl 35 ++ tbl 34).toNat

/-- `conf->xlength`. -/
def mpXlength : Nat := (tbl 41 ++ tbl 40).toNat

/-- `sum`: of `len` bytes. -/
def mpSum (off len : Nat) : Byte := ((List.range len).map fun i => tbl (off + i)).sum

/-- The tests of `mpconfig`. -/
def mpconfig : Bool :=
  (List.range 4).map tbl == [0x50, 0x43, 0x4D, 0x50] && mpSum tbl 0 (mpLength tbl) == 0 &&
    (tbl 6 == 1 || tbl 6 == 4) && mpSum tbl (mpLength tbl) (mpXlength tbl) + tbl 42 == 0

/-- A byte of the table is read. -/
def tblByte (off : Nat) : Traced TblRead Byte := ⟨[⟨off, 1⟩], some (tbl off)⟩

/-- `i < conf->entry`, or another use of that field. -/
def readEntry : Traced TblRead Unit := .emit ⟨34, 2⟩

/-- The loop: `k` entries are left, and `p` is the next one. -/
def mpWalk : Nat → Nat → MpState → Traced TblRead MpState
  | 0, _, st => do
    readEntry
    pure st
  | k + 1, p, st => do
    readEntry
    let type ← tblByte tbl p
    if type = 0 then
      let flags ← tblByte tbl (p + 3)
      let st := if flags &&& mpprocBoot ≠ 0 then { st with bootcpu := st.ncpu } else st
      if st.ncpu < ncpuMax then mpWalk k (p + 20) st.addCpu
      else
        let _ ← tblByte tbl (p + 1)
        mpWalk k (p + 20) st
    else if type ≤ 4 then mpWalk k (p + 8) st
    else
      let _ ← tblByte tbl p
      readEntry
      readEntry
      pure { st with ismp := false }

/-- `bootcpu->cpu_status = CPU_STARTED`; what lies behind the array is not modelled. -/
def MpState.startBootcpu (st : MpState) : MpState :=
  if h : st.bootcpu < ncpuMax then
    { st with
      cpus := Function.update st.cpus ⟨_, h⟩ { st.cpus ⟨_, h⟩ with cpuStatus := .started } }
  else st

/-- The state at boot. -/
def MpState.boot : MpState := ⟨fun _ => ⟨0, .unused⟩, 0, 0, false, 0⟩

/-- `mp_init`. -/
def mpInit : Traced TblRead MpState :=
  if mpconfig tbl then do
    .emit ⟨36, 4⟩
    let lapicaddr := tbl 39 ++ tbl 38 ++ tbl 37 ++ tbl 36
    let st ← mpWalk tbl (mpEntry tbl) 44 { MpState.boot with ismp := true, lapicaddr }
    let st := st.startBootcpu
    if !st.ismp then pure { st with ncpu := 1, lapicaddr := 0 }
    else pure st
  else pure .boot

end Model

/-! ## The entries -/

/-- The entries that the loop comes to, by their offsets. -/
def mpVisited (tbl : Nat → Byte) : Nat → Nat → List Nat
  | 0, _ => []
  | k + 1, p =>
    p :: if tbl p = 0 then mpVisited tbl k (p + 20)
      else if tbl p ≤ 4 then mpVisited tbl k (p + 8)
      else []

/-- Those for processors. -/
def procs (tbl : Nat → Byte) (k p : Nat) : List Nat := (mpVisited tbl k p).filter (tbl · = 0)

/-- An entry for a processor that says it is the boot processor. -/
def IsBoot (tbl : Nat → Byte) (p : Nat) : Prop := tbl (p + 3) &&& mpprocBoot ≠ 0

instance (tbl : Nat → Byte) : DecidablePred (IsBoot tbl) :=
  fun _ => inferInstanceAs (Decidable (_ ≠ _))

/-- An entry of an unknown type is met. -/
def HasUnknown (tbl : Nat → Byte) (k p : Nat) : Prop := ∃ q ∈ mpVisited tbl k p, ¬tbl q ≤ 4

/-- The bytes of an entry that are looked at are among the first `len`. -/
def EntryWithin (tbl : Nat → Byte) (len p : Nat) : Prop :=
  p + 1 ≤ len ∧ (tbl p = 0 → p + 4 ≤ len)

/-- All reads are among the first `len` bytes. -/
def TblWithin (len : Nat) (t : List TblRead) : Prop := ∀ e ∈ t, e.off + e.len ≤ len

variable {tbl : Nat → Byte} {k p len : Nat} {st : MpState}

theorem tblWithin_nil : TblWithin len [] := nofun

theorem tblWithin_cons {e : TblRead} {t : List TblRead} :
    TblWithin len (e :: t) ↔ e.off + e.len ≤ len ∧ TblWithin len t := List.forall_mem_cons

theorem tblWithin_append {t t' : List TblRead} :
    TblWithin len (t ++ t') ↔ TblWithin len t ∧ TblWithin len t' := List.forall_mem_append

theorem procs_succ (tbl : Nat → Byte) (k p : Nat) :
    procs tbl (k + 1) p = if tbl p = 0 then p :: procs tbl k (p + 20)
      else if tbl p ≤ 4 then procs tbl k (p + 8) else [] := by
  unfold procs
  rw [mpVisited]
  split_ifs with h0 h4
  · exact List.filter_cons_of_pos (by simpa using h0)
  · exact List.filter_cons_of_neg (by simpa using h0)
  · exact List.filter_cons_of_neg (by simpa using h0)

theorem hasUnknown_succ (tbl : Nat → Byte) (k p : Nat) :
    HasUnknown tbl (k + 1) p ↔ if tbl p = 0 then HasUnknown tbl k (p + 20)
      else if tbl p ≤ 4 then HasUnknown tbl k (p + 8) else True := by
  unfold HasUnknown
  rw [mpVisited]
  have hzero : (0 : Byte) ≤ 4 := by decide
  split_ifs with h0 h4
  · simp only [List.exists_mem_cons_iff, h0, hzero, not_true_eq_false, false_or]
  · simp only [List.exists_mem_cons_iff, h4, not_true_eq_false, false_or]
  · simp only [List.exists_mem_cons_iff, h4, not_false_eq_true, true_or]

/-! ## The loop -/

/-- What the flags of a processor's entry change. -/
def MpState.markBoot (tbl : Nat → Byte) (p : Nat) (st : MpState) : MpState :=
  if IsBoot tbl p then { st with bootcpu := st.ncpu } else st

/-- The processors so far have their numbers, and the boot processor is one of them or the
next one. -/
structure MpState.Ok (st : MpState) : Prop where
  ncpu_le : st.ncpu ≤ ncpuMax
  bootcpu_le : st.bootcpu ≤ st.ncpu
  cpuId : ∀ i : Fin ncpuMax, i.val < st.ncpu → (st.cpus i).cpuId = .ofNat 8 i.val
  first : (st.cpus ⟨0, by decide⟩).cpuId = 0

theorem MpState.Ok.markBoot (h : st.Ok) (tbl : Nat → Byte) (p : Nat) : (st.markBoot tbl p).Ok := by
  unfold MpState.markBoot
  split_ifs
  · exact ⟨h.ncpu_le, le_rfl, h.cpuId, h.first⟩
  · exact h

theorem MpState.Ok.addCpu (h : st.Ok) : st.addCpu.Ok ∧ st.addCpu.ncpu = min ncpuMax (st.ncpu + 1) ∧
    st.addCpu.bootcpu = st.bootcpu ∧ st.addCpu.ismp = st.ismp := by
  have hboot := h.bootcpu_le
  have hle := h.ncpu_le
  unfold MpState.addCpu
  split_ifs with hlt
  · refine ⟨⟨hlt, Nat.le_succ_of_le hboot, fun i hi => ?_, ?_⟩, (min_eq_right hlt).symm, rfl, rfl⟩
    · dsimp only at hi ⊢
      by_cases heq : i = ⟨st.ncpu, hlt⟩
      · rw [heq, Function.update_self]
      · rw [Function.update_of_ne heq]
        have hne : i.val ≠ st.ncpu := fun hc => heq (Fin.ext hc)
        exact h.cpuId i (by omega)
    · dsimp only
      by_cases heq : (⟨0, by decide⟩ : Fin ncpuMax) = ⟨st.ncpu, hlt⟩
      · have hzero : st.ncpu = 0 := (Fin.mk.inj heq).symm
        rw [heq, Function.update_self]
        exact congrArg (BitVec.ofNat 8) hzero
      · rw [Function.update_of_ne heq]
        exact h.first
  · exact ⟨h, by omega, rfl, rfl⟩

theorem ncpu_markBoot (tbl : Nat → Byte) (p : Nat) (st : MpState) :
    (st.markBoot tbl p).ncpu = st.ncpu := by
  unfold MpState.markBoot
  split_ifs <;> rfl

theorem ismp_markBoot (tbl : Nat → Byte) (p : Nat) (st : MpState) :
    (st.markBoot tbl p).ismp = st.ismp := by
  unfold MpState.markBoot
  split_ifs <;> rfl

theorem bootcpu_markBoot (tbl : Nat → Byte) (p : Nat) (st : MpState) :
    (st.markBoot tbl p).bootcpu = if IsBoot tbl p then st.ncpu else st.bootcpu := by
  unfold MpState.markBoot
  split_ifs <;> rfl

/-- The entry of a processor. -/
theorem mpWalk_proc (k : Nat) (st : MpState) (h : tbl p = 0) :
    mpWalk tbl (k + 1) p st = Traced.mk
      ([⟨34, 2⟩, ⟨p, 1⟩, ⟨p + 3, 1⟩] ++ if st.ncpu < ncpuMax then [] else [⟨p + 1, 1⟩]) (some ())
      >>= fun _ => mpWalk tbl k (p + 20) (st.markBoot tbl p).addCpu := by
  rw [mpWalk]
  simp only [readEntry, Traced.emit, tblByte, Traced.bind_some, if_pos h]
  have hmark : (if tbl (p + 3) &&& mpprocBoot ≠ 0 then { st with bootcpu := st.ncpu } else st) =
      st.markBoot tbl p := rfl
  rw [hmark, ncpu_markBoot]
  split_ifs with hlt
  · rfl
  · have hsame : (st.markBoot tbl p).addCpu = st.markBoot tbl p := by
      rw [MpState.addCpu, dif_neg (by rwa [ncpu_markBoot])]
    rw [hsame]
    rfl

/-- The entry of another known type. -/
theorem mpWalk_known (k : Nat) (st : MpState) (h : tbl p ≠ 0) (h4 : tbl p ≤ 4) :
    mpWalk tbl (k + 1) p st = Traced.mk [⟨34, 2⟩, ⟨p, 1⟩] (some ()) >>= fun _ =>
      mpWalk tbl k (p + 8) st := by
  rw [mpWalk]
  simp only [readEntry, Traced.emit, tblByte, Traced.bind_some, if_neg h, if_pos h4]
  rfl

/-- The entry of an unknown type ends the loop. -/
theorem mpWalk_unknown (k : Nat) (st : MpState) (h : tbl p ≠ 0) (h4 : ¬tbl p ≤ 4) :
    mpWalk tbl (k + 1) p st =
      ⟨[⟨34, 2⟩, ⟨p, 1⟩, ⟨p, 1⟩, ⟨34, 2⟩, ⟨34, 2⟩], some { st with ismp := false }⟩ := by
  rw [mpWalk]
  simp only [readEntry, Traced.emit, tblByte, Traced.bind_some, if_neg h, if_neg h4]
  rfl

/-- The loop looks at all entries it comes to. -/
theorem mpWalk_within : TblWithin len (mpWalk tbl k p st).trace ↔
    36 ≤ len ∧ ∀ q ∈ mpVisited tbl k p, EntryWithin tbl len q := by
  induction k generalizing p st with
  | zero =>
    rw [mpWalk, mpVisited]
    simp [readEntry, Traced.emit, tblWithin_cons, tblWithin_nil]
  | succ k ih =>
    rw [mpVisited, List.forall_mem_cons]
    by_cases h0 : tbl p = 0
    · rw [mpWalk_proc k st h0, Traced.bind_some, tblWithin_append, ih, if_pos h0]
      simp only [List.cons_append, List.nil_append, tblWithin_cons, EntryWithin, h0]
      split_ifs <;> simp only [tblWithin_nil, tblWithin_cons] <;> grind
    by_cases h4 : tbl p ≤ 4
    · rw [mpWalk_known k st h0 h4, Traced.bind_some, tblWithin_append, ih, if_neg h0, if_pos h4]
      simp only [tblWithin_cons, tblWithin_nil, EntryWithin]
      grind
    · rw [mpWalk_unknown k st h0 h4, if_neg h0, if_neg h4]
      simp only [tblWithin_cons, tblWithin_nil, EntryWithin]
      grind

/-- What the loop computes. -/
structure WalkResult (tbl : Nat → Byte) (k p : Nat) (st st' : MpState) : Prop where
  ok : st'.Ok
  ncpu : st'.ncpu = min ncpuMax (st.ncpu + (procs tbl k p).length)
  ismp : st'.ismp = true ↔ st.ismp = true ∧ ¬HasUnknown tbl k p
  bootcpu_lt : ∀ l ≤ ncpuMax, st'.bootcpu < l ↔ st.bootcpu < l ∧
    ∀ q ∈ (procs tbl k p).drop (l - st.ncpu), ¬IsBoot tbl q

/-- The last processor that says so becomes the boot processor. -/
theorem bootcpu_lt_proc {l : Nat} {P : List Nat} (hst : st.Ok) (hl : l ≤ ncpuMax) :
    ((st.markBoot tbl p).addCpu.bootcpu < l ∧
      ∀ q ∈ P.drop (l - (st.markBoot tbl p).addCpu.ncpu), ¬IsBoot tbl q) ↔
    st.bootcpu < l ∧ ∀ q ∈ (p :: P).drop (l - st.ncpu), ¬IsBoot tbl q := by
  obtain ⟨-, hncpu, hboot, -⟩ := (hst.markBoot tbl p).addCpu
  have hle := hst.bootcpu_le
  have hmax := hst.ncpu_le
  rw [hncpu, hboot, ncpu_markBoot, bootcpu_markBoot]
  by_cases hlt : st.ncpu < l
  · have hsub : l - st.ncpu = l - min ncpuMax (st.ncpu + 1) + 1 := by omega
    rw [hsub, List.drop_succ_cons]
    have : (if IsBoot tbl p then st.ncpu else st.bootcpu) < l ↔ st.bootcpu < l := by
      split_ifs <;> omega
    rw [this]
  · have hsub : l - st.ncpu = 0 := by omega
    have hsub' : l - min ncpuMax (st.ncpu + 1) = 0 := by omega
    rw [hsub, hsub', List.drop_zero, List.drop_zero, List.forall_mem_cons]
    split_ifs with hb
    · exact iff_of_false (fun h => hlt h.1) (fun h => h.2.1 hb)
    · simp only [hb, not_false_eq_true, true_and]

theorem mpWalk_spec (k p : Nat) (hst : st.Ok) :
    ∃ st', (mpWalk tbl k p st).result = some st' ∧ WalkResult tbl k p st st' := by
  induction k generalizing p st with
  | zero =>
    refine ⟨st, rfl, hst, ?_, ?_, fun l _ => ?_⟩
    · have := hst.ncpu_le
      simpa [procs, mpVisited] using this
    · simp [HasUnknown, mpVisited]
    · simp [procs, mpVisited]
  | succ k ih =>
    by_cases h0 : tbl p = 0
    · obtain ⟨hok, hncpu, -, hismp⟩ := (hst.markBoot tbl p).addCpu
      obtain ⟨st', hres, hr⟩ := ih (p + 20) hok
      refine ⟨st', ?_, hr.ok, ?_, ?_, fun l hl => ?_⟩
      · rw [mpWalk_proc k st h0, Traced.bind_some, hres]
      · rw [hr.ncpu, hncpu, procs_succ, if_pos h0, List.length_cons, ncpu_markBoot]
        omega
      · rw [hr.ismp, hismp, ismp_markBoot, hasUnknown_succ, if_pos h0]
      · rw [hr.bootcpu_lt l hl, procs_succ, if_pos h0]
        exact bootcpu_lt_proc hst hl
    by_cases h4 : tbl p ≤ 4
    · obtain ⟨st', hres, hr⟩ := ih (p + 8) hst
      refine ⟨st', ?_, hr.ok, ?_, ?_, fun l hl => ?_⟩
      · rw [mpWalk_known k st h0 h4, Traced.bind_some, hres]
      · rw [hr.ncpu, procs_succ, if_neg h0, if_pos h4]
      · rw [hr.ismp, hasUnknown_succ, if_neg h0, if_pos h4]
      · rw [hr.bootcpu_lt l hl, procs_succ, if_neg h0, if_pos h4]
    · have hle := hst.ncpu_le
      refine ⟨{ st with ismp := false }, by rw [mpWalk_unknown k st h0 h4],
        ⟨hst.ncpu_le, hst.bootcpu_le, hst.cpuId, hst.first⟩, ?_, ?_, fun l _ => ?_⟩
      · rw [procs_succ, if_neg h0, if_neg h4]
        simpa using hle
      · rw [hasUnknown_succ, if_neg h0, if_neg h4]
        simp
      · rw [procs_succ, if_neg h0, if_neg h4]
        simp

/-! ## Tables that are handled well -/

/-- What one expects of `mp_init`. -/
structure MpInitSafe (tbl : Nat → Byte) : Prop where
  within : TblWithin (mpLength tbl) (mpInit tbl).trace
  finishes : ∃ st, (mpInit tbl).result = some st ∧ 1 ≤ st.ncpu ∧ st.ncpu ≤ ncpuMax ∧
    (∀ i : Fin ncpuMax, i.val < st.ncpu → (st.cpus i).cpuId = .ofNat 8 i.val) ∧
    st.bootcpu < st.ncpu

/-- The entries lie in the table. There is a processor, and none beyond the limit says that it is
the boot processor; before an entry of an unknown type only the first one may say so. -/
structure MpTableFits (tbl : Nat → Byte) : Prop where
  header : 40 ≤ mpLength tbl
  entries : ∀ q ∈ mpVisited tbl (mpEntry tbl) 44, EntryWithin tbl (mpLength tbl) q
  known : ¬HasUnknown tbl (mpEntry tbl) 44 → procs tbl (mpEntry tbl) 44 ≠ [] ∧
    ∀ q ∈ (procs tbl (mpEntry tbl) 44).drop ncpuMax, ¬IsBoot tbl q
  unknown : HasUnknown tbl (mpEntry tbl) 44 →
    ∀ q ∈ (procs tbl (mpEntry tbl) 44).drop 1, ¬IsBoot tbl q

theorem startBootcpu_keeps (st : MpState) : st.startBootcpu.ncpu = st.ncpu ∧
    st.startBootcpu.bootcpu = st.bootcpu ∧ st.startBootcpu.ismp = st.ismp ∧
    ∀ i, (st.startBootcpu.cpus i).cpuId = (st.cpus i).cpuId := by
  unfold MpState.startBootcpu
  split_ifs with h
  · refine ⟨rfl, rfl, rfl, fun i => ?_⟩
    dsimp only
    by_cases heq : i = ⟨st.bootcpu, h⟩
    · rw [heq, Function.update_self]
    · rw [Function.update_of_ne heq]
  · exact ⟨rfl, rfl, rfl, fun _ => rfl⟩

/-- The state before the walk. -/
def MpState.start (tbl : Nat → Byte) : MpState :=
  { MpState.boot with ismp := true, lapicaddr := tbl 39 ++ tbl 38 ++ tbl 37 ++ tbl 36 }

/-- What is done after the walk. -/
def MpState.finish (st : MpState) : MpState :=
  if !st.startBootcpu.ismp then { st.startBootcpu with ncpu := 1, lapicaddr := 0 }
  else st.startBootcpu

theorem mpInit_eq (h : mpconfig tbl) :
    mpInit tbl = Traced.mk [⟨36, 4⟩] (some ()) >>= fun _ =>
      mpWalk tbl (mpEntry tbl) 44 (.start tbl) >>= fun st => pure st.finish := by
  have hend : ∀ st : MpState, (if !st.startBootcpu.ismp then
      pure { st.startBootcpu with ncpu := 1, lapicaddr := 0 } else pure st.startBootcpu :
        Traced TblRead MpState) = pure st.finish := by
    intro st
    unfold MpState.finish
    split_ifs <;> rfl
  rw [mpInit, if_pos h]
  simp only [hend]
  rfl

/-- The reads are in the table when the header and the entries are. -/
theorem mpInit_within (h : mpconfig tbl) : TblWithin (mpLength tbl) (mpInit tbl).trace ↔
    40 ≤ mpLength tbl ∧
      ∀ q ∈ mpVisited tbl (mpEntry tbl) 44, EntryWithin tbl (mpLength tbl) q := by
  have hok : (MpState.start tbl).Ok :=
    ⟨Nat.zero_le _, le_rfl, fun i hi => absurd hi (Nat.not_lt_zero _), rfl⟩
  obtain ⟨st, hres, -⟩ := mpWalk_spec (mpEntry tbl) 44 hok
  rw [mpInit_eq h, Traced.bind_some, tblWithin_append, Traced.trace_bind_of_some hres,
    Traced.trace_pure, List.append_nil, mpWalk_within]
  simp only [tblWithin_cons, tblWithin_nil]
  grind

/-- `mp_init` is safe on the tables that fit, and on no others. -/
theorem mpInitSafe_iff (h : mpconfig tbl) : MpInitSafe tbl ↔ MpTableFits tbl := by
  have hok : (MpState.start tbl).Ok :=
    ⟨Nat.zero_le _, le_rfl, fun i hi => absurd hi (Nat.not_lt_zero _), rfl⟩
  obtain ⟨st, hres, hwalk⟩ := mpWalk_spec (mpEntry tbl) 44 hok
  obtain ⟨hn, hb, hi, hc⟩ := startBootcpu_keeps st
  have hresult : (mpInit tbl).result = some st.finish := by
    rw [mpInit_eq h, Traced.bind_some, Traced.result_bind_of_some hres, Traced.result_pure]
  have hncpu : st.ncpu = min ncpuMax (procs tbl (mpEntry tbl) 44).length :=
    hwalk.ncpu.trans (by rw [show (MpState.start tbl).ncpu = 0 from rfl, Nat.zero_add])
  have hboot : ∀ l ≤ ncpuMax, st.bootcpu < l ↔ 0 < l ∧
      ∀ q ∈ (procs tbl (mpEntry tbl) 44).drop l, ¬IsBoot tbl q := hwalk.bootcpu_lt
  have hmax : 1 ≤ ncpuMax := by decide
  by_cases hu : HasUnknown tbl (mpEntry tbl) 44
  · have hismp : st.startBootcpu.ismp = false := by
      rw [hi, ← Bool.not_eq_true, hwalk.ismp]
      exact fun hc => hc.2 hu
    have hfinish : st.finish = { st.startBootcpu with ncpu := 1, lapicaddr := 0 } := by
      rw [MpState.finish, hismp]
      rfl
    constructor
    · rintro ⟨hwithin, st', hst', -, -, -, hlt⟩
      obtain ⟨hheader, hentries⟩ := (mpInit_within h).mp hwithin
      rw [hresult, hfinish] at hst'
      cases hst'
      refine ⟨hheader, hentries, fun hc => absurd hu hc, fun _ => ?_⟩
      exact ((hboot 1 hmax).mp (hb ▸ hlt)).2
    · rintro ⟨hheader, hentries, -, hflags⟩
      refine ⟨(mpInit_within h).mpr ⟨hheader, hentries⟩, _, hresult, ?_⟩
      rw [hfinish]
      refine ⟨le_rfl, hmax, fun i hi => ?_, ?_⟩
      · obtain rfl : i = ⟨0, by decide⟩ := Fin.ext (Nat.lt_one_iff.mp hi)
        exact (hc _).trans hwalk.ok.first
      · exact hb.symm ▸ (hboot 1 hmax).mpr ⟨Nat.one_pos, hflags hu⟩
  · have hismp : st.startBootcpu.ismp = true := by
      rw [hi, hwalk.ismp]
      exact ⟨rfl, hu⟩
    have hfinish : st.finish = st.startBootcpu := by
      rw [MpState.finish, hismp]
      rfl
    have hdrop : (procs tbl (mpEntry tbl) 44).drop st.ncpu =
        (procs tbl (mpEntry tbl) 44).drop ncpuMax := by
      rw [hncpu]
      rcases le_total ncpuMax (procs tbl (mpEntry tbl) 44).length with hle | hle
      · rw [min_eq_left hle]
      · rw [min_eq_right hle, List.drop_length, List.drop_eq_nil_of_le hle]
    have hne : 1 ≤ st.ncpu ↔ procs tbl (mpEntry tbl) 44 ≠ [] := by
      rw [hncpu, ← List.length_pos_iff]
      omega
    have hlast := hboot st.ncpu hwalk.ok.ncpu_le
    rw [hdrop] at hlast
    constructor
    · rintro ⟨hwithin, st', hst', hone, -, -, hlt⟩
      obtain ⟨hheader, hentries⟩ := (mpInit_within h).mp hwithin
      rw [hresult, hfinish] at hst'
      cases hst'
      rw [hn] at hone
      rw [hn, hb] at hlt
      exact ⟨hheader, hentries, fun _ => ⟨hne.mp hone, (hlast.mp hlt).2⟩, fun hc => absurd hc hu⟩
    · rintro ⟨hheader, hentries, hflags, -⟩
      obtain ⟨hprocs, hflags⟩ := hflags hu
      refine ⟨(mpInit_within h).mpr ⟨hheader, hentries⟩, _, hresult, ?_⟩
      rw [hfinish, hn, hb]
      refine ⟨hne.mpr hprocs, hwalk.ok.ncpu_le, fun i hi => ?_, ?_⟩
      · exact (hc _).trans (hwalk.ok.cpuId i hi)
      · exact hlast.mpr ⟨hne.mpr hprocs, hflags⟩

/-- A table of the given length with `entry` entries of processors, of which the one with the flags
at `boot` is the boot processor. -/
def mpTable (length entry checksum : Byte) (boot : Nat) : Nat → Byte := fun i =>
  ([(0, 0x50), (1, 0x43), (2, 0x4D), (3, 0x50), (4, length), (6, 1), (7, checksum), (34, entry),
    (boot, 2)].lookup i).getD 0

/-- A table with one processor. -/
theorem mpInitSafe_one : MpInitSafe (mpTable 64 1 0x8C 47) := by
  have hvisited : mpVisited (mpTable 64 1 0x8C 47) (mpEntry (mpTable 64 1 0x8C 47)) 44 = [44] := by
    decide +kernel
  have hprocs : procs (mpTable 64 1 0x8C 47) (mpEntry (mpTable 64 1 0x8C 47)) 44 = [44] := by
    decide +kernel
  refine (mpInitSafe_iff (by decide +kernel)).mpr ⟨by decide +kernel, ?_, fun _ => ⟨?_, ?_⟩,
    fun _ => ?_⟩
  · rw [hvisited]
    simp only [List.forall_mem_singleton]
    exact ⟨by decide +kernel, fun _ => by decide +kernel⟩
  · rw [hprocs]
    decide
  · rw [hprocs]
    exact nofun
  · rw [hprocs]
    exact nofun

/-- Tables with valid checksums: the only entry lies behind the end; there is no entry; the ninth
processor is the boot processor. -/
theorem not_mpInitSafe :
    (mpconfig (mpTable 44 1 0xA2 47) ∧
      ¬TblWithin 44 (mpInit (mpTable 44 1 0xA2 47)).trace) ∧
    (mpconfig (mpTable 44 0 0xA3 47) ∧
      (mpInit (mpTable 44 0 0xA3 47)).result.map (·.ncpu) = some 0) ∧
    (mpconfig (mpTable 224 9 0xE4 207) ∧
      (mpInit (mpTable 224 9 0xE4 207)).result.map (fun st => (st.ncpu, st.bootcpu)) =
        some (8, 8)) := by
  refine ⟨⟨by decide +kernel, fun h => ?_⟩, ⟨by decide +kernel, by decide +kernel⟩,
    by decide +kernel, by decide +kernel⟩
  exact absurd (h ⟨44, 1⟩ (by decide +kernel)) (by decide)

end JosKernel
