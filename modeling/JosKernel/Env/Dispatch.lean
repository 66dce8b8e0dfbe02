import JosKernel.Env.Registration
import JosKernel.Env.Total

/-!
# Dispatch of exceptions

From a trap to the upcall that the record names. The handler stores the frame of the trap with
the privileges of the kernel, so what it needs of memory is said here for the stores themselves:
every byte of the frame can be written by user code, and none lies in a page that translates the
frame. Then the frame can be read back from the same addresses.
-/
namespace JosKernel

open Lib

variable {n : Nat}

/-- The numbers of `inc/trap.h`. -/
def trapNo : Exc → Word
  | .divzero => 0
  | .debug => 1
  | .nmskint => 2
  | .bpoint => 3
  | .oflow => 4
  | .bdschk => 5
  | .illopcd => 6
  | .dvcntavl => 7
  | .dbfault => 8
  | .ivldtss => 10
  | .segntprst => 11
  | .stkexception => 12
  | .gpfault => 13
  | .pgfault => 14
  | .fperror => 16
  | .algchk => 17
  | .mchchk => 18
  | .simdfperror => 19

theorem ofTrapno_trapNo (exc : Exc) : Exc.ofTrapno (trapNo exc).toNat = some exc := by
  cases exc <;> rfl

/-! ## Stores that do not touch the page tables -/

/-- The bytes of a word, lowest address first. -/
def wordBytes (w : Word) : List Byte :=
  [w.extractLsb' 0 8, w.extractLsb' 8 8, w.extractLsb' 16 8, w.extractLsb' 24 8]

def kstoreBytes (m : Mem n) (cr3 : Fin n) (va : Word) : List Byte → Option (Mem n)
  | [] => some m
  | b :: bs => do kstoreBytes (← m.storeByte cr3 va b false) cr3 (va + 1) bs

/-- User code can write the bytes from `u` on, and they are in no page that translates one. -/
def Storable (m : Mem n) (g : Fin n) (u : Word) (len : ℕ) : Prop :=
  ∀ i < len, ∃ w, m.translate g (u + BitVec.ofNat 32 i) true true = some w ∧ w.1 ≠ g ∧
    ∀ j < len, pgnum (m.entry g (pdx (u + BitVec.ofNat 32 j))) ≠ w.1

section
variable {m m' : Mem n} {g p : Fin n} {va u : Word} {b : Byte} {len i : ℕ}

theorem kstoreWords_eq (m : Mem n) (g : Fin n) (va : Word) (ws : List Word) :
    kstoreWords m g va ws = kstoreBytes m g va (ws.flatMap wordBytes) := by
  induction ws generalizing m va with
  | nil => rfl
  | cons w ws ih =>
    simp only [kstoreWords, kstoreWord, List.flatMap_cons, wordBytes, List.cons_append,
      List.nil_append, kstoreBytes, Option.bind_eq_bind, Option.bind_assoc]
    have h2 : va + 1 + 1 = va + 2 := by rw [BitVec.add_assoc]; rfl
    have h3 : va + 2 + 1 = va + 3 := by rw [BitVec.add_assoc]; rfl
    have h4 : va + 3 + 1 = va + 4 := by rw [BitVec.add_assoc]; rfl
    simp only [h2, h3, h4, ih]

/-- An entry that allows a write by user code allows everything. -/
theorem allows_of_user_write {w : Word} (h : Mem.allows true true w = true) (user write : Bool) :
    Mem.allows user write w = true := by
  unfold Mem.allows at h ⊢
  cases user <;> cases write <;> simp_all

theorem translate_of_user_write {w : Fin n × Fin 4096} (h : m.translate g va true true = some w)
    (user write : Bool) : m.translate g va user write = some w := by
  unfold Mem.translate at h ⊢
  simp only at h ⊢
  split_ifs at h with h1 h2 h3 h4
  rw [if_pos (allows_of_user_write h1 user write), dif_pos h2,
    if_pos (allows_of_user_write h3 user write), dif_pos h4]
  exact h

theorem translate_off {w : Fin n × Fin 4096} {user write : Bool}
    (h : m.translate g va user write = some w) : w.2 = pgoff va := by
  unfold Mem.translate at h
  simp only at h
  split_ifs at h
  exact (congrArg Prod.snd (Option.some.inj h)).symm

theorem translate_setFrame {f : Frame} (hg : p ≠ g) (ht : pgnum (m.entry g (pdx va)) ≠ p)
    (user write : Bool) : (m.setFrame p f).translate g va user write =
      m.translate g va user write := by
  refine Mem.translate_congr (Mem.entry_setFrame_of_ne hg.symm) (fun pt hpt => ?_) user write
  refine Mem.entry_setFrame_of_ne fun hptp => ht ?_
  rw [(pageOf_eq_some.mp hpt).2, hptp]

/-- Addresses less than a page apart have different offsets. -/
theorem pgoff_add_ne {i j : ℕ} (hi : i < 4096) (hj : j < 4096) (hij : i ≠ j) :
    pgoff (u + BitVec.ofNat 32 i) ≠ pgoff (u + BitVec.ofNat 32 j) := by
  intro h
  have h' := congrArg Fin.val h
  simp only [pgoff, BitVec.toNat_add, BitVec.toNat_ofNat] at h'
  omega

/-- One byte store, and what can be read then. -/
theorem Storable.storeByte (h : Storable m g u len) (hlen : len ≤ 4096) (hi : i < len)
    (b : Byte) : ∃ m', m.storeByte g (u + BitVec.ofNat 32 i) b false = some m' ∧
      Storable m' g u len ∧ ∀ j < len, m'.loadByte g (u + BitVec.ofNat 32 j) true =
        if j = i then some b else m.loadByte g (u + BitVec.ofNat 32 j) true := by
  obtain ⟨⟨p, o⟩, hw, hpg, hpt⟩ := h i hi
  have hsame : ∀ j < len, ∀ user write f,
      (m.setFrame p f).translate g (u + BitVec.ofNat 32 j) user write =
        m.translate g (u + BitVec.ofNat 32 j) user write := fun j hj user write f =>
    translate_setFrame hpg (hpt j hj) user write
  refine ⟨m.setFrame p (Function.update (m.frame p) o b), ?_, fun j hj => ?_, fun j hj => ?_⟩
  · rw [Mem.storeByte, translate_of_user_write hw]
    rfl
  · obtain ⟨w, hw', hwg, hwt⟩ := h j hj
    refine ⟨w, (hsame j hj _ _ _).trans hw', hwg, fun j' hj' => ?_⟩
    rw [Mem.entry_setFrame_of_ne (Ne.symm hpg)]
    exact hwt j' hj'
  · obtain ⟨⟨q, o'⟩, hw', -, -⟩ := h j hj
    rw [Mem.loadByte, hsame j hj, Mem.loadByte, translate_of_user_write hw']
    simp only [Option.map_some, Mem.setFrame]
    by_cases hji : j = i
    · subst hji
      obtain ⟨rfl, rfl⟩ := Prod.mk.inj (Option.some.inj (hw.symm.trans hw'))
      simp
    · have ho : o' ≠ o := by
        rw [show o' = _ from translate_off hw', show o = _ from translate_off hw]
        exact pgoff_add_ne (by omega) (by omega) hji
      rw [if_neg hji]
      by_cases hq : q = p
      · subst hq
        simp [ho]
      · simp [hq]

/-- Storing bytes one after the other; those stored can be read back. -/
theorem Storable.kstoreBytes (h : Storable m g u len) (hlen : len ≤ 4096) (bs : List Byte)
    (hbs : i + bs.length ≤ len) :
    ∃ m', kstoreBytes m g (u + BitVec.ofNat 32 i) bs = some m' ∧
      (∀ j b, bs[j]? = some b → m'.loadByte g (u + BitVec.ofNat 32 (i + j)) true = some b) ∧
      ∀ j < i, m'.loadByte g (u + BitVec.ofNat 32 j) true =
        m.loadByte g (u + BitVec.ofNat 32 j) true := by
  induction bs generalizing m i with
  | nil => exact ⟨m, rfl, by simp, fun _ _ => rfl⟩
  | cons b bs ih =>
    rw [List.length_cons] at hbs
    obtain ⟨m₁, hst, h₁, hld⟩ := h.storeByte hlen (show i < len by omega) b
    obtain ⟨m', hm', hnew, hold⟩ := ih (i := i + 1) h₁ (by omega)
    have hnext : u + BitVec.ofNat 32 i + 1 = u + BitVec.ofNat 32 (i + 1) := by
      rw [BitVec.add_assoc, BitVec.ofNat_add]
      rfl
    refine ⟨m', ?_, fun j b' hj => ?_, fun j hj => ?_⟩
    · simp only [JosKernel.kstoreBytes, hst, Option.bind_eq_bind, Option.bind_some, hnext]
      exact hm'
    · cases j with
      | zero =>
        obtain rfl : b = b' := Option.some.inj hj
        rw [Nat.add_zero, hold i (by omega), hld i (by omega), if_pos rfl]
      | succ j =>
        rw [show i + (j + 1) = i + 1 + j by omega]
        exact hnew j b' hj
    · rw [hold j (by omega), hld j (by omega), if_neg (by omega)]

/-- A single bit of an entry. -/
theorem and_twoPow_of_ne {w : Word} {j : ℕ} (h : w &&& BitVec.twoPow 32 j ≠ 0#32) :
    w &&& BitVec.twoPow 32 j = BitVec.twoPow 32 j := by
  rw [BitVec.and_twoPow] at h ⊢
  split_ifs at h ⊢
  · rfl
  · exact absurd rfl h

theorem grants_of_allows {w : Word} (h : Mem.allows true true w = true) :
    Grants w (pteW ||| pteU) := by
  have hbits : present w = true ∧ w &&& pteU ≠ 0#32 ∧ w &&& pteW ≠ 0#32 := by
    simpa [Mem.allows, and_assoc] using h
  refine ⟨hbits.1, ?_⟩
  rw [BitVec.and_or_distrib_left]
  congr 1
  · exact and_twoPow_of_ne (j := 1) hbits.2.2
  · exact and_twoPow_of_ne (j := 2) hbits.2.1

/-- The test of the handler accepts a frame that can be written. -/
theorem Storable.userMemCheck {esp : Word} (h : Storable m g (utfAddr esp) utfSize) :
    m.userMemCheck g (utfAddr esp) 1 (pteW ||| pteU) = .ok none := by
  obtain ⟨w, hw, -⟩ := h 0 (by decide)
  rw [show utfAddr esp + BitVec.ofNat 32 0 = utfAddr esp from BitVec.add_zero _] at hw
  have hlt : firstPage esp < ulim := by
    have hu := (utfAddr_add esp (i := 0) (by decide)).2
    have hulim : ulim.toNat = 4018143232 := by decide
    rw [toNat_utop] at hu
    rw [BitVec.lt_def, firstPage, toNat_roundDown, hulim]
    omega
  unfold Mem.translate at hw
  simp only at hw
  split_ifs at hw with h1 h2 h3 h4
  have hgrants := grants_of_allows h3
  have hwalk : m.pgdirWalk g (firstPage esp) false =
      .ok (some (⟨_, h2⟩, ptx (utfAddr esp)), m) := by
    unfold Mem.pgdirWalk
    rw [firstPage, pdx_roundDown, ptx_roundDown, if_pos (Mem.present_of_allows h1)]
    simp [kaddr, h2, bind, Except.bind, pure, Except.pure]
  -- every page of the loop is the first page of the frame
  suffices hloop : ∀ ps : List Word, (∀ p ∈ ps, p = firstPage esp) →
      m.userMemCheckLoop g (utfAddr esp) (pteW ||| pteU) ps = .ok none from
    hloop _ fun p hp => (mem_visited_utf p).mp hp
  intro ps
  induction ps with
  | nil => exact fun _ => rfl
  | cons p ps ih =>
    intro hps
    obtain rfl := hps p List.mem_cons_self
    simp only [Mem.userMemCheckLoop, hwalk, bind, Except.bind, hlt, hgrants.1, hgrants.2,
      decide_true, Bool.true_and, beq_self_eq_true, if_true]
    exact ih fun p hp => hps p (List.mem_cons_of_mem _ hp)

end

/-! ## Traps -/

variable {S : Set (Fin n)} {x : Fin n → ℕ} {k k' : Kernel n} {c : Cpu} {cur : EnvIx}
  {tf : Trapframe} {io : Inputs} {exc : Exc} {upcall : Word}

/-- The environment goes on at `upcall`, on its exception stack, where it finds the trap. -/
structure UpcallStarted (k : Kernel n) (c : Cpu) (cur : EnvIx) (tf : Trapframe) (io : Inputs)
    (upcall : Word) (k' : Kernel n) : Prop where
  same : k'.curenv c = some cur
  mode : (k'.cpus c).cpuMode = .user
  cr3 : (k'.cpus c).cr3 = (k.cpus c).cr3
  frame : (k'.envs cur).envTf = { tf with tfEip := upcall, tfEsp := utfAddr tf.tfEsp }
  utf : ∀ i b, ((utrapframe io.cr2 tf).flatMap wordBytes)[i]? = some b →
    k'.mem.loadByte (k'.cpus c).cr3 (utfAddr tf.tfEsp + BitVec.ofNat 32 i) true = some b

/-- A trap with a registered upcall, when the frame can be written. -/
theorem trap_upcall (hcur : k.curenv c = some cur) (hd : k.status cur ≠ .dying)
    (hcs : tf.tfCs &&& 3 = 3) (hno : tf.tfTrapno = trapNo exc)
    (hup : (k.envs cur).envUpcall exc ≠ 0) (hdir : k.dirs cur = some (k.cpus c).cr3)
    (hw : Storable k.mem (k.cpus c).cr3 (utfAddr tf.tfEsp) utfSize) :
    ∃ k', trap k c tf io = .ok k' ∧
      UpcallStarted k c cur tf io ((k.envs cur).envUpcall exc) k' := by
  obtain ⟨m, hst, hld, -⟩ := hw.kstoreBytes (by decide) (i := 0)
    ((utrapframe io.cr2 tf).flatMap wordBytes) (by simp [utrapframe, wordBytes, utfSize])
  rw [BitVec.add_zero, ← kstoreWords_eq] at hst
  have hcs0 : ¬tf.tfCs &&& 3 = 0 := by
    rw [hcs]
    decide
  have hpg : pgdirOf (saved k cur tf) cur = .ok (k.cpus c).cr3 := by
    have h : ((saved k cur tf).envs cur).envPgdir = some (k.cpus c).cr3 := by
      rw [saved_env]
      exact hdir
    simp [pgdirOf, h]
  have hup' : ((saved k cur tf).envs cur).envUpcall exc ≠ 0 := by
    rw [saved_env]
    exact hup
  have hhandler : excHandler exc (saved k cur tf) c cur tf io.cr2 =
      (envRun (upcalled k cur tf exc m) c cur).map fun k => (none, k) := by
    have hchk : (saved k cur tf).mem.userMemCheck (k.cpus c).cr3 (utfAddr tf.tfEsp) 1
        (pteW ||| pteU) = .ok none := hw.userMemCheck
    have hst' : kstoreWords (saved k cur tf).mem ((saved k cur tf).cpus c).cr3
        (utfAddr tf.tfEsp) (utrapframe io.cr2 tf) = some m := hst
    unfold excHandler userMemAssert
    simp only [if_neg hcs0, if_pos hup', hpg, hchk, hst', bind, Except.bind, pure, Except.pure]
    have hk : (Kernel.modEnv { saved k cur tf with mem := m } cur fun env =>
        { env with envTf := { env.envTf with
          tfEip := ((saved k cur tf).envs cur).envUpcall exc, tfEsp := utfAddr tf.tfEsp } }) =
        upcalled k cur tf exc m := by
      rw [saved_env]
      rfl
    rw [hk]
    cases envRun (upcalled k cur tf exc m) c cur <;> rfl
  have hrun : envRun (upcalled k cur tf exc m) c cur = .ok
      (((upcalled k cur tf exc m).modEnv cur fun env => { env with envCpunum := c }).modCpu c
        fun cpu => { cpu with cpuMode := .user }) := by
    unfold envRun
    rw [if_pos (show (upcalled k cur tf exc m).curenv c = some cur from hcur)]
    rfl
  refine ⟨((upcalled k cur tf exc m).modEnv cur fun env => { env with envCpunum := c }).modCpu c
    fun cpu => { cpu with cpuMode := .user }, ?_, ?_⟩
  · have hexc : Exc.ofTrapno tf.tfTrapno.toNat = some exc := by rw [hno, ofTrapno_trapNo]
    unfold trap
    rw [hcur]
    simp only [if_neg hd]
    rw [show (k.modEnv cur fun env => { env with envTf := tf }) = saved k cur tf from rfl,
      trapDispatch_exc hexc, hhandler, hrun]
    rfl
  · refine ⟨by simpa [Kernel.curenv, upcalled, saved] using hcur, by simp,
      by simp [upcalled, saved], ?_, fun i b hb => ?_⟩
    · simp [upcalled, saved]
    · have hread := hld i b hb
      rw [Nat.zero_add] at hread
      simpa [upcalled, saved] using hread

/-- Without an upcall the handler is `env_destroy`. -/
theorem trapDispatch_noUpcall (hcs : tf.tfCs &&& 3 = 3) (hno : tf.tfTrapno = trapNo exc)
    (hup : (k.envs cur).envUpcall exc = 0) :
    trapDispatch k c cur tf io = envDestroy k c cur := by
  have hcs0 : ¬tf.tfCs &&& 3 = 0 := by
    rw [hcs]
    decide
  have hexc : Exc.ofTrapno tf.tfTrapno.toNat = some exc := by rw [hno, ofTrapno_trapNo]
  rw [trapDispatch_exc hexc, excHandler, if_neg hcs0, if_neg (not_not_intro hup)]

theorem trap_of_alive (hcur : k.curenv c = some cur) (hd : k.status cur ≠ .dying) :
    trap k c tf io = trapDispatch (saved k cur tf) c cur tf io >>= fun r =>
      match r with
      | (none, k) => .ok k
      | (some _, k) => trapReturn k c := by
  unfold trap
  rw [hcur]
  simp only [if_neg hd]
  rfl

/-- Then the environment is gone. -/
theorem status_of_trap_destroy (hcur : k.curenv c = some cur) (hd : k.status cur ≠ .dying)
    (hdestroy : trapDispatch (saved k cur tf) c cur tf io = envDestroy (saved k cur tf) c cur)
    (h : trap k c tf io = .ok k') : k'.status cur = .free := by
  rw [trap_of_alive hcur hd, hdestroy, bind_ok] at h
  obtain ⟨⟨r, k₁⟩, hd₁, h⟩ := h
  obtain ⟨rfl, k₂, hfree, hsched⟩ := envDestroy_self (by simpa using hcur) hd₁
  obtain rfl : k₁ = k' := Except.ok.inj h
  obtain ⟨m, hslots⟩ := SameSlots.freeSelf hfree hsched
  rw [hslots.free, freed_status, if_pos rfl]

/-- Under the invariant this does not panic. -/
theorem KInv.trap_destroy_total (inv : KInv S x k) (hcur : k.curenv c = some cur)
    (hd : k.status cur ≠ .dying)
    (hdestroy : trapDispatch (saved k cur tf) c cur tf io = envDestroy (saved k cur tf) c cur) :
    ∃ k', trap k c tf io = .ok k' := by
  have hlive : (saved k cur tf).status cur ≠ .free := by
    rw [saved_status]
    exact inv.cur c cur hcur
  obtain ⟨r, k', hk'⟩ := (inv.save cur tf).envDestroy_total hlive c
  obtain ⟨rfl, -⟩ := JosKernel.envDestroy_self (by simpa using hcur) hk'
  exact ⟨k', by rw [trap_of_alive hcur hd, hdestroy, hk']; rfl⟩

/-- Under the invariant the page tables are not among the pages that user code can write. -/
theorem KInv.storable (inv : KInv S x k) {g : Fin n} (hg : k.dirs cur = some g) {u : Word}
    {len : ℕ} (hu : ∀ i < len, u + BitVec.ofNat 32 i < utop)
    (h : ∀ i < len, k.mem.translate g (u + BitVec.ofNat 32 i) true true ≠ none) :
    Storable k.mem g u len := by
  have hpage : ∀ i < len, ∃ w pt p, k.mem.translate g (u + BitVec.ofNat 32 i) true true = some w ∧
      k.mem.ptab g (pdx (u + BitVec.ofNat 32 i)) = some pt ∧
      pgnum (k.mem.entry g (pdx (u + BitVec.ofNat 32 i))) = pt ∧ w.1 = p ∧
      pageOf n (k.mem.pte g (pdx (u + BitVec.ofNat 32 i)) (ptx (u + BitVec.ofNat 32 i))) =
        some p := by
    intro i hi
    obtain ⟨w, hw⟩ := Option.ne_none_iff_exists'.mp (h i hi)
    have hw' := hw
    unfold Mem.translate at hw'
    simp only at hw'
    split_ifs at hw' with h1 h2 h3 h4
    have ht : k.mem.ptab g (pdx (u + BitVec.ofNat 32 i)) = some ⟨_, h2⟩ :=
      (Mem.ptab_eq (pdx_lt_userPdes (hu i hi))).trans
        (pageOf_eq_some.mpr ⟨Mem.present_of_allows h1, rfl⟩)
    refine ⟨w, _, _, hw, ht, rfl, (congrArg Prod.fst (Option.some.inj hw')).symm, ?_⟩
    rw [Mem.pte_of_ptab ht]
    exact pageOf_eq_some.mpr ⟨Mem.present_of_allows h3, rfl⟩
  intro i hi
  obtain ⟨w, -, p, hw, -, -, rfl, hp⟩ := hpage i hi
  have hns := inv.mem.notStruct_of_pte hg hp
  refine ⟨w, hw, fun hwg => hns (.dir cur) trivial (hwg ▸ hg), fun j hj hpt => ?_⟩
  obtain ⟨-, pt, -, -, ht, hno, -, -⟩ := hpage j hj
  have hpt' : pt = w.1 := Fin.ext (hno.symm.trans hpt)
  exact hns (.pde cur _) trivial ((Mem.target_pde hg).trans (hpt' ▸ ht))

/-! ## Runs -/

/-- What the record of registrations says about the next trap and the next environment. -/
structure DispatchOk (s : Kernel n × Registered) : Prop where
  /-- A registered upcall is started. -/
  started : ∀ c cur tf io exc, s.1.curenv c = some cur → s.1.status cur ≠ .dying →
    tf.tfCs &&& 3 = 3 → tf.tfTrapno = trapNo exc → s.2 cur exc ≠ 0 →
    s.1.dirs cur = some (s.1.cpus c).cr3 →
    Storable s.1.mem (s.1.cpus c).cr3 (utfAddr tf.tfEsp) utfSize →
    ∃ k', trap s.1 c tf io = .ok k' ∧ UpcallStarted s.1 c cur tf io (s.2 cur exc) k'
  /-- Without one the environment is destroyed. -/
  destroyed : ∀ c cur tf io exc, s.1.curenv c = some cur → s.1.status cur ≠ .dying →
    tf.tfCs &&& 3 = 3 → tf.tfTrapno = trapNo exc → s.2 cur exc = 0 →
    trapDispatch (saved s.1 cur tf) c cur tf io = envDestroy (saved s.1 cur tf) c cur ∧
      (∀ k', trap s.1 c tf io = .ok k' → k'.status cur = .free) ∧
      ∀ (S : Set (Fin n)) (x : Fin n → ℕ), KInv S x s.1 → ∃ k', trap s.1 c tf io = .ok k'
  /-- A new environment has no upcalls. -/
  fresh : ∀ parentId e k', envAlloc s.1 parentId = .ok (.ok e, k') →
    ∀ exc, (k'.envs e).envUpcall exc = 0

/-- In every run from boot, whatever its calls and traps are, exceptions are dispatched according
to the last successful registration for their kind. -/
theorem dispatchOk_of_reachable {s : Kernel n × Registered}
    (h : Reachable (fun s => Boot S s.1 ∧ s.2 = fun _ _ => 0) RegisterStep s) :
    DispatchOk s := by
  have hreg := registered_of_reachable h
  constructor
  · intro c cur tf io exc hcur hd hcs hno hup hdir hw
    rw [← hreg] at hup ⊢
    exact trap_upcall hcur hd hcs hno hup hdir hw
  · intro c cur tf io exc hcur hd hcs hno hup
    have hup' : ((saved s.1 cur tf).envs cur).envUpcall exc = 0 := by
      rw [saved_env]
      exact (hreg cur exc).trans hup
    have hdestroy : trapDispatch (saved s.1 cur tf) c cur tf io = _ :=
      trapDispatch_noUpcall hcs hno hup'
    exact ⟨hdestroy, fun k' => status_of_trap_destroy hcur hd hdestroy,
      fun S x inv => inv.trap_destroy_total hcur hd hdestroy⟩
  · intro parentId e k' halloc exc
    obtain ⟨g, m, -, -, rfl⟩ := envAlloc_ok halloc
    simp [allocated]

/-- Every run of the machine is one with a record. -/
theorem reachable_register (h : Reachable (Boot S) Step k) :
    ∃ r, Reachable (fun s => Boot S s.1 ∧ s.2 = fun _ _ => 0) RegisterStep (k, r) := by
  induction h with
  | @init k hb => exact ⟨_, .init ⟨hb, rfl⟩⟩
  | @step k k' a _ hs ih =>
    obtain ⟨r, hr⟩ := ih
    exact ⟨fun e exc => if (k'.envs e).envId ≠ (k.envs e).envId then 0 else register k a r e exc,
      hr.step ⟨hs, rfl⟩⟩

/-- Only page faults have an upcall: one of them leads to it, and a division by zero to the end of
the environment. -/
theorem dispatchOk_faultRun : ∃ (k : Kernel 16) (r : Registered), DispatchOk (k, r) ∧
    (∃ k', trap k 0 (faultAt 0xEEBFDFC0) ⟨0, 0x1234⟩ = .ok k' ∧
      UpcallStarted k 0 0 (faultAt 0xEEBFDFC0) ⟨0, 0x1234⟩ 0x800020 k') ∧
    ∃ k', trap k 0 { faultAt 0xEEBFDFC0 with tfTrapno := 0 } ⟨0, 0⟩ = .ok k' ∧
      k'.status 0 = .free := by
  obtain ⟨k, hk, hp⟩ := reachable_runPlain (.init boot_small) (faultRun 0xEEBFF000)
    (fun k => decide (k.curenv 0 = some 0 ∧ k.status 0 ≠ .dying ∧
      k.dirs 0 = some (k.cpus 0).cr3 ∧ (k.envs 0).envUpcall .pgfault = 0x800020 ∧
      (k.envs 0).envUpcall .divzero = 0) &&
      decide (∀ i : Fin 52, (k.mem.translate (k.cpus 0).cr3
        (utfAddr 0xEEBFDFC0 + BitVec.ofNat 32 i) true true).isSome = true)) (by decide +kernel)
  simp only [Bool.and_eq_true, decide_eq_true_eq] at hp
  obtain ⟨⟨hcur, hd, hdir, hup, hno⟩, hframe⟩ := hp
  obtain ⟨x, inv⟩ := kInv_of_reachable hk
  obtain ⟨r, hr⟩ := reachable_register (hk.mono fun _ _ _ h => h.2)
  have hreg : ∀ exc, (k.envs 0).envUpcall exc = r 0 exc := registered_of_reachable hr 0
  have ok := dispatchOk_of_reachable hr
  have hst : Storable k.mem (k.cpus 0).cr3 (utfAddr 0xEEBFDFC0) utfSize :=
    inv.storable hdir (by decide) fun i hi => Option.isSome_iff_ne_none.mp (hframe ⟨i, hi⟩)
  rw [hreg] at hup hno
  have hstart := ok.started 0 0 (faultAt 0xEEBFDFC0) ⟨0, 0x1234⟩ .pgfault hcur hd (by decide) rfl
    (by simp [hup]) hdir hst
  obtain ⟨-, hfree, htotal⟩ := ok.destroyed 0 0 { faultAt 0xEEBFDFC0 with tfTrapno := 0 } ⟨0, 0⟩
    .divzero hcur hd (by decide) rfl hno
  obtain ⟨k', hk'⟩ := htotal _ x inv
  exact ⟨k, r, ok, hup ▸ hstart, k', hk', hfree k' hk'⟩

end JosKernel
