import JosKernel.Env.Slots

/-!
# Environment ids

The ids that `env_alloc` generates. A slot's first id has the generation `0x1000`; each
allocation adds `0x1000` until the sum is negative, and then starts again. The generations in
between have zeros in the bits of the index, so the ids of a slot repeat with a period of 524287
allocations and those of different slots never meet.
-/
namespace JosKernel

open Lib

variable {n : Nat}

/-! ## Generations -/

/-- The number of generations. -/
def generations : ℕ := 524287

/-- The id of slot `e` after `N` allocations. -/
def idNo (e : EnvIx) : ℕ → Word
  | 0 => 0
  | N + 1 => BitVec.ofNat 32 (4096 * (N % generations + 1) + e)

theorem mod_generations_le (N : ℕ) : N % generations ≤ 524286 :=
  Nat.le_of_lt_succ (Nat.mod_lt N (show 0 < generations by decide))

theorem toNat_idNo_succ (e : EnvIx) (N : ℕ) :
    (idNo e (N + 1)).toNat = 4096 * (N % generations + 1) + e := by
  have := mod_generations_le N
  rw [idNo, BitVec.toNat_ofNat, Nat.mod_eq_of_lt]
  omega

/-- Clearing the bits of the index. -/
theorem toNat_clearIndex (w : Word) : (w &&& ~~~0x3FF#32).toNat = w.toNat / 1024 * 1024 := by
  have h : w &&& ~~~0x3FF#32 = w >>> 10 <<< 10 := by
    ext i hi
    have hmask : (0x3FF#32)[i] = decide (i < 10) := by
      rw [BitVec.getElem_eq_testBit_toNat]
      exact Nat.testBit_two_pow_sub_one 10 i
    rw [BitVec.getElem_and, BitVec.getElem_not, hmask, BitVec.getElem_shiftLeft]
    by_cases hlt : i < 10
    · simp [hlt]
    · simp [hlt, Nat.add_sub_cancel' (Nat.not_lt.mp hlt), BitVec.getLsbD_eq_getElem hi]
  have := w.isLt
  rw [h, BitVec.toNat_shiftLeft, BitVec.toNat_ushiftRight, Nat.shiftLeft_eq,
    Nat.shiftRight_eq_div_pow]
  omega

/-- An index in the bits that were cleared for it. -/
theorem toNat_or_index (N : ℕ) (e : EnvIx) (hN : N < 2 ^ 22) :
    (BitVec.ofNat 32 (1024 * N) ||| BitVec.ofNat 32 (e : ℕ)).toNat = 1024 * N + e := by
  have he : (e : ℕ) < 2 ^ 10 := e.isLt
  rw [BitVec.toNat_or, BitVec.toNat_ofNat, BitVec.toNat_ofNat, Nat.mod_eq_of_lt (by omega),
    Nat.mod_eq_of_lt (by omega)]
  exact (Nat.two_pow_add_eq_or_of_lt he N).symm

/-- Generations as `env_alloc` computes them. -/
theorem nextEnvId_of_toNat {old : Word} {e : EnvIx} {j : ℕ} (hj : j ≤ 524287)
    (h : (old.toNat + 4096) / 1024 = 4 * (j + 1)) :
    (nextEnvId old e).toNat = if j < 524287 then 4096 * (j + 1) + e else 4096 + e := by
  have hold := old.isLt
  have hgen : ((old + 0x1000) &&& ~~~0x3FF#32).toNat = 4096 * (j + 1) := by
    rw [toNat_clearIndex, BitVec.toNat_add, show (0x1000 : Word).toNat = 4096 from rfl]
    omega
  unfold nextEnvId
  generalize (old + 0x1000) &&& ~~~0x3FF#32 = generation at hgen
  simp only []
  by_cases hlt : j < 524287
  · have hpos : ¬generation.toInt ≤ 0 := by
      rw [BitVec.toInt_eq_toNat_of_lt (by omega), hgen]
      omega
    have hgen' : generation = BitVec.ofNat 32 (1024 * (4 * (j + 1))) :=
      BitVec.eq_of_toNat_eq (by rw [hgen, BitVec.toNat_ofNat]; omega)
    rw [if_neg hpos, if_pos hlt, hgen', toNat_or_index _ e (by omega)]
    omega
  · -- the sum has reached the sign bit
    have hneg : generation.toInt ≤ 0 := by
      rw [BitVec.toInt_eq_toNat_cond, if_neg (by omega), hgen]
      omega
    rw [if_pos hneg, if_neg hlt]
    exact toNat_or_index 4 e (by omega)

theorem nextEnvId_idNo (e : EnvIx) (N : ℕ) : nextEnvId (idNo e N) e = idNo e (N + 1) := by
  refine BitVec.eq_of_toNat_eq ?_
  have he := e.isLt
  rw [toNat_idNo_succ]
  cases N with
  | zero =>
    rw [nextEnvId_of_toNat (j := 0) (by omega) (by simp [idNo]), if_pos (by omega)]
    simp
  | succ N =>
    have hN := mod_generations_le N
    rw [nextEnvId_of_toNat (j := N % generations + 1) (by omega)
      (by rw [toNat_idNo_succ]; omega)]
    unfold generations at *
    split_ifs with h <;> omega

/-- An id names its slot, and the generation repeats with the period. -/
theorem envx_idNo (e : EnvIx) (N : ℕ) : envx (idNo e (N + 1)) = e := by
  have he := e.isLt
  refine Fin.ext ?_
  show (idNo e (N + 1)).toNat % 1024 = e
  rw [toNat_idNo_succ]
  omega

theorem toInt_idNo_pos (e : EnvIx) (N : ℕ) : 0 < (idNo e (N + 1)).toInt := by
  have := mod_generations_le N
  have he := e.isLt
  rw [BitVec.toInt_eq_toNat_of_lt (by rw [toNat_idNo_succ]; omega), toNat_idNo_succ]
  omega

theorem idNo_ne {e : EnvIx} {M N : ℕ} (hlt : M < N) (hN : N - M < generations) :
    idNo e (M + 1) ≠ idNo e (N + 1) := by
  intro h
  have h' := congrArg BitVec.toNat h
  rw [toNat_idNo_succ, toNat_idNo_succ] at h'
  unfold generations at *
  omega

/-- The period is as short as that. -/
theorem idNo_add_generations (e : EnvIx) (N : ℕ) :
    idNo e (N + generations + 1) = idNo e (N + 1) := by
  rw [idNo, idNo, Nat.add_mod_right]

/-! ## Runs -/

/-- The ids of a slot up to its `N`-th, the latest first. -/
def idsUpTo (e : EnvIx) : ℕ → List Word
  | 0 => []
  | N + 1 => idNo e (N + 1) :: idsUpTo e N

theorem length_idsUpTo (e : EnvIx) (N : ℕ) : (idsUpTo e N).length = N := by
  induction N with
  | zero => rfl
  | succ N ih => exact congrArg (· + 1) ih

theorem getElem?_idsUpTo {e : EnvIx} {N i : ℕ} {envid : Word}
    (h : (idsUpTo e N)[i]? = some envid) : i < N ∧ envid = idNo e (N - i) := by
  induction N generalizing i with
  | zero => simp [idsUpTo] at h
  | succ N ih =>
    cases i with
    | zero => exact ⟨by omega, (Option.some.inj h).symm⟩
    | succ i =>
      obtain ⟨hlt, rfl⟩ := ih h
      exact ⟨by omega, by rw [Nat.add_sub_add_right]⟩

/-- What ids promise in a state of a run. -/
structure IdsOk (s : Kernel n × List TableEvent) : Prop where
  /-- The id of a live environment is positive and has its index. -/
  live : ∀ e, Alive e s.2 → 0 < (s.1.envs e).envId.toInt ∧ envx (s.1.envs e).envId = e
  distinct : ∀ e e', Alive e s.2 → Alive e' s.2 →
    (s.1.envs e).envId = (s.1.envs e').envId → e = e'
  /-- Fewer than 524287 allocations of a slot apart, ids differ. -/
  window : ∀ e (i j : ℕ) (a b : Word), i < j → j - i < generations →
    (givenIds e s.2)[i]? = some a → (givenIds e s.2)[j]? = some b → a ≠ b
  /-- An id that was given to a slot `i` allocations ago, or to the environment that was the last
  to be destroyed there, is refused. -/
  stale : ∀ e (i : ℕ) (envid : Word), (givenIds e s.2)[i]? = some envid → i < generations →
    0 < i ∨ ¬Alive e s.2 → ∀ cur checkperm, envid2env s.1 cur envid checkperm = none

/-- The ids in the log and in the table are those of the sequence. -/
def IdInv (s : Kernel n × List TableEvent) : Prop :=
  ∀ e, ∃ N, givenIds e s.2 = idsUpTo e N ∧ (s.1.envs e).envId = idNo e N ∧
    (Alive e s.2 → 0 < N) ∧ (¬Alive e s.2 → 0 < N → s.1.status e = .free)

variable {k k' : Kernel n} {s s' : Kernel n × List TableEvent} {a : TableCall} {e : EnvIx}
  {m : Mem n} {envs : EnvIx → Env n} {cpus : Cpu → CpuInfo n}

theorem idInv_afterInit (h : AfterInit m envs cpus s) : IdInv s := by
  subst h
  exact fun e => ⟨0, rfl, rfl, fun h => h.elim, fun _ h => absurd h (by omega)⟩

theorem IdInv.step (h : IdInv s) (hstep : TableStep s a s') : IdInv s' := by
  cases hstep with
  | @envAlloc k k' log parentId e halloc =>
    obtain ⟨g, m, -, -, rfl⟩ := envAlloc_ok halloc
    intro i
    obtain ⟨N, hids, hid, hpos, hdead⟩ := h i
    by_cases hi : e = i
    · subst hi
      have hnew : ((allocated k e g m parentId).envs e).envId = idNo e (N + 1) := by
        rw [← nextEnvId_idNo, ← hid]
        simp [allocated]
      refine ⟨N + 1, ?_, hnew, fun _ => by omega, fun hn => absurd (.inl rfl) hn⟩
      rw [givenIds, if_pos rfl, hids, hnew]
      rfl
    · refine ⟨N, by rw [givenIds, if_neg hi, hids], ?_, ?_, ?_⟩
      · rw [allocated_env _ _ _ _ _ (Ne.symm hi), hid]
      · exact fun hl => hpos (hl.resolve_left hi)
      · intro hn hN
        rw [Kernel.status, allocated_env _ _ _ _ _ (Ne.symm hi)]
        exact hdead (fun hl => hn (.inr hl)) hN
  | refused halloc =>
    have henvs := (envAlloc_refused halloc).2.1
    intro i
    obtain ⟨N, hids, hid, hpos, hdead⟩ := h i
    refine ⟨N, hids, by rw [henvs]; exact hid, hpos, fun hn hN => ?_⟩
    rw [Kernel.status, henvs]
    exact hdead hn hN
  | @envFree k k' log c e hlive hfree =>
    obtain ⟨g, m₁, m, -, -, -, rfl⟩ := envFree_ok hfree
    intro i
    obtain ⟨N, hids, hid, hpos, hdead⟩ := h i
    refine ⟨N, hids, ?_, fun hl => hpos hl.2, fun hn hN => ?_⟩
    · by_cases hi : i = e
      · subst hi
        simpa [freed] using hid
      · rw [freed_env _ _ _ _ hi]
        exact hid
    · rw [freed_status]
      by_cases hi : i = e
      · rw [if_pos hi]
      · rw [if_neg hi]
        exact hdead (fun hl => hn ⟨Ne.symm hi, hl⟩) hN
  | other hs hsame =>
    intro i
    obtain ⟨N, hids, hid, hpos, hdead⟩ := h i
    exact ⟨N, hids, (hsame i).trans hid, hpos, fun hn hN => (hs.free i).mpr (hdead hn hN)⟩

theorem IdInv.idsOk (h : IdInv s) : IdsOk s := by
  have hlive : ∀ e, Alive e s.2 → ∃ N, (s.1.envs e).envId = idNo e (N + 1) := fun e he => by
    obtain ⟨N, -, hid, hpos, -⟩ := h e
    exact ⟨N - 1, by rw [hid, Nat.sub_add_cancel (hpos he)]⟩
  refine
    { live := fun e he => ?_
      distinct := fun e e' he he' heq => ?_
      window := fun e i j a b hij hclose ha hb hab => ?_
      stale := fun e i envid hgiven hi hdead cur checkperm => ?_ }
  · obtain ⟨N, hid⟩ := hlive e he
    rw [hid]
    exact ⟨toInt_idNo_pos e N, envx_idNo e N⟩
  · obtain ⟨N, hid⟩ := hlive e he
    obtain ⟨N', hid'⟩ := hlive e' he'
    rw [hid, hid'] at heq
    rw [← envx_idNo e N, heq, envx_idNo]
  · obtain ⟨N, hids, -⟩ := h e
    rw [hids] at ha hb
    obtain ⟨hiN, rfl⟩ := getElem?_idsUpTo ha
    obtain ⟨hjN, rfl⟩ := getElem?_idsUpTo hb
    refine idNo_ne (e := e) (M := N - j - 1) (N := N - i - 1) (by omega) (by omega) ?_
    rw [Nat.sub_add_cancel (by omega), Nat.sub_add_cancel (by omega)]
    exact hab.symm
  · obtain ⟨N, hids, hid, -, hfree⟩ := h e
    rw [hids] at hgiven
    obtain ⟨hiN, rfl⟩ := getElem?_idsUpTo hgiven
    have hslot : envx (idNo e (N - i)) = e := by
      rw [← Nat.sub_add_cancel (show 1 ≤ N - i by omega)]
      exact envx_idNo e _
    have hne0 : idNo e (N - i) ≠ 0 := by
      rw [← Nat.sub_add_cancel (show 1 ≤ N - i by omega)]
      intro h0
      have := toInt_idNo_pos e (N - i - 1)
      rw [h0] at this
      exact absurd this (by decide)
    unfold envid2env
    rw [if_neg hne0, hslot]
    by_cases hal : Alive e s.2
    · -- the slot is in use again, under another id
      have hi0 : 0 < i := hdead.resolve_right (not_not_intro hal)
      have hother : (s.1.envs e).envId ≠ idNo e (N - i) := by
        rw [hid, ← Nat.sub_add_cancel (show 1 ≤ N - i by omega),
          ← Nat.sub_add_cancel (show 1 ≤ N by omega)]
        exact (idNo_ne (by omega) (by omega)).symm
      rw [if_pos (.inr hother)]
    · rw [if_pos (.inl (hfree hal (by omega)))]

/-- Ids are unique and stale ids stay dead, in every state of every run from `env_init`. -/
theorem idsOk_of_reachable (m : Mem n) (envs : EnvIx → Env n) (cpus : Cpu → CpuInfo n)
    (s : Kernel n × List TableEvent) (h : Reachable (AfterInit m envs cpus) TableStep s) :
    IdsOk s :=
  IdInv.idsOk (h.invariant (fun _ hs => idInv_afterInit hs) fun _ _ _ hi hs => hi.step hs)

/-- The state after calls that succeed. -/
def tableCalls : List TableCall → Kernel n × List TableEvent → Option (Kernel n × List TableEvent)
  | .envAlloc parentId :: calls, (k, log) =>
    match envAlloc k parentId with
    | .ok (.ok e, k') => tableCalls calls (k', .alloc e (k'.envs e).envId :: log)
    | _ => none
  | .envFree c e :: calls, (k, log) =>
    match envFree k c e with
    | .ok k' => if Alive e log then tableCalls calls (k', .free e :: log) else none
    | .error _ => none
  | _, s => some s

theorem reachable_tableCalls {calls : List TableCall} (h : Reachable (AfterInit m envs cpus)
    TableStep s) (hs : tableCalls calls s = some s') :
    Reachable (AfterInit m envs cpus) TableStep s' := by
  fun_induction tableCalls calls s with
  | case1 parentId calls k log e k' halloc ih => exact ih (h.step (.envAlloc halloc)) hs
  | case2 => cases hs
  | case3 c e calls k log k' hfree hal ih => exact ih (h.step (.envFree hal hfree)) hs
  | case4 => cases hs
  | case5 => cases hs
  | case6 => exact Option.some.inj hs ▸ h

/-- Two environments are allocated, and the first is freed and its slot allocated again. -/
def reuseCalls : List TableCall := [.envAlloc 0, .envAlloc 0, .envFree 0 0, .envAlloc 0]

theorem idsOk_reuseCalls : ∃ s, tableCalls reuseCalls (smallInit, []) = some s ∧
    s.2 = [.alloc 0 0x2000, .free 0, .alloc 1 0x1001, .alloc 0 0x1000] ∧ IdsOk s := by
  have hlog : (tableCalls reuseCalls (smallInit, [])).map Prod.snd =
      some [.alloc 0 0x2000, .free 0, .alloc 1 0x1001, .alloc 0 0x1000] := by decide +kernel
  obtain ⟨s, hs, hlog⟩ := Option.map_eq_some_iff.mp hlog
  exact ⟨s, hs, hlog, idsOk_of_reachable smallMem (fun _ => .zero) smallInit.cpus s
    (reachable_tableCalls (.init rfl) hs)⟩

end JosKernel
