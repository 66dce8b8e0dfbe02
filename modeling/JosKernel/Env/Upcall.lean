import JosKernel.Env.Cpus
import JosKernel.Env.Total

/-!
# Storing the user trap frame

Before it stores a `struct UTrapframe`, a handler checks one byte, the lowest one of the frame.
The frame is shorter than a page, so it lies in the page of that byte and perhaps in the next
one. The kernel may fault when the frame crosses into a page that was not checked.
-/
namespace JosKernel

open Lib

variable {n : Nat} {S : Set (Fin n)} {x : Fin n → ℕ} {k : Kernel n} {c : Cpu} {cur : EnvIx}
  {tf : Trapframe} {io : Inputs} {exc : Exc}

/-- `sizeof(struct UTrapframe)`. -/
def utfSize : Nat := 52

/-- The handler destroys the environment in the state it finds, or every byte of the frame can be
written by the environment, and then the stores of the kernel succeed. -/
def UpcallSafe (k : Kernel n) (c : Cpu) (cur : EnvIx) (tf : Trapframe) (io : Inputs) : Prop :=
  trapDispatch k c cur tf io = envDestroy k c cur ∨
    ∃ g, k.dirs cur = some g ∧
      (∀ i < utfSize, Accessible k.mem g (pteW ||| pteU)
        (utfAddr tf.tfEsp + BitVec.ofNat 32 i)) ∧
      ∃ m, kstoreWords k.mem (k.cpus c).cr3 (utfAddr tf.tfEsp) (utrapframe io.cr2 tf) = some m

/-- `trap` frees a dying environment before anything is written; any other trap is safe in the
handler. -/
def TrapSafe (k : Kernel n) (c : Cpu) (cur : EnvIx) (tf : Trapframe) (io : Inputs) : Prop :=
  (k.status cur = .dying ∧ ∃ k₁, envFree k c cur = .ok k₁ ∧
    trap k c tf io = schedYield (k₁.modCpu c fun cpu => { cpu with cpuEnv := none }) c) ∨
  k.status cur ≠ .dying ∧ UpcallSafe (saved k cur tf) c cur tf io

/-- The first and the last page of the frame. -/
def firstPage (esp : Word) : Word := roundDown (utfAddr esp) pgsize
def lastPage (esp : Word) : Word := roundDown (utfAddr esp + BitVec.ofNat 32 (utfSize - 1)) pgsize

/-- The frame is in one page, or its first page cannot be written, or its last page can. -/
def FrameOk (k : Kernel n) (cur : EnvIx) (esp : Word) : Prop :=
  firstPage esp = lastPage esp ∨ ∀ g, k.dirs cur = some g →
    Passes k.mem g (pteW ||| pteU) (firstPage esp) → Passes k.mem g (pteW ||| pteU) (lastPage esp)

/-! ## Addresses -/

theorem utfAddr_add (esp : Word) {i : Nat} (hi : i < utfSize) :
    (utfAddr esp + BitVec.ofNat 32 i).toNat = (utfAddr esp).toNat + i ∧
      (utfAddr esp).toNat + i < utop.toNat := by
  have hle := utfAddr_le esp 0 .zero
  have hlen : (utrapframe 0 .zero).length = 13 := rfl
  rw [hlen] at hle
  rw [utfSize] at hi
  have hlt : (utfAddr esp).toNat + i < utop.toNat := by omega
  rw [toNat_utop] at hlt
  refine ⟨?_, by rw [toNat_utop]; exact hlt⟩
  rw [BitVec.toNat_add, BitVec.toNat_ofNat]
  omega

/-- Every byte of the frame is in its first or its last page. -/
theorem page_of_byte (esp : Word) {i : Nat} (hi : i < utfSize) :
    roundDown (utfAddr esp + BitVec.ofNat 32 i) pgsize = firstPage esp ∨
      roundDown (utfAddr esp + BitVec.ofNat 32 i) pgsize = lastPage esp := by
  have h := (utfAddr_add esp hi).1
  have hl := (utfAddr_add esp (i := utfSize - 1) (by decide)).1
  have hdiv : ((utfAddr esp).toNat + i) / 4096 = (utfAddr esp).toNat / 4096 ∨
      ((utfAddr esp).toNat + i) / 4096 = ((utfAddr esp).toNat + (utfSize - 1)) / 4096 := by
    rw [utfSize] at hi ⊢
    omega
  rcases hdiv with hdiv | hdiv
  · left
    apply BitVec.eq_of_toNat_eq
    rw [firstPage, toNat_roundDown, toNat_roundDown, h, hdiv]
  · right
    apply BitVec.eq_of_toNat_eq
    rw [lastPage, toNat_roundDown, toNat_roundDown, h, hl, hdiv]

/-- The page that the handler checks. -/
theorem mem_visited_utf {esp : Word} (p : Word) :
    p ∈ visited (utfAddr esp) 1 ↔ p = firstPage esp := by
  have hlt := (utfAddr_add esp (i := 0) (by decide)).2
  rw [toNat_utop] at hlt
  have hno : (utfAddr esp).toNat + (1 : Word).toNat ≤ 2 ^ 32 - 4096 := by
    show (utfAddr esp).toNat + 1 ≤ _
    omega
  rw [mem_visited_iff hno (by decide)]
  constructor
  · rintro ⟨i, hi, rfl⟩
    obtain rfl : i = 0 := Nat.lt_one_iff.mp hi
    simp [firstPage]
  · rintro rfl
    exact ⟨0, by decide, by simp [firstPage]⟩

section
variable {ι : Type} [Fintype ι] {dirs : ι → Option (Fin n)} {m : Mem n} {e : ι} {g : Fin n}

/-- Below `UTOP`, an address can be written when its page passes the test. -/
theorem MemInv.accessible_iff_passes (inv : MemInv S dirs x ∅ m) (he : dirs e = some g) {a : Word}
    (ha : a < utop) : Accessible m g (pteW ||| pteU) a ↔
      Passes m g (pteW ||| pteU) (roundDown a pgsize) := by
  constructor
  · rintro ⟨-, w, hw, hg⟩
    refine ⟨?_, w, by rw [leaf_roundDown]; exact hw, hg⟩
    have hlt : a.toNat < utop.toNat := ha
    have hu : ulim.toNat = 4018143232 := by decide
    rw [toNat_utop] at hlt
    rw [BitVec.lt_def, toNat_roundDown, hu]
    omega
  · intro hp
    refine (inv.accessible_iff he hp).2.mpr ⟨fun _ hd => ?_, ?_⟩
    · have hlt : (pdx a : Nat) < userPdes := pdx_lt_userPdes ha
      rw [hd] at hlt
      exact absurd hlt (by decide)
    · have h0 : pteW &&& ~~~accessBits = 0#32 := by decide
      rw [h0]
      exact BitVec.zero_and

/-- The handler's test looks at the first page only. -/
theorem MemInv.frameCheck_iff (inv : MemInv S dirs x ∅ m) (he : dirs e = some g) (esp : Word) :
    m.userMemCheck g (utfAddr esp) 1 (pteW ||| pteU) = .ok none ↔
      Passes m g (pteW ||| pteU) (firstPage esp) := by
  rw [inv.userMemCheck_iff he]
  exact ⟨fun h => h _ ((mem_visited_utf _).mpr rfl), fun h p hp => (mem_visited_utf p).mp hp ▸ h⟩

/-! ## Stores -/

/-- A page that passes the test can be written by the kernel. -/
theorem MemInv.allows_of_passes (inv : MemInv S dirs x ∅ m) (he : dirs e = some g) {a : Word}
    (ha : a < utop) (h : Accessible m g (pteW ||| pteU) a) :
    Mem.allows false true (m.pte g (pdx a) (ptx a)) = true := by
  obtain ⟨⟨hp, -⟩, w, hw, hpw, hg⟩ := h
  obtain ⟨pt, ht, hpt⟩ := inv.ptab_of_present he (pdx_lt_userPdes ha) hp
  have hwe : w = m.entry pt (ptx a) := by
    have hlt : pgnum (m.entry g (pdx a)) < n := by rw [hpt]; exact pt.isLt
    rw [Mem.leaf, if_pos hp, dif_pos hlt] at hw
    cases hw
    congr 1
    exact Fin.ext hpt
  rw [Mem.pte_of_ptab ht, ← hwe]
  have hW : w &&& pteW ≠ 0#32 := by
    have h1 : w &&& pteW = (w &&& (pteW ||| pteU)) &&& pteW := by
      rw [BitVec.and_assoc]
      congr 1
    rw [h1, hg]
    decide
  simp [Mem.allows, hpw, hW]

theorem MemInv.storeByte_ok (inv : MemInv S dirs x ∅ m) (he : dirs e = some g) {a : Word}
    (ha : a < utop) (hall : Mem.allows false true (m.spaces dirs e (pdx a) (ptx a)) = true)
    (b : Byte) : ∃ m', m.storeByte g a b false = some m' := by
  rw [Mem.spaces_of_dir he] at hall
  obtain ⟨p, hp, -⟩ := inv.page_of_present he (Mem.present_of_allows hall)
  rw [Mem.storeByte, inv.translate_eq he ha, if_pos hall, hp]
  exact ⟨_, rfl⟩

/-- Word stores in user memory succeed if every byte can be written. -/
theorem MemInv.kstoreWords_ok (inv : MemInv S dirs x ∅ m) (he : dirs e = some g) {va : Word}
    (ws : List Word) (hva : va.toNat + 4 * ws.length ≤ utop.toNat)
    (hall : ∀ a : Word, va.toNat ≤ a.toNat → a.toNat < va.toNat + 4 * ws.length →
      Mem.allows false true (m.spaces dirs e (pdx a) (ptx a)) = true) :
    ∃ m', JosKernel.kstoreWords m g va ws = some m' := by
  induction ws generalizing m va with
  | nil => exact ⟨m, rfl⟩
  | cons w ws ih =>
    rw [List.length_cons] at hva hall
    rw [toNat_utop] at hva
    have hadd : ∀ j ≤ 4, (va + BitVec.ofNat 32 j).toNat = va.toNat + j := by
      intro j hj
      rw [BitVec.toNat_add, BitVec.toNat_ofNat]
      omega
    -- one byte store, at distance `j`, in a memory with the same mappings
    have store : ∀ {m₁ : Mem n} (j : ℕ) (b : Byte), j < 4 → MemInv S dirs x ∅ m₁ →
        m₁.spaces dirs = m.spaces dirs →
        ∃ m₂, m₁.storeByte g (va + BitVec.ofNat 32 j) b false = some m₂ ∧
          MemInv S dirs x ∅ m₂ ∧ m₂.spaces dirs = m.spaces dirs := by
      intro m₁ j b hj inv₁ hsp
      have hlt : va + BitVec.ofNat 32 j < utop := by
        rw [BitVec.lt_def, hadd j (by omega), toNat_utop]
        omega
      have hal := hall (va + BitVec.ofNat 32 j) (by rw [hadd j (by omega)]; omega)
        (by rw [hadd j (by omega)]; omega)
      obtain ⟨m₂, hst⟩ := inv₁.storeByte_ok he hlt (by rw [hsp]; exact hal) b
      obtain ⟨inv₂, hsp₂, -⟩ := inv₁.storeByte he hlt hst
      exact ⟨m₂, hst, inv₂, hsp₂.trans hsp⟩
    obtain ⟨m₁, h₁, inv₁, hsp₁⟩ := store 0 (w.extractLsb' 0 8) (by omega) inv rfl
    obtain ⟨m₂, h₂, inv₂, hsp₂⟩ := store 1 (w.extractLsb' 8 8) (by omega) inv₁ hsp₁
    obtain ⟨m₃, h₃, inv₃, hsp₃⟩ := store 2 (w.extractLsb' 16 8) (by omega) inv₂ hsp₂
    obtain ⟨m₄, h₄, inv₄, hsp₄⟩ := store 3 (w.extractLsb' 24 8) (by omega) inv₃ hsp₃
    have h4 : (va + 4).toNat = va.toNat + 4 := hadd 4 le_rfl
    have hlen : (va + 4).toNat + 4 * ws.length ≤ utop.toNat := by rw [h4, toNat_utop]; omega
    obtain ⟨m', hm'⟩ := ih inv₄ hlen (by
      intro a h1 h2
      rw [h4] at h1 h2
      rw [hsp₄]
      exact hall a (by omega) (by omega))
    refine ⟨m', ?_⟩
    have h₁' : m.storeByte g va (w.extractLsb' 0 8) false = some m₁ := by simpa using h₁
    simp only [JosKernel.kstoreWords, JosKernel.kstoreWord, Option.bind_eq_bind]
    rw [h₁', Option.bind_some, show (1 : Word) = BitVec.ofNat 32 1 from rfl, h₂, Option.bind_some,
      show (2 : Word) = BitVec.ofNat 32 2 from rfl, h₃, Option.bind_some,
      show (3 : Word) = BitVec.ofNat 32 3 from rfl, h₄, Option.bind_some]
    exact hm'

end

/-! ## The handler -/

/-- `sched_yield` can only fail for an environment without a directory. -/
theorem schedYield_error {p : Panic} (h : schedYield k c = .error p) : p = .paddr := by
  have hrun : ∀ e, envRun k c e = .error p → p = .paddr := by
    intro e h
    unfold envRun at h
    split_ifs at h with hc
    · cases h
    · unfold switchTo at h
      simp only at h
      split at h
      · cases h
        rfl
      · cases h
  unfold schedYield at h
  split at h
  · exact hrun _ h
  · split at h
    · split_ifs at h
      · exact hrun _ h
      · cases h
    · cases h

/-- Destroying the current environment leaves it free. -/
theorem KInv.envDestroy_self (inv : KInv S x k) (hc : k.curenv c = some cur) :
    envDestroy k c cur = .error .paddr ∨
      ∃ r k', envDestroy k c cur = .ok (r, k') ∧ k'.status cur = .free := by
  obtain ⟨g, hg⟩ := inv.dir_of_live (inv.cur c cur hc)
  obtain ⟨m₁, m, hpdes, hdec, -⟩ := inv.mem.envFreeMem hg
  have hfree : ∃ k₁, envFree k c cur = .ok k₁ := by
    have hpg : (k.envs cur).envPgdir = some g := hg
    unfold envFree
    simp only [hc, if_true, Kernel.modCpu_envs, hpg, Kernel.modCpu_mem, hpdes, hdec, bind,
      Except.bind]
    exact ⟨_, rfl⟩
  obtain ⟨k₁, hk₁⟩ := hfree
  cases hd : envDestroy k c cur with
  | ok w =>
    obtain ⟨r, k'⟩ := w
    refine .inr ⟨r, k', rfl, ?_⟩
    obtain ⟨-, k₂, hk₂, sched⟩ := JosKernel.envDestroy_self hc hd
    obtain ⟨g', m₁', m', -, -, -, rfl⟩ := envFree_ok hk₂
    have hst : ((freed k c cur m').modCpu c fun cpu => { cpu with cpuEnv := none }).status cur =
        .free := by rw [Kernel.status_modCpu, freed_status, if_pos rfl]
    have hran : ∀ {e : EnvIx}, Ran ((freed k c cur m').modCpu c fun cpu =>
        { cpu with cpuEnv := none }) c e k' → e ≠ cur → k'.status cur = .free := by
      intro e run hne
      have hnone : ((freed k c cur m').modCpu c fun cpu => { cpu with cpuEnv := none }).curenv c =
          none := by simp [Kernel.curenv]
      rw [run.status, ranStatus, if_neg (by simp [hnone]), if_neg (Ne.symm hne),
        if_neg (by simp [hnone]), hst]
    cases sched with
    | next he run => exact hran run fun h => by rw [h, hst] at he; cases he
    | same hn => simp [Kernel.curenv] at hn
    | halt =>
      unfold schedHalt
      split_ifs <;> exact hst
  | error p =>
    left
    unfold envDestroy at hd
    simp only [hk₁, bind, Except.bind] at hd
    rw [if_neg (fun h => h.2 hc)] at hd
    split_ifs at hd
    · split at hd
      · rename_i hs
        cases hd
        rw [schedYield_error hs]
      · cases hd
    · cases hd

/-- The handler that a trap number selects. -/
theorem trapDispatch_exc (hexc : Exc.ofTrapno tf.tfTrapno.toNat = some exc) :
    trapDispatch k c cur tf io = excHandler exc k c cur tf io.cr2 := by
  simp only [trapDispatch, hexc, handler_eq]

/-- What the handler does when the first page of the frame can be written. -/
theorem excHandler_of_check {g : Fin n} (hcs : tf.tfCs &&& 3 = 3)
    (hup : (k.envs cur).envUpcall exc ≠ 0) (hg : k.dirs cur = some g)
    (hc : k.curenv c = some cur)
    (hchk : k.mem.userMemCheck g (utfAddr tf.tfEsp) 1 (pteW ||| pteU) = .ok none) (va : Word) :
    excHandler exc k c cur tf va = .error .kernelPageFault ∨
      ∃ k', excHandler exc k c cur tf va = .ok (none, k') ∧ k'.status cur = k.status cur := by
  have hpg : pgdirOf k cur = .ok g := by
    have h : (k.envs cur).envPgdir = some g := hg
    simp [pgdirOf, h]
  have hcs0 : ¬tf.tfCs &&& 3 = 0 := by rw [hcs]; decide
  unfold excHandler userMemAssert
  simp only [if_neg hcs0, if_pos hup, hpg, hchk, bind, Except.bind, pure, Except.pure]
  cases hst : kstoreWords k.mem (k.cpus c).cr3 (utfAddr tf.tfEsp) (utrapframe va tf) with
  | none => exact .inl rfl
  | some m =>
    right
    simp only [envRun, bind, Except.bind, pure, Except.pure]
    have hcur : (Kernel.modEnv { k with mem := m } cur fun env =>
        { env with envTf := { env.envTf with
          tfEip := (k.envs cur).envUpcall exc, tfEsp := utfAddr tf.tfEsp } }).curenv c =
        some cur := hc
    rw [if_pos hcur]
    exact ⟨_, rfl, by simp [Kernel.status]⟩

/-- What it does when that page cannot be written. -/
theorem excHandler_of_bad {g : Fin n} {bad : Word} (hcs : tf.tfCs &&& 3 = 3)
    (hup : (k.envs cur).envUpcall exc ≠ 0) (hg : k.dirs cur = some g)
    (hc : k.curenv c = some cur)
    (hchk : k.mem.userMemCheck g (utfAddr tf.tfEsp) 1 (pteW ||| pteU) = .ok (some bad))
    (va : Word) : excHandler exc k c cur tf va = envDestroy k c cur := by
  have hpg : pgdirOf k cur = .ok g := by
    have h : (k.envs cur).envPgdir = some g := hg
    simp [pgdirOf, h]
  have hcs0 : ¬tf.tfCs &&& 3 = 0 := by rw [hcs]; decide
  unfold excHandler userMemAssert
  simp only [if_neg hcs0, if_pos hup, hpg, hchk, bind, Except.bind, pure, Except.pure]
  cases hd : envDestroy k c cur with
  | error p => rfl
  | ok w =>
    obtain ⟨r, k'⟩ := w
    obtain ⟨rfl, -⟩ := JosKernel.envDestroy_self hc hd
    rfl

theorem KInv.upcallSafe_iff {g : Fin n} (inv : KInv S x k) (hc : k.curenv c = some cur)
    (hg : k.dirs cur = some g) (hcr3 : (k.cpus c).cr3 = g) (hcs : tf.tfCs &&& 3 = 3)
    (hexc : Exc.ofTrapno tf.tfTrapno.toNat = some exc)
    (hup : (k.envs cur).envUpcall exc ≠ 0) :
    UpcallSafe k c cur tf io ↔ FrameOk k cur tf.tfEsp := by
  have hlow := fun i (hi : i < utfSize) =>
    show utfAddr tf.tfEsp + BitVec.ofNat 32 i < utop by
      rw [BitVec.lt_def, (utfAddr_add tf.tfEsp hi).1]
      exact (utfAddr_add tf.tfEsp hi).2
  have hacc := fun i hi => inv.mem.accessible_iff_passes hg (hlow i hi)
  have hchk := inv.mem.frameCheck_iff hg tf.tfEsp
  rw [UpcallSafe, trapDispatch_exc hexc]
  by_cases hfirst : Passes k.mem g (pteW ||| pteU) (firstPage tf.tfEsp)
  · by_cases hlast : Passes k.mem g (pteW ||| pteU) (lastPage tf.tfEsp)
    · -- both pages can be written
      refine iff_of_true (.inr ⟨g, hg, ?_⟩) (.inr fun g' hg' _ => ?_)
      · have hall : ∀ i < utfSize, Accessible k.mem g (pteW ||| pteU)
            (utfAddr tf.tfEsp + BitVec.ofNat 32 i) := by
          intro i hi
          rw [hacc i hi]
          rcases page_of_byte tf.tfEsp hi with h | h <;> rw [h] <;> assumption
        refine ⟨hall, ?_⟩
        rw [hcr3]
        refine inv.mem.kstoreWords_ok hg _ (utfAddr_le _ _ _) fun a h1 h2 => ?_
        have hi : a.toNat - (utfAddr tf.tfEsp).toNat < utfSize := by
          have hlen : (utrapframe io.cr2 tf).length = 13 := rfl
          rw [hlen] at h2
          rw [utfSize]
          omega
        have ha : a = utfAddr tf.tfEsp +
            BitVec.ofNat 32 (a.toNat - (utfAddr tf.tfEsp).toNat) := by
          apply BitVec.eq_of_toNat_eq
          rw [(utfAddr_add tf.tfEsp hi).1]
          omega
        rw [Mem.spaces_of_dir hg, ha]
        exact inv.mem.allows_of_passes hg (hlow _ hi) (hall _ hi)
      · rw [hg] at hg'
        cases hg'
        exact hlast
    · -- the last page is a page of its own, and not checked
      have hne : firstPage tf.tfEsp ≠ lastPage tf.tfEsp := fun h => hlast (h ▸ hfirst)
      refine iff_of_false ?_ ?_
      · rintro (hd | ⟨g', hg', hall, -⟩)
        · have h₁ := excHandler_of_check hcs hup hg hc (hchk.mpr hfirst) io.cr2
          rw [hd] at h₁
          rcases inv.envDestroy_self hc with h₂ | ⟨r, k', h₂, hfree⟩
          · rw [h₂] at h₁
            rcases h₁ with h₁ | ⟨k'', h₁, -⟩ <;> cases h₁
          · rw [h₂] at h₁
            rcases h₁ with h₁ | ⟨k'', h₁, hst⟩
            · cases h₁
            · cases h₁
              exact inv.cur c cur hc (hst.symm.trans hfree)
        · rw [hg] at hg'
          cases hg'
          exact hlast ((hacc (utfSize - 1) (by decide)).mp (hall _ (by decide)))
      · rintro (h | h)
        · exact hne h
        · exact hlast (h g hg hfirst)
  · obtain ⟨r, hr, -⟩ := inv.mem.userMemCheckLoop hg (utfAddr tf.tfEsp) (pteW ||| pteU)
      (visited (utfAddr tf.tfEsp) 1)
    have hr' : k.mem.userMemCheck g (utfAddr tf.tfEsp) 1 (pteW ||| pteU) = .ok r := hr
    refine iff_of_true (.inl ?_) (.inr fun g' hg' h => ?_)
    · cases r with
      | none => exact absurd (hchk.mp hr') hfirst
      | some bad => exact excHandler_of_bad hcs hup hg hc hr' io.cr2
    · rw [hg] at hg'
      cases hg'
      exact absurd h hfirst

/-- In the states of runs that meet `StepOk`, a user trap with a registered upcall is handled
safely if and only if the environment is dying, or the frame is in one page, or its first page
cannot be written, or its last page can. -/
theorem trapSafe_iff_frameOk
    (hk : Reachable (Boot S) (fun k a k' => StepOk k a ∧ Step k a k') k)
    (hu : (k.cpus c).cpuMode = .user) (hc : k.curenv c = some cur) (hcs : tf.tfCs &&& 3 = 3)
    (hexc : Exc.ofTrapno tf.tfTrapno.toNat = some exc) (hup : (k.envs cur).envUpcall exc ≠ 0) :
    TrapSafe k c cur tf io ↔ k.status cur = .dying ∨ FrameOk k cur tf.tfEsp := by
  obtain ⟨x, inv, hcr⟩ := invs_of_reachable hk
  by_cases hd : k.status cur = .dying
  · obtain ⟨k₁, hfree⟩ := inv.envFree_total (inv.cur c cur hc) c
    refine iff_of_true (.inl ⟨hd, k₁, hfree, ?_⟩) (.inl hd)
    simp only [trap, hc, hd, if_true, hfree, bind, Except.bind]
  obtain ⟨e, he, hdir⟩ := hcr.dir inv hu
  rw [hc] at he
  cases he
  have hup' : ((saved k cur tf).envs cur).envUpcall exc ≠ 0 := by simpa [saved] using hup
  have h : UpcallSafe (saved k cur tf) c cur tf io ↔ _ :=
    (inv.save cur tf).upcallSafe_iff hc (saved_dirs k cur tf ▸ hdir) rfl hcs hexc hup'
  have hframe : FrameOk (saved k cur tf) cur tf.tfEsp ↔ FrameOk k cur tf.tfEsp := by
    simp only [FrameOk, saved_dirs, saved_mem]
  simp only [TrapSafe, hd, ne_eq, not_false_eq_true, false_and, false_or, true_and]
  exact h.trans hframe

/-- A page fault at the given stack pointer. -/
def faultAt (esp : Word) : Trapframe :=
  { Trapframe.zero with tfTrapno := 14, tfCs := 0x1B, tfEsp := esp }

/-- The small machine runs an environment that has a page fault upcall and one page, at `va`. -/
def faultRun (va : Word) : List Action :=
  [.start 0, sysTrap 0 9 0 0x800020 0 0 0, sysTrap 0 4 0 va 7 0 0]

theorem trapSafe_oneFrame : ∃ k : Kernel 16, k.curenv 0 = some 0 ∧ k.status 0 ≠ .dying ∧
    TrapSafe k 0 0 (faultAt 0xEEBFDFC0) ⟨0, 0⟩ := by
  obtain ⟨k, hk, hp⟩ := reachable_runPlain (.init boot_small) (faultRun 0xEEBFF000)
    (fun k => decide ((k.cpus 0).cpuMode = .user ∧ k.curenv 0 = some 0 ∧ k.status 0 ≠ .dying ∧
      (k.envs 0).envUpcall .pgfault ≠ 0)) (by decide +kernel)
  obtain ⟨hu, hc, hd, hup⟩ := of_decide_eq_true hp
  exact ⟨k, hc, hd, (trapSafe_iff_frameOk hk hu hc rfl rfl hup).mpr (.inr (.inl (by decide)))⟩

/-- The stack pointer is just above the bottom of the exception stack, which is not mapped; the
page below it is. The kernel faults. -/
theorem not_trapSafe_twoPages : ∃ k : Kernel 16,
    Reachable (Boot {p : Fin 16 | p ≠ 0}) (fun k a k' => StepOk k a ∧ Step k a k') k ∧
      (k.cpus 0).cpuMode = .user ∧ k.curenv 0 = some 0 ∧ (k.envs 0).envUpcall .pgfault ≠ 0 ∧
      ¬TrapSafe k 0 0 (faultAt 0xEEBFF010) ⟨0, 0⟩ := by
  obtain ⟨k, hk, hp⟩ := reachable_runPlain (.init boot_small) (faultRun 0xEEBFE000)
    (fun k => decide ((k.cpus 0).cpuMode = .user ∧ k.curenv 0 = some 0 ∧ k.status 0 ≠ .dying ∧
      (k.envs 0).envUpcall .pgfault ≠ 0) &&
      (k.dirs 0).all (fun g : Fin 16 => (k.mem.leaf g 0xEEBFF000).all fun w => !present w) &&
      match trapDispatch (saved k 0 (faultAt 0xEEBFF010)) 0 0 (faultAt 0xEEBFF010) ⟨0, 0⟩ with
      | .error .kernelPageFault => true
      | _ => false) (by decide +kernel)
  simp only [Bool.and_eq_true, decide_eq_true_eq] at hp
  obtain ⟨⟨⟨hu, hc, halive, hup⟩, hleaf⟩, hfault⟩ := hp
  refine ⟨k, hk, hu, hc, hup, ?_⟩
  obtain ⟨x, inv⟩ := kInv_of_reachable hk
  rintro (⟨hdying, -⟩ | ⟨-, hd | ⟨g, hg, hall, -⟩⟩)
  · exact halive hdying
  · rw [hd] at hfault
    rcases (inv.save 0 (faultAt 0xEEBFF010)).envDestroy_self hc with h | ⟨r, k', h, -⟩
    · rw [h] at hfault
      cases hfault
    · rw [h] at hfault
      cases hfault
  · -- the last byte is in the exception stack
    obtain ⟨-, w, hw, hpw, -⟩ := hall 51 (by decide)
    rw [saved_dirs] at hg
    have hw' : k.mem.leaf g 0xEEBFF000 = some w := hw
    rw [hg, Option.all_some, hw', Option.all_some, hpw] at hleaf
    cases hleaf

end JosKernel
