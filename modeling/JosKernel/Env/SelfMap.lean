import JosKernel.Env.Basic
import JosKernel.Lib.Runs
import JosKernel.Pmap.BootMap
import JosKernel.Pmap.Insert

/-!
# The window at `UVPT`

The directory of an environment contains itself as a page table, so that its tables can be read
at `uvpt` and the directory itself at `uvpd`. Both addresses are defined in `lib/entry.S`; `fork`
and the page-fault handler read through them, always the directory entry first.

`SelfDir D F m g` is what keeps the window in order: the entry for `UVPT`, user permission on all
other entries, and a set `F` that contains the free pages but not the directory. `D` are the
entries whose tables are written.
-/
namespace JosKernel

open Lib

variable {n : Nat}

/-! ## Addresses -/

/-- `uvpd` is `UVPT + (UVPT >> 12) * 4`. -/
def uvpd : Word := uvpt + (uvpt >>> 12) * 4

/-- The address of `uvpd[d]`. -/
def uvpdAddr (d : Fin 1024) : Word := uvpd + BitVec.ofNat 32 (4 * d)

/-- The address of `uvpt[pn]`. -/
def uvptAddr (pn : Nat) : Word := uvpt + BitVec.ofNat 32 (4 * pn)

/-- The offset of entry `i` in its page. -/
def entryOff (i : Fin 1024) : Fin 4096 := ⟨4 * i, four_mul_lt i⟩

theorem toNat_uvpt : uvpt.toNat = 0xef400000 := rfl

theorem toNat_uvpdAddr (d : Fin 1024) : (uvpdAddr d).toNat = 0xef7bd000 + 4 * d := by
  have huvpd : uvpd.toNat = 0xef7bd000 := by decide
  have := d.isLt
  rw [uvpdAddr, BitVec.toNat_add, huvpd, BitVec.toNat_ofNat]
  omega

theorem toNat_uvptAddr {pn : Nat} (h : pn < 2 ^ 20) :
    (uvptAddr pn).toNat = 0xef400000 + 4 * pn := by
  rw [uvptAddr, BitVec.toNat_add, toNat_uvpt, BitVec.toNat_ofNat]
  omega

theorem pgnum_lt (va : Word) : pgnum va < 2 ^ 20 := by
  unfold pgnum
  omega

/-- The directory is the table at its own index. -/
theorem uvpdAddr_fields (d : Fin 1024) : pdx (uvpdAddr d) = pdx uvpt ∧
    ptx (uvpdAddr d) = pdx uvpt ∧ pgoff (uvpdAddr d) = entryOff d := by
  have h := toNat_uvpdAddr d
  have := d.isLt
  simp only [Fin.ext_iff, pdx, ptx, pgoff, entryOff, h, toNat_uvpt]
  omega

/-- The indices of an address become table index and offset. -/
theorem uvptAddr_fields (va : Word) : pdx (uvptAddr (pgnum va)) = pdx uvpt ∧
    ptx (uvptAddr (pgnum va)) = pdx va ∧ pgoff (uvptAddr (pgnum va)) = entryOff (ptx va) := by
  have h := toNat_uvptAddr (pgnum_lt va)
  have hlt := pgnum_lt va
  unfold pgnum at h hlt
  simp only [Fin.ext_iff, pdx, ptx, pgoff, entryOff, pgnum, h, toNat_uvpt]
  omega

theorem or_and_right (a b : Word) : (a ||| b) &&& b = b := by
  ext i hi
  simp only [BitVec.getElem_and, BitVec.getElem_or]
  grind

namespace Mem

/-- A load of a word, least byte first. -/
def loadWord (m : Mem n) (cr3 : Fin n) (va : Word) (user : Bool) : Option Word := do
  let b0 ← m.loadByte cr3 va user
  let b1 ← m.loadByte cr3 (va + 1) user
  let b2 ← m.loadByte cr3 (va + 2) user
  let b3 ← m.loadByte cr3 (va + 3) user
  pure (b3 ++ b2 ++ b1 ++ b0)

variable {m m' : Mem n} {g p pt : Fin n} {d i : Fin 1024} {a b va : Word} {user write : Bool}

/-- Addresses of one page are translated together. -/
theorem translate_samePage {o : Fin 4096} (hd : pdx b = pdx a) (ht : ptx b = ptx a)
    (h : m.translate g a user write = some (p, o)) :
    o = pgoff a ∧ m.translate g b user write = some (p, pgoff b) := by
  unfold translate at h ⊢
  rw [hd, ht]
  dsimp only at h ⊢
  split_ifs at h ⊢ with h1 h2 h3 h4
  cases h
  exact ⟨rfl, rfl⟩

/-- A translated entry is read as a whole. -/
theorem loadWord_of_translate (h : m.translate g a user false = some (p, entryOff i)) :
    m.loadWord g a user = some (m.entry p i) := by
  have hoff := (translate_samePage rfl rfl h).1
  have hoff' : 4 * (i : Nat) = a.toNat % 4096 := congrArg Fin.val hoff
  have := i.isLt
  have hbyte : ∀ k < 4, ∀ o : Fin 4096, (o : Nat) = 4 * i + k →
      m.loadByte g (a + BitVec.ofNat 32 k) user = some (m.frame p o) := by
    intro k hk o ho
    have hlt := a.isLt
    have hsum : (a + BitVec.ofNat 32 k).toNat = a.toNat + k := by
      rw [BitVec.toNat_add, BitVec.toNat_ofNat]
      omega
    have hpdx : pdx (a + BitVec.ofNat 32 k) = pdx a := by
      simp only [Fin.ext_iff, pdx, hsum]
      omega
    have hptx : ptx (a + BitVec.ofNat 32 k) = ptx a := by
      simp only [Fin.ext_iff, ptx, hsum]
      omega
    have hpg : pgoff (a + BitVec.ofNat 32 k) = o := by
      simp only [Fin.ext_iff, pgoff, hsum]
      omega
    rw [loadByte, (translate_samePage hpdx hptx h).2, hpg]
    rfl
  have h0 := hbyte 0 (by decide) ⟨4 * i, by omega⟩ rfl
  have h1 := hbyte 1 (by decide) ⟨4 * i + 1, by omega⟩ rfl
  have h2 := hbyte 2 (by decide) ⟨4 * i + 2, by omega⟩ rfl
  have h3 := hbyte 3 (by decide) ⟨4 * i + 3, by omega⟩ rfl
  rw [show a + BitVec.ofNat 32 0 = a from BitVec.add_zero a] at h0
  unfold loadWord
  rw [h0, show a + 1 = a + BitVec.ofNat 32 1 from rfl, h1,
    show a + 2 = a + BitVec.ofNat 32 2 from rfl, h2,
    show a + 3 = a + BitVec.ofNat 32 3 from rfl, h3]
  rfl

end Mem

/-! ## What a directory shows -/

/-- The tests of `fork` and of its page-fault handler for the page of `va`: is it mapped, with the
flag `flag`? There is no answer when one of the reads faults. -/
def mappedTest (m : Mem n) (g : Fin n) (va flag : Word) : Option Bool := do
  let pde ← m.loadWord g (uvpdAddr (pdx va)) true
  if present pde then
    let pte ← m.loadWord g (uvptAddr (pgnum va)) true
    pure (present pte && pte &&& flag != 0)
  else pure false

/-- In user mode the two arrays are the directory and its tables, and cannot be written. -/
structure ShowsTables (m : Mem n) (g : Fin n) : Prop where
  directory : ∀ va, m.translate g (uvpdAddr (pdx va)) true false = some (g, entryOff (pdx va)) ∧
    m.loadWord g (uvpdAddr (pdx va)) true = some (m.entry g (pdx va))
  table : ∀ va, present (m.entry g (pdx va)) = true → ∃ pt, m.table g (pdx va) = some pt ∧
    m.translate g (uvptAddr (pgnum va)) true false = some (pt, entryOff (ptx va)) ∧
    m.loadWord g (uvptAddr (pgnum va)) true = some (m.entry pt (ptx va))
  absent : ∀ va user write, present (m.entry g (pdx va)) = false →
    m.translate g (uvptAddr (pgnum va)) user write = none
  readOnly : ∀ a : Word, uvpt.toNat ≤ a.toNat → a.toNat < uvpt.toNat + 2 ^ 22 →
    m.translate g a true true = none
  tested : ∀ va flag, mappedTest m g va flag ≠ none

/-- The directory has itself as its table for `UVPT`, user code may read all tables but not write
the directory, and those in `D` are other pages. Neither the directory nor a page behind it is on
the free list. -/
structure SelfDir (D : Fin 1024 → Prop) (F : Set (Fin n)) (m : Mem n) (g : Fin n) : Prop where
  self : m.table g (pdx uvpt) = some g
  readOnly : m.entry g (pdx uvpt) &&& pteW = 0
  user : ∀ d, present (m.entry g d) = true → m.entry g d &&& pteU ≠ 0 ∧ pgnum (m.entry g d) < n
  written : ∀ d, D d → m.table g d ≠ some g
  off : g ∉ F
  head : ∀ p, m.pageFreeList = some p → p ∈ F
  link : ∀ p ∈ F, ∀ q, (m.pages p).ppLink = some q → q ∈ F

namespace SelfDir

variable {D : Fin 1024 → Prop} {F : Set (Fin n)} {m m' : Mem n} {g p pt : Fin n} {d : Fin 1024}
  {a va : Word} {user write : Bool}

theorem allows_read (h : SelfDir D F m g) (hp : present (m.entry g d) = true) :
    Mem.allows true false (m.entry g d) = true := by
  have huser : ¬m.entry g d &&& pteU = 0#32 := (h.user d hp).1
  simp [Mem.allows, hp, huser]

theorem table_of_present (h : SelfDir D F m g) (hp : present (m.entry g d) = true) :
    ∃ pt, m.table g d = some pt :=
  ⟨⟨_, (h.user d hp).2⟩, pageOf_eq_some.mpr ⟨hp, rfl⟩⟩

/-- Below the window, the first step of a translation leads back to the directory. -/
theorem translate_window (h : SelfDir D F m g) (ha : pdx a = pdx uvpt)
    (hpt : m.table g (ptx a) = some pt) : m.translate g a true false = some (pt, pgoff a) := by
  obtain ⟨hself, hg⟩ := pageOf_eq_some.mp h.self
  obtain ⟨hp, hpg⟩ := pageOf_eq_some.mp hpt
  have hlt : pgnum (m.entry g (pdx uvpt)) < n := hg ▸ g.isLt
  have hgg : (⟨pgnum (m.entry g (pdx uvpt)), hlt⟩ : Fin n) = g := Fin.ext hg
  have hlt' : pgnum (m.entry g (ptx a)) < n := hpg ▸ pt.isLt
  have hpt' : (⟨pgnum (m.entry g (ptx a)), hlt'⟩ : Fin n) = pt := Fin.ext hpg
  unfold Mem.translate
  dsimp only
  rw [ha, if_pos (h.allows_read hself), dif_pos hlt, hgg, if_pos (h.allows_read hp), dif_pos hlt',
    hpt']

theorem translate_window_none (h : SelfDir D F m g) (ha : pdx a = pdx uvpt)
    (hp : present (m.entry g (ptx a)) = false) (user write : Bool) :
    m.translate g a user write = none :=
  Mem.translate_of_no_entry (by rw [ha]; exact h.self) hp

theorem translate_write (h : SelfDir D F m g) (ha : pdx a = pdx uvpt) :
    m.translate g a true true = none := by
  have hno : Mem.allows true true (m.entry g (pdx uvpt)) = false := by
    simp [Mem.allows, h.readOnly]
  unfold Mem.translate
  dsimp only
  rw [ha, hno]
  rfl

theorem showsTables (h : SelfDir D F m g) : ShowsTables m g := by
  have hdir : ∀ va, m.translate g (uvpdAddr (pdx va)) true false =
      some (g, entryOff (pdx va)) := by
    intro va
    obtain ⟨hpdx, hptx, hoff⟩ := uvpdAddr_fields (pdx va)
    rw [h.translate_window hpdx (by rw [hptx]; exact h.self), hoff]
  have htable : ∀ va pt, m.table g (pdx va) = some pt →
      m.translate g (uvptAddr (pgnum va)) true false = some (pt, entryOff (ptx va)) := by
    intro va pt hpt
    obtain ⟨hpdx, hptx, hoff⟩ := uvptAddr_fields va
    rw [h.translate_window hpdx (by rw [hptx]; exact hpt), hoff]
  refine ⟨fun va => ⟨hdir va, Mem.loadWord_of_translate (hdir va)⟩, fun va hp => ?_,
    fun va user write hp => ?_, fun a hlo hhi => h.translate_write ?_,
    fun va flag => ?_⟩
  · obtain ⟨pt, hpt⟩ := h.table_of_present hp
    exact ⟨pt, hpt, htable va pt hpt, Mem.loadWord_of_translate (htable va pt hpt)⟩
  · obtain ⟨hpdx, hptx, -⟩ := uvptAddr_fields va
    exact h.translate_window_none hpdx (by rw [hptx]; exact hp) user write
  · rw [toNat_uvpt] at hlo hhi
    simp only [Fin.ext_iff, pdx, toNat_uvpt]
    omega
  · unfold mappedTest
    rw [Mem.loadWord_of_translate (hdir va)]
    cases hp : present (m.entry g (pdx va)) with
    | false => simp [hp]
    | true =>
      obtain ⟨pt, hpt⟩ := h.table_of_present hp
      simp [hp, Mem.loadWord_of_translate (htable va pt hpt)]

/-! ## Elementary changes -/

/-- Only the frame of the directory and the free list matter. -/
theorem of_frame {F' : Set (Fin n)} (h : SelfDir D F m g) (hf : m'.frame g = m.frame g)
    (hoff : g ∉ F') (hhead : ∀ p, m'.pageFreeList = some p → p ∈ F')
    (hlink : ∀ p ∈ F', ∀ q, (m'.pages p).ppLink = some q → q ∈ F') : SelfDir D F' m' g := by
  have hentry : ∀ d, m'.entry g d = m.entry g d := fun d => by rw [Mem.entry, hf, Mem.entry]
  have htable : ∀ d, m'.table g d = m.table g d := fun d => by rw [Mem.table, hentry, Mem.table]
  refine ⟨by rw [htable]; exact h.self, by rw [hentry]; exact h.readOnly, fun d => ?_,
    fun d hd => by rw [htable]; exact h.written d hd, hoff, hhead, hlink⟩
  rw [hentry]
  exact h.user d

theorem setEntry (h : SelfDir D F m g) (hp : p ≠ g) (i : Fin 1024) (w : Word) :
    SelfDir D F (m.setEntry p i w) g :=
  h.of_frame (Mem.frame_setEntry_of_ne hp.symm) h.off h.head h.link

theorem incRef (h : SelfDir D F m g) (p : Fin n) : SelfDir D F (m.incRef p) g := by
  refine h.of_frame rfl h.off h.head fun q hq r hr => ?_
  rw [Mem.incRef_link] at hr
  exact h.link q hq r hr

/-- The page may become free, unless it is the directory. -/
theorem pageDecref (h : SelfDir D F m g) (hd : m.pageDecref p = .ok m')
    (hg : (m'.pages g).ppRef ≠ 0) : ∃ F', SelfDir D F' m' g := by
  unfold Mem.pageDecref at hd
  dsimp only at hd
  split_ifs at hd with hlast
  · unfold Mem.pageFree at hd
    split_ifs at hd with hlinked
    cases hd
    have hpg : p ≠ g := by
      rintro rfl
      apply hg
      simpa [Mem.setPage] using hlast
    refine ⟨insert p F, h.of_frame rfl ?_ ?_ ?_⟩
    · rintro (hc | hc)
      · exact hpg hc.symm
      · exact h.off hc
    · intro q hq
      cases hq
      exact Set.mem_insert p F
    · intro q hq r hr
      by_cases hqp : q = p
      · subst hqp
        simp only [Mem.setPage, Function.update_self] at hr
        exact Set.mem_insert_of_mem q (h.head r hr)
      · have hqF : q ∈ F := hq.resolve_left hqp
        simp only [Mem.setPage, Function.update_of_ne hqp] at hr
        exact Set.mem_insert_of_mem p (h.link q hqF r hr)
  · cases hd
    refine ⟨F, h.of_frame rfl h.off h.head fun q hq r hr => ?_⟩
    by_cases hqp : q = p
    · subst hqp
      simp only [Mem.setPage, Function.update_self] at hr
      exact h.link q hq r hr
    · simp only [Mem.setPage, Function.update_of_ne hqp] at hr
      exact h.link q hq r hr

/-- A table is found or made, and it is not the directory. -/
theorem pgdirWalk {create : Bool} {r : Option (Fin n × Fin 1024)} (h : SelfDir D F m g)
    (small : n ≤ 2 ^ 20) (hD : D (pdx va)) (hw : m.pgdirWalk g va create = .ok (r, m')) :
    SelfDir D F m' g ∧ (∀ pt i, r = some (pt, i) → pt ≠ g) ∧
      (∀ d, d ≠ pdx va → m'.entry g d = m.entry g d) ∧ m'.kernPgdir = m.kernPgdir := by
  cases ht : m.table g (pdx va) with
  | some pt =>
    cases (Mem.pgdirWalk_of_table ht create).symm.trans hw
    refine ⟨h, fun pt' i hr => ?_, fun _ _ => rfl, rfl⟩
    cases hr
    exact fun hpg => h.written _ hD (hpg ▸ ht)
  | none =>
    cases hp : present (m.entry g (pdx va)) with
    | true => cases (Mem.pgdirWalk_of_beyond hp ht create).symm.trans hw
    | false =>
      cases create with
      | false =>
        have hnone : m.pgdirWalk g va false = .ok (none, m) := by
          simp [Mem.pgdirWalk, hp, pure, Except.pure]
        cases hnone.symm.trans hw
        exact ⟨h, (fun _ _ hr => by cases hr), fun _ _ => rfl, rfl⟩
      | true =>
        cases hl : m.pageFreeList with
        | none =>
          cases (Mem.pgdirWalk_of_full hp hl).symm.trans hw
          exact ⟨h, (fun _ _ hr => by cases hr), fun _ _ => rfl, rfl⟩
        | some p =>
          have hpF := h.head p hl
          have hpg : p ≠ g := fun hc => h.off (hc ▸ hpF)
          obtain ⟨m₁, hw₁, hl₁, made⟩ := Tables.madeTable hl hpg small hp
          cases hw₁.symm.trans hw
          have hnew := made.pageOf_entry small
          have hne : pdx uvpt ≠ pdx va := fun hc => h.written _ hD (hc ▸ h.self)
          have htable : ∀ d, d ≠ pdx va → m'.table g d = m.table g d := fun d hd => by
            rw [Mem.table, made.other d hd, Mem.table]
          refine ⟨⟨?_, ?_, fun d hd => ?_, fun d hd => ?_, h.off, fun q hq => ?_,
            fun q hq r hr => ?_⟩, fun pt i hr => ?_, made.other, made.kern⟩
          · rw [htable _ hne]
            exact h.self
          · rw [made.other _ hne]
            exact h.readOnly
          · by_cases hdv : d = pdx va
            · subst hdv
              refine ⟨?_, ?_⟩
              · rw [made.entry, or_and_right]
                decide
              · rw [(pageOf_eq_some.mp hnew).2]
                exact p.isLt
            · rw [made.other d hdv] at hd ⊢
              exact h.user d hd
          · by_cases hdv : d = pdx va
            · subst hdv
              rw [hnew]
              exact fun hc => hpg (Option.some.inj hc)
            · rw [htable d hdv]
              exact h.written d hd
          · rw [hl₁] at hq
            exact h.link p hpF q hq
          · rw [made.pages] at hr
            by_cases hqp : q = p
            · subst hqp
              rw [Function.update_self] at hr
              cases hr
            · rw [Function.update_of_ne hqp] at hr
              exact h.link q hq r hr
          · cases hr
            exact hpg

/-! ## Runs -/

theorem pageRemove (h : SelfDir D F m g) (small : n ≤ 2 ^ 20) (hD : D (pdx va))
    (hr : m.pageRemove g va = .ok m') (hg : (m'.pages g).ppRef ≠ 0) : ∃ F', SelfDir D F' m' g := by
  obtain ⟨found, hlookup, hrest⟩ := bind_ok.mp hr
  cases found with
  | none =>
    cases hrest
    exact ⟨F, h⟩
  | some x =>
    obtain ⟨pp, pt, i⟩ := x
    obtain ⟨m₁, hdec, hset⟩ := bind_ok.mp hrest
    cases hset
    -- the entry that is cleared is not in the directory
    obtain ⟨⟨r, m₂⟩, hwalk, hfound⟩ := bind_ok.mp hlookup
    obtain ⟨-, hne, -⟩ := h.pgdirWalk small hD hwalk
    have hpt : pt ≠ g := by
      cases r with
      | none => cases hfound
      | some y =>
        obtain ⟨pt', i'⟩ := y
        dsimp only at hfound
        split_ifs at hfound
        · obtain ⟨pp', -, hpp⟩ := bind_ok.mp hfound
          cases hpp
          exact hne _ _ rfl
        · cases hfound
    obtain ⟨F', h'⟩ := h.pageDecref hdec hg
    exact ⟨F', h'.setEntry hpt i 0⟩

theorem pageInsert {perm : Word} {r : Int} (h : SelfDir D F m g) (small : n ≤ 2 ^ 20)
    (hD : D (pdx va)) (hr : m.pageInsert g p va perm = .ok (r, m'))
    (hg : (m'.pages g).ppRef ≠ 0) : ∃ F', SelfDir D F' m' g := by
  obtain ⟨⟨found, m₁⟩, hwalk, hrest⟩ := bind_ok.mp hr
  obtain ⟨h₁, hne, -⟩ := h.pgdirWalk small hD hwalk
  cases found with
  | none =>
    cases hrest
    exact ⟨F, h₁⟩
  | some x =>
    obtain ⟨pt, i⟩ := x
    have hpt := hne _ _ rfl
    have hinc := h₁.incRef p
    dsimp only at hrest
    split_ifs at hrest
    · obtain ⟨m₂, hremove, hset⟩ := bind_ok.mp hrest
      cases hset
      obtain ⟨F', h'⟩ := hinc.pageRemove small hD hremove hg
      exact ⟨F', h'.setEntry hpt i _⟩
    · cases hrest
      exact ⟨F, hinc.setEntry hpt i _⟩

end SelfDir

/-- A call of `page_insert` or `page_remove`. -/
inductive PageOp (n : Nat) where
  | insert (pp : Fin n) (va perm : Word)
  | remove (va : Word)

namespace PageOp

def va : PageOp n → Word
  | .insert _ va _ | .remove va => va

def run (m : Mem n) (g : Fin n) : PageOp n → Except Panic (Mem n)
  | .insert pp va perm => (m.pageInsert g pp va perm).map Prod.snd
  | .remove va => m.pageRemove g va

/-- A call below `UTOP` that returns and leaves the directory allocated. -/
def Step (g : Fin n) (m : Mem n) (op : PageOp n) (m' : Mem n) : Prop :=
  op.va < utop ∧ op.run m g = .ok m' ∧ (m'.pages g).ppRef ≠ 0

end PageOp

/-- The entries for user memory. -/
def UserPdes (d : Fin 1024) : Prop := (d : Nat) < userPdes

instance (d : Fin 1024) : Decidable (UserPdes d) := inferInstanceAs (Decidable (_ < _))

section
variable {D : Fin 1024 → Prop} {F : Set (Fin n)} {m m' m₀ m₁ mb : Mem n} {g p : Fin n}
  {va pa vend perm : Word} {free : List (Fin n)} {op : PageOp n}

theorem SelfDir.step (h : SelfDir UserPdes F m g) (small : n ≤ 2 ^ 20)
    (hs : PageOp.Step g m op m') : ∃ F', SelfDir UserPdes F' m' g := by
  obtain ⟨hva, hrun, hg⟩ := hs
  have hD : UserPdes (pdx op.va) := pdx_lt_userPdes hva
  cases op with
  | remove va => exact h.pageRemove small hD hrun hg
  | insert pp va perm =>
    change (m.pageInsert g pp va perm).map Prod.snd = .ok m' at hrun
    cases hins : m.pageInsert g pp va perm with
    | error e =>
      rw [hins] at hrun
      cases hrun
    | ok r =>
      rw [hins] at hrun
      cases hrun
      exact h.pageInsert small hD hins hg

/-! ## The kernel's directory -/

/-- The entries for the kernel, without the window. -/
def KernPdes (d : Fin 1024) : Prop := userPdes ≤ (d : Nat) ∧ d ≠ pdx uvpt

/-- The kernel's directory: nothing is mapped below `UTOP`. -/
structure KernDir (m : Mem n) : Prop where
  selfDir : ∃ F, SelfDir KernPdes F m m.kernPgdir
  empty : ∀ d : Fin 1024, (d : Nat) < userPdes → present (m.entry m.kernPgdir d) = false

theorem SelfDir.bootMapLoop {fuel : Nat} (h : SelfDir D F m g) (small : n ≤ 2 ^ 20) {k : Nat}
    (hend : vend.toNat = va.toNat + k * 4096) (hD : ∀ a : Word, va ≤ a → a < vend → D (pdx a))
    (hr : bootMapLoop m g vend perm fuel va pa = .ok (some m')) :
    SelfDir D F m' g ∧ (∀ d, ¬D d → m'.entry g d = m.entry g d) ∧ m'.kernPgdir = m.kernPgdir := by
  induction fuel generalizing m va pa k with
  | zero =>
    unfold JosKernel.bootMapLoop at hr
    split_ifs at hr
    · cases hr
      exact ⟨h, fun _ _ => rfl, rfl⟩
    · cases hr
  | succ fuel ih =>
    unfold JosKernel.bootMapLoop at hr
    split_ifs at hr with hstop
    · cases hr
      exact ⟨h, fun _ _ => rfl, rfl⟩
    have hlt : va < vend := by
      rw [BitVec.lt_def]
      have hne : va.toNat ≠ vend.toNat := fun hc => hstop (BitVec.eq_of_toNat_eq hc)
      omega
    have hDva := hD va (BitVec.le_refl va) hlt
    obtain ⟨⟨r, m₁⟩, hwalk, hrest⟩ := bind_ok.mp hr
    obtain ⟨h₁, hne, hsame, hk⟩ := h.pgdirWalk small hDva hwalk
    cases r with
    | none => cases hrest
    | some x =>
      obtain ⟨pt, i⟩ := x
      have hpt := hne _ _ rfl
      have hva : (va + pgsize).toNat = va.toNat + 4096 := by
        have hv := vend.isLt
        have hpg : pgsize.toNat = 4096 := rfl
        have hlt' := BitVec.lt_def.mp hlt
        rw [BitVec.toNat_add, hpg]
        have hk1 : 1 ≤ k := by
          by_contra hk0
          obtain rfl : k = 0 := by omega
          omega
        omega
      obtain ⟨h', hsame', hk'⟩ := ih (k := k - 1) (h₁.setEntry hpt i _) (by
          have hlt' := BitVec.lt_def.mp hlt
          rw [hva]
          omega)
        (fun a ha hav => hD a (BitVec.le_def.mpr (by
          have := BitVec.le_def.mp ha
          omega)) hav) hrest
      refine ⟨h', fun d hd => ?_, hk'.trans hk⟩
      rw [hsame' d hd, Mem.entry_setEntry, if_neg fun hc => hpt hc.1.symm]
      exact hsame d fun hc => hd (hc ▸ hDva)

/-- A list that starts at the head of the free list contains all that the links lead to. -/
theorem Mem.FreeList.closed (h : m.FreeList free) : (∀ p, m.pageFreeList = some p → p ∈ free) ∧
    ∀ p ∈ free, ∀ q, (m.pages p).ppLink = some q → q ∈ free := by
  unfold Mem.FreeList at h
  generalize m.pageFreeList = first at h
  induction free generalizing first with
  | nil =>
    obtain rfl : first = none := h
    exact ⟨(fun p hp => by cases hp), fun p hp => by cases hp⟩
  | cons a l ih =>
    obtain ⟨rfl, hseg⟩ := h
    obtain ⟨hhead, hlink⟩ := ih _ hseg
    refine ⟨fun p hp => ?_, fun p hp q hq => ?_⟩
    · cases hp
      exact List.mem_cons_self
    · rcases List.mem_cons.mp hp with rfl | hp
      · exact List.mem_cons_of_mem p (hhead q hq)
      · exact List.mem_cons_of_mem a (hlink p hp q hq)

/-- `kern_pgdir` in `mem_init`, before its first call of `boot_map_region`. -/
structure FreshKernDir (m : Mem n) : Prop where
  entries : ∀ d, m.entry m.kernPgdir d =
    if d = pdx uvpt then page2pa m.kernPgdir ||| pteU ||| pteP else 0
  list : ∃ free, m.FreeList free ∧ m.kernPgdir ∉ free

/-- The arguments of `boot_map_region`. -/
structure BootRegion where
  va : Word
  size : Word
  pa : Word
  perm : Word

/-- A call for a region of the kernel, as `mem_init` and `mmio_map_region` make them. -/
def BootRegion.Step (m : Mem n) (r : BootRegion) (m' : Mem n) : Prop :=
  bootMapRegion m m.kernPgdir r.va r.size r.pa r.perm = .ok (some m') ∧
    (∃ k, (bootMapEnd r.va r.size).toNat = r.va.toNat + k * 4096) ∧ utop ≤ r.va ∧
    ∀ a, r.va ≤ a → a < bootMapEnd r.va r.size → pdx a ≠ pdx uvpt

theorem pageOf_selfPde (small : n ≤ 2 ^ 20) (p : Fin n) {w : Word} (hw : pgnum w = 0)
    (hp : present w = true) : pageOf n (page2pa p ||| w) = some p := by
  refine pageOf_eq_some.mpr ⟨by simp [hp], ?_⟩
  rw [pgnum_or, pgnum_page2pa small, hw, Nat.or_zero]

/-- A physical address has no flags. -/
theorem page2pa_or_and_pteW (p : Fin n) (w : Word) :
    (page2pa p ||| w) &&& pteW = w &&& pteW := by
  have hbits : page2pa p &&& pteW = 0#32 := by
    have haligned : (page2pa p).toNat % 4096 = 0 := by
      simp only [page2pa, BitVec.toNat_ofNat]
      omega
    rw [← pteAddr_of_aligned haligned]
    exact pteAddr_and (by decide) _
  rw [BitVec.and_or_distrib_right, hbits, BitVec.zero_or]

theorem FreshKernDir.kernDir (h : FreshKernDir m) (small : n ≤ 2 ^ 20) : KernDir m := by
  obtain ⟨free, hfree, hkern⟩ := h.list
  obtain ⟨hhead, hlink⟩ := hfree.closed
  have hself : m.entry m.kernPgdir (pdx uvpt) = page2pa m.kernPgdir ||| (pteU ||| pteP) := by
    rw [h.entries, if_pos rfl, BitVec.or_assoc]
  have hother : ∀ d, d ≠ pdx uvpt → present (m.entry m.kernPgdir d) = false := by
    intro d hd
    rw [h.entries, if_neg hd]
    rfl
  have htable : m.table m.kernPgdir (pdx uvpt) = some m.kernPgdir := by
    rw [Mem.table, hself]
    exact pageOf_selfPde small _ (by decide) (by decide)
  refine ⟨⟨{p | p ∈ free}, htable, ?_, fun d hd => ?_, fun d hd => ?_, hkern, hhead, hlink⟩,
    fun d hd => hother d ?_⟩
  · rw [hself, page2pa_or_and_pteW]
    decide
  · by_cases hdu : d = pdx uvpt
    · subst hdu
      refine ⟨?_, (pageOf_eq_some.mp htable).2 ▸ m.kernPgdir.isLt⟩
      rw [hself, BitVec.or_comm pteU, ← BitVec.or_assoc, or_and_right]
      decide
    · rw [hother d hdu] at hd
      cases hd
  · rw [Mem.table, pageOf_of_not_present (hother d hd.2)]
    simp
  · rintro rfl
    exact absurd hd (by decide)

theorem KernDir.step (h : KernDir m) (small : n ≤ 2 ^ 20) {r : BootRegion}
    (hs : BootRegion.Step m r m') : KernDir m' := by
  obtain ⟨hrun, ⟨k, hend⟩, hutop, huvpt⟩ := hs
  obtain ⟨F, hself⟩ := h.selfDir
  have hD : ∀ a : Word, r.va ≤ a → a < bootMapEnd r.va r.size → KernPdes (pdx a) := by
    intro a ha hlt
    refine ⟨?_, huvpt a ha hlt⟩
    have hge := BitVec.le_def.mp (BitVec.le_trans hutop ha)
    rw [toNat_utop] at hge
    simp only [userPdes, pdx]
    omega
  obtain ⟨hself', hsame, hk⟩ := hself.bootMapLoop small hend hD hrun
  refine ⟨⟨F, by rw [hk]; exact hself'⟩, fun d hd => ?_⟩
  rw [hk, hsame d fun hc => absurd hc.1 (not_le.mpr hd)]
  exact h.empty d hd

/-- The directory that `mem_init` makes. -/
theorem kernDir_of_reachable (small : n ≤ 2 ^ 20)
    (h : Reachable FreshKernDir BootRegion.Step m) : KernDir m :=
  h.invariant (fun _ hm => hm.kernDir small) fun _ _ _ hk hs => hk.step small hs

/-! ## The directory of an environment -/

theorem envSetupVm_spec (hl : m.pageFreeList = some p) (hk : m.kernPgdir ≠ p) :
    ∃ m', envSetupVm m = (some p, m') ∧
      m'.frame p = wr32 (m.frame m.kernPgdir) (pdx uvpt) (page2pa p ||| pteP ||| pteU) ∧
      m'.pageFreeList = (m.pages p).ppLink ∧
      ∀ q, q ≠ p → (m'.pages q).ppLink = (m.pages q).ppLink := by
  have halloc : m.pageAlloc true = (some p, (({ m with pageFreeList := (m.pages p).ppLink }.setPage
      p { m.pages p with ppLink := none }).setFrame p fun _ => 0)) := by
    rw [Mem.pageAlloc, hl]
    rfl
  unfold envSetupVm
  rw [halloc]
  refine ⟨_, rfl, ?_, rfl, fun q hq => ?_⟩
  · simp [Mem.setEntry, Mem.setFrame, Mem.incRef, Mem.setPage, hk]
  · simp [Mem.setEntry, Mem.setFrame, Mem.incRef, Mem.setPage, hq]

/-- The directory that `env_setup_vm` makes as long as `kern_pgdir` is as it was made. -/
theorem selfDir_of_envSetupVm (small : n ≤ 2 ^ 20) (hb : KernDir mb)
    (hf : m₀.frame m₀.kernPgdir = mb.frame mb.kernPgdir) (hl : m₀.FreeList free)
    (hkern : m₀.kernPgdir ∉ free) (hvm : envSetupVm m₀ = (some g, m₁)) :
    ∃ F, SelfDir UserPdes F m₁ g := by
  cases free with
  | nil =>
    have hnone : m₀.pageFreeList = none := hl
    simp [envSetupVm, Mem.pageAlloc, hnone] at hvm
  | cons p l =>
    have hnodup : p ∉ l :=
      (List.nodup_cons.mp (ListSeg.nodup (Option.some_injective _) (by simp) hl)).1
    have hk : m₀.kernPgdir ≠ p := fun hc => hkern (hc ▸ List.mem_cons_self)
    obtain ⟨m', hvm', hframe, hlist, hlink⟩ := envSetupVm_spec hl.1 hk
    cases hvm'.symm.trans hvm
    have hrest : m₁.FreeList l := by
      rw [Mem.FreeList, hlist]
      exact hl.2.congr fun q hq => hlink q (ne_of_mem_of_not_mem hq hnodup)
    obtain ⟨hhead, hclosed⟩ := hrest.closed
    obtain ⟨F, hself⟩ := hb.selfDir
    -- the entries are those of the kernel, but for the window
    have hself' : m₁.entry g (pdx uvpt) = page2pa g ||| pteP ||| pteU := by
      rw [Mem.entry, hframe, rd32_wr32_self]
    have hentry : ∀ d, d ≠ pdx uvpt → m₁.entry g d = mb.entry mb.kernPgdir d := fun d hd => by
      rw [Mem.entry, hframe, rd32_wr32_of_ne _ hd, hf, Mem.entry]
    have htable : m₁.table g (pdx uvpt) = some g := by
      rw [Mem.table, hself', BitVec.or_assoc]
      exact pageOf_selfPde small _ (by decide) (by decide)
    refine ⟨{q | q ∈ l}, htable, ?_, fun d hd => ?_, fun d hd => ?_, hnodup, hhead, hclosed⟩
    · rw [hself', BitVec.or_assoc, page2pa_or_and_pteW]
      decide
    · by_cases hdu : d = pdx uvpt
      · subst hdu
        refine ⟨?_, (pageOf_eq_some.mp htable).2 ▸ g.isLt⟩
        rw [hself', or_and_right]
        decide
      · rw [hentry d hdu] at hd ⊢
        exact hself.user d hd
    · have hdu : d ≠ pdx uvpt := by
        rintro rfl
        exact absurd hd (by decide)
      rw [Mem.table, hentry d hdu, pageOf_of_not_present (hb.empty d hd)]
      simp

/-- In user mode a directory made by `env_setup_vm` shows itself and its tables, and cannot be
written, whatever is mapped and unmapped below `UTOP`. -/
theorem showsTables_of_reachable (small : n ≤ 2 ^ 20)
    (hb : Reachable FreshKernDir BootRegion.Step mb)
    (hf : m₀.frame m₀.kernPgdir = mb.frame mb.kernPgdir) (hl : m₀.FreeList free)
    (hkern : m₀.kernPgdir ∉ free) (hvm : envSetupVm m₀ = (some g, m₁))
    (hrun : Reachable (· = m₁) (PageOp.Step g) m) : ShowsTables m g := by
  have hinv : ∃ F, SelfDir UserPdes F m g := by
    refine hrun.invariant (P := fun s => ∃ F, SelfDir UserPdes F s g) (fun s hs => ?_)
      fun s op s' hs hstep => ?_
    · rw [hs]
      exact selfDir_of_envSetupVm small (kernDir_of_reachable small hb) hf hl hkern hvm
    · obtain ⟨F, h⟩ := hs
      exact h.step small hstep
  obtain ⟨F, h⟩ := hinv
  exact h.showsTables

end

/-! ## One page -/

/-- Page 0 is the kernel's directory, the others are free. -/
def selfMem : Mem 4 :=
  ({ pages p := ⟨if h : 0 < (p : Nat) ∧ (p : Nat) + 1 < 4 then some ⟨p + 1, h.2⟩ else none, 0⟩
     pageFreeList := some 1
     frame _ _ := 0
     kernPgdir := 0 } : Mem 4).setEntry 0 (pdx uvpt) (page2pa (0 : Fin 4) ||| pteU ||| pteP)

theorem freshKernDir_selfMem : FreshKernDir selfMem := by
  refine ⟨fun d => ?_, [1, 2, 3], by decide, by decide⟩
  have hdir : selfMem.kernPgdir = 0 := rfl
  rw [hdir, selfMem, Mem.entry_setEntry]
  by_cases hd : d = pdx uvpt
  · rw [if_pos ⟨rfl, hd⟩, if_pos hd]
  · rw [if_neg fun hc => hd hc.2, if_neg hd, Mem.entry]
    exact rd32_zero d

/-- Page 3 is mapped, with page 2 as its table, in the directory in page 1. -/
theorem showsTables_selfMem : ∃ m, (envSetupVm selfMem).2.pageInsert 1 3 0x1000 7 = .ok (0, m) ∧
    ShowsTables m 1 := by
  have hrun : (match (envSetupVm selfMem).2.pageInsert 1 3 0x1000 7 with
      | .ok (r, m) => r == 0 && (m.pages 1).ppRef != 0
      | .error _ => false) = true := by decide
  cases hins : (envSetupVm selfMem).2.pageInsert 1 3 0x1000 7 with
  | error e =>
    rw [hins] at hrun
    cases hrun
  | ok x =>
    obtain ⟨r, m⟩ := x
    rw [hins] at hrun
    simp only [Bool.and_eq_true, beq_iff_eq, bne_iff_ne] at hrun
    obtain ⟨rfl, href⟩ := hrun
    have hstep : PageOp.Step 1 (envSetupVm selfMem).2 (.insert 3 0x1000 7) m := by
      refine ⟨by decide, ?_, href⟩
      change ((envSetupVm selfMem).2.pageInsert 1 3 0x1000 7).map Prod.snd = .ok m
      rw [hins]
      rfl
    exact ⟨m, rfl, showsTables_of_reachable (by decide) (.init freshKernDir_selfMem) rfl
      (show selfMem.FreeList [1, 2, 3] by decide) (by decide)
      (show envSetupVm selfMem = (some 1, (envSetupVm selfMem).2) from rfl)
      (.step (.init rfl) hstep)⟩

end JosKernel
