import JosKernel.Env.Cpus
import JosKernel.Env.Solo

/-!
# A counter that wraps around under system calls

An environment of its own maps one page again and again. `sys_page_alloc` has counted the page
twice, so that the counter is zero when there are 65535 mappings, one less than `page_insert`
alone allows. Then the page is freed by mapping it once more where it is mapped already, and
becomes a page table, which the environment can write.
-/
namespace JosKernel

open Lib

variable {n : Nat} {k : Kernel n} {m : Mem n} {c : Cpu} {e : EnvIx} {g p pp pt q : Fin n}
  {va srcva perm : Word} {i j : ℕ}

/-! ## Mapping a page 65535 times -/

theorem wrapVa_page (hj : j ≤ 65536) : (pdx (wrapVa j) : ℕ) * 1024 + ptx (wrapVa j) = j := by
  simp only [wrapVa, pdx, ptx, BitVec.toNat_ofNat]
  omega

theorem badUserPage_wrapVa (hj : j ≤ 65536) : badUserPage (wrapVa j) = false := by
  have hlt : (wrapVa j).toNat = j * 4096 := by
    simp only [wrapVa, BitVec.toNat_ofNat]
    omega
  have hround : roundUp (wrapVa j) pgsize = wrapVa j :=
    (roundUp_eq_self_iff _).mpr (by omega)
  have hutop : ¬utop ≤ wrapVa j := fun hle => by
    have := BitVec.le_def.mp hle
    rw [toNat_utop] at this
    omega
  simp [badUserPage, hround, hutop]

/-- The directory `g` has the entries `f`, by page number, and tables for the first 64 directory
entries at most. -/
structure Maps (f : ℕ → Word) (g : Fin n) (free : List (Fin n)) (m : Mem n) : Prop where
  tables : PageTables m (fun _ : Unit => some g) free
  pte : ∀ d t : Fin 1024, (d : ℕ) < userPdes → m.pteAt g d t = f (d * 1024 + t)
  pde : ∀ d : Fin 1024, (d : ℕ) < userPdes → m.table g d ≠ none → UserPde (m.entry g d)
  rest : ∀ d : Fin 1024, 64 ≤ (d : ℕ) → (d : ℕ) < userPdes → m.table g d = none

section
variable {f : ℕ → Word} {free : List (Fin n)}

/-- A page is mapped where none is mapped. Pages that are not free do not become tables. -/
theorem Maps.pageInsert (h : Maps f g free m) (hj : j < 65536) (hperm : perm.toNat < 4096)
    (hpp : pp ∉ free) (hnone : pageOf n (f j) = none)
    (hroom : m.table g (pdx (wrapVa j)) = none → free ≠ []) :
    ∃ m' free', m.pageInsert g pp (wrapVa j) perm = .ok (0, m') ∧
      Maps (Function.update f j (newPte pp perm)) g free' m' ∧
      free' = (if m.table g (pdx (wrapVa j)) = none then free.tail else free) ∧
      ∀ q, q ∉ free → q ∉ free' ∧
        (m'.pages q).ppRef = (m.pages q).ppRef + (if q = pp then 1 else 0) ∧
        ((∀ d, m.table g d ≠ some q) → ∀ d, m'.table g d ≠ some q) := by
  have hpage := wrapVa_page (j := j) (by omega)
  have hva : wrapVa j < utop := wrapVa_lt hj
  have hold : m.mappedPage g (wrapVa j) = none := by
    rw [Mem.mappedPage, h.pte _ _ (pdx_lt_userPdes hva), hpage, hnone]
  obtain ⟨pt, m', free', hok, ok', hsub, hfree', hpt, href, hnew⟩ :=
    h.tables.pageInsert_new (e := ()) rfl hva hperm hpp hold hroom
  refine ⟨m', free', hok, ⟨ok', fun d t hd => ?_, fun d hd ht => ?_, fun d hle hd => ?_⟩, hfree',
    fun q hq => ⟨fun hc => hq (hsub q hc), href q hq, fun hno d hc => ?_⟩⟩
  · rw [Function.update_apply]
    rcases hnew.pte () g d t rfl hd with ⟨-, rfl, rfl, hpte⟩ | ⟨hne, hpte⟩
    · rw [hpte, if_pos hpage]
      rfl
    · rw [hpte, h.pte d t hd, if_neg]
      intro hc
      refine hne ⟨rfl, Fin.ext ?_, Fin.ext ?_⟩ <;> omega
  · rcases hnew.pde () g d rfl with hent | hent
    · rw [hent]
      refine h.pde d hd ?_
      rwa [Mem.table, hent] at ht
    · exact hent
  · rcases hnew.table () g d rfl with ⟨-, rfl, -⟩ | ⟨-, ht⟩
    · omega
    · rw [ht]
      exact h.rest d hle hd
  · rcases hnew.table () g d rfl with ⟨-, -, ht⟩ | ⟨-, ht⟩
    · obtain rfl : pt = q := Option.some.inj (ht.symm.trans hc)
      exact hpt.elim (hno _) hq
    · exact hno d (ht.symm.trans hc)

/-- The page that `sys_page_alloc` gets is counted before it is mapped. -/
theorem Maps.pageAlloc (h : Maps f g (pp :: free) m) :
    ∃ m₁, m.pageAlloc true = (some pp, m₁) ∧ Maps f g free (m₁.incRef pp) ∧
      (∀ d, (m₁.incRef pp).table g d = m.table g d) ∧
      ∀ q, ((m₁.incRef pp).pages q).ppRef = (m.pages q).ppRef + if q = pp then 1 else 0 := by
  obtain ⟨m₁, halloc, ok₁, hsame, href⟩ := h.tables.pageAlloc
  obtain ⟨hent, hpte⟩ := hsame () g rfl
  have htab : ∀ d, (m₁.incRef pp).table g d = m.table g d := fun d =>
    congrArg (pageOf n) (hent d)
  refine ⟨m₁, halloc, ⟨ok₁.incRef pp, fun d t hd => (hpte d t hd).trans (h.pte d t hd),
    fun d hd ht => ?_, fun d hle hd => (htab d).trans (h.rest d hle hd)⟩, htab, fun q => ?_⟩
  · have : (m₁.incRef pp).entry g d = m.entry g d := hent d
    rw [this]
    exact h.pde d hd (htab d ▸ ht)
  · rw [Mem.incRef_ref, href q]

end

/-- The entries by page number: `pp` at the first `j` pages, and `p` read-only at page 65535. -/
def filledPte (pp p : Fin n) (j i : ℕ) : Word :=
  if i < j then newPte pp 7 else if i = 65535 then newPte p 5 else 0

theorem filledPte_succ (hj : j < 65535) : filledPte pp p (j + 1) =
    Function.update (filledPte pp p j) j (newPte pp 7) := by
  funext i
  rw [Function.update_apply]
  unfold filledPte
  split_ifs <;> first | omega | rfl

structure Filled (pp p : Fin n) (j : ℕ) (g : Fin n) (m : Mem n) : Prop where
  maps : ∃ free, Maps (filledPte pp p j) g free m ∧ pp ∉ free ∧ p ∉ free ∧
    64 ≤ free.length + (j + 1023) / 1024
  ref : (m.pages pp).ppRef = BitVec.ofNat 16 (j + 1)
  data : ∀ d, m.table g d ≠ some pp

theorem Filled.small (h : Filled pp p j g m) : n ≤ 2 ^ 20 := by
  obtain ⟨free, hmaps, -⟩ := h.maps
  exact hmaps.tables.tables.small

/-- One more mapping. -/
theorem Filled.succ (h : Filled pp p j g m) (h0 : 0 < j) (hj : j < 65535) :
    ∃ m', m.pageInsert g pp (wrapVa j) 7 = .ok (0, m') ∧ Filled pp p (j + 1) g m' := by
  obtain ⟨free, hmaps, hpp, hp, hlen⟩ := h.maps
  have hpage := wrapVa_page (j := j) (by omega)
  have hw : pageOf n (newPte pp 7) = some pp := pageOf_flags h.small (by decide) pp
  have hfirst : m.table g (pdx (wrapVa j)) = none → j % 1024 = 0 := by
    intro ht
    by_contra hne
    have hva : wrapVa j < utop := wrapVa_lt (by omega)
    have hpte := hmaps.pte (pdx (wrapVa j)) (ptx (wrapVa (j - 1))) (pdx_lt_userPdes hva)
    have hprev := wrapVa_page (j := j - 1) (by omega)
    rw [Mem.pteAt_of_no_table ht, filledPte, if_pos (by omega)] at hpte
    rw [← hpte, pageOf_zero] at hw
    cases hw
  have hnone : pageOf n (filledPte pp p j j) = none := by
    rw [filledPte, if_neg (by omega), if_neg (by omega)]
    exact pageOf_zero
  obtain ⟨m', free', hok, hmaps', hfree', hrest⟩ :=
    hmaps.pageInsert (by omega) (by decide : (7 : Word).toNat < 4096) hpp hnone (by
      rintro ht rfl
      have := hfirst ht
      simp only [List.length_nil] at hlen
      omega)
  obtain ⟨hpp', href, hdata⟩ := hrest pp hpp
  refine ⟨m', hok, ⟨free', ?_, hpp', (hrest p hp).1, ?_⟩, ?_, hdata h.data⟩
  · rwa [filledPte_succ hj]
  · rw [hfree']
    split_ifs with ht
    · have := hfirst ht
      rw [List.length_tail]
      omega
    · omega
  · rw [href, h.ref, if_pos rfl, BitVec.ofNat_add (j + 1)]
    rfl

/-! ## The page as a page table -/

/-- The page is mapped and free. -/
structure FreedPage (pp p : Fin n) (g : Fin n) (free : List (Fin n)) (m : Mem n) : Prop where
  tables : Tables (fun _ d => (d : ℕ) < userPdes) m (fun _ : Unit => some g) (pp :: free)
  spare : p ∉ free
  pte : ∀ d t : Fin 1024, (d : ℕ) < userPdes → m.pteAt g d t = filledPte pp p 65535 (d * 1024 + t)
  pde : ∀ d : Fin 1024, (d : ℕ) < userPdes → m.table g d ≠ none → UserPde (m.entry g d)
  rest : ∀ d : Fin 1024, 64 ≤ (d : ℕ) → (d : ℕ) < userPdes → m.table g d = none

/-- The counter goes from 0 to 1 and back to 0. -/
theorem Filled.exchange {free : List (Fin n)} (h : Filled pp p 65535 g m)
    (hmaps : Maps (filledPte pp p 65535) g free m) (hpp : pp ∉ free) (hdir : pp ≠ g) :
    Tables (fun _ d => (d : ℕ) < userPdes) (m.exchange pp (some pp)) (fun _ : Unit => some g)
      (pp :: free) := by
  have ok := hmaps.tables.tables
  have href : ((m.exchange pp (some pp)).pages pp).ppRef = 0 := by
    rw [Mem.exchange_ref, h.ref]
    simp
  have hlist : (m.exchange pp (some pp)).FreeList
      (if ((m.exchange pp (some pp)).pages pp).ppRef = 0 then pp :: free else free) :=
    ok.list.exchange fun q hq => Option.some.inj hq ▸ hpp
  rw [if_pos href] at hlist
  refine ok.relist (Mem.exchange_frame ..) hlist (List.nodup_cons.mpr ⟨hpp, ok.nodup⟩)
    (fun _ g' he hc => ?_) fun _ g' d pt' he ht hc => ?_
  · obtain rfl := Option.some.inj he
    rcases List.mem_cons.mp hc with hc | hc
    · exact hdir hc.symm
    · exact ok.dirFree () g rfl hc
  · obtain rfl := Option.some.inj he
    rcases List.mem_cons.mp hc with rfl | hc
    · exact h.data d ht
    · exact ok.tableFree () g d pt' rfl ht hc

/-- The page is mapped once more at address 0. -/
theorem Filled.freed (h : Filled pp p 65535 g m) (hdir : pp ≠ g) :
    ∃ m' free, m.pageInsert g pp 0 7 = .ok (0, m') ∧ FreedPage pp p g free m' := by
  obtain ⟨free, hmaps, hpp, hp, -⟩ := h.maps
  have ok := hmaps.tables
  have hd : (pdx 0 : ℕ) < userPdes := by decide
  have hw : pageOf n (newPte pp 7) = some pp := pageOf_flags h.small (by decide) pp
  have hfill := hmaps.pte (pdx 0) (ptx 0) hd
  have hpte : m.pteAt g (pdx 0) (ptx 0) = newPte pp 7 :=
    hfill.trans (if_pos (by decide))
  obtain ⟨t₀, ht₀⟩ : ∃ t₀, m.table g (pdx 0) = some t₀ :=
    Mem.table_of_page ((congrArg (pageOf n) hpte).trans hw)
  have hroom : m.table g (pdx 0) = none → free ≠ [] := fun hc => by cases ht₀.symm.trans hc
  obtain ⟨pt, m₁, free₁, hwalk, ok₁, ht₁, hent₁, hcase, hset⟩ :=
    ok.tables.walk_newEntry (e := ()) rfl hd hroom
  obtain ⟨rfl, rfl⟩ : m₁ = m ∧ free₁ = free := by
    rcases hcase with ⟨-, hm, hf⟩ | ⟨hc, -⟩
    · exact ⟨hm, hf⟩
    · cases ht₀.symm.trans hc
  have hold : pageOf n (m₁.entry pt (ptx 0)) = some pp := by rw [hent₁, hpte, hw]
  obtain ⟨ok', hnew⟩ := hset _ _ (newPte pp 7) (Mem.exchange_frame ..) (h.exchange hmaps hpp hdir)
  have htab : ∀ d, ((m₁.exchange pp (some pp)).setEntry pt (ptx 0) (newPte pp 7)).table g d =
      m₁.table g d := by
    intro d
    rcases hnew.table () g d rfl with ⟨-, rfl, ht⟩ | ⟨-, ht⟩
    · rw [ht, ht₁]
    · exact ht
  refine ⟨_, free₁, ?_, ok', hp, fun d t hd' => ?_, fun d hd' ht => ?_, fun d hle hd' =>
    (htab d).trans (hmaps.rest d hle hd')⟩
  · have hins : m₁.pageInsert g pp 0 7 = _ := Mem.pageInsert_eq hwalk ht₁ (fun _ => ?_) ?_
    · rw [hins, hold]
      rfl
    · rw [(pageOf_eq_some.mp hold).2]
      exact pp.isLt
    · intro q hq
      obtain rfl : pp = q := Option.some.inj (hold.symm.trans hq)
      exact ok.link pp hpp
  · rcases hnew.pte () g d t rfl hd' with ⟨-, rfl, rfl, hc⟩ | ⟨-, hc⟩
    · rw [hc, ← hpte, hfill]
    · exact hc.trans (hmaps.pte d t hd')
  · rcases hnew.pde () g d rfl with hent | hent
    · rw [hent]
      exact hmaps.pde d hd' (htab d ▸ ht)
    · exact hent

/-- The entries by page number when the page is a table: `p` is mapped once more. -/
def tablePte (pp p : Fin n) (i : ℕ) : Word :=
  if i = 65536 then newPte p 5 else filledPte pp p 65535 i

/-- The page has become the table for the page after the last one that was mapped. -/
structure TablePage (pp p : Fin n) (g : Fin n) (free : List (Fin n)) (m : Mem n) : Prop where
  tables : Tables (fun _ d => (d : ℕ) < userPdes) m (fun _ : Unit => some g) free
  spare : p ∉ free
  table : m.table g 64 = some pp
  pte : ∀ d t : Fin 1024, (d : ℕ) < userPdes → m.pteAt g d t = tablePte pp p (d * 1024 + t)
  pde : ∀ d : Fin 1024, (d : ℕ) < userPdes → m.table g d ≠ none → UserPde (m.entry g d)

/-- A table is needed, and the first free page is the mapped one. -/
theorem FreedPage.tablePage {free : List (Fin n)} (h : FreedPage pp p g free m) :
    ∃ m', m.pageInsert g p (wrapVa 65536) 5 = .ok (0, m') ∧ TablePage pp p g free m' := by
  have hd : (pdx (wrapVa 65536) : ℕ) < userPdes := by decide
  have hpage : (pdx (wrapVa 65536) : ℕ) * 1024 + ptx (wrapVa 65536) = 65536 := wrapVa_page le_rfl
  have hnone : m.table g (pdx (wrapVa 65536)) = none := h.rest _ (by decide) hd
  obtain ⟨pt, m₁, free₁, hwalk, ok₁, ht₁, hent₁, hcase, hset⟩ :=
    h.tables.walk_newEntry (e := ()) rfl hd fun _ => List.cons_ne_nil pp free
  obtain ⟨rfl, rfl⟩ : pp = pt ∧ free = free₁ := by
    rcases hcase with ⟨hc, -⟩ | ⟨-, hf, -⟩
    · cases hnone.symm.trans hc
    · exact List.cons_eq_cons.mp hf
  have hzero : m₁.entry pp (ptx (wrapVa 65536)) = 0#32 := by
    rw [hent₁, Mem.pteAt_of_no_table hnone]
  obtain ⟨ok', hnew⟩ := hset (m₁.incRef p) free (newPte p 5) rfl (ok₁.incRef p)
  refine ⟨_, ?_, ok', h.spare, ?_, fun d t hd' => ?_, fun d hd' ht => ?_⟩
  · have hins : m.pageInsert g p (wrapVa 65536) 5 = _ :=
      Mem.pageInsert_eq hwalk ht₁ (by simp [hzero]) (by simp [hzero])
    · rw [hins, hzero, pageOf_zero]
      rfl
  · rcases hnew.table () g (pdx (wrapVa 65536)) rfl with ⟨-, -, ht⟩ | ⟨hc, -⟩
    · exact ht
    · exact absurd ⟨rfl, rfl⟩ hc
  · rcases hnew.pte () g d t rfl hd' with ⟨-, rfl, rfl, hpte⟩ | ⟨hne, hpte⟩
    · rw [hpte, tablePte, if_pos hpage]
    · rw [hpte, h.pte d t hd', tablePte, if_neg]
      intro hc
      refine hne ⟨rfl, Fin.ext ?_, Fin.ext ?_⟩ <;> omega
  · rcases hnew.pde () g d rfl with hent | hent
    · rw [hent]
      refine h.pde d hd' ?_
      rwa [Mem.table, hent] at ht
    · exact hent

/-- Overwriting the low byte of a word. -/
theorem toNat_rd32_update (f : Frame) (i : Fin 1024) (b : Byte) :
    (rd32 (Function.update f ⟨4 * i, four_mul_lt i⟩ b) i).toNat =
      (rd32 f i).toNat / 256 * 256 + b.toNat := by
  have h₁ : 4 * (i : ℕ) + 1 ≠ 4 * i := by omega
  have h₂ : 4 * (i : ℕ) + 2 ≠ 4 * i := by omega
  have h₃ : 4 * (i : ℕ) + 3 ≠ 4 * i := by omega
  have happend : ∀ (u : BitVec 24) (v : Byte), (u ++ v).toNat = u.toNat * 256 + v.toNat := by
    intro u v
    rw [BitVec.toNat_append, ← Nat.shiftLeft_add_eq_or_of_lt v.isLt, Nat.shiftLeft_eq]
  simp only [rd32, Function.update_apply, Fin.mk.injEq, h₁, h₂, h₃, if_true, if_false]
  rw [happend, happend]
  have := (f ⟨4 * i, four_mul_lt i⟩).isLt
  omega

theorem rd32_update_of_ne (f : Frame) {i t : Fin 1024} (h : t ≠ i) (b : Byte) :
    rd32 (Function.update f ⟨4 * i, four_mul_lt i⟩ b) t = rd32 f t := by
  have hne : (t : ℕ) ≠ i := fun hc => h (Fin.ext hc)
  have h₀ : 4 * (t : ℕ) ≠ 4 * i := by omega
  have h₁ : 4 * (t : ℕ) + 1 ≠ 4 * i := by omega
  have h₂ : 4 * (t : ℕ) + 2 ≠ 4 * i := by omega
  have h₃ : 4 * (t : ℕ) + 3 ≠ 4 * i := by omega
  simp only [rd32, Function.update_apply, Fin.mk.injEq, h₀, h₁, h₂, h₃, if_false]

theorem allows_newPte_all (pp : Fin n) : Mem.allows true true (newPte pp 7) = true := by
  have hP : newPte pp 7 &&& pteP = pteP := pteAddr_or_and (by decide) ..
  have hW : newPte pp 7 &&& pteW = pteW := pteAddr_or_and (by decide) ..
  have hU : newPte pp 7 &&& pteU = pteU := pteAddr_or_and (by decide) ..
  simp only [Mem.allows, present, hP, hW, hU]
  decide

theorem pageOf_or {w v : Word} (hv : v = pteA ∨ v = pteD) : pageOf n (w ||| v) = pageOf n w := by
  have hpg : pgnum v = 0 := by rcases hv with rfl | rfl <;> rfl
  have hpres : present v = false := by rcases hv with rfl | rfl <;> decide
  simp [pageOf, pgnum_or, hpg, hpres]

/-- Memory after user code has stored a byte in page `p`, which the table `pt` maps. -/
def Mem.userStored (m : Mem n) (g pt p : Fin n) (va : Word) (b : Byte) : Mem n :=
  let m₁ := (m.setEntry g (pdx va) (m.entry g (pdx va) ||| pteA)).setEntry pt (ptx va)
    (m.entry pt (ptx va) ||| pteA ||| pteD)
  m₁.setFrame p (Function.update (m₁.frame p) (pgoff va) b)

theorem Mem.userAccess_table (ht : m.table g (pdx va) = some pt)
    (hpde : UserPde (m.entry g (pdx va))) (hp : pageOf n (m.entry pt (ptx va)) = some p)
    (hallow : Mem.allows true true (m.entry pt (ptx va)) = true) (b : Byte) :
    m.userAccess g va (some b) = some (m.userStored g pt p va b) := by
  have hlt : pgnum (m.entry g (pdx va)) < n := (pageOf_eq_some.mp ht).2 ▸ pt.isLt
  have hpt : (⟨pgnum (m.entry g (pdx va)), hlt⟩ : Fin n) = pt := Fin.ext (pageOf_eq_some.mp ht).2
  have htr : m.translate g va true true = some (p, pgoff va) := by
    rw [Mem.translate_table ht hpde, if_pos hallow, hp]
    rfl
  simp only [Mem.userAccess, Option.isSome_some, htr, Option.bind_eq_bind, Option.bind_some, hlt,
    dif_pos, hpt]
  rfl

/-- Entries of other pages keep their pages. -/
theorem Mem.pageOf_userStored {b : Byte} {i : Fin 1024} (hq : q ≠ p) :
    pageOf n ((m.userStored g pt p va b).entry q i) = pageOf n (m.entry q i) := by
  have hframe : (m.userStored g pt p va b).frame q = ((m.setEntry g (pdx va)
      (m.entry g (pdx va) ||| pteA)).setEntry pt (ptx va)
        (m.entry pt (ptx va) ||| pteA ||| pteD)).frame q := Function.update_of_ne hq ..
  rw [Mem.entry, hframe, ← Mem.entry, Mem.entry_setEntry, Mem.entry_setEntry]
  split_ifs with h₁ h₂
  · rw [h₁.1, h₁.2, pageOf_or (.inr rfl), pageOf_or (.inl rfl)]
  · rw [h₂.1, h₂.2, pageOf_or (.inl rfl)]
  · rfl

theorem Mem.entry_userStored {b : Byte} (hg : p ≠ g) (hpt : p ≠ pt) (i : Fin 1024) :
    (m.userStored g pt p va b).entry p i =
      rd32 (Function.update (m.frame p) (pgoff va) b) i := by
  have hframe : (m.userStored g pt p va b).frame p =
      Function.update (m.frame p) (pgoff va) b := by
    refine (Function.update_self ..).trans ?_
    rw [Mem.frame_setEntry_of_ne hpt, Mem.frame_setEntry_of_ne hg]
  rw [Mem.entry, hframe]

/-- A word with the low byte 7 instead of 5. -/
theorem writable_of_lowByte {w : Word} {p : Fin n}
    (h : w.toNat = (newPte p 5).toNat / 256 * 256 + 7) (small : n ≤ 2 ^ 20) :
    pageOf n w = some p ∧ w &&& pteW ≠ 0 := by
  have hp := pageOf_flags small (by decide : (5 : Word).toNat < 4096) p
  have hbit : ∀ i < 3, w.getLsbD i = true := fun i hi => by
    rw [BitVec.getLsbD, h, Nat.testBit_eq_decide_div_mod_eq]
    interval_cases i <;> simp <;> omega
  have hpres : present w = true := by rw [present_eq_getLsbD, hbit 0 (by decide)]
  refine ⟨pageOf_eq_some.mpr ⟨hpres, ?_⟩, fun hc => ?_⟩
  · have hpg := (pageOf_eq_some.mp hp).2
    change pgnum (newPte p 5) = p at hpg
    rw [← hpg]
    simp only [pgnum, h]
    omega
  · have := congrArg (fun v : Word => v.getLsbD 1) hc
    simp [hbit 1 (by decide)] at this
    revert this
    decide

/-- User code stores 7 at address 0, through a mapping of the page. -/
theorem TablePage.store {free : List (Fin n)} (h : TablePage pp p g free m) :
    ∃ m', m.userAccess g 0 (some 7) = some m' ∧ m'.FreeList free ∧
      (∀ d t : Fin 1024, (d : ℕ) < userPdes →
        pageOf n (m'.pteAt g d t) = pageOf n (m.pteAt g d t)) ∧
      pageOf n (m'.pteAt g 64 0) = some p ∧ m'.pteAt g 64 0 &&& pteW ≠ 0 := by
  have small := h.tables.small
  have hd₀ : (pdx 0 : ℕ) < userPdes := by decide
  have hd₆₄ : ((64 : Fin 1024) : ℕ) < userPdes := by decide
  have hpte₀ : m.pteAt g (pdx 0) (ptx 0) = newPte pp 7 := by
    rw [h.pte _ _ hd₀, tablePte, if_neg (by decide), filledPte, if_pos (by decide)]
  have hpage₀ : pageOf n (m.pteAt g (pdx 0) (ptx 0)) = some pp := by
    rw [hpte₀]
    exact pageOf_flags small (by decide) pp
  have hpte₆₄ : m.pteAt g 64 0 = newPte p 5 := by
    rw [h.pte _ _ hd₆₄, tablePte, if_pos (by decide)]
  obtain ⟨pt, ht⟩ := Mem.table_of_page hpage₀
  have hent : m.entry pt (ptx 0) = newPte pp 7 := by rw [← Mem.pteAt_of_table ht, hpte₀]
  have hpde := h.pde _ hd₀ fun hc => by cases ht.symm.trans hc
  have hppg : pp ≠ g := h.tables.table_ne_dir (e := ()) rfl hd₆₄ h.table (i := ()) rfl
  have hptpp : pt ≠ pp := by
    rintro rfl
    have := (h.tables.tableInj () () g g _ _ pt rfl rfl hd₀ ht h.table).2
    revert this
    decide
  refine ⟨_, Mem.userAccess_table ht hpde (by rw [hent]; exact hpte₀ ▸ hpage₀)
    (by rw [hent]; exact allows_newPte_all pp) 7, h.tables.list, ?_⟩
  set m' := m.userStored g pt pp 0 7
  have hword : ∀ t, m'.entry pp t = rd32 (Function.update (m.frame pp) (pgoff 0) 7) t :=
    Mem.entry_userStored hppg hptpp.symm
  have hlow : pageOf n (m'.entry pp 0) = some p ∧ m'.entry pp 0 &&& pteW ≠ 0 := by
    refine writable_of_lowByte ?_ small
    rw [hword, ← hpte₆₄, Mem.pteAt_of_table h.table]
    exact toNat_rd32_update (m.frame pp) 0 7
  have htab : ∀ d, m'.table g d = m.table g d := fun d => Mem.pageOf_userStored hppg.symm
  have hpte' : m'.pteAt g 64 0 = m'.entry pp 0 := Mem.pteAt_of_table ((htab 64).trans h.table)
  refine ⟨fun d t hd => ?_, hpte' ▸ hlow.1, hpte' ▸ hlow.2⟩
  cases hq : m.table g d with
  | none => rw [Mem.pteAt_of_no_table ((htab d).trans hq), Mem.pteAt_of_no_table hq]
  | some q =>
    rw [Mem.pteAt_of_table ((htab d).trans hq), Mem.pteAt_of_table hq]
    by_cases hqp : q = pp
    · subst hqp
      by_cases h0 : t = 0
      · subst h0
        rw [hlow.1, ← Mem.pteAt_of_table h.table, hpte₆₄]
        exact (pageOf_flags small (by decide) p).symm
      · rw [hword]
        exact congrArg (pageOf n) (rd32_update_of_ne (m.frame q) h0 7)
    · exact Mem.pageOf_userStored hqp

/-! ## The run -/

/-- Permission words have twelve bits. -/
def TwelveBits (_ : Kernel n) (_ : Cpu) (_ : EnvIx) (s : Sys) (a : Args) : Prop :=
  match s with
  | .pageAlloc => a.a3.toNat < 4096
  | .pageMap => a.a5.toNat < 4096
  | .ipcTrySend => a.a4.toNat < 4096
  | _ => True

/-- The steps of CPU `c` that the law is about. -/
def LimitedStep (c : Cpu) (k : Kernel n) (a : Action) (k' : Kernel n) : Prop :=
  Step k a k' ∧ a.cpu = c ∧ OnCall TwelveBits k a ∧ FewMappings k'

/-- Steps that do not free the page. -/
def KeepingStep (c : Cpu) (p : Fin n) (k : Kernel n) (a : Action) (k' : Kernel n) : Prop :=
  LimitedStep c k a k' ∧ ¬k'.mem.OnFreeList p

theorem twelveBits_pageMap (hperm : perm.toNat < 4096) :
    OnCall TwelveBits k (sysTrap c 5 0 srcva 0 dstva perm) := by
  intro cur s _ _ _ hs
  obtain rfl : Sys.pageMap = s := Option.some.inj hs
  exact hperm

theorem twelveBits_pageAlloc (hperm : perm.toNat < 4096) :
    OnCall TwelveBits k (sysTrap c 4 0 va perm 0 0) := by
  intro cur s _ _ _ hs
  obtain rfl : Sys.pageAlloc = s := Option.some.inj hs
  exact hperm

theorem few_zero : FewEntries n fun _ => 0 := fun _ =>
  ⟨∅, by simp, fun _ hq => by cases pageOf_zero.symm.trans hq⟩

theorem few_update {f : ℕ → Word} {w : Word} (hw : pageOf n w = some pp)
    (hno : ∀ i, pageOf n (f i) ≠ some pp) (h : FewEntries n f) :
    FewEntries n (Function.update f j w) := by
  intro q
  by_cases hq : q = pp
  · refine ⟨{j}, by simp, fun i hi => ?_⟩
    by_contra hne
    rw [Function.update_of_ne (by simpa using hne), hq] at hi
    exact hno i hi
  · obtain ⟨A, hcard, hA⟩ := h q
    refine ⟨A, hcard, fun i hi => hA i ?_⟩
    by_cases hij : i = j
    · rw [hij, Function.update_self] at hi
      exact absurd (Option.some.inj (hi.symm.trans hw)) hq
    · rwa [Function.update_of_ne hij] at hi

theorem few_filled (hne : pp ≠ p) (hj : j ≤ 65535) (small : n ≤ 2 ^ 20) :
    FewEntries n (filledPte pp p j) := by
  intro q
  have hpp : pageOf n (newPte pp 7) = some pp := pageOf_flags small (by decide) pp
  have hp : pageOf n (newPte p 5) = some p := pageOf_flags small (by decide) p
  refine ⟨if q = pp then Finset.range j else {65535}, ?_, fun i hq => ?_⟩
  · split_ifs
    · rwa [Finset.card_range]
    · simp
  · unfold filledPte at hq
    split_ifs at hq with h₁ h₂
    · obtain rfl := Option.some.inj (hpp.symm.trans hq)
      rw [if_pos rfl]
      exact Finset.mem_range.mpr h₁
    · obtain rfl := Option.some.inj (hp.symm.trans hq)
      rw [if_neg hne.symm, h₂]
      exact Finset.mem_singleton_self _
    · cases pageOf_zero.symm.trans hq

/-- `p` is mapped twice then. -/
theorem few_tablePte (hne : pp ≠ p) (small : n ≤ 2 ^ 20) : FewEntries n (tablePte pp p) := by
  intro q
  have hp : pageOf n (newPte p 5) = some p := pageOf_flags small (by decide) p
  by_cases hq : q = p
  · refine ⟨{65535, 65536}, by simp, fun i hi => ?_⟩
    have hpp : pageOf n (newPte pp 7) = some pp := pageOf_flags small (by decide) pp
    unfold tablePte filledPte at hi
    split_ifs at hi with h₁ h₂ h₃
    · simp [h₁]
    · exact absurd (Option.some.inj (hpp.symm.trans hi)) (hq ▸ hne)
    · simp [h₃]
    · cases pageOf_zero.symm.trans hi
  · obtain ⟨A, hcard, hA⟩ := few_filled hne le_rfl small q
    refine ⟨A, hcard, fun i hi => hA i ?_⟩
    unfold tablePte at hi
    split_ifs at hi
    · exact absurd (Option.some.inj (hi.symm.trans hp)) hq
    · exact hi

/-! ### Steps -/

theorem Filled.fewMappings (h : Filled pp p j g k.mem) (solo : Solo c e g k) (hne : pp ≠ p)
    (hj : j ≤ 65535) : FewMappings k := by
  obtain ⟨free, hmaps, -⟩ := h.maps
  exact solo.fewMappings (fun d t hd => congrArg (pageOf n) (hmaps.pte d t hd))
    (few_filled hne hj h.small)

theorem Filled.notFree (h : Filled pp p j g k.mem) : ¬k.mem.OnFreeList p := by
  obtain ⟨free, hmaps, -, hp, -⟩ := h.maps
  exact fun hc => hp (hmaps.tables.tables.list.onFreeList_iff.mp hc)

/-- The page can be mapped with `PTE_W` from address 0. -/
theorem Filled.mapFirst (h : Filled pp p j g k.mem) (solo : Solo c e g k) (hj : 0 < j)
    (hva : badUserPage va = false) (hins : k.mem.pageInsert g pp va 7 = .ok (0, m)) :
    ∃ k', Step k (sysTrap c 5 0 0 0 va 7) k' ∧ Solo c e g k' ∧ k'.mem = m := by
  obtain ⟨free, hmaps, -⟩ := h.maps
  have hpte : k.mem.pteAt g (pdx 0) (ptx 0) = newPte pp 7 :=
    (hmaps.pte _ _ (by decide)).trans (if_pos hj)
  have hW : newPte pp 7 &&& pteW = pteW := pteAddr_or_and (by decide) ..
  refine solo.pageMap (by decide) hva (by decide) ?_ (fun _ => ?_) hins
  · rw [hpte]
    exact pageOf_flags h.small (by decide) pp
  · rw [hpte, hW]
    decide

/-- Copying the first entry to the next pages. -/
theorem Filled.run (h : Filled pp p 1 g k.mem) (solo : Solo c e g k) (hne : pp ≠ p) (h0 : 0 < j)
    (hj : j ≤ 65535) : ∃ k', Reachable (· = k) (KeepingStep c p) k' ∧ Solo c e g k' ∧
      Filled pp p j g k'.mem := by
  induction j, h0 using Nat.le_induction with
  | base => exact ⟨k, .init rfl, solo, h⟩
  | succ j h0 ih =>
    obtain ⟨k₁, hr, solo₁, h₁⟩ := ih (by omega)
    obtain ⟨m', hins, h'⟩ := h₁.succ h0 (by omega)
    obtain ⟨k', step, solo', rfl⟩ := h₁.mapFirst solo₁ h0 (badUserPage_wrapVa (by omega)) hins
    have hfew := h'.fewMappings solo' hne hj
    exact ⟨k', hr.step ⟨⟨step, rfl, twelveBits_pageMap (by decide), hfew⟩, h'.notFree⟩, solo', h'⟩

/-- Mapping the page where it is mapped already frees it. -/
theorem Filled.freeStep (h : Filled pp p 65535 g k.mem) (solo : Solo c e g k) (hne : pp ≠ p)
    (hdir : pp ≠ g) : ∃ k' free, KeepingStep c p k (sysTrap c 5 0 0 0 0 7) k' ∧ Solo c e g k' ∧
      FreedPage pp p g free k'.mem := by
  obtain ⟨m', free, hins, h'⟩ := h.freed hdir
  obtain ⟨k', step, solo', rfl⟩ := h.mapFirst solo (by omega) (by decide) hins
  have hfew := solo'.fewMappings (fun d t hd => congrArg (pageOf n) (h'.pte d t hd))
    (few_filled hne le_rfl h.small)
  have hfree : ¬k'.mem.OnFreeList p := fun hc =>
    (List.mem_cons.mp (h'.tables.list.onFreeList_iff.mp hc)).elim hne.symm h'.spare
  exact ⟨k', free, ⟨⟨step, rfl, twelveBits_pageMap (by decide), hfew⟩, hfree⟩, solo', h'⟩

/-- Mapping `p` where there is no table makes the freed page one. -/
theorem FreedPage.tableStep {free : List (Fin n)} (h : FreedPage pp p g free k.mem)
    (solo : Solo c e g k) (hne : pp ≠ p) :
    ∃ k', KeepingStep c p k (sysTrap c 5 0 (wrapVa 65535) 0 (wrapVa 65536) 5) k' ∧
      Solo c e g k' ∧ TablePage pp p g free k'.mem := by
  obtain ⟨m', hins, h'⟩ := h.tablePage
  have hp : pageOf n (k.mem.pteAt g (pdx (wrapVa 65535)) (ptx (wrapVa 65535))) = some p := by
    rw [h.pte _ _ (by decide), wrapVa_page (by omega), filledPte, if_neg (by omega), if_pos rfl]
    exact pageOf_flags h.tables.small (by decide) p
  obtain ⟨k', step, solo', rfl⟩ := solo.pageMap (badUserPage_wrapVa (j := 65535) (by omega))
    (badUserPage_wrapVa le_rfl) (by decide) hp (fun hc => absurd (by decide) hc) hins
  have hfew := solo'.fewMappings (fun d t hd => congrArg (pageOf n) (h'.pte d t hd))
    (few_tablePte hne h.tables.small)
  have hfree : ¬k'.mem.OnFreeList p := fun hc => h'.spare (h'.tables.list.onFreeList_iff.mp hc)
  exact ⟨k', ⟨⟨step, rfl, twelveBits_pageMap (by decide), hfew⟩, hfree⟩, solo', h'⟩

/-- User code writes the table. -/
theorem TablePage.storeStep {free : List (Fin n)} (h : TablePage pp p g free k.mem)
    (solo : Solo c e g k) (hne : pp ≠ p) :
    ∃ k', KeepingStep c p k (.access c 0 (some 7)) k' ∧
      pageOf n (k'.spaces e 64 0) = some p ∧ k'.spaces e 64 0 &&& pteW ≠ 0 := by
  obtain ⟨m', hstore, hlist, hpte, hp, hW⟩ := h.store
  obtain ⟨k', step, solo', rfl⟩ := solo.store (by decide) hstore
  have hfew := solo'.fewMappings
    (fun d t hd => (hpte d t hd).trans (congrArg (pageOf n) (h.pte d t hd)))
    (few_tablePte hne h.tables.small)
  have hfree : ¬k'.mem.OnFreeList p := fun hc => h.spare (hlist.onFreeList_iff.mp hc)
  have hsp : k'.spaces e 64 0 = k'.mem.pteAt g 64 0 :=
    (Mem.spaces_of_dir solo'.dir _ _).trans (Mem.pte_eq_pteAt (by decide))
  rw [← hsp] at hp hW
  exact ⟨k', ⟨⟨step, rfl, trivial, hfew⟩, hfree⟩, hp, hW⟩

/-- From the first mapping on, `p` becomes writable by such steps. -/
theorem Filled.writable (h : Filled pp p 1 g k.mem) (solo : Solo c e g k) (hne : pp ≠ p)
    (hdir : pp ≠ g) : ∃ k', Reachable (· = k) (KeepingStep c p) k' ∧
      pageOf n (k'.spaces e 64 0) = some p ∧ k'.spaces e 64 0 &&& pteW ≠ 0 := by
  obtain ⟨k₁, run, solo₁, h₁⟩ := h.run solo hne (by omega) le_rfl
  obtain ⟨k₂, free, step₂, solo₂, h₂⟩ := h₁.freeStep solo₁ hne hdir
  obtain ⟨k₃, step₃, solo₃, h₃⟩ := h₂.tableStep solo₂ hne
  obtain ⟨k₄, step₄, hp, hW⟩ := h₃.storeStep solo₃ hne
  exact ⟨k₄, ((run.step step₂).step step₃).step step₄, hp, hW⟩

/-! ## A machine with enough memory -/

/-- Seventy pages, the first of which holds `kern_pgdir`. -/
def wideMem : Mem 70 where
  pages p :=
    { ppLink := if h : 0 < (p : Nat) ∧ (p : Nat) + 1 < 70 then some ⟨p + 1, h.2⟩ else none
      ppRef := if p = 0 then 1 else 0 }
  pageFreeList := some 1
  frame := fun _ _ => 0
  kernPgdir := 0

/-- One CPU and one environment without any mappings. -/
def wide : Kernel 70 := createEmpty
  ⟨wideMem, envInit fun _ => .zero, .env 0, fun c => ⟨if c = 0 then .boot else .off, none, 0⟩⟩

theorem memInit_wide : MemInit {p : Fin 70 | p ≠ 0} wideMem :=
  memInit_of_clear (by decide)
    ⟨(List.finRange 70).tail, by decide +kernel, by decide +kernel, by decide +kernel⟩
    (by decide +kernel) (by simp [wideMem]) rfl

theorem boot_wide : Boot {p : Fin 70 | p ≠ 0} wide := by
  refine ⟨created_createEmpty (.init memInit_wide (fun _ => rfl) ?_ ?_ ?_) rfl rfl, ?_⟩
  · decide
  · decide
  · decide
  · decide

theorem entry_wide (d : Fin 1024) : wide.mem.entry 1 d =
    if d = pdx uvpt then page2pa (1 : Fin 70) ||| pteP ||| pteU else 0#32 := by
  have hframe : wide.mem.frame 1 = wr32 (fun _ => 0) (pdx uvpt)
    (page2pa (1 : Fin 70) ||| pteP ||| pteU) := rfl
  rw [Mem.entry, hframe]
  split_ifs with hd
  · rw [hd, rd32_wr32_self]
  · rw [rd32_wr32_of_ne _ hd, rd32_zero]

theorem table_wide (d : Fin 1024) : wide.mem.table 1 d = if d = pdx uvpt then some 1 else none := by
  rw [Mem.table, entry_wide]
  split_ifs
  · decide
  · exact pageOf_zero

theorem maps_wide : Maps (fun _ => 0) 1 ((List.finRange 70).drop 2) wide.mem := by
  have hne : ∀ d : Fin 1024, (d : ℕ) < userPdes → d ≠ pdx uvpt := by
    rintro d hd rfl
    exact absurd hd (by decide)
  have hown : ∀ d : Fin 1024, (d : ℕ) < userPdes → wide.mem.table 1 d = none := fun d hd => by
    rw [table_wide, if_neg (hne d hd)]
  refine ⟨.of_clear (by decide) (by decide +kernel) (by decide +kernel) (by decide +kernel)
    (by decide +kernel) (fun d pt ht => ?_) fun d hd => ?_,
    fun d t hd => Mem.pteAt_of_no_table (hown d hd), fun d hd ht => absurd (hown d hd) ht,
    fun d _ hd => hown d hd⟩
  · rw [table_wide] at ht
    split_ifs at ht
    obtain rfl := Option.some.inj ht
    decide +kernel
  · rw [entry_wide, if_neg (hne d hd)]

/-- The machine runs its environment. -/
def wideRunning : Kernel 70 := after wide (.start 0)

theorem step_wideRunning : Step wide (.start 0) wideRunning :=
  step_after (by decide +kernel) (by decide +kernel)

theorem mem_wideRunning : wideRunning.mem = wide.mem :=
  (step_start step_wideRunning).2.2.mem_dirs.1

theorem solo_wideRunning : Solo 0 0 1 wideRunning where
  lock := by decide +kernel
  mode := by decide +kernel
  cur := by decide +kernel
  cr3 := by decide +kernel
  running := by decide +kernel
  dir := by decide +kernel
  others := by decide +kernel

/-- A `sys_page_alloc` for the environment itself. -/
theorem Solo.allocs {f : ℕ → Word} {free : List (Fin n)} (solo : Solo c e g k)
    (h : Maps f g (pp :: free) k.mem) (hj : j < 65536) (hperm : perm.toNat < 4096)
    (hup : lacksUP perm = false) (hnone : pageOf n (f j) = none) (hfree : free ≠ []) :
    ∃ k' free', Step k (sysTrap c 4 0 (wrapVa j) perm 0 0) k' ∧ Solo c e g k' ∧
      Maps (Function.update f j (newPte pp perm)) g free' k'.mem ∧
      free' = (if k.mem.table g (pdx (wrapVa j)) = none then free.tail else free) ∧
      ∀ q, q ∉ free → q ∉ free' ∧
        (k'.mem.pages q).ppRef = (k.mem.pages q).ppRef + (if q = pp then 2 else 0) ∧
        ((∀ d, k.mem.table g d ≠ some q) → ∀ d, k'.mem.table g d ≠ some q) := by
  have hpp : pp ∉ free := (List.nodup_cons.mp h.tables.tables.nodup).1
  obtain ⟨m₁, halloc, h₁, htab₁, href₁⟩ := h.pageAlloc
  obtain ⟨m', free', hins, h', hfree', hrest⟩ := h₁.pageInsert hj hperm hpp hnone fun _ => hfree
  obtain ⟨k', step, solo', rfl⟩ :=
    solo.pageAlloc (badUserPage_wrapVa hj.le) hup halloc hins
  refine ⟨k', free', step, solo', h', by rw [hfree', htab₁], fun q hq => ?_⟩
  obtain ⟨hq', href, hdata⟩ := hrest q hq
  refine ⟨hq', ?_, fun hno => hdata fun d => by rw [htab₁]; exact hno d⟩
  rw [href, href₁]
  split_ifs
  · rw [BitVec.add_assoc]
    rfl
  · simp

/-- The first two calls. -/
theorem exists_filled_one : ∃ k,
    Reachable (fun k => Boot {p : Fin 70 | p ≠ 0} k ∧ FewMappings k) (LimitedStep 0) k ∧
      Solo 0 0 1 k ∧ Filled 2 4 1 1 k.mem := by
  have hmaps : Maps (fun _ => 0) 1 (2 :: (List.finRange 70).drop 3) wideRunning.mem := by
    rw [mem_wideRunning]
    exact maps_wide
  obtain ⟨k₂, free₂, step₂, solo₂, hmaps₂, hfree₂, hrest₂⟩ :=
    solo_wideRunning.allocs (j := 0) hmaps (by decide) (by decide : (7 : Word).toNat < 4096)
      (by decide) pageOf_zero (by decide)
  have htable : wideRunning.mem.table 1 (pdx (wrapVa 0)) = none := by
    rw [mem_wideRunning, table_wide]
    decide
  rw [if_pos htable] at hfree₂
  obtain rfl : free₂ = 4 :: (List.finRange 70).drop 5 := hfree₂
  obtain ⟨k₃, free₃, step₃, solo₃, hmaps₃, hfree₃, hrest₃⟩ :=
    solo₂.allocs (j := 65535) hmaps₂ (by decide) (by decide : (5 : Word).toNat < 4096)
      (by decide) (by rw [Function.update_of_ne (by decide)]; exact pageOf_zero) (by decide)
  have hfill : Function.update (Function.update (fun _ => 0) 0 (newPte (2 : Fin 70) 7)) 65535
      (newPte (4 : Fin 70) 5) = filledPte (2 : Fin 70) 4 1 := by
    funext i
    simp only [Function.update_apply, filledPte]
    split_ifs <;> first | omega | rfl
  obtain ⟨-, href₂, hdata₂⟩ := hrest₂ 2 (by decide)
  obtain ⟨h2, href₃, hdata₃⟩ := hrest₃ 2 (by decide)
  rw [hfill] at hmaps₃
  have hfilled : Filled 2 4 1 1 k₃.mem := by
    refine ⟨⟨free₃, hmaps₃, h2, (hrest₃ 4 (by decide)).1, ?_⟩, ?_, hdata₃ (hdata₂ fun d => ?_)⟩
    · rw [hfree₃]
      split_ifs <;> simp
    · rw [href₃, href₂, mem_wideRunning]
      decide +kernel
    · rw [mem_wideRunning, table_wide]
      split_ifs <;> decide
  have hfew₁ : FewMappings wideRunning :=
    solo_wideRunning.fewMappings (fun d t hd => congrArg (pageOf 70) (hmaps.pte d t hd)) few_zero
  have hfew₂ : FewMappings k₂ :=
    solo₂.fewMappings (fun d t hd => congrArg (pageOf 70) (hmaps₂.pte d t hd))
      (few_update (pageOf_flags (by decide) (by decide) 2)
        (fun i hq => by cases pageOf_zero.symm.trans hq) few_zero)
  have r₀ : Reachable (fun k => Boot {p : Fin 70 | p ≠ 0} k ∧ FewMappings k) (LimitedStep 0) wide :=
    .init ⟨boot_wide, (boot_kInv boot_wide).1.fewMappings⟩
  have r₁ := r₀.step ⟨step_wideRunning, rfl, trivial, hfew₁⟩
  have r₂ := r₁.step ⟨step₂, rfl, twelveBits_pageAlloc (by decide), hfew₂⟩
  exact ⟨k₃, r₂.step ⟨step₃, rfl, twelveBits_pageAlloc (by decide),
    hfilled.fewMappings solo₃ (by decide) (by decide)⟩, solo₃, hfilled⟩

end JosKernel
