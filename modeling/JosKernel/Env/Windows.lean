import JosKernel.Env.Programs

/-!
# The kernel's half of an address space

No step writes a page that the allocator does not have, so the page tables that `mem_init` has
made for the kernel stay as they are, and so does what user code can read above `UTOP`: the
window at `UENVS`, the window at `UPAGES`, and the page tables of the environment itself at
`UVPT`.

The window at `UENVS` is as large as a page table can make it, `envs` takes 60 pages. A page that
the allocator has and that follows close enough is readable for every environment, whoever owns it.
-/
namespace JosKernel

open Lib

variable {n : Nat} {S : Set (Fin n)} {x : Fin n → ℕ} {k k' : Kernel n} {c : Cpu} {cur e : EnvIx}

/-! ## Pages outside of the allocator -/

/-- The pages outside of `S` have not been written. -/
structure SameOutside (S : Set (Fin n)) (m m' : Mem n) : Prop where
  kern : m'.kernPgdir = m.kernPgdir
  frame : ∀ q, q ∉ S → m'.frame q = m.frame q

namespace SameOutside

variable {m m₁ m' : Mem n}

theorem refl (S : Set (Fin n)) (m : Mem n) : SameOutside S m m := ⟨rfl, fun _ _ => rfl⟩

theorem of_eq (h : m' = m) : SameOutside S m m' := h ▸ refl S m

theorem trans (h : SameOutside S m m₁) (h' : SameOutside S m₁ m') : SameOutside S m m' :=
  ⟨h'.kern.trans h.kern, fun q hq => (h'.frame q hq).trans (h.frame q hq)⟩

end SameOutside

namespace KInv

variable {m : Mem n} {g : Fin n}

theorem evolves_outside (inv : KInv S x k) (hev : Evolves k.dirs k.mem m) :
    SameOutside S k.mem m := by
  refine ⟨hev.kern, fun q hq => hev.frame q (fun hc => ?_) fun _ _ hs => ?_⟩
  · exact hq (inv.mem.onFreeList_iff.mp hc).1
  · exact hq (inv.mem.target_mem hs)

theorem freed_outside (inv : KInv S x k) {k₁ : Kernel n} (free : envFree k c e = .ok k₁) :
    SameOutside S k.mem k₁.mem := by
  obtain ⟨g, m₁, m, hg, hpdes, hdec, rfl⟩ := envFree_ok free
  obtain ⟨m₁', m', hpdes', hdec', -, hsh, -⟩ := inv.mem.envFreeMem (e := e) hg
  rw [hpdes] at hpdes'
  cases hpdes'
  rw [hdec] at hdec'
  cases hdec'
  exact ⟨hsh.kern, fun q hq => hsh.frame q fun _ _ hs => hq (inv.mem.target_mem hs)⟩

theorem destroyed_outside (inv : KInv S x k) {r : Option Unit} (d : Destroyed k c e r k') :
    SameOutside S k.mem k'.mem := by
  cases d with
  | mark => exact .of_eq rfl
  | other _ _ free => exact inv.freed_outside free
  | self _ free sched => exact (inv.freed_outside free).trans (.of_eq sched.mem_dirs.1)

theorem envSetupVm_outside (inv : KInv S x k) (vm : envSetupVm k.mem = (some g, m)) :
    SameOutside S k.mem m := by
  refine ⟨?_, fun q hq => ?_⟩
  · rw [← envSetupVm_kernPgdir k.mem, vm]
  cases hl : k.mem.pageFreeList with
  | none => simp [envSetupVm, Mem.pageAlloc, hl] at vm
  | some p =>
    have hS := (inv.mem.onFreeList_iff.mp (inv.mem.onFreeList_head hl)).1
    have hqp : q ≠ p := (ne_of_mem_of_not_mem hS hq).symm
    simp only [envSetupVm, Mem.pageAlloc, hl, Prod.mk.injEq, Option.some.injEq] at vm
    obtain ⟨rfl, rfl⟩ := vm
    simp [Mem.setEntry, Mem.setFrame, Mem.incRef, Mem.setPage, hqp]

theorem called_outside (inv : KInv S x k) {s : Sys} {a : Args} {r : Option Int}
    (ok : MemOk k c cur s a) (h : Called k c cur s a r k') : SameOutside S k.mem k'.mem := by
  cases h with
  | memory op => exact inv.evolves_outside (op.spec inv.mem ok).1
  | cputs _ _ d => exact inv.destroyed_outside d
  | destroy _ d => exact inv.destroyed_outside d
  | yield sched => exact .of_eq sched.mem_dirs.1
  | fork _ vm => exact inv.envSetupVm_outside vm
  | setStatus | setUpcall | enqueue | full => exact .of_eq rfl
  | deliver he hr page _ =>
    obtain ⟨hev, -⟩ := page.spec inv.mem ok he hr
    obtain ⟨m, p, rfl⟩ := page.state
    exact inv.evolves_outside hev
  | refuse he hr page _ =>
    obtain ⟨hev, -⟩ := page.spec inv.mem ok he hr
    obtain ⟨m, p, rfl⟩ := page.state
    exact inv.evolves_outside hev
  | recv _ wake sched =>
    refine (SameOutside.of_eq ?_).trans (.of_eq sched.mem_dirs.1)
    cases wake <;> rfl
  | recvStale _ wake =>
    cases wake
    exact .of_eq rfl

/-- A user trap frame can only be stored where an environment has an exception stack. -/
theorem upcall_dir (inv : KInv S x k) {esp faultVa : Word} {tf : Trapframe}
    (hc : k.curenv c = some cur)
    (store : kstoreWords k.mem (k.cpus c).cr3 (utfAddr esp) (utrapframe faultVa tf) = some m) :
    k.dirs cur = some (k.cpus c).cr3 := by
  have hle := utfAddr_le esp faultVa tf
  rcases inv.cr3 c with h | ⟨e, he, h⟩
  · have hlt : utfAddr esp < utop := by
      rw [BitVec.lt_def]
      simp only [utrapframe, List.length_cons] at hle
      omega
    have hnone := inv.mem.translate_kern hlt false true
    simp [h, utrapframe, kstoreWords, kstoreWord, Mem.storeByte, hnone] at store
  · rw [hc] at he
    cases he
    exact h

theorem upcall_outside (inv : KInv S x k) {esp faultVa : Word} {tf : Trapframe}
    (hc : k.curenv c = some cur)
    (store : kstoreWords k.mem (k.cpus c).cr3 (utfAddr esp) (utrapframe faultVa tf) = some m) :
    SameOutside S k.mem m := by
  have hdir := inv.upcall_dir hc store
  obtain ⟨-, -, hk, hfr⟩ := inv.mem.kstoreWords hdir (utfAddr_le esp faultVa tf) store
  refine ⟨hk, fun q hq => hfr q ?_⟩
  rintro ⟨a, -, -, hpage⟩
  rw [Mem.spaces_of_dir hdir] at hpage
  exact hq (inv.mem.mapped hdir hpage).1

theorem trapped_outside (inv : KInv S x k) {tf : Trapframe} {io : Inputs}
    (hc : k.curenv c = some cur) (ok : StepOk k (.trap c tf io)) (h : Trapped k c cur tf io k') :
    SameOutside S k.mem k'.mem := by
  have sinv := inv.save cur tf
  cases h with
  | zombie _ free sched => exact (inv.freed_outside free).trans (.of_eq sched.mem_dirs.1)
  | destroy _ _ free sched => exact (sinv.freed_outside free).trans (.of_eq sched.mem_dirs.1)
  | upcall _ _ _ _ _ store run => exact (inv.upcall_outside hc store).trans (.of_eq run.mem)
  | nosys _ _ _ ret => exact .of_eq ret.mem_dirs.1
  | call hd hno hs called ret =>
    exact (sinv.called_outside (memOk_saved tf (ok.mem cur _ hc hd hno hs)) called).trans
      (.of_eq ret.mem_dirs.1)
  | leave hd hno hs called =>
    exact sinv.called_outside (memOk_saved tf (ok.mem cur _ hc hd hno hs)) called
  | spurious _ _ ret => exact .of_eq ret.mem_dirs.1
  | timer _ _ sched => exact .of_eq sched.mem_dirs.1

theorem accessed_outside (inv : KInv S x k) {va : Word} {store : Option Byte} (hva : va < utop)
    (hacc : k.mem.userAccess (k.cpus c).cr3 va store = some m) : SameOutside S k.mem m := by
  rcases inv.cr3 c with h | ⟨e, he, hdir⟩
  · have hnone := inv.mem.translate_kern hva true store.isSome
    simp [h, Mem.userAccess, hnone] at hacc
  · obtain ⟨p, hp, -, -, -, hk, hfr⟩ := inv.mem.userAccess hdir hva hacc
    refine ⟨hk, fun q hq => ?_⟩
    have hqp : q ≠ p := (ne_of_mem_of_not_mem (inv.mem.mapped hdir hp).1 hq).symm
    rw [hfr q fun _ _ hs => hq (inv.mem.target_mem hs), if_neg hqp]

/-- No step writes a page that the allocator does not have. -/
theorem step_outside (inv : KInv S x k) {a : Action} (ok : StepOk k a) (h : Step k a k') :
    SameOutside S k.mem k'.mem := by
  cases a with
  | trap c tf io =>
    obtain ⟨-, -, cur, hc, ht⟩ := step_trap h
    exact inv.trapped_outside hc ok ht
  | wake c no =>
    obtain ⟨-, -, hs | hs⟩ := step_wake h
    · exact .of_eq hs.mem_dirs.1
    · exact .of_eq hs.mem_dirs.1
  | start c =>
    obtain ⟨-, -, hs⟩ := step_start h
    exact .of_eq hs.mem_dirs.1
  | access c va store =>
    obtain ⟨-, hva, rfl | ⟨m, hacc, rfl⟩⟩ := step_access h
    · exact .refl S _
    · exact inv.accessed_outside hva hacc

end KInv

/-! ## Reading above `UTOP` -/

/-- A page of physical memory, if the machine has it. -/
def pageAt (n i : Nat) : Option (Fin n) := if h : i < n then some ⟨i, h⟩ else none

/-- The page that user code reads at an address above `UTOP`. -/
def KernelImage.window (img : KernelImage) (m : Mem n) (g : Fin n) (a : Word) : Option (Fin n) :=
  if a.toNat < upages.toNat then
    pageAt n (img.envsPage n + (a.toNat - uenvs.toNat) / 4096)
  else if a.toNat < upages.toNat + (sizeofPageInfo * n + 4095) / 4096 * 4096 then
    pageAt n (img.pagesPage + (a.toNat - upages.toNat) / 4096)
  else if pdx a = pdx uvpt then m.table g (ptx a)
  else none

section
variable {dirs : EnvIx → Option (Fin n)} {m : Mem n} {g pt : Fin n} {a : Word} {img : KernelImage}
  {p : Nat} {perm w : Word}

/-- Without a table there is nothing to read. -/
theorem allows_zero (user write : Bool) : Mem.allows user write 0#32 = false := by
  simp [Mem.allows]

/-- The kernel's half is the same in all directories, apart from the window at `UVPT`. -/
theorem KernelImage.KernelHalf.translate (h : img.KernelHalf m) (inv : MemInv S dirs x ∅ m)
    (he : dirs e = some g) (hd : KernPdes (pdx a)) (user write : Bool) :
    m.translate g a user write =
      if Mem.allows user write (m.pteAt m.kernPgdir (pdx a) (ptx a)) then
        (pageOf n (m.pteAt m.kernPgdir (pdx a) (ptx a))).map fun p => (p, pgoff a)
      else none := by
  have hentry : m.entry g (pdx a) = m.entry m.kernPgdir (pdx a) := by
    rw [inv.dirHigh e g _ he hd.1, highPde, if_neg hd.2]
  have htab : m.table g (pdx a) = m.table m.kernPgdir (pdx a) := by
    rw [Mem.table, hentry, Mem.table]
  cases hpt : m.table m.kernPgdir (pdx a) with
  | some pt =>
    rw [Mem.translate_table (htab.trans hpt) (hentry ▸ h.pde _ pt hd hpt), Mem.pteAt_of_table hpt]
  | none =>
    have hpres : present (m.entry m.kernPgdir (pdx a)) = false := by
      by_contra hc
      have hlt := (inv.kernHigh _ hd.1 hd.2 (by simpa using hc)).1
      rw [Mem.table, pageOf, if_pos (by simpa using hc), dif_pos hlt] at hpt
      cases hpt
    rw [Mem.pteAt_of_no_table hpt, allows_zero, Mem.translate_of_no_table (hentry ▸ hpres)]
    rfl

/-- An entry with an address and two permission bits. -/
theorem and_pteU_of_page (p : Nat) (perm : Word) :
    (BitVec.ofNat 32 (p * 4096) ||| perm ||| pteP) &&& pteU = (perm ||| pteP) &&& pteU := by
  have halign : (BitVec.ofNat 32 (p * 4096)).toNat % 4096 = 0 := by
    rw [BitVec.toNat_ofNat]
    omega
  rw [← pteAddr_of_aligned halign]
  exact pteAddr_or_and (by decide) _ _

theorem allows_of_no_user (h : w &&& pteU = 0) (write : Bool) :
    Mem.allows true write w = false := by
  simp [Mem.allows, h]

/-- An entry that lets user code read the page. -/
theorem user_page (hp : p < 2 ^ 20) :
    Mem.allows true true (BitVec.ofNat 32 (p * 4096) ||| pteU ||| pteP) = false ∧
      Mem.allows true false (BitVec.ofNat 32 (p * 4096) ||| pteU ||| pteP) = true ∧
      pageOf n (BitVec.ofNat 32 (p * 4096) ||| pteU ||| pteP) = pageAt n p := by
  have halign : (BitVec.ofNat 32 (p * 4096)).toNat % 4096 = 0 := by
    rw [BitVec.toNat_ofNat]
    omega
  have hflags : ∀ b : Word, ~~~0xFFF#32 &&& b = 0#32 →
      (BitVec.ofNat 32 (p * 4096) ||| pteU ||| pteP) &&& b = (pteU ||| pteP) &&& b := fun b hb => by
    rw [← pteAddr_of_aligned halign]
    exact pteAddr_or_and hb _ _
  have hpresent : present (BitVec.ofNat 32 (p * 4096) ||| pteU ||| pteP) = true := by simp
  have hpg : pgnum (BitVec.ofNat 32 (p * 4096) ||| pteU ||| pteP) = p := by
    rw [pgnum_or, pgnum_or, pgnum_ofNat hp, show pgnum pteU = 0 from rfl,
      show pgnum pteP = 0 from rfl, Nat.or_zero, Nat.or_zero]
  have hw := hflags pteW (by decide)
  have hu := hflags pteU (by decide)
  have hw0 : (pteU ||| pteP) &&& pteW = 0#32 := by decide
  have hu0 : (pteU ||| pteP) &&& pteU ≠ 0#32 := by decide
  refine ⟨?_, ?_, ?_⟩
  · simp [Mem.allows, hw, hw0]
  · simp [Mem.allows, hpresent, hu, hu0]
  · rw [pageOf, if_pos hpresent, pageAt]
    simp only [hpg]

/-- Behind the two windows nothing is for user code. -/
theorem pte_and_pteU {va : Word} (hlo : 0xef000000 ≤ va.toNat)
    (hhi : 0xef000000 + (sizeofPageInfo * n + 4095) / 4096 * 4096 ≤ va.toNat) :
    img.pte n va &&& pteU = 0 := by
  have hflags : (pteW ||| pteP) &&& pteU = 0#32 := by decide
  have hlay := layout_rest img n va hlo hhi
  split_ifs at hlay
  · rw [pte_of_layout hlay, and_pteU_of_page]
    exact hflags
  · rw [pte_of_layout hlay, and_pteU_of_page]
    exact hflags
  · rw [pte_of_layout_none hlay]
    exact BitVec.zero_and

/-- A user entry is for reading. -/
theorem KernelImage.KernelHalf.translate_user (h : img.KernelHalf m) (inv : MemInv S dirs x ∅ m)
    (he : dirs e = some g) (hd : KernPdes (pdx a)) (hdev : pdx a ≠ mmioPde) (hp : p < 2 ^ 20)
    (hlay : img.layout n (pgaddr (pdx a) (ptx a) 0) = some (p, pteU)) :
    m.translate g a true false = (pageAt n p).map (fun p => (p, pgoff a)) ∧
      m.translate g a true true = none := by
  obtain ⟨hw, hr, hpage⟩ := user_page (n := n) hp
  have hpte := h.map _ (ptx a) hd hdev
  rw [pte_of_layout hlay] at hpte
  rw [h.translate inv he hd, h.translate inv he hd, hpte, hw, hr, hpage]
  exact ⟨rfl, rfl⟩

theorem KernelImage.KernelHalf.translate_none (h : img.KernelHalf m) (inv : MemInv S dirs x ∅ m)
    (he : dirs e = some g) (hd : KernPdes (pdx a))
    (hpte : m.pteAt m.kernPgdir (pdx a) (ptx a) &&& pteU = 0) (write : Bool) :
    m.translate g a true write = none := by
  rw [h.translate inv he hd, allows_of_no_user hpte]
  rfl

theorem uvpt_pde (small : n ≤ 2 ^ 20) (g : Fin n) :
    Mem.allows true false (page2pa g ||| pteP ||| pteU) = true ∧
      Mem.allows true true (page2pa g ||| pteP ||| pteU) = false ∧
      pgnum (page2pa g ||| pteP ||| pteU) = g := by
  obtain ⟨hw, hr, -⟩ := user_page (n := n) (p := g) (g.isLt.trans_le small)
  have hor : page2pa g ||| pteP ||| pteU = BitVec.ofNat 32 (g * 4096) ||| pteU ||| pteP := by
    rw [BitVec.or_assoc, BitVec.or_comm pteP, ← BitVec.or_assoc]
    rfl
  refine ⟨hor ▸ hr, hor ▸ hw, ?_⟩
  rw [pgnum_or, pgnum_or, pgnum_page2pa small, show pgnum pteP = 0 from rfl,
    show pgnum pteU = 0 from rfl, Nat.or_zero, Nat.or_zero]

/-- User code may read all tables. -/
theorem KernelImage.KernelHalf.pde_user (h : img.KernelHalf m) (inv : MemInv S dirs x ∅ m)
    (he : dirs e = some g) (d : Fin 1024) (hp : present (m.entry g d) = true) :
    Mem.allows true false (m.entry g d) = true ∧ pgnum (m.entry g d) < n := by
  by_cases hd : (d : Nat) < userPdes
  · obtain ⟨hlt, huser⟩ := inv.pdeOk e g d he hd hp
    exact ⟨Mem.allows_userPde huser _ _, hlt⟩
  have hhigh := inv.dirHigh e g d he (not_lt.mp hd)
  by_cases hu : d = pdx uvpt
  · obtain ⟨hr, -, hpg⟩ := uvpt_pde inv.small g
    rw [hhigh, highPde, if_pos hu]
    exact ⟨hr, hpg ▸ g.isLt⟩
  · rw [highPde, if_neg hu] at hhigh
    rw [hhigh] at hp ⊢
    have hlt := (inv.kernHigh d (not_lt.mp hd) hu hp).1
    have hpt : m.table m.kernPgdir d = some ⟨_, hlt⟩ := pageOf_eq_some.mpr ⟨hp, rfl⟩
    exact ⟨Mem.allows_userPde (h.pde d _ ⟨not_lt.mp hd, hu⟩ hpt) _ _, hlt⟩

/-- The directory is the table for `UVPT`. -/
theorem KernelImage.KernelHalf.translate_uvpt (h : img.KernelHalf m) (inv : MemInv S dirs x ∅ m)
    (he : dirs e = some g) (ha : pdx a = pdx uvpt) :
    m.translate g a true false = (m.table g (ptx a)).map (fun p => (p, pgoff a)) ∧
      m.translate g a true true = none := by
  obtain ⟨hr, hw, hpg⟩ := uvpt_pde inv.small g
  have hentry : m.entry g (pdx uvpt) = page2pa g ||| pteP ||| pteU := by
    rw [inv.dirHigh e g _ he (by decide), highPde, if_pos rfl]
  have hlt : pgnum (m.entry g (pdx uvpt)) < n := by rw [hentry, hpg]; exact g.isLt
  have hg : (⟨pgnum (m.entry g (pdx uvpt)), hlt⟩ : Fin n) = g := Fin.ext (by rw [← hpg, ← hentry])
  unfold Mem.translate
  dsimp only
  rw [ha, if_pos (hentry ▸ hr), dif_pos hlt, hg, if_neg (c := Mem.allows true true _ = true) (by
    rw [hentry, hw]
    exact Bool.false_ne_true)]
  refine ⟨?_, rfl⟩
  cases hp : present (m.entry g (ptx a)) with
  | false =>
    rw [Mem.table, pageOf_of_not_present hp, if_neg fun hc => by
      rw [Mem.present_of_allows hc] at hp
      cases hp]
    rfl
  | true =>
    obtain ⟨hallow, hlt'⟩ := h.pde_user inv he _ hp
    rw [if_pos hallow, dif_pos hlt', Mem.table, pageOf, if_pos hp, dif_pos hlt']
    rfl

/-- What user code reads above `UTOP`. It can write nothing there. -/
theorem KernelImage.KernelHalf.translate_window (h : img.KernelHalf m)
    (inv : MemInv S dirs x ∅ m) (fits : img.Fits n) (he : dirs e = some g) (ha : utop ≤ a) :
    m.translate g a true false = (img.window m g a).map (fun p => (p, pgoff a)) ∧
      m.translate g a true true = none := by
  have hutop := toNat_utop
  have henvs : uenvs.toNat = 0xeec00000 := rfl
  have hpages : upages.toNat = 0xef000000 := rfl
  have hu : (pdx uvpt : Nat) = 957 := rfl
  have hpde : (mmioPde : Nat) = 958 := rfl
  have hl : sizeofPageInfo * n = 8 * n := rfl
  have hsmall := fits.small
  have hearly := fits.early
  have hbound : img.pagesPage < 1024 ∧ img.envsPage n < 1024 := by
    unfold KernelImage.nextPage KernelImage.envsPage at *
    omega
  have hpage := toNat_page a
  have hpdx : (pdx a : Nat) = a.toNat / 2 ^ 22 := rfl
  rw [BitVec.le_def, hutop] at ha
  have hhigh : userPdes ≤ (pdx a : Nat) := by
    unfold userPdes
    omega
  unfold KernelImage.window
  rw [hpages, henvs]
  by_cases hw : pdx a = pdx uvpt
  · have hval := congrArg Fin.val hw
    rw [if_neg (by omega), if_neg (by omega), if_pos hw]
    exact h.translate_uvpt inv he hw
  have hd : KernPdes (pdx a) := ⟨hhigh, hw⟩
  have hne : (pdx a : Nat) ≠ 957 := fun hc => hw (Fin.ext hc)
  by_cases h₁ : a.toNat < 0xef000000
  · rw [if_pos h₁]
    have hdev : pdx a ≠ mmioPde := fun hc => by
      have := congrArg Fin.val hc
      omega
    have hlay : img.layout n (pgaddr (pdx a) (ptx a) 0) = _ := layout_envs (by omega) (by omega)
    rw [hpage, show (a.toNat / 4096 * 4096 - 0xeec00000) / 4096 = (a.toNat - 0xeec00000) / 4096 by
      omega] at hlay
    exact h.translate_user inv he hd hdev (by omega) hlay
  rw [if_neg h₁]
  by_cases h₂ : a.toNat < 0xef000000 + (sizeofPageInfo * n + 4095) / 4096 * 4096
  · rw [if_pos h₂]
    have hdev : pdx a ≠ mmioPde := fun hc => by
      have := congrArg Fin.val hc
      omega
    have hlay : img.layout n (pgaddr (pdx a) (ptx a) 0) = _ := layout_pages (by omega) (by omega)
    rw [hpage, show (a.toNat / 4096 * 4096 - 0xef000000) / 4096 = (a.toNat - 0xef000000) / 4096 by
      omega] at hlay
    exact h.translate_user inv he hd hdev (by omega) hlay
  rw [if_neg h₂, if_neg hw]
  have hpte : m.pteAt m.kernPgdir (pdx a) (ptx a) &&& pteU = 0 := by
    by_cases hdev : pdx a = mmioPde
    · rw [hdev]
      exact h.device (ptx a)
    · rw [h.map _ _ hd hdev]
      exact pte_and_pteU (by omega) (by omega)
  exact ⟨h.translate_none inv he hd hpte false, h.translate_none inv he hd hpte true⟩

theorem pageAt_eq_some {q : Fin n} : pageAt n p = some q ↔ p = q := by
  unfold pageAt
  split_ifs with h
  · simp [Fin.ext_iff]
  · simp only [false_iff]
    rintro rfl
    exact h q.isLt

end

/-! ## Runs -/

section
variable {img : KernelImage} {mp : MpInfo} {code : List Byte} {progs : List Program}
  {g g' : Fin n} {e' : EnvIx} {a : Word} {d t : Fin 1024} {p : Fin n}

/-- The runs of the machine from the end of `i386_init` on. -/
def KernelImage.Runs (img : KernelImage) (mp : MpInfo) (code : List Byte) (progs : List Program)
    (k : Kernel n) : Prop :=
  Reachable (img.Booted mp code progs) (fun k a k' => StepOk k a ∧ Step k a k') k

/-- The invariant, with the pages that were free after `mem_init`, and the kernel's half. -/
structure KernelImage.Kept (img : KernelImage) (k : Kernel n) : Prop where
  inv : ∃ x, KInv (img.freePages k.mem) x k
  half : img.KernelHalf k.mem

theorem KernelImage.Kept.step {a : Action} (h : img.Kept k) (ok : StepOk k a) (hs : Step k a k') :
    img.Kept k' := by
  obtain ⟨x, inv⟩ := h.inv
  have hout := inv.step_outside ok hs
  obtain ⟨hhalf, hpages⟩ := h.half.congr hout.kern inv.mem.kern hout.frame
  refine ⟨?_, hhalf⟩
  rw [hpages]
  exact (inv.step ok hs).1.kInv

/-- The kernel's half is never written. -/
theorem KernelImage.Runs.kept (h : img.Runs mp code progs k) : img.Kept k :=
  Reachable.invariant h (fun _ hb => ⟨⟨0, (boot_kInv hb.boot).1⟩, hb.half⟩)
    fun _ _ _ hk hs => hk.step hs.1 hs.2

/-- In every run, what an environment reads above `UTOP` are the two windows and its own page
tables, and it writes nothing. -/
theorem translate_above_utop (fits : img.Fits n) (run : img.Runs mp code progs k)
    (he : k.dirs e = some g) (ha : utop ≤ a) :
    k.mem.translate g a true false = (img.window k.mem g a).map (fun p => (p, pgoff a)) ∧
      k.mem.translate g a true true = none := by
  obtain ⟨⟨x, inv⟩, hhalf⟩ := run.kept
  exact hhalf.translate_window inv.mem fits he ha

/-- A page table that is not the environment's own page. -/
theorem not_table_of_mapped (inv : MemInv (img.freePages k.mem) k.dirs x ∅ k.mem)
    (hp : pageOf n (k.spaces e d t) = some p) (he' : k.dirs e' = some g') (i : Fin 1024) :
    k.mem.table g' i ≠ some p := by
  obtain ⟨hS, -, hns⟩ := inv.of_mapped ⟨e, d, t, hp⟩
  intro hc
  by_cases hi : (i : Nat) < userPdes
  · exact hns (.pde e' i) trivial ((Mem.target_pde he').trans ((Mem.ptab_eq hi).trans hc))
  by_cases hu : i = pdx uvpt
  · rw [Mem.table, inv.dirHigh e' g' i he' (not_lt.mp hi), highPde, if_pos hu] at hc
    have hself : g' = p := by
      obtain ⟨-, hpg⟩ := pageOf_eq_some.mp hc
      exact Fin.ext ((uvpt_pde inv.small g').2.2.symm.trans hpg)
    exact hns (.dir e') trivial (he'.trans (congrArg some hself))
  · rw [Mem.table, inv.dirHigh e' g' i he' (not_lt.mp hi), highPde, if_neg hu] at hc
    exact hS.2 i ⟨not_lt.mp hi, hu⟩ hc

/-- A page that one environment maps and another does not is readable for the other exactly if it
follows `envs` in memory closely enough. -/
theorem readable_iff_envsPage (fits : img.Fits n) (run : img.Runs mp code progs k)
    (hp : pageOf n (k.spaces e d t) = some p) (he' : k.dirs e' = some g')
    (hnot : ∀ d t, pageOf n (k.spaces e' d t) ≠ some p) :
    (∃ a : Word, a < ulim ∧ ∃ o, k.mem.translate g' a true false = some (p, o)) ↔
      img.envsPage n ≤ (p : Nat) ∧ (p : Nat) < img.envsPage n + 1024 := by
  obtain ⟨⟨x, inv⟩, hhalf⟩ := run.kept
  have hutop := toNat_utop
  have henvs : uenvs.toNat = 0xeec00000 := rfl
  have hpages : upages.toNat = 0xef000000 := rfl
  have hulim : ulim.toNat = 0xef800000 := rfl
  have hl : sizeofPageInfo * n = 8 * n := rfl
  have henvsPage : img.envsPage n = img.pagesPage + (sizeofPageInfo * n + 4095) / 4096 := rfl
  have hfirst : img.pagesPage = img.kernPage + 1 := rfl
  have hnext : img.nextPage n = img.envsPage n + 60 := rfl
  obtain ⟨hkern, -, -⟩ := fits.kernPage
  constructor
  · rintro ⟨a, -, o, htr⟩
    by_cases hlow : a < utop
    · -- below `UTOP` the page would be mapped
      exfalso
      rw [inv.mem.translate_eq he' hlow] at htr
      split_ifs at htr
      obtain ⟨q, hq, hqo⟩ := Option.map_eq_some_iff.mp htr
      cases hqo
      refine hnot (pdx a) (ptx a) ?_
      rw [Kernel.spaces, Mem.spaces_of_dir he']
      exact hq
    have ha : utop ≤ a := BitVec.not_lt.mp hlow
    rw [(hhalf.translate_window inv.mem fits he' ha).1] at htr
    obtain ⟨q, hq, hqo⟩ := Option.map_eq_some_iff.mp htr
    cases hqo
    rw [BitVec.le_def, hutop] at ha
    unfold KernelImage.window at hq
    split_ifs at hq with h₁ h₂ h₃
    · have hval := pageAt_eq_some.mp hq
      rw [henvs] at hval
      rw [hpages] at h₁
      omega
    · -- the array `pages` itself
      exfalso
      have hval := pageAt_eq_some.mp hq
      rw [hpages] at hval h₂
      have hres : Reserved (img.nextPage n) p := by
        refine .inr (.inr ⟨?_, ?_⟩)
        · unfold ioPage
          omega
        · omega
      exact (inv.mem.of_mapped ⟨e, d, t, hp⟩).1.1 hres
    · exact absurd hq (not_table_of_mapped inv.mem hp he' (ptx a))
  · rintro ⟨hlo, hhi⟩
    have hva : (uenvs + BitVec.ofNat 32 ((p - img.envsPage n) * 4096)).toNat =
        0xeec00000 + (p - img.envsPage n) * 4096 := by
      rw [BitVec.toNat_add, BitVec.toNat_ofNat, henvs]
      omega
    refine ⟨uenvs + BitVec.ofNat 32 ((p - img.envsPage n) * 4096), ?_,
      pgoff (uenvs + BitVec.ofNat 32 ((p - img.envsPage n) * 4096)), ?_⟩
    · rw [BitVec.lt_def, hva, hulim]
      omega
    · rw [(hhalf.translate_window inv.mem fits he' (BitVec.le_def.mpr (by omega))).1]
      have hwin : img.window k.mem g' (uenvs + BitVec.ofNat 32 ((p - img.envsPage n) * 4096)) =
          some p := by
        rw [KernelImage.window, hva, if_pos (by omega)]
        exact pageAt_eq_some.mpr (by rw [henvs]; omega)
      rw [hwin]
      rfl

/-- A small machine with two environments. -/
theorem booted_tiny : ∃ k : Kernel (i386DetectMemory 640 3072).1,
    smallImage.Booted ⟨1, 0, 0⟩ [] [tinyProgram, tinyProgram] k := by
  obtain ⟨m, hready, hcode, -⟩ :=
    i386Init_eq fits_smallImage ⟨1, 0, 0⟩ (by decide) (by decide) [] [] (fun _ => .zero) loadedMem
      none none
  have hlinked : ∀ prog ∈ [tinyProgram, tinyProgram], smallImage.Linked loadedMem prog := by
    simpa using linked_tinyProgram
  obtain ⟨k, -, hk⟩ := hready.envCreates fits_smallImage ⟨1, 0, 0⟩ hcode hlinked (by decide) (by
    rw [List.map_cons, List.map_cons, List.map_nil, cost_tinyProgram]
    decide)
  exact ⟨k, hk⟩

theorem translate_above_utop_tiny : ∃ (k : Kernel (i386DetectMemory 640 3072).1) (g : Fin _),
    k.dirs 0 = some g ∧
      k.mem.translate g uenvs true false =
        (smallImage.window k.mem g uenvs).map (fun p => (p, pgoff uenvs)) ∧
      k.mem.translate g uenvs true true = none := by
  obtain ⟨k, hk⟩ := booted_tiny
  obtain ⟨g, hg, -⟩ := (hk.loaded 0 tinyProgram rfl).image
  exact ⟨k, g, hg, translate_above_utop fits_smallImage (.init hk) hg (by decide)⟩

theorem readable_iff_envsPage_tiny : ∃ (k : Kernel (i386DetectMemory 640 3072).1) (g p : Fin _),
    k.dirs 1 = some g ∧
      pageOf _ (k.spaces 0 (pdx (ustacktop - pgsize)) (ptx (ustacktop - pgsize))) = some p ∧
      ((∃ a : Word, a < ulim ∧ ∃ o, k.mem.translate g a true false = some (p, o)) ↔
        smallImage.envsPage (i386DetectMemory 640 3072).1 ≤ (p : Nat) ∧
          (p : Nat) < smallImage.envsPage (i386DetectMemory 640 3072).1 + 1024) := by
  obtain ⟨k, hk⟩ := booted_tiny
  obtain ⟨g₀, hg₀, himage⟩ := (hk.loaded 0 tinyProgram rfl).image
  obtain ⟨g, hg, -⟩ := (hk.loaded 1 tinyProgram rfl).image
  obtain ⟨p, hpte⟩ := himage.mapped _ _ (.inr ⟨rfl, rfl⟩)
  have hp : pageOf _ (k.spaces 0 (pdx (ustacktop - pgsize)) (ptx (ustacktop - pgsize))) =
      some p := by
    rw [hpte]
    exact (boot_kInv hk.boot).1.mem.pageOf_newPte (by decide) p
  exact ⟨k, g, p, hg, hp, readable_iff_envsPage fits_smallImage (.init hk) hp hg
    fun d t => hk.alone 0 1 (by decide) _ _ d t p hp⟩

end

end JosKernel
