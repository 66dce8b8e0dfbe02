import JosKernel.Env.Init

/-!
# The first environments

`env_create` is called for one program after the other. `CreatedFor S m₁ files k` is the state after
the calls for `files`: environment `i` has the image of the `i`-th file, no two environments share
a page, and the pages outside of `S`, which the allocator does not have, are as they were.
-/
namespace JosKernel

open Lib

variable {n : Nat}

/-! ## Loading leaves other environments alone -/

section
variable {S : Set (Fin n)} {dirs : EnvIx → Option (Fin n)} {m₀ m m₁ m₂ m' : Mem n} {e : EnvIx}
  {g pp : Fin n} {va : Word}

/-- Nothing has changed for the environments other than `e`, and `e` has none of their pages. -/
structure OthersKept (S : Set (Fin n)) (dirs : EnvIx → Option (Fin n)) (e : EnvIx) (m₀ m : Mem n) :
    Prop where
  inv : MemInv S dirs 0 ∅ m
  spaces : ∀ i, i ≠ e → m.spaces dirs i = m₀.spaces dirs i
  pages : ∀ i, i ≠ e → ∀ d t (p : Fin n), pageOf n (m₀.spaces dirs i d t) = some p →
    m.frame p = m₀.frame p ∧ ∀ d' t', pageOf n (m.spaces dirs e d' t') ≠ some p

/-- A free page is mapped. -/
theorem OthersKept.map (h : OthersKept S dirs e m₀ m) (he : dirs e = some g) (hva : va < utop)
    (hl : m.pageFreeList = some pp) {r : Int} (halloc : m.pageAlloc false = (some pp, m₁))
    (hins : m₁.pageInsert g pp va (pteW ||| pteU) = .ok (r, m₂)) :
    m₂.pageFreeList = none ∨ OthersKept S dirs e m₀ m₂ := by
  obtain ⟨m₁', halloc', inv₁, hframe, -, href, -⟩ := h.inv.pageAlloc_some false hl
  rw [halloc] at halloc'
  cases halloc'
  have hfree := h.inv.onFreeList_head hl
  have hfresh := h.inv.fresh_of_free hfree
  have hS := (h.inv.onFreeList_iff.mp hfree).1
  have hfr : m₁.frame = m.frame := by
    funext q
    by_cases hq : q = pp
    · rw [Mem.pageAlloc, hl] at halloc
      cases halloc
      rfl
    · exact hframe q hq
  have htar : m₁.target dirs = m.target dirs := Mem.target_congr fun _ p _ _ => by rw [hfr]
  have hsp₁ : m₁.spaces dirs = m.spaces dirs := Mem.spaces_congr hfr
  have hnf : ¬m₁.OnFreeList pp := fun hc =>
    (inv₁.onFreeList_iff.mp hc).2.2 (Set.mem_insert ..)
  have hw : pageOf n (newPte pp (pteW ||| pteU)) = some pp :=
    h.inv.pageOf_newPte (by decide) pp
  rcases inv₁.pageInsert he hva hS hnf (fun s _ => htar ▸ hfresh s)
      (.inl (by rw [href, h.inv.ref_of_free hfree]; decide)) hw with
    ⟨-, hl₁, hok⟩ | ⟨m₂', hok, inv₂, hsp₂, hev⟩
  · rw [hok] at hins
    cases hins
    exact .inl hl₁
  · rw [hok] at hins
    cases hins
    rw [Set.insert_sdiff_of_mem _ (Set.mem_singleton pp), Set.empty_sdiff] at inv₂
    refine .inr ⟨inv₂, fun i hi => ?_, fun i hi d t p hp => ?_⟩
    · rw [hsp₂, hsp₁, ← h.spaces i hi]
      funext d t
      rw [setSpace, if_neg fun hc => hi hc.1]
    · obtain ⟨hsame, hnot⟩ := h.pages i hi d t p hp
      rw [← h.spaces i hi] at hp
      obtain ⟨g', hg'⟩ := Option.ne_none_iff_exists'.mp fun hc : dirs i = none => by
        simp [Mem.spaces, hc] at hp
      have hne : p ≠ pp := by
        rintro rfl
        rw [Mem.spaces_of_dir hg'] at hp
        exact (h.inv.mapped hg' hp).2.1 hfree
      rw [← hsp₁, Mem.spaces_of_dir hg'] at hp
      have hnf' : ¬m₁.OnFreeList p :=
        inv₁.not_onFreeList (s := .pte i d t) ((Mem.target_pte hg').trans hp)
      refine ⟨?_, fun d' t' hc => ?_⟩
      · rw [hev.frame p hnf' (inv₁.notStruct_of_pte hg' hp), hfr, hsame]
      rw [hsp₂, hsp₁, setSpace] at hc
      split_ifs at hc
      · exact hne (Option.some.inj (hc.symm.trans hw))
      · exact hnot d' t' hc

theorem OthersKept.regionAllocLoop {vas : List Word} (h : OthersKept S dirs e m₀ m)
    (he : dirs e = some g) (hvas : ∀ va ∈ vas, va < utop)
    (hok : JosKernel.regionAllocLoop m g vas = .ok m') :
    m'.pageFreeList = none ∨ OthersKept S dirs e m₀ m' := by
  induction vas generalizing m with
  | nil =>
    cases hok
    exact .inr h
  | cons va vas ih =>
    cases hl : m.pageFreeList with
    | none =>
      rw [regionAllocLoop_empty hl hok]
      exact .inl hl
    | some pp =>
      obtain ⟨m₁, halloc, -⟩ := h.inv.pageAlloc_some false hl
      simp only [JosKernel.regionAllocLoop, halloc, bind_ok] at hok
      obtain ⟨⟨r, m₂⟩, hins, hok⟩ := hok
      rcases h.map he (hvas va List.mem_cons_self) hl halloc hins with hnone | h₂
      · rw [regionAllocLoop_empty hnone hok]
        exact .inl hnone
      · exact ih h₂ (fun va' hva' => hvas va' (List.mem_cons_of_mem _ hva')) hok

/-- As long as there is memory, loading keeps to the pages of one environment. -/
theorem OthersKept.load (h : OthersKept S dirs e m₀ m) (he : dirs e = some g) (hl : Load g m m') :
    m'.pageFreeList = none ∨ OthersKept S dirs e m₀ m' := by
  induction hl with
  | done => exact .inr h
  | region _ user ok ih =>
    rcases ih with hnone | h'
    · rw [regionAllocLoop_empty hnone ok]
      exact .inl hnone
    · exact h'.regionAllocLoop he (fun _ => lt_utop_of_mem_pageRange user) ok
  | store _ user ok ih =>
    rcases ih with hnone | h'
    · obtain ⟨⟨p, o⟩, -, rfl⟩ := Option.map_eq_some_iff.mp ok
      exact .inl hnone
    · obtain ⟨inv', hsp, -, hfr⟩ := h'.inv.storeByte he user ok
      refine .inr ⟨inv', fun i hi => by rw [hsp, h'.spaces i hi], fun i hi d t p hp => ?_⟩
      obtain ⟨hsame, hnot⟩ := h'.pages i hi d t p hp
      rw [hsp]
      refine ⟨(hfr p fun hc => ?_).trans hsame, hnot⟩
      exact hnot _ _ ((congrArg (pageOf n) (by rw [Mem.spaces_of_dir he])).trans hc)

end

/-! ## Images -/

section
variable {S : Set (Fin n)} {dirs dirs' : EnvIx → Option (Fin n)} {m m' : Mem n} {i : EnvIx}
  {g : Fin n} {va : Word} {file : ℕ → Byte} {len : ℕ}

/-- User code reads the same if it has the same pages and these are as they were. -/
theorem MemInv.loadByte_congr (inv : MemInv S dirs 0 ∅ m) (inv' : MemInv S dirs' 0 ∅ m')
    (hi : dirs i = some g) (hi' : dirs' i = some g) (hsp : m'.spaces dirs' i = m.spaces dirs i)
    (hfr : ∀ d t p, pageOf n (m.spaces dirs i d t) = some p → m'.frame p = m.frame p)
    (hva : va < utop) : m'.loadByte g va true = m.loadByte g va true := by
  have hpte : m'.pte g (pdx va) (ptx va) = m.pte g (pdx va) (ptx va) := by
    rw [← Mem.spaces_of_dir hi', hsp, Mem.spaces_of_dir hi]
  rw [Mem.loadByte, Mem.loadByte, inv.translate_eq hi hva, inv'.translate_eq hi' hva, hpte]
  split_ifs
  · cases hp : pageOf n (m.pte g (pdx va) (ptx va)) with
    | none => rfl
    | some p =>
      simp only [Option.map_some]
      rw [hfr _ _ p ((congrArg (pageOf n) (Mem.spaces_of_dir hi ..)).trans hp)]
  · rfl

/-- An image stays as long as its pages do. -/
theorem Image.congr (layout : Layout file len) (sizes : ∀ ph ∈ headers file, ph.pFilesz ≤ ph.pMemsz)
    (inv : MemInv S dirs 0 ∅ m) (inv' : MemInv S dirs' 0 ∅ m') (hi : dirs i = some g)
    (hi' : dirs' i = some g) (hsp : m'.spaces dirs' i = m.spaces dirs i)
    (hfr : ∀ d t p, pageOf n (m.spaces dirs i d t) = some p → m'.frame p = m.frame p)
    (h : Image file m g (m.spaces dirs i)) : Image file m' g (m'.spaces dirs' i) := by
  refine ⟨fun ph hph => ?_, by rw [hsp]; exact h.mapped, by rw [hsp]; exact h.others⟩
  have hle : ph.pFilesz.toNat ≤ ph.pMemsz.toNat := sizes ph (List.mem_filter.mp hph).1
  have hbyte : ∀ k < ph.pMemsz.toNat, m'.loadByte g (ph.pVa + BitVec.ofNat 32 k) true =
      m.loadByte g (ph.pVa + BitVec.ofNat 32 k) true := fun k hk =>
    inv.loadByte_congr inv' hi hi' hsp hfr ((layout.ok ph hph).lt_utop hk)
  exact ⟨fun k hk => (hbyte k (by omega)).trans ((h.loaded ph hph).copied k hk),
    fun k hk hge => (hbyte k hk).trans ((h.loaded ph hph).cleared k hk hge)⟩

end

/-! ## One program -/

/-- What `load_icode` does to memory. -/
theorem loadIcode_mem {S : Set (Fin n)} {k k' : Kernel n} {c : Cpu} {e : EnvIx} {g : Fin n}
    {binary : Word} {file : ℕ → Byte} {len : ℕ} (inv : MemInv S k.dirs 0 ∅ k.mem)
    (he : k.dirs e = some g) (hcr3 : (k.cpus c).cr3 = k.mem.kernPgdir)
    (bin : KernelFile S k.mem binary file len) (layout : Layout file len)
    (hok : loadIcode k c e binary = .ok k') :
    ∃ m, loadSegments k.mem g binary ((offsets file).map fun o => binary + BitVec.ofNat 32 o) =
        .ok m ∧ regionAlloc m g (ustacktop - pgsize) pgsize = .ok k'.mem := by
  have htable := layout.table
  have hheader := layout.header
  have hmagic : readWord k.mem (k.cpus c).cr3 binary = .ok elfMagic := by
    have hread := bin.readWord inv (.inl hcr3) (i := 0) (by omega)
    rwa [BitVec.add_zero, layout.magic] at hread
  have hphoff : readWord k.mem (k.cpus c).cr3 (binary + 28) = .ok (ePhoff file) :=
    bin.readWord inv (.inl hcr3) (i := 28) (by omega)
  have hphnum : readHalf k.mem (k.cpus c).cr3 (binary + 44) = .ok (ePhnum file) :=
    bin.readHalf inv (.inl hcr3) (i := 44) (by omega)
  have hpgdir : (k.envs e).envPgdir = some g := he
  simp only [loadIcode, hmagic, hphoff, hphnum, hpgdir, bind, Except.bind, ne_eq,
    not_true_eq_false, if_false, Kernel.modCpu_mem] at hok
  rw [proghdrs_eq layout bin.top] at hok
  split at hok
  · cases hok
  rename_i m hseg
  split at hok
  · cases hok
  split at hok
  · cases hok
  rename_i m' hreg
  cases hok
  exact ⟨m, hseg, hreg⟩

/-- The slot with the number, or the end of the array. -/
def slotPtr (i : ℕ) : EnvPtr := if h : i < 1024 then .env ⟨i, h⟩ else .pastEnd

/-- A program and its address in the kernel. Its headers are those that `load_icode` accepts. -/
structure Program where
  binary : Word
  file : ℕ → Byte
  len : ℕ
  layout : Layout file len
  sizes : ∀ ph ∈ headers file, ph.pFilesz ≤ ph.pMemsz

/-- The pages that an environment for the program takes: its own, their tables, the directory. -/
def Program.cost (prog : Program) : ℕ :=
  1 + ((filePages prog.file).length + ((filePages prog.file).map pdx).toFinset.card)

/-- Environment `e` is about to run the program. -/
structure Loaded (k : Kernel n) (e : EnvIx) (prog : Program) : Prop where
  image : ∃ g, k.dirs e = some g ∧ Image prog.file k.mem g (k.spaces e)
  entry : (k.envs e).envTf.tfEip = eEntry prog.file
  status : k.status e = .runnable

/-- Environments have been created for the programs, and nothing else has been changed. -/
structure CreatedFor (S : Set (Fin n)) (m₁ : Mem n) (progs : List Program) (k : Kernel n) :
    Prop where
  created : Created S k
  mem : MemInv S k.dirs 0 ∅ k.mem
  kern : k.mem.kernPgdir = m₁.kernPgdir
  outside : ∀ q, q ∉ S → k.mem.frame q = m₁.frame q
  head : k.envFreeList = slotPtr progs.length
  rest : ∀ i : EnvIx, progs.length ≤ (i : Nat) →
    (k.envs i).envLink = slotPtr (i + 1) ∧ k.dirs i = none
  loaded : ∀ (i : EnvIx) prog, progs[(i : Nat)]? = some prog → Loaded k i prog
  alone : ∀ i j, i ≠ j → ∀ d t d' t' (p : Fin n), pageOf n (k.spaces i d t) = some p →
    pageOf n (k.spaces j d' t') ≠ some p

/-- `env_setup_vm` takes the first free page. -/
theorem MemInv.envSetupVm_cons {S : Set (Fin n)} {dirs : EnvIx → Option (Fin n)} {m : Mem n}
    {e : EnvIx} {g : Fin n} {free : List (Fin n)} (inv : MemInv S dirs 0 ∅ m) (he : dirs e = none)
    (hfree : m.FreeList (g :: free)) :
    ∃ m', JosKernel.envSetupVm m = (some g, m') ∧
      MemInv S (Function.update dirs e (some g)) 0 ∅ m' ∧
      m'.spaces (Function.update dirs e (some g)) = m.spaces dirs ∧
      (∀ q, q ≠ g → m'.frame q = m.frame q) ∧ m'.kernPgdir = m.kernPgdir ∧ m'.FreeList free := by
  have hl : m.pageFreeList = some g := hfree.1
  have hnd := (List.nodup_cons.mp (ListSeg.nodup (Option.some_injective _) (by simp) hfree)).1
  have hS := (inv.onFreeList_iff.mp (inv.onFreeList_head hl)).1
  obtain ⟨m', hvm, inv', hsp, hframe, hk⟩ := inv.envSetupVm he hl
  obtain ⟨m'', hvm', -, hhead, hlink⟩ := envSetupVm_spec hl (inv.ne_kern hS)
  cases hvm.symm.trans hvm'
  refine ⟨m', hvm, inv', hsp, hframe, hk, ?_⟩
  rw [Mem.FreeList, hhead]
  exact hfree.2.congr fun q hq => hlink q (ne_of_mem_of_not_mem hq hnd)

section
variable {S : Set (Fin n)} {m₁ m m' : Mem n} {progs : List Program} {prog : Program}
  {k k' : Kernel n} {c : Cpu} {e i : EnvIx} {g : Fin n} {free : List (Fin n)} {R : ℕ}

theorem dirs_allocated (k : Kernel n) (e : EnvIx) (g : Fin n) (m : Mem n) (w : Word) :
    (allocated k e g m w).dirs = Function.update k.dirs e (some g) := by
  funext i
  by_cases hi : i = e
  · subst hi
    simp [allocated, Kernel.dirs]
  · simp [allocated, Kernel.dirs, hi]

/-- The pages that loading takes, with `R` to spare. -/
theorem need_replicate (m : Mem n) (g : Fin n) (file : ℕ → Byte) (R : ℕ) :
    m.need g (filePages file ++ List.replicate R (ustacktop - pgsize)) ≤
      (filePages file).length + ((filePages file).map pdx).toFinset.card + R := by
  have hset : ((filePages file ++ List.replicate R (ustacktop - pgsize)).map pdx).toFinset =
      ((filePages file).map pdx).toFinset := by
    ext d
    simp only [List.mem_toFinset, List.mem_map, List.mem_append, List.mem_replicate]
    constructor
    · rintro ⟨a, ha | ⟨-, rfl⟩, rfl⟩
      · exact ⟨a, ha, rfl⟩
      · exact ⟨_, List.mem_append_right _ (List.mem_singleton.mpr rfl), rfl⟩
    · rintro ⟨a, ha, rfl⟩
      exact ⟨a, .inl ha, rfl⟩
  have hcard := Finset.card_le_card (Finset.filter_subset (fun d => m.ptab g d = none)
    ((filePages file).map pdx).toFinset)
  rw [Mem.need, hset, List.length_append, List.length_replicate]
  omega

/-- The stack page lies behind all segments. -/
theorem Proghdr.Ok.not_touches_stack {ph : Proghdr} {len : ℕ} (ok : ph.Ok len) :
    ¬ph.Touches (pdx (ustacktop - pgsize)) (ptx (ustacktop - pgsize)) := by
  rintro ⟨k, hk, hdt⟩
  have hle := ok.le
  rw [indices_iff, ok.toNat_add hk] at hdt
  have hpdx : (pdx (ustacktop - pgsize) : ℕ) = 954 := rfl
  have hptx : (ptx (ustacktop - pgsize) : ℕ) = 1021 := rfl
  omega

/-- `load_icode` in a new environment. -/
theorem Program.load (prog : Program) (inv : MemInv S k.dirs 0 ∅ k.mem)
    (he : k.dirs e = some g) (hempty : ∀ d t, present (k.spaces e d t) = false)
    (hcr3 : (k.cpus c).cr3 = k.mem.kernPgdir)
    (bin : KernelFile S k.mem prog.binary prog.file prog.len) (hfree : k.mem.FreeList free)
    (room : (filePages prog.file).length + ((filePages prog.file).map pdx).toFinset.card + R ≤
      free.length) (hR : 0 < R) :
    ∃ m free',
      loadIcode k c e prog.binary = .ok (entered { k with mem := m } e (eEntry prog.file)) ∧
      Load g k.mem m ∧ Image prog.file m g (m.spaces k.dirs e) ∧ OthersKept S k.dirs e k.mem m ∧
      m.kernPgdir = k.mem.kernPgdir ∧ (∀ q, q ∉ S → m.frame q = k.mem.frame q) ∧
      m.FreeList free' ∧ R ≤ free'.length := by
  have layout := prog.layout
  obtain ⟨m, hok, hload, himage⟩ := (loadIcode_spec inv he hempty hcr3 bin layout hfree
    (need_filePages (Nat.le_of_add_right_le room))).1 prog.sizes
  obtain ⟨m₂, hseg, hreg⟩ := loadIcode_mem inv he hcr3 bin layout hok
  -- the same calls, with the pages counted that are left
  have b : Built S k.dirs e g prog.file [] k.mem k.mem := by
    refine ⟨inv, rfl, fun _ _ => rfl, .done, fun d t d' t' p hp => ?_, by simp,
      fun d t _ => hempty d t, by simp, by simp⟩
    cases (pageOf_of_not_present (hempty d t)).symm.trans hp
  have hos : ∀ o ∈ offsets prog.file, o + 24 ≤ prog.len := fun o ho => by
    obtain ⟨i, hi, rfl⟩ := List.mem_map.mp ho
    have := List.mem_range.mp hi
    have := layout.table
    omega
  have hneed := (need_replicate k.mem g prog.file R).trans room
  rw [filePages, List.append_assoc] at hneed
  obtain ⟨m₂', free₂, hseg', b₂, hfree₂, room₂⟩ := (b.loop he bin hos layout.ok (by simp)
    layout.apart (by simp) hfree hneed).1 (List.forall_mem_map.mp prog.sizes)
  cases hseg.symm.trans hseg'
  rw [List.append_nil] at b₂
  have hu : ustacktop - pgsize < utop := by decide
  have hvas : Mem.pageRange (roundDown (ustacktop - pgsize) pgsize)
      (roundUp (ustacktop - pgsize + pgsize) pgsize) = [ustacktop - pgsize] := by decide
  obtain ⟨m', free', hreg', -, hpop, hfree', -, room'⟩ := b₂.inv.regionAllocLoop he
    (List.forall_mem_singleton.mpr hu) (List.forall_mem_singleton.mpr (b₂.others _ _
      fun q hq => (layout.ok q hq).not_touches_stack)) (List.pairwise_singleton ..) hfree₂ room₂
  have hm : m' = m := by
    rw [regionAlloc, hvas, hreg'] at hreg
    exact Except.ok.inj hreg
  subst hm
  have hlen : R ≤ free'.length := by
    rw [Mem.need, List.length_replicate] at room'
    exact Nat.le_of_add_right_le room'
  refine ⟨m', free', hok, hload, himage, ?_, hpop.evolves.kern.trans b₂.kern, fun q hq => ?_,
    hfree', hlen⟩
  · have hstart : OthersKept S k.dirs e k.mem k.mem := by
      refine ⟨inv, fun _ _ => rfl, fun i _ d t p _ => ⟨rfl, fun d' t' hc => ?_⟩⟩
      cases (pageOf_of_not_present (hempty d' t')).symm.trans hc
    refine (hstart.load he hload).resolve_left fun hnone => ?_
    have hnil : free' = [] := by
      cases free' with
      | nil => rfl
      | cons p l => cases hnone.symm.trans hfree'.1
    rw [hnil] at hlen
    exact absurd hlen (not_le.mpr hR)
  · rw [b₂.inv.frame_outside hpop.evolves hq, b₂.outside q hq]

/-- An environment does not notice that another one is created. -/
theorem Loaded.congr (h : Loaded k i prog) (inv : MemInv S k.dirs 0 ∅ k.mem)
    (inv' : MemInv S k'.dirs 0 ∅ k'.mem) (henv : k'.envs i = k.envs i)
    (hsp : k'.spaces i = k.spaces i)
    (hfr : ∀ d t p, pageOf n (k.spaces i d t) = some p → k'.mem.frame p = k.mem.frame p) :
    Loaded k' i prog := by
  obtain ⟨g, hi, himage⟩ := h.image
  have hi' : k'.dirs i = some g := by rw [Kernel.dirs, henv]; exact hi
  refine ⟨⟨g, hi', himage.congr prog.layout prog.sizes inv inv' hi hi' hsp hfr⟩, ?_, ?_⟩
  · rw [henv]
    exact h.entry
  · rw [Kernel.status, henv]
    exact h.status

theorem envAlloc_free (hhead : k.envFreeList = .env e) (hvm : envSetupVm k.mem = (some g, m)) :
    envAlloc k 0 = .ok (.ok e, allocated k e g m 0) := by
  simp [envAlloc, hhead, hvm, allocated, Kernel.modEnv, pure, Except.pure]

/-- `env_create` adds an environment. -/
theorem CreatedFor.envCreate (h : CreatedFor S m₁ progs k) (prog : Program)
    (linked : KernelFile S m₁ prog.binary prog.file prog.len) (hlen : progs.length < 1024)
    (hfree : k.mem.FreeList free) (room : prog.cost + R ≤ free.length) (hR : 0 < R) :
    ∃ k' free', JosKernel.envCreate k c prog.binary = .ok k' ∧
      CreatedFor S m₁ (progs ++ [prog]) k' ∧ k'.cpus = k.cpus ∧ k'.mem.FreeList free' ∧
        R ≤ free'.length := by
  unfold Program.cost at room
  obtain ⟨e, he⟩ : ∃ e : EnvIx, (e : Nat) = progs.length := ⟨⟨_, hlen⟩, rfl⟩
  obtain ⟨g, free₁, rfl⟩ := List.exists_cons_of_length_pos (show 0 < free.length by omega)
  obtain ⟨hlink, hnone⟩ := h.rest e he.ge
  have hhead : k.envFreeList = .env e := h.head.trans ((dif_pos hlen).trans (by simp [← he]))
  obtain ⟨m', hvm, inv', hsp', hframe', hk', hfree'⟩ := h.mem.envSetupVm_cons hnone hfree
  have halloc := envAlloc_free hhead hvm
  have hgfree := h.mem.onFreeList_head (p := g) hfree.1
  have hgS := (h.mem.onFreeList_iff.mp hgfree).1
  obtain ⟨g', hg', inv₁, hempty, hcr3⟩ := created_envAlloc h.created halloc
  have hdirs := dirs_allocated k e g m' 0
  have hsp₁ : (allocated k e g m' 0).spaces = k.spaces := by
    rw [Kernel.spaces, hdirs]
    exact hsp'
  have hout₁ : ∀ q, q ∉ S → m'.frame q = m₁.frame q := fun q hq => by
    rw [hframe' q (ne_of_mem_of_not_mem hgS hq).symm, h.outside q hq]
  have bin : KernelFile S m' prog.binary prog.file prog.len :=
    linked.congr (hk'.trans h.kern) (h.kern ▸ h.mem.kern) hout₁
  obtain ⟨m, free', hok, hload, himage, hothers, hkm, hout, hfreem, hlen'⟩ :=
    prog.load (c := c) (R := R) inv₁ hg' hempty (hcr3 c) bin hfree' (by
      rw [List.length_cons] at room
      omega) hR
  set k' := entered { allocated k e g m' 0 with mem := m } e (eEntry prog.file)
  refine ⟨k', free', ?_, ?_, rfl, hfreem, hlen'⟩
  · rw [JosKernel.envCreate, halloc]
    exact hok
  have hdirs' : k'.dirs = (allocated k e g m' 0).dirs := Kernel.dirs_modEnv _ rfl
  have hspo : ∀ i, i ≠ e → k'.spaces i = k.spaces i := fun i hi => by
    rw [Kernel.spaces, hdirs', ← hsp₁]
    exact hothers.spaces i hi
  have henv : ∀ i, i ≠ e → k'.envs i = k.envs i := fun i hi => by
    simp [k', entered, allocated, Kernel.modEnv, hi]
  have invm : MemInv S k'.dirs 0 ∅ k'.mem := by
    rw [hdirs']
    exact hothers.inv
  have hpage : ∀ i, i ≠ e → ∀ d t (p : Fin n), pageOf n (k.spaces i d t) = some p →
      k'.mem.frame p = k.mem.frame p ∧ ∀ d' t', pageOf n (k'.spaces e d' t') ≠ some p := by
    intro i hi d t p hp
    obtain ⟨hsame, hnot⟩ := hothers.pages i hi d t p (by
      rw [← hp, ← hsp₁]
      rfl)
    have hpg : p ≠ g := by
      rintro rfl
      exact (h.mem.of_mapped ⟨i, d, t, hp⟩).2.1 hgfree
    refine ⟨hsame.trans (hframe' p hpg), fun d' t' => ?_⟩
    rw [Kernel.spaces, hdirs']
    exact hnot d' t'
  have hlast : ∀ i : EnvIx, (i : Nat) = progs.length → i = e :=
    fun i hi => Fin.ext (hi.trans he.symm)
  refine ⟨.create h.created halloc hg' hload, invm, hkm.trans (hk'.trans h.kern), fun q hq => ?_,
    ?_, fun i hi => ?_, fun i q hq => ?_, fun i j hij d t d' t' p hp => ?_⟩
  · rw [← hout₁ q hq]
    exact hout q hq
  · rw [List.length_append, List.length_singleton, ← he]
    exact hlink.trans rfl
  · rw [List.length_append, List.length_singleton] at hi
    have hne : i ≠ e := by
      rintro rfl
      omega
    obtain ⟨hlinki, hdiri⟩ := h.rest i (by omega)
    rw [Kernel.dirs, henv i hne]
    exact ⟨hlinki, hdiri⟩
  · rcases Nat.lt_trichotomy (i : Nat) progs.length with hi | hi | hi
    · rw [List.getElem?_append_left hi] at hq
      have hne : i ≠ e := by
        rintro rfl
        omega
      exact (h.loaded i q hq).congr h.mem invm (henv i hne) (hspo i hne)
        fun d t p hp => (hpage i hne d t p hp).1
    · rw [hi, List.getElem?_concat_length] at hq
      cases hq
      obtain rfl := hlast i hi
      refine ⟨⟨g', by rw [hdirs']; exact hg', ?_⟩, by simp [k', entered], ?_⟩
      · rw [Kernel.spaces, hdirs']
        exact himage
      · simp [k', entered, allocated, Kernel.status]
    · rw [List.getElem?_eq_none (by rw [List.length_append, List.length_singleton]; omega)] at hq
      cases hq
  · by_cases hi : i = e
    · subst hi
      intro hc
      rw [hspo j (Ne.symm hij)] at hc
      exact (hpage j (Ne.symm hij) d' t' p hc).2 d t hp
    · rw [hspo i hi] at hp
      by_cases hj : j = e
      · subst hj
        exact (hpage i hi d t p hp).2 d' t'
      · rw [hspo j hj]
        exact h.alone i j hij d t d' t' p hp

/-- The calls for all programs. -/
theorem CreatedFor.envCreates (ps : List Program) (h : CreatedFor S m₁ progs k)
    (linked : ∀ prog ∈ ps, KernelFile S m₁ prog.binary prog.file prog.len)
    (hlen : progs.length + ps.length ≤ 1024) (hfree : k.mem.FreeList free)
    (room : (ps.map Program.cost).sum + R ≤ free.length) (hR : 0 < R) :
    ∃ k', JosKernel.envCreates c (ps.map Program.binary) k = .ok k' ∧
      CreatedFor S m₁ (progs ++ ps) k' ∧ k'.cpus = k.cpus ∧ k'.mem.pageFreeList ≠ none := by
  induction ps generalizing progs k free with
  | nil =>
    refine ⟨k, rfl, by rwa [List.append_nil], rfl, ?_⟩
    obtain ⟨p, l, rfl⟩ := List.exists_cons_of_length_pos (show 0 < free.length by
      rw [List.map_nil, List.sum_nil] at room
      omega)
    rw [show k.mem.pageFreeList = some p from hfree.1]
    exact Option.some_ne_none p
  | cons prog ps ih =>
    obtain ⟨linked₁, linked'⟩ := List.forall_mem_cons.mp linked
    rw [List.length_cons] at hlen
    rw [List.map_cons, List.sum_cons, Nat.add_assoc] at room
    obtain ⟨k₁, free₁, hrun, h₁, hcpus, hfree₁, room₁⟩ :=
      h.envCreate (c := c) prog linked₁ (by omega) hfree room (by omega)
    obtain ⟨k', hrun', h', hcpus', hnone⟩ := ih h₁ linked' (by
      rw [List.length_append, List.length_singleton]
      omega) hfree₁ room₁
    refine ⟨k', ?_, by simpa using h', hcpus'.trans hcpus, hnone⟩
    rw [List.map_cons, JosKernel.envCreates, hrun]
    exact hrun'

end

/-! ## The programs in the kernel -/

section
variable {img : KernelImage} {m₀ m m' : Mem n} {prog : Program} {p : Fin n} {va : Word}

/-- The program has been linked into the kernel, and the boot loader has put it there. -/
structure KernelImage.Linked (img : KernelImage) (m₀ : Mem n) (prog : Program) : Prop where
  lo : kernbase.toNat + extphysmem.toNat ≤ prog.binary.toNat
  hi : prog.binary.toNat + prog.len ≤ img.endAddr.toNat
  bytes : ∀ i < prog.len, ∀ p : Fin n,
    (p : Nat) = (prog.binary.toNat + i - kernbase.toNat) / 4096 →
      m₀.frame p (pgoff (prog.binary + BitVec.ofNat 32 i)) = prog.file i

/-- The pages of the kernel come before its page directory. -/
theorem KernelImage.Fits.lt_kernPage (fits : img.Fits n) (hhi : va.toNat < img.endAddr.toNat) :
    (va.toNat - kernbase.toNat) / 4096 < img.kernPage := by
  have hbase : kernbase.toNat = 0xf0000000 := rfl
  obtain ⟨hpos, hlt, hend⟩ := fits.kernPage
  have hround := toNat_roundUp img.endAddr
  have hkva := toNat_kva (p := img.kernPage) (by omega)
  rw [hend, hkva] at hround
  omega

/-- The kernel finds them at `KERNBASE`. -/
theorem KernelImage.Ready.inKernel (h : img.Ready m₀ m) (fits : img.Fits n)
    (hlo : kernbase.toNat + extphysmem.toNat ≤ va.toNat) (hhi : va.toNat < img.endAddr.toNat)
    (hp : (p : Nat) = (va.toNat - kernbase.toNat) / 4096) :
    InKernel (img.freePages m) m va p := by
  have hbase : kernbase.toNat = 0xf0000000 := rfl
  have hext : extphysmem.toNat = 0x100000 := rfl
  have hl : sizeofPageInfo * n = 8 * n := rfl
  have hu : (pdx uvpt : Nat) = 957 := rfl
  have hpde : (mmioPde : Nat) = 958 := rfl
  have hpk := hp ▸ fits.lt_kernPage hhi
  obtain ⟨-, hk, -⟩ := fits.kernPage
  have hsmall := fits.small
  have hpage := toNat_page va
  have hpdx : (pdx va : Nat) = va.toNat / 2 ^ 22 := rfl
  have hhigh : userPdes ≤ (pdx va : Nat) := by
    unfold userPdes
    omega
  have hne : pdx va ≠ pdx uvpt := fun hc => by
    have := congrArg Fin.val hc
    omega
  have hdev : pdx va ≠ mmioPde := fun hc => by
    have := congrArg Fin.val hc
    omega
  -- the entry of its page table
  have hdepth := stackDepth_eq (pgaddr (pdx va) (ptx va) 0)
  have hlay := layout_rest img n (pgaddr (pdx va) (ptx va) 0) (by omega) (by omega)
  rw [if_neg fun hc => by
      have := (inKstack_iff _).mp hc
      omega,
    if_pos (phys_iff.mpr ⟨by omega, by omega⟩), hbase,
    show ((pgaddr (pdx va) (ptx va) 0).toNat - 0xf0000000) / 4096 = p by omega] at hlay
  have hpte : m.pteAt m.kernPgdir (pdx va) (ptx va) = page2pa p ||| (pteW ||| pteP) := by
    rw [h.map _ _ ⟨hhigh, hne⟩ hdev, pte_of_layout hlay, BitVec.or_assoc]
    rfl
  have hres : Reserved (img.nextPage n) p := by
    refine .inr (.inr ⟨?_, ?_⟩)
    · unfold ioPage
      omega
    · unfold KernelImage.nextPage KernelImage.envsPage KernelImage.pagesPage
      omega
  refine ⟨hhigh, hne, ?_, fun hc => hc.1 hres⟩
  cases hpt : m.table m.kernPgdir (pdx va) with
  | none =>
    rw [Mem.pteAt_of_no_table hpt] at hpte
    have hpresent := congrArg present hpte
    simp at hpresent
  | some pt =>
    rw [Mem.pteAt_of_table hpt] at hpte
    refine ⟨pt, fun hc => hc.2 _ ⟨hhigh, hne⟩ hpt, hpt, ?_⟩
    rw [hpte]
    exact pageOf_selfPde h.init.small p (by decide) (by decide)

theorem KernelImage.Ready.kernelFile (h : img.Ready m₀ m) (fits : img.Fits n)
    (linked : img.Linked m₀ prog) :
    KernelFile (img.freePages m) m prog.binary prog.file prog.len := by
  have hbase : kernbase.toNat = 0xf0000000 := rfl
  have hext : extphysmem.toNat = 0x100000 := rfl
  have hlo := linked.lo
  have hhi := linked.hi
  have hend := img.endAddr.isLt
  refine ⟨by omega, fun i hi => ?_⟩
  have hva : (prog.binary + BitVec.ofNat 32 i).toNat = prog.binary.toNat + i := by
    rw [BitVec.toNat_add, BitVec.toNat_ofNat]
    omega
  have hpk : ((prog.binary + BitVec.ofNat 32 i).toNat - kernbase.toNat) / 4096 < img.kernPage :=
    fits.lt_kernPage (by omega)
  have hroom := fits.room
  have hnext : img.kernPage < img.nextPage n := by
    unfold KernelImage.nextPage KernelImage.envsPage KernelImage.pagesPage
    omega
  obtain ⟨p, hp⟩ : ∃ p : Fin n, (p : Nat) =
      ((prog.binary + BitVec.ofNat 32 i).toNat - kernbase.toNat) / 4096 :=
    ⟨⟨_, hpk.trans (hnext.trans hroom)⟩, rfl⟩
  refine ⟨p, h.inKernel fits (by omega) (by omega) hp, ?_⟩
  rw [hva] at hp
  rw [h.same p (by omega) (by rw [hp, ← hva]; exact hpk)]
  exact linked.bytes i hi p hp

/-- What `i386_init` leaves behind: environments for the programs, none of which has a page of
another, and the kernel's half of the address space as `mem_init` has made it. -/
structure KernelImage.Booted (img : KernelImage) (mp : MpInfo) (code : List Byte)
    (progs : List Program) (k : Kernel n) : Prop where
  boot : Boot (img.freePages k.mem) k
  half : img.KernelHalf k.mem
  loaded : ∀ (i : EnvIx) prog, progs[(i : Nat)]? = some prog → Loaded k i prog
  others : ∀ i : EnvIx, progs.length ≤ (i : Nat) → k.status i = .free
  alone : ∀ i j, i ≠ j → ∀ d t d' t' (p : Fin n), pageOf n (k.spaces i d t) = some p →
    pageOf n (k.spaces j d' t') ≠ some p
  cpus : ∀ c, k.cpus c =
    ⟨if (c : Nat) < mp.ncpu then .boot else .off, none, k.mem.kernPgdir⟩
  code : EntryCode code k.mem

/-- Before the first environment. -/
theorem KernelImage.Ready.createdFor (h : img.Ready m₀ m) {cpus : Cpu → CpuInfo n}
    (mode : ∀ c, (cpus c).cpuMode = .off ∨ (cpus c).cpuMode = .boot)
    (idle : ∀ c, (cpus c).cpuEnv = none) (cr3 : ∀ c, (cpus c).cr3 = m.kernPgdir) :
    CreatedFor (img.freePages m) m [] ⟨m, envInit fun _ => .zero, .env 0, cpus⟩ := by
  have hdirs : ∀ i, (⟨m, envInit fun _ => .zero, .env 0, cpus⟩ : Kernel n).dirs i = none :=
    fun _ => rfl
  have hcreated : Created (img.freePages m) ⟨m, envInit fun _ => .zero, .env 0, cpus⟩ :=
    .init h.init (fun _ => rfl) mode idle cr3
  refine ⟨hcreated, ?_, rfl, fun _ _ => rfl, rfl, fun i _ => ⟨rfl, rfl⟩, fun i prog hp => ?_,
    fun i j _ d t d' t' p hp => ?_⟩
  · exact memInv_init h.init
  · cases hp
  · simp [Kernel.spaces, Mem.spaces, hdirs] at hp

/-- The state in which the environments are created. -/
def bootKernel (mp : MpInfo) (m : Mem n) : Kernel n :=
  ⟨m, envInit fun _ => .zero, .env 0,
    fun c => ⟨if (c : Nat) < mp.ncpu then .boot else .off, none, m.kernPgdir⟩⟩

/-- Environments for all programs, if there is memory for them. -/
theorem KernelImage.Ready.envCreates (h : img.Ready m₀ m) (fits : img.Fits n) (mp : MpInfo)
    {code : List Byte} (hcode : EntryCode code m) {progs : List Program}
    (linked : ∀ prog ∈ progs, img.Linked m₀ prog) (hlen : progs.length ≤ 1024)
    (room : img.nextPage n + (progs.map Program.cost).sum < n) :
    ∃ k, JosKernel.envCreates mp.bootcpu (progs.map Program.binary) (bootKernel mp m) = .ok k ∧
      img.Booted mp code progs k := by
  obtain ⟨free, hfree, -⟩ := h.init.free
  have hroom := h.free free hfree
  have hmode : ∀ c, ((bootKernel mp m).cpus c).cpuMode = .off ∨
      ((bootKernel mp m).cpus c).cpuMode = .boot := fun c => by
    dsimp only [bootKernel]
    split_ifs <;> simp
  obtain ⟨k, hk, hfor, hcpus, hleft⟩ := (h.createdFor hmode (fun _ => rfl) fun _ => rfl).envCreates
    (c := mp.bootcpu) (R := 1) progs (fun prog hp => h.kernelFile fits (linked prog hp))
    (by simpa using hlen) hfree (by omega) Nat.one_pos
  rw [List.nil_append] at hfor
  obtain ⟨hhalf, hpages⟩ := h.toKernelHalf.congr hfor.kern h.init.kern hfor.outside
  have hboot : Boot (img.freePages k.mem) k := ⟨by rw [hpages]; exact hfor.created, hleft⟩
  refine ⟨k, hk, hboot, hhalf, hfor.loaded, fun i hi => ?_, hfor.alone, fun c => ?_, ?_⟩
  · exact ((boot_kInv hboot).1.live i).mpr (hfor.rest i hi).2
  · rw [hcpus, hfor.kern]
    rfl
  · intro p hp o b hb
    rw [hfor.outside p fun hc => hc.1 (.inr (.inl hp))]
    exact hcode p hp o b hb

/-- `i386_init` gets as far as the environments. -/
theorem i386Init_ok {envs : EnvIx → Env n} (zero : ZeroEnvs envs) (fits : img.Fits n)
    (mp : MpInfo) (hcpu : mp.ncpu ≤ 8) (hlapic : mp.lapicaddr.toNat % 4096 = 0)
    (code : List Byte) (binaries : List Word) (m₀ : Mem n) (pp1 pp2 : Option (Fin n)) :
    ∃ m, img.Ready m₀ m ∧ EntryCode code m ∧
      ∀ k, JosKernel.envCreates mp.bootcpu binaries (bootKernel mp m) = .ok k →
        i386Init img mp code binaries envs m₀ pp1 pp2 = OptionT.mk (.ok (some k)) := by
  obtain rfl := zero.eq
  obtain ⟨m, hready, hcode, hrun⟩ := i386Init_eq fits mp hcpu hlapic code binaries _ m₀ pp1 pp2
  refine ⟨m, hready, hcode, fun k hk => hrun.trans ?_⟩
  change liftM (JosKernel.envCreates mp.bootcpu binaries (bootKernel mp m)) = _
  rw [hk]
  rfl

/-- `i386_init` creates an environment for each program that is linked into the kernel, if the
memory behind the kernel is zero. -/
theorem i386Init_booted {envs : EnvIx → Env n} (zero : ZeroEnvs envs) (fits : img.Fits n)
    (mp : MpInfo) (hcpu : mp.ncpu ≤ 8) (hlapic : mp.lapicaddr.toNat % 4096 = 0)
    (code : List Byte) (progs : List Program)
    (linked : ∀ prog ∈ progs, img.Linked m₀ prog) (hlen : progs.length ≤ 1024)
    (room : img.nextPage n + (progs.map Program.cost).sum < n) (pp1 pp2 : Option (Fin n)) :
    ∃ k, i386Init img mp code (progs.map Program.binary) envs m₀ pp1 pp2 =
        OptionT.mk (.ok (some k)) ∧ img.Booted mp code progs k := by
  obtain ⟨m, hready, hcode, hrun⟩ :=
    i386Init_ok zero fits mp hcpu hlapic code (progs.map Program.binary) m₀ pp1 pp2
  obtain ⟨k, hk, hbooted⟩ := hready.envCreates fits mp hcode linked hlen room
  exact ⟨k, hrun k hk, hbooted⟩

/-- The program, linked into a small kernel. -/
def tinyProgram : Program where
  binary := 0xf0120000
  file := tinyFile
  len := 156
  layout := layout_tinyFile
  sizes := by decide

theorem cost_tinyProgram : tinyProgram.cost = 7 := by
  have hpages : filePages tinyProgram.file = [0x800000, 0x801000, 0x804000, 0xeebfd000] := by
    show filePages tinyFile = _
    rw [filePages, segments_tinyFile]
    decide
  rw [Program.cost, hpages]
  decide

/-- The memory of a machine with 4 MB after the boot loader. -/
def loadedMem : Mem (i386DetectMemory 640 3072).1 :=
  { resetMem with frame := fun p o => if (p : Nat) = 288 then tinyFile o else 0 }

theorem linked_tinyProgram : smallImage.Linked loadedMem tinyProgram where
  lo := by decide
  hi := by decide
  bytes i hi p hp := by
    have hbin : tinyProgram.binary.toNat = 0xf0120000 := rfl
    have hbase : kernbase.toNat = 0xf0000000 := rfl
    have hlt : i < 156 := hi
    have hpage : (p : Nat) = 288 := by omega
    have hoff : (pgoff (tinyProgram.binary + BitVec.ofNat 32 i) : Nat) = i := by
      simp only [pgoff, BitVec.toNat_add, BitVec.toNat_ofNat, hbin]
      omega
    show (if (p : Nat) = 288 then tinyFile _ else 0) = _
    rw [if_pos hpage, hoff]
    rfl

theorem i386Init_booted_tiny : ∃ k, i386Init smallImage ⟨2, 0, 0xfee00000⟩ [0xfa, 0xf4]
      ([tinyProgram, tinyProgram].map Program.binary) (fun _ => .zero) loadedMem none none =
        OptionT.mk (.ok (some k)) ∧
      smallImage.Booted ⟨2, 0, 0xfee00000⟩ [0xfa, 0xf4] [tinyProgram, tinyProgram] k := by
  refine i386Init_booted (fun _ => rfl) fits_smallImage ⟨2, 0, 0xfee00000⟩ (by decide)
    (by decide) _ _ ?_ (by decide) ?_ none none
  · simpa using linked_tinyProgram
  · rw [List.map_cons, List.map_cons, List.map_nil, cost_tinyProgram]
    decide

end

end JosKernel
