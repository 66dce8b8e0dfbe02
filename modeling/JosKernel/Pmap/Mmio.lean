import JosKernel.Pmap.BootMap
import JosKernel.Pmap.Insert

/-!
# Device memory

`mmio_map_region` of `kern/pmap.c` reserves the addresses between `MMIOBASE` and `MMIOLIM`, one
region after the other, and maps them to the registers of a device. Its static variable `base` is
part of the state here.

The test against `MMIOLIM` is about a 32-bit sum, so it lets pass a size with which the sum wraps
around; and a physical address that is not page-aligned is rounded down, without any change to
the address that is returned.
-/
namespace JosKernel

open Lib

variable {n : Nat}

/-! ## The function -/

/-- Permission bits for device memory. -/
def mmioPerm : Word := ptePCD ||| ptePWT ||| pteW

/-- Memory, and the static `base`. -/
structure Mmio (n : Nat) where
  mem : Mem n
  base : Word

/-- The address of the region. There is no result when the loop of `boot_map_region` never
ends. -/
def mmioMapRegion (s : Mmio n) (pa size : Word) : Except Panic (Option (Word × Mmio n)) :=
  if s.base + size > mmiolim then throw .mmioMapRegion
  else do
    match ← bootMapRegion s.mem s.mem.kernPgdir s.base (roundUp size pgsize) pa mmioPerm with
    | none => pure none
    | some m =>
      let base := s.base + roundUp size pgsize
      pure (some (base - roundUp size pgsize, ⟨m, base⟩))

/-- A region that has been reserved. -/
structure Window where
  addr : Word
  pa : Word
  size : Word
  deriving DecidableEq

/-- Calls with the given physical addresses and sizes. -/
def mmioCalls (s : Mmio n) : List (Word × Word) → Except Panic (Option (List Window × Mmio n))
  | [] => pure (some ([], s))
  | (pa, size) :: calls => do
    match ← mmioMapRegion s pa size with
    | none => pure none
    | some (addr, s) => do
      match ← mmioCalls s calls with
      | none => pure none
      | some (ws, s) => pure (some (⟨addr, pa, size⟩ :: ws, s))

/-! ## Windows -/

/-- The addresses of a window lead to the physical addresses of the device, with caches off. -/
def Window.Mapped (w : Window) (m : Mem n) (g : Fin n) : Prop :=
  ∀ i < w.size.toNat, ∃ pte,
    m.pteAt g (pdx (w.addr + BitVec.ofNat 32 i)) (ptx (w.addr + BitVec.ofNat 32 i)) = pte ∧
      present pte = true ∧ pte &&& mmioPerm = mmioPerm ∧
      pteAddr pte + BitVec.ofNat 32 (pgoff (w.addr + BitVec.ofNat 32 i)) =
        w.pa + BitVec.ofNat 32 i

/-- All windows lie apart in the region for devices and are mapped. -/
structure WindowsOk (ws : List Window) (s : Mmio n) : Prop where
  apart : ws.Pairwise fun v w => v.addr.toNat + v.size.toNat ≤ w.addr.toNat ∨
    w.addr.toNat + w.size.toNat ≤ v.addr.toNat
  inside : ∀ w ∈ ws, mmiobase.toNat ≤ w.addr.toNat ∧
    w.addr.toNat + w.size.toNat ≤ mmiolim.toNat
  mapped : ∀ w ∈ ws, w.Mapped s.mem s.mem.kernPgdir

theorem mmiobase_aligned : mmiobase.toNat % 4096 = 0 := by decide

theorem mmiobase_le : mmiobase.toNat ≤ mmiolim.toNat := by decide

/-- The directory entry for device memory. -/
def mmioPde : Fin 1024 := 958

theorem pdx_of_mmio {va : Word} (hlo : mmiobase.toNat ≤ va.toNat)
    (hhi : va.toNat < mmiolim.toNat) : pdx va = mmioPde := by
  have h₁ : mmiobase.toNat = 0xef800000 := rfl
  have h₂ : mmiolim.toNat = 0xefc00000 := rfl
  rw [Fin.ext_iff, mmioPde]
  simp only [pdx]
  show va.toNat / 2 ^ 22 = 958
  omega

theorem toNat_page (va : Word) : (pgaddr (pdx va) (ptx va) 0).toNat = va.toNat / 4096 * 4096 := by
  rw [toNat_pgaddr]
  simp only [pdx, ptx, Fin.val_zero]
  omega

theorem mmio_of_inRegion {lo hi : Nat} {d t : Fin 1024} (hlo : mmiobase.toNat ≤ lo)
    (hhi : hi ≤ mmiolim.toNat) (h : InRegion lo hi d t) : d = mmioPde := by
  have := pdx_of_mmio (hlo.trans h.1) (h.2.trans_le hhi)
  rwa [pdx_pgaddr] at this

/-! ## One call -/

/-- The state between calls. -/
structure MmioOk (s : Mmio n) (free : List (Fin n)) : Prop where
  tables : Tables (fun _ d => d = mmioPde) s.mem (fun _ : Unit => some s.mem.kernPgdir) free
  aligned : s.base.toNat % 4096 = 0
  lo : mmiobase.toNat ≤ s.base.toNat
  hi : s.base.toNat ≤ mmiolim.toNat

variable {s s' : Mmio n} {free : List (Fin n)} {pa size addr : Word}

/-- A region that fits makes no difference to the end that `boot_map_region` computes. -/
theorem bootMapEnd_mmio {va size : Word} (halign : va.toNat % 4096 = 0)
    (hsize : size.toNat % 4096 = 0) (hend : va.toNat + size.toNat ≤ mmiolim.toNat)
    (hlo : mmiobase.toNat ≤ va.toNat) : (bootMapEnd va size).toNat = va.toNat + size.toNat := by
  have h₁ : mmiobase.toNat = 0xef800000 := rfl
  have h₂ : mmiolim.toNat = 0xefc00000 := rfl
  exact (toNat_bootMapEnd halign hsize (by omega)).1 (.inr (.inl (by omega)))

/-- The first page of a region needs a table: without memory for one the kernel panics. -/
theorem bootMapRegion_noMem {m : Mem n} {g : Fin n} {va size pa perm : Word}
    (hne : va ≠ bootMapEnd va size) (hp : present (m.entry g (pdx va)) = false)
    (hl : m.pageFreeList = none) : bootMapRegion m g va size pa perm = .error .bootMapRegion := by
  have hwalk : m.pgdirWalk g va true = .ok (none, m) := by
    simp [Mem.pgdirWalk, hp, Mem.pageAlloc, hl, pure, Except.pure]
  rw [bootMapRegion, show 2 ^ 20 = 1048575 + 1 from rfl, bootMapLoop, if_neg hne]
  simp only [hwalk, bind, Except.bind]
  rfl

theorem mmioMapRegion_ok (h : mmioMapRegion s pa size = .ok (some (addr, s'))) :
    ¬s.base + size > mmiolim ∧
      ∃ m, bootMapRegion s.mem s.mem.kernPgdir s.base (roundUp size pgsize) pa mmioPerm =
          .ok (some m) ∧
        addr = s.base + roundUp size pgsize - roundUp size pgsize ∧
        s' = ⟨m, s.base + roundUp size pgsize⟩ := by
  unfold mmioMapRegion at h
  split_ifs at h with hlim
  refine ⟨hlim, ?_⟩
  generalize bootMapRegion s.mem s.mem.kernPgdir s.base (roundUp size pgsize) pa mmioPerm = x at h ⊢
  cases x with
  | error e => cases h
  | ok r =>
    cases r with
    | none => cases h
    | some m =>
      have h := Prod.mk.inj (Option.some.inj (Except.ok.inj h))
      exact ⟨m, rfl, h.1.symm, h.2.symm⟩

/-- What a call does that is given a page and a size that fits. -/
theorem MmioOk.mapRegion (ok : MmioOk s free) (hpa : pa.toNat % 4096 = 0) (hsize : size ≠ 0)
    (hfit : size.toNat ≤ mmiolim.toNat - mmiobase.toNat)
    (h : mmioMapRegion s pa size = .ok (some (addr, s'))) :
    addr = s.base ∧ s.base.toNat + size.toNat ≤ s'.base.toNat ∧ (∃ free', MmioOk s' free') ∧
      s'.mem.kernPgdir = s.mem.kernPgdir ∧
      ∀ t, s'.mem.pteAt s.mem.kernPgdir mmioPde t =
        if InRegion s.base.toNat s'.base.toNat mmioPde t then
          regionPte s.base pa mmioPerm mmioPde t
        else s.mem.pteAt s.mem.kernPgdir mmioPde t := by
  have h₁ : mmiobase.toNat = 0xef800000 := rfl
  have h₂ : mmiolim.toNat = 0xefc00000 := rfl
  have hpos : 0 < size.toNat := by
    rw [Nat.pos_iff_ne_zero]
    exact fun h => hsize (BitVec.eq_of_toNat_eq h)
  have hlo := ok.lo
  have hhi := ok.hi
  have halign := ok.aligned
  have hround := toNat_roundUp size
  obtain ⟨hlim, m', hm', haddr, hs'⟩ := mmioMapRegion_ok h
  have hlim' : s.base.toNat + size.toNat ≤ mmiolim.toNat := by
    have hadd := BitVec.toNat_add s.base size
    rw [gt_iff_lt, BitVec.lt_def] at hlim
    omega
  generalize roundUp size pgsize = len at hm' haddr hs' hround
  have hend : (bootMapEnd s.base len).toNat = s.base.toNat + len.toNat :=
    bootMapEnd_mmio halign (by omega) (by omega) hlo
  have hbase : (s.base + len).toNat = s.base.toNat + len.toNat := by
    rw [BitVec.toNat_add]
    omega
  have hregion : ∀ d t, InRegion s.base.toNat (bootMapEnd s.base len).toNat d t →
      d = mmioPde := fun d t hin => mmio_of_inRegion hlo (by omega) hin
  have hroom : (missing s.mem s.mem.kernPgdir s.base.toNat (bootMapEnd s.base len).toNat).card ≤
      free.length := by
    by_cases ht : s.mem.table s.mem.kernPgdir mmioPde = none
    · have hpdx : pdx s.base = mmioPde := pdx_of_mmio hlo (by omega)
      have hsub : missing s.mem s.mem.kernPgdir s.base.toNat (bootMapEnd s.base len).toNat ⊆
          {mmioPde} := by
        intro d hd
        obtain ⟨-, t, hin⟩ := mem_missing.mp hd
        exact Finset.mem_singleton.mpr (hregion d t hin)
      refine (Finset.card_le_card hsub).trans ?_
      rw [Finset.card_singleton]
      cases free with
      | cons => simp
      | nil =>
        -- the call has panicked
        have hp := ok.tables.not_present_of_no_table (e := ()) rfl rfl ht
        rw [bootMapRegion_noMem (fun h => by rw [← h] at hend; omega) (hpdx ▸ hp)
          ok.tables.list] at hm'
        cases hm'
    · rw [Finset.card_eq_zero.mpr (Finset.eq_empty_of_forall_notMem fun d hd => ?_)]
      · exact Nat.zero_le _
      · obtain ⟨hnone, t, hin⟩ := mem_missing.mp hd
        exact ht (hregion d t hin ▸ hnone)
  obtain ⟨m, free', hrun, ok', hkern, hpte⟩ := @bootMapRegion_spec _ _ _ _ _ pa _ mmioPerm _
    (len.toNat / 4096) ok.tables halign hpa (by omega) hregion hroom
  cases hm'.symm.trans hrun
  subst haddr hs'
  have hself : s.mem.table s.mem.kernPgdir mmioPde ≠ some s.mem.kernPgdir :=
    (ok.tables.notDir () () _ _ rfl rfl).resolve_right nofun
  refine ⟨?_, ?_, ⟨free', ?_, ?_, ?_, ?_⟩, hkern, fun t => ?_⟩
  · bv_omega
  · rw [hbase]
    omega
  · rw [hkern]
    exact ok'
  · rw [hbase]
    omega
  · rw [hbase]
    omega
  · rw [hbase]
    omega
  · rw [hpte _ t hself, hend, hbase]

/-! ## Translation -/

theorem pteAddr_or (a b : Word) : pteAddr (a ||| b) = pteAddr a ||| pteAddr b := by
  simp only [pteAddr, BitVec.and_or_distrib_right]

theorem or_and_self (a b c : Word) : (a ||| b ||| c) &&& b = b := by
  ext i hi
  simp only [BitVec.getElem_and, BitVec.getElem_or]
  cases b[i] <;> simp

/-- Where the entries of a region are in place, the window is mapped. -/
theorem window_mapped {m : Mem n} {g : Fin n} {w : Window} {hi : Nat}
    (halign : w.addr.toNat % 4096 = 0) (hpa : w.pa.toNat % 4096 = 0)
    (hlo : mmiobase.toNat ≤ w.addr.toNat) (hlim : hi ≤ mmiolim.toNat)
    (hsize : w.addr.toNat + w.size.toNat ≤ hi)
    (hpte : ∀ t, InRegion w.addr.toNat hi mmioPde t →
      m.pteAt g mmioPde t = regionPte w.addr w.pa mmioPerm mmioPde t) : w.Mapped m g := by
  intro i hlt
  have h₂ : mmiolim.toNat = 0xefc00000 := rfl
  have hva : (w.addr + BitVec.ofNat 32 i).toNat = w.addr.toNat + i := by
    rw [BitVec.toNat_add, BitVec.toNat_ofNat]
    omega
  generalize hgen : w.addr + BitVec.ofNat 32 i = va at hva ⊢
  have hpde : pdx va = mmioPde := pdx_of_mmio (by omega) (by omega)
  have hpage := toNat_page va
  rw [hpde] at hpage
  have hpte := hpte (ptx va) ⟨by omega, by omega⟩
  rw [hpde, hpte, regionPte]
  -- the physical address of the page
  have hx : (w.pa + (pgaddr mmioPde (ptx va) 0 - w.addr)).toNat % 4096 = 0 := by
    rw [BitVec.toNat_add, BitVec.toNat_sub, hpage]
    omega
  refine ⟨_, rfl, by simp, or_and_self .., ?_⟩
  have hperm : pteAddr mmioPerm = 0#32 := by decide
  have hp : pteAddr pteP = 0#32 := by decide
  rw [pteAddr_or, pteAddr_or, pteAddr_of_aligned hx, hperm, hp, BitVec.or_zero, BitVec.or_zero]
  refine BitVec.eq_of_toNat_eq ?_
  have hoff : (pgoff va : Nat) = va.toNat % 4096 := rfl
  simp only [BitVec.toNat_add, BitVec.toNat_sub, BitVec.toNat_ofNat, hpage, hoff]
  omega

/-! ## Any number of calls -/

/-- What calls leave behind that reserve windows from `s.base` up. -/
structure Mapping (s : Mmio n) (ws : List Window) (s' : Mmio n) : Prop where
  base : s.base.toNat ≤ s'.base.toNat
  lim : s'.base.toNat ≤ mmiolim.toNat
  kern : s'.mem.kernPgdir = s.mem.kernPgdir
  below : ∀ t, (pgaddr mmioPde t 0).toNat < s.base.toNat →
    s'.mem.pteAt s.mem.kernPgdir mmioPde t = s.mem.pteAt s.mem.kernPgdir mmioPde t
  inside : ∀ w ∈ ws, s.base.toNat ≤ w.addr.toNat ∧ w.addr.toNat + w.size.toNat ≤ s'.base.toNat
  apart : ws.Pairwise fun v w => v.addr.toNat + v.size.toNat ≤ w.addr.toNat
  mapped : ∀ w ∈ ws, w.Mapped s'.mem s.mem.kernPgdir

/-- A page of device memory and a size that fits. -/
def FitsMmio (call : Word × Word) : Prop :=
  call.1.toNat % 4096 = 0 ∧ call.2.toNat ≤ mmiolim.toNat - mmiobase.toNat

theorem mmioCalls_cons {calls : List (Word × Word)} {ws : List Window}
    (h : mmioCalls s ((pa, size) :: calls) = .ok (some (ws, s'))) :
    ∃ addr s₁ rest, mmioMapRegion s pa size = .ok (some (addr, s₁)) ∧
      mmioCalls s₁ calls = .ok (some (rest, s')) ∧ ws = ⟨addr, pa, size⟩ :: rest := by
  rw [mmioCalls, bind_ok] at h
  obtain ⟨r, hcall, h⟩ := h
  cases r with
  | none => cases h
  | some r =>
    rw [bind_ok] at h
    obtain ⟨r', hrest, h⟩ := h
    cases r' with
    | none => cases h
    | some r' =>
      cases h
      exact ⟨_, _, _, hcall, hrest, rfl⟩

theorem MmioOk.mapping {calls : List (Word × Word)} {ws : List Window} (ok : MmioOk s free)
    (hsize : ∀ call ∈ calls, call.2 ≠ 0) (hfits : ∀ call ∈ calls, FitsMmio call)
    (h : mmioCalls s calls = .ok (some (ws, s'))) : Mapping s ws s' := by
  induction calls generalizing s free ws with
  | nil =>
    cases h
    exact ⟨le_rfl, ok.hi, rfl, fun _ _ => rfl, by simp, .nil, by simp⟩
  | cons call calls ih =>
    obtain ⟨pa, size⟩ := call
    obtain ⟨addr, s₁, rest, hcall, hrest, rfl⟩ := mmioCalls_cons h
    have hfit := hfits (pa, size) List.mem_cons_self
    obtain ⟨haddr, hroom, ⟨free₁, ok₁⟩, hkern, hpte⟩ :=
      ok.mapRegion hfit.1 (hsize (pa, size) List.mem_cons_self) hfit.2 hcall
    replace hroom : s.base.toNat + size.toNat ≤ s₁.base.toNat := hroom
    have hmap := ih ok₁ (fun c hc => hsize c (List.mem_cons_of_mem _ hc))
      (fun c hc => hfits c (List.mem_cons_of_mem _ hc)) hrest
    have hlo := ok.lo
    have hbase := hmap.base
    have hlim := hmap.lim
    have hbelow := hmap.below
    rw [hkern] at hbelow
    refine ⟨by omega, hlim, hmap.kern.trans hkern, fun t ht => ?_, ?_, ?_, ?_⟩
    · rw [hbelow t (by omega), hpte, if_neg fun hin => by have := hin.1; omega]
    · rintro w (_ | ⟨_, hw⟩)
      · exact ⟨by rw [haddr], by rw [haddr]; show s.base.toNat + size.toNat ≤ _; omega⟩
      · have := hmap.inside w hw
        exact ⟨by omega, this.2⟩
    · refine List.pairwise_cons.mpr ⟨fun w hw => ?_, hmap.apart⟩
      have := (hmap.inside w hw).1
      rw [haddr]
      show s.base.toNat + size.toNat ≤ _
      omega
    · rintro w (_ | ⟨_, hw⟩)
      · -- later calls only write entries further up
        subst haddr
        refine window_mapped ok.aligned hfit.1 hlo ok₁.hi hroom fun t hin => ?_
        rw [hbelow t hin.2, hpte, if_pos hin]
      · exact hkern ▸ hmap.mapped w hw

/-- The address that a call returns is a page. -/
theorem mmioMapRegion_aligned (halign : s.base.toNat % 4096 = 0)
    (h : mmioMapRegion s pa size = .ok (some (addr, s'))) :
    addr.toNat % 4096 = 0 ∧ s'.base.toNat % 4096 = 0 := by
  obtain ⟨-, m, -, haddr, rfl⟩ := mmioMapRegion_ok h
  have hround := toNat_roundUp size
  have hback : addr = s.base := by
    rw [haddr]
    exact BitVec.add_sub_cancel _ _
  refine ⟨by rw [hback, halign], ?_⟩
  rw [BitVec.toNat_add]
  omega

/-- The windows stand for the calls. -/
theorem mem_mmioCalls {calls : List (Word × Word)} {ws : List Window}
    (halign : s.base.toNat % 4096 = 0) (h : mmioCalls s calls = .ok (some (ws, s')))
    {call : Word × Word} (hc : call ∈ calls) :
    ∃ w ∈ ws, w.pa = call.1 ∧ w.size = call.2 ∧ w.addr.toNat % 4096 = 0 := by
  induction calls generalizing s ws with
  | nil => cases hc
  | cons first calls ih =>
    obtain ⟨addr, s₁, rest, hcall, hrest, rfl⟩ := mmioCalls_cons h
    obtain ⟨haddr, hs₁⟩ := mmioMapRegion_aligned halign hcall
    rcases List.mem_cons.mp hc with rfl | hc
    · exact ⟨_, List.mem_cons_self, rfl, rfl, haddr⟩
    · obtain ⟨w, hw, h⟩ := ih hs₁ hrest hc
      exact ⟨w, List.mem_cons_of_mem _ hw, h⟩

/-- A window that starts with a page cannot show a device that does not. -/
theorem Window.Mapped.aligned {w : Window} {m : Mem n} {g : Fin n} (h : w.Mapped m g)
    (haddr : w.addr.toNat % 4096 = 0) (hsize : w.size ≠ 0) : w.pa.toNat % 4096 = 0 := by
  have hpos : 0 < w.size.toNat := by
    rw [Nat.pos_iff_ne_zero]
    exact fun h => hsize (BitVec.eq_of_toNat_eq h)
  obtain ⟨pte, -, -, -, hpa⟩ := h 0 hpos
  have hoff : pgoff w.addr = 0 := Fin.ext haddr
  simp only [BitVec.add_zero, hoff, Fin.val_zero] at hpa
  rw [← hpa]
  exact toNat_pteAddr_mod pte

/-- The windows of calls that return are right if and only if all calls are for device pages and
for sizes that fit between `MMIOBASE` and `MMIOLIM`. -/
theorem windowsOk_iff_fitsMmio {m : Mem n} {calls : List (Word × Word)} {ws : List Window}
    (ok : Tables (fun _ d => d = mmioPde) m (fun _ : Unit => some m.kernPgdir) free)
    (hsize : ∀ call ∈ calls, call.2 ≠ 0)
    (h : mmioCalls ⟨m, mmiobase⟩ calls = .ok (some (ws, s'))) :
    WindowsOk ws s' ↔ ∀ call ∈ calls, FitsMmio call := by
  constructor
  · intro hok call hc
    obtain ⟨w, hw, hpa, hlen, haddr⟩ := mem_mmioCalls mmiobase_aligned h hc
    have hin := hok.inside w hw
    refine ⟨hpa ▸ (hok.mapped w hw).aligned haddr (hlen ▸ hsize call hc), ?_⟩
    rw [← hlen]
    omega
  · intro hfits
    have hmap := MmioOk.mapping ⟨ok, mmiobase_aligned, le_rfl, mmiobase_le⟩ hsize hfits h
    refine ⟨hmap.apart.imp .inl, fun w hw => ?_, fun w hw => ?_⟩
    · have hin := hmap.inside w hw
      exact ⟨hin.1, hin.2.trans hmap.lim⟩
    · rw [hmap.kern]
      exact hmap.mapped w hw

/-! ## Two machines -/

theorem tables_mmio_bareMem : Tables (fun _ d => d = mmioPde) bareMem
    (fun _ : Unit => some bareMem.kernPgdir) (List.finRange 128).tail :=
  tables_bareMem.mono fun _ d _ => by rw [table_bareMem]; simp

/-- The windows of calls on a machine whose directory is empty. -/
def bareWindows (calls : List (Word × Word)) : Option (List Window) :=
  match mmioCalls ⟨bareMem, mmiobase⟩ calls with
  | .ok (some (ws, _)) => some ws
  | _ => none

theorem exists_bareWindows {calls : List (Word × Word)} {ws : List Window}
    (h : bareWindows calls = some ws) :
    ∃ s', mmioCalls ⟨bareMem, mmiobase⟩ calls = .ok (some (ws, s')) := by
  unfold bareWindows at h
  split at h
  · rename_i ws' s' hrun
    cases h
    exact ⟨s', hrun⟩
  · cases h

/-- The registers of a local APIC, and a region of two pages. -/
theorem windowsOk_bareMem : ∃ ws s',
    mmioCalls ⟨bareMem, mmiobase⟩ [(0xfee00000, 0x1000), (0x5000, 0x1001)] = .ok (some (ws, s')) ∧
      WindowsOk ws s' := by
  obtain ⟨s', hrun⟩ := exists_bareWindows
    (show bareWindows [(0xfee00000, 0x1000), (0x5000, 0x1001)] =
      some [⟨0xef800000, 0xfee00000, 0x1000⟩, ⟨0xef801000, 0x5000, 0x1001⟩] by decide +kernel)
  refine ⟨_, s', hrun, (windowsOk_iff_fitsMmio tables_mmio_bareMem (by simp) hrun).mpr ?_⟩
  simp only [List.forall_mem_cons, List.not_mem_nil, false_implies, implies_true, and_true]
  unfold FitsMmio
  decide

/-- A size with which the sum wraps around, and which is rounded up to nothing. -/
theorem not_windowsOk_wrap : ∃ ws s',
    mmioCalls ⟨bareMem, mmiobase⟩ [(0, 0xffffffff)] = .ok (some (ws, s')) ∧ ¬WindowsOk ws s' := by
  obtain ⟨s', hrun⟩ := exists_bareWindows
    (show bareWindows [(0, 0xffffffff)] = some [⟨0xef800000, 0, 0xffffffff⟩] by decide +kernel)
  refine ⟨_, s', hrun, fun h => ?_⟩
  have hin := (h.inside _ List.mem_cons_self).2
  revert hin
  decide

end JosKernel
