import JosKernel.Lib.Runs
import JosKernel.Pmap.Spec
import Mathlib.Order.CompletePartialOrder

/-!
# The page allocator

`page_init` of `kern/pmap.c` links all pages and then takes out page 0, the page at
`MPENTRY_PADDR` and the pages from `IOPHYSMEM` to the end of what `boot_alloc` handed out, by
rewriting the links of their neighbours. What is left is one list, in descending order, of the
pages that are not reserved.

From there on pages go back and forth between the list and the callers of `page_alloc`. A state
of a run is memory with the set of pages that are handed out.
-/
namespace JosKernel

open Lib

variable {n : Nat}

/-! ## Initialization -/

/-- `PGNUM(IOPHYSMEM)`. -/
def ioPage : Nat := 0xA0

/-- `MPENTRY_PADDR/PGSIZE`. -/
def mpentryPage : Nat := 7

/-- `&pages[i]`. -/
def pagePtr (n i : Nat) : Except Panic (Option (Fin n)) :=
  if h : i < n then .ok (some ⟨i, h⟩) else .error .outOfBounds

/-- An assignment to fields of `pages[i]`. -/
def Mem.modPage (m : Mem n) (i : Nat) (f : PageInfo n → PageInfo n) : Except Panic (Mem n) :=
  if h : i < n then .ok (m.setPage ⟨i, h⟩ (f (m.pages ⟨i, h⟩))) else .error .outOfBounds

/-- The value of `pages[i].pp_link`. -/
def Mem.linkOf (m : Mem n) (i : Nat) : Except Panic (Option (Fin n)) :=
  if h : i < n then .ok (m.pages ⟨i, h⟩).ppLink else .error .outOfBounds

/-- The first loop of `page_init`: every page in front of the ones before. -/
def pageInitLoop (m : Mem n) : List (Fin n) → Mem n
  | [] => m
  | i :: is => pageInitLoop { m.setPage i ⟨m.pageFreeList, 0⟩ with pageFreeList := some i } is

/-- The second loop: a range of pages in use. -/
def reserveLoop (m : Mem n) : List Nat → Except Panic (Mem n)
  | [] => pure m
  | i :: is => do reserveLoop (← m.modPage i fun _ => ⟨none, 1⟩) is

/-- `page_init`, where `first` is `PGNUM(PADDR(boot_alloc(0)))`. -/
def pageInit (m : Mem n) (first : Nat) : Except Panic (Mem n) := do
  let m := pageInitLoop m (List.finRange n)
  let m ← m.modPage mpentryPage fun _ => ⟨none, 1⟩
  let prev ← pagePtr n (mpentryPage - 1)
  let m ← m.modPage (mpentryPage + 1) fun info => { info with ppLink := prev }
  let m ← m.modPage 0 fun _ => ⟨none, 1⟩
  let m ← m.modPage 1 fun info => { info with ppLink := none }
  let tmp ← m.linkOf ioPage
  let m ← reserveLoop m (List.range' ioPage (first - ioPage))
  m.modPage (max ioPage first) fun info => { info with ppLink := tmp }

/-- Pages that are never handed out. -/
def Reserved (first : Nat) (p : Fin n) : Prop :=
  (p : Nat) = 0 ∨ (p : Nat) = mpentryPage ∨ ioPage ≤ (p : Nat) ∧ (p : Nat) < first

instance (first : Nat) (p : Fin n) : Decidable (Reserved first p) :=
  inferInstanceAs (Decidable (_ ∨ _))

/-! ## The list -/

/-- The unreserved pages below `k`, the last one first. -/
def unreserved (n first : Nat) : Nat → List (Fin n)
  | 0 => []
  | k + 1 =>
    if h : k < n then
      if Reserved first (⟨k, h⟩ : Fin n) then unreserved n first k
      else ⟨k, h⟩ :: unreserved n first k
    else unreserved n first k

theorem mem_unreserved {first k : Nat} {p : Fin n} :
    p ∈ unreserved n first k ↔ (p : Nat) < k ∧ ¬Reserved first p := by
  induction k with
  | zero => simp [unreserved]
  | succ k ih =>
    unfold unreserved
    split_ifs with h hr
    · rw [ih]
      refine and_congr_left fun hp => ⟨fun h => by omega, fun hlt => ?_⟩
      have hne : (p : Nat) ≠ k := fun hpk => hp (by simpa [← hpk] using hr)
      omega
    · rw [List.mem_cons, ih]
      constructor
      · rintro (rfl | ⟨hlt, hp⟩)
        · exact ⟨by simp, hr⟩
        · exact ⟨by omega, hp⟩
      · rintro ⟨hlt, hp⟩
        by_cases hpk : (p : Nat) = k
        · exact .inl (Fin.ext hpk)
        · exact .inr ⟨by omega, hp⟩
    · rw [ih]
      have := p.isLt
      exact and_congr_left fun _ => by omega

theorem nodup_unreserved (n first k : Nat) : (unreserved n first k).Nodup := by
  induction k with
  | zero => exact List.nodup_nil
  | succ k ih =>
    unfold unreserved
    split_ifs with h hr
    · exact ih
    · refine List.nodup_cons.mpr ⟨fun hmem => ?_, ih⟩
      have := (mem_unreserved.mp hmem).1
      simp at this
    · exact ih

/-- The pages are one list when each has the link of a descending list. -/
theorem listSeg_unreserved {link : Fin n → Option (Fin n)} {first : Nat}
    (hlink : ∀ p, ¬Reserved first p → link p = (unreserved n first p).head?) (k : Nat) :
    ListSeg some link (unreserved n first k).head? (unreserved n first k) none := by
  induction k with
  | zero => rfl
  | succ k ih =>
    unfold unreserved
    split_ifs with h hr
    · exact ih
    · refine ⟨rfl, ?_⟩
      rw [hlink _ hr]
      exact ih
    · exact ih

/-- A page whose predecessor is not reserved. -/
theorem head_unreserved_succ {first k : Nat} (hk : k < n) (hr : ¬Reserved first (⟨k, hk⟩ : Fin n)) :
    (unreserved n first (k + 1)).head? = some ⟨k, hk⟩ := by
  simp [unreserved, hk, hr]

theorem unreserved_succ_of_reserved {first k : Nat} (hk : k < n)
    (hr : Reserved first (⟨k, hk⟩ : Fin n)) :
    unreserved n first (k + 1) = unreserved n first k := by
  simp [unreserved, hk, hr]

/-- The pages from `IOPHYSMEM` on are skipped. -/
theorem unreserved_first {first : Nat} (hio : ioPage ≤ first) (hn : first ≤ n) :
    unreserved n first first = unreserved n first ioPage := by
  suffices h : ∀ j, ioPage + j ≤ first →
      unreserved n first (ioPage + j) = unreserved n first ioPage by
    have := h (first - ioPage) (by omega)
    rwa [show ioPage + (first - ioPage) = first by omega] at this
  intro j hj
  induction j with
  | zero => rfl
  | succ j ih =>
    rw [← Nat.add_assoc, unreserved_succ_of_reserved (by omega), ih (by omega)]
    exact .inr (.inr ⟨by simp, by simp; omega⟩)

/-! ## The result of initialization -/

variable {m m' : Mem n} {first : Nat} {p : Fin n}

theorem modPage_ok {i : Nat} (hi : i < n) (f : PageInfo n → PageInfo n) :
    m.modPage i f = .ok (m.setPage ⟨i, hi⟩ (f (m.pages ⟨i, hi⟩))) := dif_pos hi

/-- Links and counters after the first loop. -/
theorem pageInitLoop_spec (m : Mem n) : ∃ m', pageInitLoop m (List.finRange n) = m' ∧
    (∀ p : Fin n, 0 < (p : Nat) → ∃ h, (m'.pages p).ppLink = some ⟨p - 1, h⟩) ∧
    (∀ p, (m'.pages p).ppRef = 0) ∧ ∀ hn : 0 < n, m'.pageFreeList = some ⟨n - 1, by omega⟩ := by
  -- the pages below `k` are done
  suffices h : ∀ j k, k + j = n → ∀ m : Mem n,
      (∀ p : Fin n, 0 < (p : Nat) → (p : Nat) < k → ∃ h, (m.pages p).ppLink = some ⟨p - 1, h⟩) →
      (∀ p : Fin n, (p : Nat) < k → (m.pages p).ppRef = 0) →
      (∀ hk : 0 < k, ∃ h, m.pageFreeList = some ⟨k - 1, h⟩) →
      ∃ m', pageInitLoop m ((List.finRange n).drop k) = m' ∧
        (∀ p : Fin n, 0 < (p : Nat) → ∃ h, (m'.pages p).ppLink = some ⟨p - 1, h⟩) ∧
        (∀ p, (m'.pages p).ppRef = 0) ∧ ∀ hn : 0 < n, m'.pageFreeList = some ⟨n - 1, by omega⟩ by
    simpa using h n 0 (by omega) m (fun p _ h => by omega) (fun p h => by omega)
      (fun h => by omega)
  intro j
  induction j with
  | zero =>
    intro k hk m hlink href hhead
    obtain rfl : k = n := by omega
    refine ⟨m, by rw [List.drop_eq_nil_of_le (by simp)]; rfl, fun p hp => hlink p hp p.isLt,
      fun p => href p p.isLt, fun hn => ?_⟩
    obtain ⟨h, heq⟩ := hhead hn
    exact heq
  | succ j ih =>
    intro k hk m hlink href hhead
    have hlt : k < n := by omega
    rw [List.drop_eq_getElem_cons (by simpa using hlt)]
    simp only [List.getElem_finRange, pageInitLoop]
    refine ih (k + 1) (by omega) _ (fun p hp hpk => ?_) (fun p hpk => ?_) fun _ => ⟨by omega, rfl⟩
    · by_cases hpk' : (p : Nat) = k
      · obtain rfl : p = ⟨k, hlt⟩ := Fin.ext hpk'
        obtain ⟨h, heq⟩ := hhead hp
        exact ⟨h, by simpa [Mem.setPage] using heq⟩
      · have hne : p ≠ ⟨k, hlt⟩ := fun h => hpk' (by rw [h])
        simpa [Mem.setPage, hne] using hlink p hp (by omega)
    · by_cases hpk' : (p : Nat) = k
      · obtain rfl : p = ⟨k, hlt⟩ := Fin.ext hpk'
        simp [Mem.setPage]
      · have hne : p ≠ ⟨k, hlt⟩ := fun h => hpk' (by rw [h])
        simpa [Mem.setPage, hne] using href p (by omega)

/-- The second loop. -/
theorem reserveLoop_spec (m : Mem n) (lo len : Nat) (h : lo + len ≤ n) :
    ∃ m', reserveLoop m (List.range' lo len) = .ok m' ∧ m'.pageFreeList = m.pageFreeList ∧
      ∀ p : Fin n, m'.pages p =
        if lo ≤ (p : Nat) ∧ (p : Nat) < lo + len then ⟨none, 1⟩ else m.pages p := by
  induction len generalizing lo m with
  | zero =>
    refine ⟨m, rfl, rfl, fun p => ?_⟩
    rw [if_neg (by omega)]
  | succ len ih =>
    obtain ⟨m', hok, hfree, hpages⟩ := ih (m.setPage ⟨lo, by omega⟩ ⟨none, 1⟩) (lo + 1) (by omega)
    refine ⟨m', ?_, hfree, fun p => ?_⟩
    · rw [List.range'_succ, reserveLoop, modPage_ok (by omega)]
      exact hok
    · rw [hpages]
      by_cases hp : (p : Nat) = lo
      · subst hp
        rw [if_neg (by omega), if_pos (by omega)]
        simp [Mem.setPage]
      · have hne : p ≠ ⟨lo, by omega⟩ := fun h => hp (by rw [h])
        have hsame : (m.setPage ⟨lo, by omega⟩ ⟨none, 1⟩).pages p = m.pages p := by
          simp [Mem.setPage, hne]
        rw [hsame]
        congr 1
        simp only [eq_iff_iff]
        omega

theorem pages_setPage_self (m : Mem n) (p : Fin n) (info : PageInfo n) :
    (m.setPage p info).pages p = info := Function.update_self ..

theorem pages_setPage_of_ne (m : Mem n) {p q : Fin n} {info : PageInfo n} (h : p ≠ q) :
    (m.setPage q info).pages p = m.pages p := Function.update_of_ne h ..

theorem ok_bind {α β : Type} (a : α) (f : α → Except Panic β) : (Except.ok a >>= f) = f a := rfl

/-- The memory after the single pages were taken out. -/
theorem takenOut_spec (m : Mem n) (hn : ioPage < n) :
    ∃ m₄ : Mem n, (∀ first, pageInit m first = (do
        let tmp ← m₄.linkOf ioPage
        let m ← reserveLoop m₄ (List.range' ioPage (first - ioPage))
        m.modPage (max ioPage first) fun info => { info with ppLink := tmp })) ∧
      m₄.pageFreeList = some ⟨n - 1, by omega⟩ ∧
      (∀ p, (m₄.pages p).ppRef = if (p : Nat) = 0 ∨ (p : Nat) = 7 then 1 else 0) ∧
      ((m₄.pages ⟨1, by unfold ioPage at hn; omega⟩).ppLink = none) ∧
      ((m₄.pages ⟨8, by unfold ioPage at hn; omega⟩).ppLink =
        some ⟨6, by unfold ioPage at hn; omega⟩) ∧
      ∀ p : Fin n, (p : Nat) ≠ 0 → (p : Nat) ≠ 1 → (p : Nat) ≠ 7 → (p : Nat) ≠ 8 →
        ∃ h, (m₄.pages p).ppLink = some ⟨p - 1, h⟩ := by
  have hio : ioPage = 160 := rfl
  obtain ⟨m₀, h₀, hlink, href, hhead⟩ := pageInitLoop_spec m
  have h0 : 0 < n := by omega
  have h1 : 1 < n := by omega
  have h6 : mpentryPage - 1 < n := by show 6 < n; omega
  have h7 : mpentryPage < n := by show 7 < n; omega
  have h8 : mpentryPage + 1 < n := by show 8 < n; omega
  set m₁ := m₀.setPage ⟨mpentryPage, h7⟩ ⟨none, 1⟩ with hm₁
  set m₂ := m₁.setPage ⟨mpentryPage + 1, h8⟩
    { m₁.pages ⟨mpentryPage + 1, h8⟩ with ppLink := some ⟨mpentryPage - 1, h6⟩ } with hm₂
  set m₃ := m₂.setPage ⟨0, h0⟩ ⟨none, 1⟩ with hm₃
  set m₄ := m₃.setPage ⟨1, h1⟩ { m₃.pages ⟨1, h1⟩ with ppLink := none } with hm₄
  have hpages : ∀ p, m₄.pages p =
      if (p : Nat) = 1 then ⟨none, (m₀.pages p).ppRef⟩
      else if (p : Nat) = 0 ∨ (p : Nat) = 7 then ⟨none, 1⟩
      else if (p : Nat) = 8 then ⟨some ⟨6, h6⟩, (m₀.pages p).ppRef⟩ else m₀.pages p := by
    have hother {i : Nat} (hi : i < n) {p : Fin n} (h : (p : Nat) ≠ i) : p ≠ ⟨i, hi⟩ :=
      fun he => h (congrArg Fin.val he)
    intro p
    by_cases hp1 : (p : Nat) = 1
    · obtain rfl : p = ⟨1, h1⟩ := Fin.ext hp1
      rw [if_pos rfl, hm₄, pages_setPage_self, hm₃,
        pages_setPage_of_ne _ (hother h0 (by simp)), hm₂,
        pages_setPage_of_ne _ (hother h8 (by simp [mpentryPage])), hm₁,
        pages_setPage_of_ne _ (hother h7 (by simp [mpentryPage]))]
    rw [if_neg hp1, hm₄, pages_setPage_of_ne _ (hother h1 hp1), hm₃]
    by_cases hp0 : (p : Nat) = 0
    · obtain rfl : p = ⟨0, h0⟩ := Fin.ext hp0
      rw [if_pos (.inl rfl), pages_setPage_self]
    rw [pages_setPage_of_ne _ (hother h0 hp0), hm₂]
    by_cases hp8 : (p : Nat) = 8
    · obtain rfl : p = ⟨8, h8⟩ := Fin.ext hp8
      rw [if_neg (by simp), if_pos rfl]
      exact (pages_setPage_self ..).trans (by
        rw [hm₁, pages_setPage_of_ne _ (hother h7 (by simp [mpentryPage]))]
        rfl)
    rw [pages_setPage_of_ne _ (hother h8 hp8), hm₁]
    by_cases hp7 : (p : Nat) = 7
    · obtain rfl : p = ⟨7, h7⟩ := Fin.ext hp7
      rw [if_pos (.inr rfl)]
      exact pages_setPage_self ..
    · rw [pages_setPage_of_ne _ (hother h7 hp7), if_neg (by omega), if_neg hp8]
  refine ⟨m₄, fun first => ?_, hhead h0, fun p => ?_, ?_, ?_, fun p hp0 hp1 hp7 hp8 => ?_⟩
  · have hptr : pagePtr n (mpentryPage - 1) = .ok (some ⟨mpentryPage - 1, h6⟩) := dif_pos h6
    have hsteps : pageInit m first = (do
        let m ← m₀.modPage mpentryPage fun _ => ⟨none, 1⟩
        let prev ← pagePtr n (mpentryPage - 1)
        let m ← m.modPage (mpentryPage + 1) fun info => { info with ppLink := prev }
        let m ← m.modPage 0 fun _ => ⟨none, 1⟩
        let m ← m.modPage 1 fun info => { info with ppLink := none }
        let tmp ← m.linkOf ioPage
        let m ← reserveLoop m (List.range' ioPage (first - ioPage))
        m.modPage (max ioPage first) fun info => { info with ppLink := tmp }) := by
      unfold pageInit
      rw [h₀]
    rw [hsteps, modPage_ok h7, ok_bind, ← hm₁, hptr, ok_bind, modPage_ok h8, ok_bind, ← hm₂,
      modPage_ok h0, ok_bind, ← hm₃, modPage_ok h1, ok_bind, ← hm₄]
  · rw [hpages]
    by_cases hp1 : (p : Nat) = 1
    · rw [if_pos hp1, if_neg (by omega)]
      exact href p
    · rw [if_neg hp1]
      split_ifs with hused hp8
      · rfl
      · exact href p
      · exact href p
  · rw [hpages, if_pos rfl]
  · rw [hpages, if_neg (by simp), if_neg (by simp), if_pos rfl]
  · rw [hpages, if_neg hp1, if_neg (by omega), if_neg hp8]
    exact hlink p (by omega)

/-- `page_init` succeeds, and the free list consists of the unreserved pages. -/
theorem pageInit_spec (m : Mem n) (hio : ioPage < first) (hn : first < n) :
    ∃ m', pageInit m first = .ok m' ∧ m'.FreeList (unreserved n first n) ∧
      ∀ p, (m'.pages p).ppRef = if Reserved first p then 1 else 0 := by
  have hval : ioPage = 160 := rfl
  obtain ⟨m₄, hm₄, hfree, href, h1, h8, hlink⟩ := takenOut_spec m (hio.trans hn)
  obtain ⟨m₅, hm₅, hfree₅, hpages⟩ := reserveLoop_spec m₄ ioPage (first - ioPage) (by omega)
  have hmax : max ioPage first = first := by omega
  obtain ⟨hio', htmp⟩ := hlink ⟨ioPage, hio.trans hn⟩ (by simp [hval]) (by simp [hval])
    (by simp [hval]) (by simp [hval])
  set info : PageInfo n := { m₅.pages ⟨first, hn⟩ with ppLink := some ⟨ioPage - 1, hio'⟩ }
    with hinfo
  have hlinkOf : m₄.linkOf ioPage = .ok (some ⟨ioPage - 1, hio'⟩) := by
    rw [← htmp]
    exact dif_pos _
  have hok : pageInit m first = .ok (m₅.setPage ⟨first, hn⟩ info) := by
    rw [hm₄, hlinkOf, ok_bind, hm₅, ok_bind, hmax, modPage_ok hn]
  have hfirst : m₅.pages ⟨first, hn⟩ = m₄.pages ⟨first, hn⟩ := by
    rw [hpages, if_neg (by simp; omega)]
  -- a page that is not reserved keeps its link, except that the interval is skipped
  have hkept {p : Fin n} (hr : ¬Reserved first p) (hp : (p : Nat) ≠ first) :
      ((m₅.setPage ⟨first, hn⟩ info).pages p) = m₄.pages p := by
    have hne : p ≠ ⟨first, hn⟩ := fun h => hp (by rw [h])
    have hsame : (m₅.setPage ⟨first, hn⟩ info).pages p = m₅.pages p := by
      simp [Mem.setPage, hne]
    rw [hsame, hpages, if_neg fun h => hr (.inr (.inr ⟨h.1, by omega⟩))]
  have hself : (m₅.setPage ⟨first, hn⟩ info).pages ⟨first, hn⟩ = info := by simp [Mem.setPage]
  refine ⟨_, hok, ?_, fun p => ?_⟩
  · have h1n : 1 < n := by omega
    have h8n : 8 < n := by omega
    have hn1 : ¬Reserved first (⟨n - 1, by omega⟩ : Fin n) := by
      unfold Reserved mpentryPage
      simp only
      omega
    have hhead : (m₅.setPage ⟨first, hn⟩ info).pageFreeList = (unreserved n first n).head? := by
      have hlast := head_unreserved_succ (by omega) hn1
      rw [Nat.sub_add_cancel (by omega)] at hlast
      rw [hlast, ← hfree, ← hfree₅]
      rfl
    unfold Mem.FreeList
    rw [hhead]
    refine listSeg_unreserved (fun p hr => ?_) n
    have hsucc (k : Nat) (hk : k < n) (hrk : ¬Reserved first (⟨k, hk⟩ : Fin n)) :
        some ⟨k, hk⟩ = (unreserved n first (k + 1)).head? := (head_unreserved_succ hk hrk).symm
    unfold Reserved mpentryPage at hsucc hr
    simp only at hsucc
    by_cases hpf : (p : Nat) = first
    · obtain rfl : p = ⟨first, hn⟩ := Fin.ext hpf
      rw [hself, unreserved_first (by omega) (by omega)]
      exact hsucc 159 (by omega) (by omega)
    rw [hkept hr hpf]
    by_cases hp1 : (p : Nat) = 1
    · obtain rfl : p = ⟨1, h1n⟩ := Fin.ext hp1
      rw [h1, unreserved_succ_of_reserved (by omega) (.inl rfl)]
      rfl
    by_cases hp8 : (p : Nat) = 8
    · obtain rfl : p = ⟨8, h8n⟩ := Fin.ext hp8
      rw [h8, unreserved_succ_of_reserved (by omega) (.inr (.inl rfl))]
      exact hsucc 6 (by omega) (by omega)
    · obtain ⟨h, hp⟩ := hlink p (by omega) hp1 (by omega) hp8
      rw [hp, hsucc (p - 1) h (by omega), Nat.sub_add_cancel (by omega)]
  · by_cases hpf : (p : Nat) = first
    · obtain rfl : p = ⟨first, hn⟩ := Fin.ext hpf
      rw [hself, hinfo, hfirst, if_neg (by unfold Reserved mpentryPage; simp only; omega)]
      exact (href _).trans (if_neg (by simp; omega))
    have hne : p ≠ ⟨first, hn⟩ := fun h => hpf (by rw [h])
    rw [pages_setPage_of_ne _ hne, hpages]
    have hiff : Reserved first p ↔
        ((p : Nat) = 0 ∨ (p : Nat) = 7) ∨ ioPage ≤ (p : Nat) ∧ (p : Nat) < first := or_assoc.symm
    by_cases hint : ioPage ≤ (p : Nat) ∧ (p : Nat) < first
    · rw [if_pos (by omega), if_pos (hiff.mpr (.inr hint))]
    · rw [if_neg (by omega), href]
      by_cases hone : (p : Nat) = 0 ∨ (p : Nat) = 7
      · rw [if_pos hone, if_pos (hiff.mpr (.inl hone))]
      · rw [if_neg hone, if_neg fun h => (hiff.mp h).elim hone hint]

/-! ### The memory that exists -/

/-- Pages of base memory and of extended memory that nothing uses yet; base memory has
`npages_basemem` pages. -/
def Existing (npagesBasemem first : Nat) (p : Fin n) : Prop :=
  1 ≤ (p : Nat) ∧ (p : Nat) < npagesBasemem ∧ (p : Nat) ≠ mpentryPage ∨ first ≤ (p : Nat)

/-- Exactly these pages are free, and exactly they have no references. -/
def FreesExisting (npagesBasemem first : Nat) (m : Mem n) : Prop :=
  ∀ p : Fin n, (m.OnFreeList p ↔ Existing npagesBasemem first p) ∧
    ((m.pages p).ppRef = 0 ↔ Existing npagesBasemem first p)

theorem existing_ioPage_iff (hio : ioPage < first) (p : Fin n) :
    Existing ioPage first p ↔ ¬Reserved first p := by
  unfold Existing Reserved mpentryPage
  unfold ioPage at hio ⊢
  omega

/-- `page_init` does not know `npages_basemem`: it frees everything up to the I/O hole. -/
theorem pageInit_freesExisting_iff (m : Mem n) {npagesBasemem : Nat} (hlo : 8 < npagesBasemem)
    (hhi : npagesBasemem ≤ ioPage) (hio : ioPage < first) (hn : first < n) :
    ∃ m', pageInit m first = .ok m' ∧
      (FreesExisting npagesBasemem first m' ↔ npagesBasemem = ioPage) := by
  obtain ⟨m', hok, hfree, href⟩ := pageInit_spec m hio hn
  have hlist : ∀ p, m'.OnFreeList p ↔ ¬Reserved first p := fun p => by
    rw [hfree.onFreeList_iff, mem_unreserved]
    exact and_iff_right p.isLt
  refine ⟨m', hok, fun h => ?_, ?_⟩
  · -- the last page below the hole is free
    by_contra hne
    have hlast := (h ⟨ioPage - 1, by omega⟩).1
    rw [hlist] at hlast
    unfold Existing Reserved mpentryPage ioPage at hlast
    unfold ioPage at hhi hio hne
    simp only at hlast
    omega
  · rintro rfl p
    rw [hlist, href, existing_ioPage_iff hio]
    refine ⟨Iff.rfl, ?_⟩
    split_ifs with hr <;> simp [hr]

/-- A BIOS that keeps the last page of base memory for itself. -/
theorem not_freesExisting_basemem : 8 < 159 ∧ 159 ≤ ioPage ∧
    ∃ m', pageInit (n := 162) ⟨fun _ => ⟨none, 0⟩, none, fun _ _ => 0, 0⟩ 161 = .ok m' ∧
      ¬FreesExisting 159 161 m' := by
  refine ⟨by decide, by decide, ?_⟩
  obtain ⟨m', hok, hfree, href⟩ := pageInit_spec
    (⟨fun _ => ⟨none, 0⟩, none, fun _ _ => 0, 0⟩ : Mem 162) (show ioPage < 161 by decide)
    (by decide)
  refine ⟨m', hok, fun h => ?_⟩
  have hlast := (h 159).2.mp ((href 159).trans (if_neg (by decide)))
  unfold Existing at hlast
  revert hlast
  decide

theorem pageInit_freesExisting_iff_smallest : 8 < 160 ∧ 160 ≤ ioPage ∧
    ∃ m', pageInit (n := 162) ⟨fun _ => ⟨none, 0⟩, none, fun _ _ => 0, 0⟩ 161 = .ok m' ∧
      (FreesExisting 160 161 m' ↔ 160 = ioPage) :=
  ⟨by decide, by decide,
    pageInit_freesExisting_iff _ (by decide) (by decide) (by decide) (by decide)⟩

/-! ## Double frees -/

/-- `page_free` panics, or puts the page in front of the list. -/
def FreesOnce (m : Mem n) (free : List (Fin n)) (pp : Fin n) : Prop :=
  ∀ m', m.pageFree pp = .ok m' → m'.FreeList (pp :: free) ∧ (pp :: free).Nodup

/-- A free page is recognized by its link, which the last page of the list does not have. -/
theorem freesOnce_iff {free : List (Fin n)} {pp : Fin n} (h : m.FreeList free) :
    FreesOnce m free pp ↔ ¬(free.getLast? = some pp ∧ (m.pages pp).ppRef = 0) := by
  have hlast : free.getLast? = some pp ↔ pp ∈ free ∧ (m.pages pp).ppLink = none :=
    ListSeg.getLast?_eq_some_iff (by simp) h
  by_cases href : (m.pages pp).ppRef = 0
  · by_cases hlink : (m.pages pp).ppLink = none
    · have hok : m.pageFree pp = .ok { m.setPage pp { m.pages pp with ppLink := m.pageFreeList }
          with pageFreeList := some pp } := by simp [Mem.pageFree, href, hlink]
      simp only [hlast, hlink, href, and_true]
      constructor
      · intro hf hin
        exact (List.nodup_cons.mp (hf _ hok).2).1 hin
      · intro hin m' hm'
        obtain rfl := Except.ok.inj (hok.symm.trans hm')
        refine ⟨⟨rfl, ?_⟩, List.nodup_cons.mpr
          ⟨hin, ListSeg.nodup (Option.some_injective _) (by simp) h⟩⟩
        simp only [pages_setPage_self]
        exact h.congr fun a ha => by
          rw [pages_setPage_of_ne _ (ne_of_mem_of_not_mem ha hin)]
    · refine iff_of_true (fun m' hm' => ?_) fun hc => hlink (hlast.mp hc.1).2
      simp [Mem.pageFree, href, hlink] at hm'
  · refine iff_of_true (fun m' hm' => ?_) fun hc => href hc.2
    rw [Mem.pageFree, if_pos href] at hm'
    cases hm'

/-- Two pages, of which the second is the only free one. -/
def lastFree : Mem 2 where
  pages _ := ⟨none, 0⟩
  pageFreeList := some 1
  frame _ := fun _ => 0
  kernPgdir := 0

/-- The free page is freed again, and then linked to itself. -/
theorem not_freesOnce_lastFree : lastFree.FreeList [1] ∧ ¬FreesOnce lastFree [1] 1 := by
  refine ⟨by decide, fun h => ?_⟩
  have := (h _ rfl).2
  simp at this

theorem freesOnce_iff_lastFree :
    FreesOnce lastFree [1] 0 ↔ ¬(([1] : List (Fin 2)).getLast? = some 0 ∧
      (lastFree.pages 0).ppRef = 0) :=
  freesOnce_iff (by decide)

/-! ## Runs -/

/-- Memory and the pages that `page_alloc` returned and `page_free` did not take back. -/
structure Alloc (n : Nat) where
  mem : Mem n
  out : Set (Fin n)

/-- What happens to the allocator: the calls, and what callers do with their pages. -/
inductive AllocCall (n : Nat) where
  | pageAlloc (zero : Bool)
  | pageFree (pp : Fin n)
  | use (pp : Fin n) (ref : BitVec 16) (contents : Frame)

/-- Only pages that are handed out and have no references are freed, and callers write the
counters and the contents of their own pages only. -/
inductive AllocStep : Alloc n → AllocCall n → Alloc n → Prop
  | pageAlloc {m m' : Mem n} {out : Set (Fin n)} {zero : Bool} {p : Fin n} :
    m.pageAlloc zero = (some p, m') → AllocStep ⟨m, out⟩ (.pageAlloc zero) ⟨m', insert p out⟩
  | outOfMemory {m m' : Mem n} {out : Set (Fin n)} {zero : Bool} :
    m.pageAlloc zero = (none, m') → AllocStep ⟨m, out⟩ (.pageAlloc zero) ⟨m', out⟩
  | pageFree {m m' : Mem n} {out : Set (Fin n)} {p : Fin n} :
    p ∈ out → (m.pages p).ppRef = 0 → m.pageFree p = .ok m' →
      AllocStep ⟨m, out⟩ (.pageFree p) ⟨m', out \ {p}⟩
  | use {m : Mem n} {out : Set (Fin n)} {p : Fin n} {ref : BitVec 16} {contents : Frame} :
    p ∈ out → AllocStep ⟨m, out⟩ (.use p ref contents)
      ⟨(m.setPage p { m.pages p with ppRef := ref }).setFrame p contents, out⟩

/-- What an allocator promises. -/
structure AllocatorOk (first : Nat) (s : Alloc n) : Prop where
  /-- A finite list without repetition; every page that may be used is on it or handed out, and
  none is both. -/
  free : ∃ free, s.mem.FreeList free ∧ free.Nodup ∧ Disjoint {p | p ∈ free} s.out ∧
    {p | p ∈ free} ∪ s.out = {p | ¬Reserved first p}
  /-- Null is returned only when every page is handed out. -/
  exhausted : ∀ zero, (s.mem.pageAlloc zero).1 = none ↔ s.out = {p | ¬Reserved first p}
  returned : ∀ zero p, (s.mem.pageAlloc zero).1 = some p → p ∉ s.out ∧ ¬Reserved first p
  /-- Giving a page back does not panic. -/
  pageFree : ∀ p ∈ s.out, (s.mem.pages p).ppRef = 0 → ∃ m', s.mem.pageFree p = .ok m'

/-- The invariant of runs: the list has the pages that are not handed out, and the links of the
others are null. -/
def AllocInv (first : Nat) (s : Alloc n) : Prop :=
  ∃ free, s.mem.FreeList free ∧ free.Nodup ∧
    (∀ p, p ∈ free ↔ ¬Reserved first p ∧ p ∉ s.out) ∧
    ∀ p ∈ s.out, ¬Reserved first p ∧ (s.mem.pages p).ppLink = none

theorem pageAlloc_none (zero : Bool) (hl : m.pageFreeList = none) :
    m.pageAlloc zero = (none, m) := by
  unfold Mem.pageAlloc
  rw [hl]

theorem pageAlloc_some (zero : Bool) (hl : m.pageFreeList = some p) :
    (m.pageAlloc zero).1 = some p ∧
      (m.pageAlloc zero).2.pageFreeList = (m.pages p).ppLink ∧
      (m.pageAlloc zero).2.pages = Function.update m.pages p { m.pages p with ppLink := none } := by
  unfold Mem.pageAlloc
  rw [hl]
  cases zero <;> exact ⟨rfl, rfl, rfl⟩

theorem pageFree_ok (h : m.pageFree p = .ok m') :
    m'.pageFreeList = some p ∧
      m'.pages = Function.update m.pages p { m.pages p with ppLink := m.pageFreeList } := by
  unfold Mem.pageFree at h
  split_ifs at h
  obtain rfl := Except.ok.inj h
  exact ⟨rfl, rfl⟩

/-- The free list is a node and the rest, or empty. -/
theorem Mem.FreeList.cases {free : List (Fin n)} (h : m.FreeList free) :
    m.pageFreeList = none ∧ free = [] ∨ ∃ p l, m.pageFreeList = some p ∧ free = p :: l ∧
      ListSeg some (fun p => (m.pages p).ppLink) (m.pages p).ppLink l none := by
  cases free with
  | nil => exact .inl ⟨h, rfl⟩
  | cons p l => exact .inr ⟨p, l, h.1, rfl, h.2⟩

theorem AllocInv.step {s s' : Alloc n} {a : AllocCall n} (h : AllocInv first s)
    (hstep : AllocStep s a s') : AllocInv first s' := by
  obtain ⟨free, hfree, hnd, hmem, hout⟩ := h
  cases hstep with
  | @pageAlloc m m' out zero p hres =>
    obtain ⟨hl, -⟩ | ⟨q, l, hl, rfl, hseg⟩ := hfree.cases
    · rw [pageAlloc_none _ hl] at hres
      simp at hres
    obtain ⟨hq, hhead, hpages⟩ := pageAlloc_some zero hl
    rw [hres] at hq hhead hpages
    obtain rfl : p = q := Option.some.inj hq
    obtain ⟨hpl, hndl⟩ := List.nodup_cons.mp hnd
    obtain ⟨hpr, hpo⟩ := (hmem p).mp List.mem_cons_self
    refine ⟨l, ?_, hndl, fun r => ?_, fun r hr => ?_⟩
    · unfold Mem.FreeList
      rw [hhead]
      refine hseg.congr fun a ha => ?_
      rw [hpages, Function.update_of_ne (ne_of_mem_of_not_mem ha hpl)]
    · constructor
      · intro hr
        have hrp : r ≠ p := ne_of_mem_of_not_mem hr hpl
        have := (hmem r).mp (List.mem_cons_of_mem _ hr)
        exact ⟨this.1, fun hc => (Set.mem_insert_iff.mp hc).elim hrp this.2⟩
      · rintro ⟨hr, hro⟩
        have := (hmem r).mpr ⟨hr, fun hc => hro (Set.mem_insert_of_mem _ hc)⟩
        exact (List.mem_cons.mp this).resolve_left fun hc => hro (hc ▸ Set.mem_insert ..)
    · show ¬Reserved first r ∧ (m'.pages r).ppLink = none
      rw [hpages]
      by_cases hrp : r = p
      · subst hrp
        exact ⟨hpr, by rw [Function.update_self]⟩
      · rw [Function.update_of_ne hrp]
        exact hout r (hr.resolve_left hrp)
  | @outOfMemory m m' out zero hres =>
    obtain ⟨hl, -⟩ | ⟨q, l, hl, -, -⟩ := hfree.cases
    · rw [pageAlloc_none _ hl] at hres
      obtain rfl : m = m' := (Prod.mk.inj hres).2
      exact ⟨free, hfree, hnd, hmem, hout⟩
    · have hq := (pageAlloc_some zero hl).1
      rw [hres] at hq
      simp at hq
  | @pageFree m m' out p hp href hres =>
    obtain ⟨hpr, hlink⟩ : ¬Reserved first p ∧ (m.pages p).ppLink = none := hout p hp
    have hpf : p ∉ free := fun hc => ((hmem p).mp hc).2 hp
    obtain ⟨hhead, hpages⟩ := pageFree_ok hres
    refine ⟨p :: free, ?_, List.nodup_cons.mpr ⟨hpf, hnd⟩, fun r => ?_, fun r hr => ?_⟩
    · unfold Mem.FreeList
      simp only [hhead, hpages]
      refine ⟨rfl, ?_⟩
      simp only [Function.update_self]
      exact hfree.congr fun a ha => by rw [Function.update_of_ne (ne_of_mem_of_not_mem ha hpf)]
    · rw [List.mem_cons, hmem]
      by_cases hrp : r = p
      · subst hrp
        simp [hpr]
      · simp [hrp]
    · show ¬Reserved first r ∧ (m'.pages r).ppLink = none
      rw [hpages, Function.update_of_ne hr.2]
      exact hout r hr.1
  | @use m out p ref contents hp =>
    have hlink (r : Fin n) : ((m.setPage p { m.pages p with ppRef := ref }).pages r).ppLink =
        (m.pages r).ppLink := by
      by_cases hrp : r = p
      · subst hrp
        rw [pages_setPage_self]
      · rw [pages_setPage_of_ne _ hrp]
    refine ⟨free, hfree.congr fun a _ => hlink a, hnd, hmem, fun r hr => ?_⟩
    exact ⟨(hout r hr).1, (hlink r).trans (hout r hr).2⟩

theorem AllocInv.allocatorOk {s : Alloc n} (h : AllocInv first s) : AllocatorOk first s := by
  obtain ⟨free, hfree, hnd, hmem, hout⟩ := h
  have hunion : {p | p ∈ free} ∪ s.out = {p | ¬Reserved first p} := by
    ext p
    simp only [Set.mem_union, Set.mem_ofPred_eq, hmem]
    constructor
    · rintro (h | h)
      · exact h.1
      · exact (hout p h).1
    · intro h
      by_cases hp : p ∈ s.out
      · exact .inr hp
      · exact .inl ⟨h, hp⟩
  refine
    { free := ⟨free, hfree, hnd, ?_, hunion⟩
      exhausted := fun zero => ?_
      returned := fun zero p hp => ?_
      pageFree := fun p hp href => ?_ }
  · exact Set.disjoint_left.mpr fun p hp => ((hmem p).mp hp).2
  · obtain ⟨hl, rfl⟩ | ⟨q, l, hl, rfl, -⟩ := hfree.cases
    · rw [pageAlloc_none _ hl]
      exact ⟨fun _ => by simpa using hunion, fun _ => rfl⟩
    · rw [(pageAlloc_some _ hl).1]
      refine ⟨fun h => by simp at h, fun h => ?_⟩
      obtain ⟨hqr, hqo⟩ := (hmem q).mp List.mem_cons_self
      exact absurd (show q ∈ s.out by rw [h]; exact hqr) hqo
  · obtain ⟨hl, -⟩ | ⟨q, l, hl, rfl, -⟩ := hfree.cases
    · rw [pageAlloc_none _ hl] at hp
      simp at hp
    · rw [(pageAlloc_some _ hl).1] at hp
      obtain rfl := Option.some.inj hp
      have := (hmem q).mp List.mem_cons_self
      exact ⟨this.2, this.1⟩
  · simp [Mem.pageFree, href, (hout p hp).2]

/-- `page_init` succeeds, and from then on the allocator keeps its promises through any sequence
of calls. -/
theorem allocatorOk_of_reachable (m : Mem n) (hio : ioPage < first) (hn : first < n) :
    ∃ m₀, pageInit m first = .ok m₀ ∧
      ∀ s, Reachable (fun s => s = ⟨m₀, ∅⟩) AllocStep s → AllocatorOk first s := by
  obtain ⟨m₀, hok, hfree, -⟩ := pageInit_spec m hio hn
  refine ⟨m₀, hok, fun s hs => AllocInv.allocatorOk (hs.invariant ?_ fun s a s' => ?_)⟩
  · rintro s rfl
    refine ⟨_, hfree, nodup_unreserved n first n, fun p => ?_, fun p hp => absurd hp (by simp)⟩
    rw [mem_unreserved]
    simp
  · exact AllocInv.step

/-- A machine whose last page is the only one above the kernel. -/
theorem allocatorOk_smallest :
    ioPage < 161 ∧ 161 < 162 ∧
      ∃ m₀, pageInit (n := 162) ⟨fun _ => ⟨none, 0⟩, none, fun _ _ => 0, 0⟩ 161 = .ok m₀ ∧
        ∀ s, Reachable (fun s => s = ⟨m₀, ∅⟩) AllocStep s → AllocatorOk 161 s :=
  ⟨by decide, by decide, allocatorOk_of_reachable _ (by decide) (by decide)⟩

end JosKernel
