import JosKernel.Ipc.Failures

/-!
# Handlers of user exceptions

The functions `set_*_handler` of `lib/`, run by the environment `cur`. They are built on the
system call stubs of `lib/syscall.c`. A user panic never returns; its result is `none`.

All eighteen kinds of exceptions are handled on one exception stack, but each function decides by
its own variable whether that page is still to be allocated.
-/
namespace JosKernel

open Lib

variable {n : Nat} {S : Set (Fin n)} {x : Fin n → ℕ} {k k' : Kernel n} {cur e : EnvIx}
  {exc : Exc} {envid va perm : Word}

/-! ## The library -/

/-- `syscall` of `lib/syscall.c` with `check` set: a positive result is a panic. -/
def checked (res : Except Panic (Int × Kernel n)) : Except Panic (Option Int × Kernel n) :=
  res.map fun (ret, k) => (if 0 < ret then none else some ret, k)

/-- Goes on with the result, unless there was a panic. -/
def andThen {α β : Type} (res : Except Panic (Option α × Kernel n))
    (f : α → Kernel n → Except Panic (Option β × Kernel n)) :
    Except Panic (Option β × Kernel n) := do
  match ← res with
  | (none, k) => pure (none, k)
  | (some a, k) => f a k

/-- The page of the exception stack, `UXSTACKTOP-PGSIZE`. -/
def xstack : Word := uxstacktop - pgsize

/-- All eighteen functions `set_*_handler` have this form. `handlers` are the variables
`_*_handler` and `upcalls` the addresses of the entry points `_*_upcall`; the result are the
variables afterwards. -/
def setHandler (exc : Exc) (upcalls : Exc → Word) (k : Kernel n) (cur : EnvIx)
    (handlers : Exc → Word) (handler : Word) : Except Panic (Option (Exc → Word) × Kernel n) :=
  andThen
    (if handlers exc = 0 then checked (sysPageAlloc k cur 0 xstack (pteW ||| pteU ||| pteP))
      else pure (some 0, k)) fun r k =>
    if r < 0 then pure (none, k)
    else
      andThen (checked (pure (dispatchSetUpcall exc k cur 0 (upcalls exc)))) fun r k =>
        if r < 0 then pure (none, k)
        else pure (some (Function.update handlers exc handler), k)

section
variable (upcalls : Exc → Word) (k : Kernel n)

def setPgfaultHandler := setHandler .pgfault upcalls k
def setDivzeroHandler := setHandler .divzero upcalls k
def setDebugHandler := setHandler .debug upcalls k
def setNmskintHandler := setHandler .nmskint upcalls k
def setBpointHandler := setHandler .bpoint upcalls k
def setOflowHandler := setHandler .oflow upcalls k
def setBdschkHandler := setHandler .bdschk upcalls k
def setIllopcdHandler := setHandler .illopcd upcalls k
def setDvcntavlHandler := setHandler .dvcntavl upcalls k
def setDbfaultHandler := setHandler .dbfault upcalls k
def setIvldtssHandler := setHandler .ivldtss upcalls k
def setSegntprstHandler := setHandler .segntprst upcalls k
def setStkexceptionHandler := setHandler .stkexception upcalls k
def setGpfaultHandler := setHandler .gpfault upcalls k
def setFperrorHandler := setHandler .fperror upcalls k
def setAlgchkHandler := setHandler .algchk upcalls k
def setMchchkHandler := setHandler .mchchk upcalls k
def setSIMDfperrorHandler := setHandler .simdfperror upcalls k

/-- The function of the library for each kind. -/
def setHandlerOf : Exc → EnvIx → (Exc → Word) → Word →
    Except Panic (Option (Exc → Word) × Kernel n)
  | .pgfault => setPgfaultHandler upcalls k
  | .divzero => setDivzeroHandler upcalls k
  | .debug => setDebugHandler upcalls k
  | .nmskint => setNmskintHandler upcalls k
  | .bpoint => setBpointHandler upcalls k
  | .oflow => setOflowHandler upcalls k
  | .bdschk => setBdschkHandler upcalls k
  | .illopcd => setIllopcdHandler upcalls k
  | .dvcntavl => setDvcntavlHandler upcalls k
  | .dbfault => setDbfaultHandler upcalls k
  | .ivldtss => setIvldtssHandler upcalls k
  | .segntprst => setSegntprstHandler upcalls k
  | .stkexception => setStkexceptionHandler upcalls k
  | .gpfault => setGpfaultHandler upcalls k
  | .fperror => setFperrorHandler upcalls k
  | .algchk => setAlgchkHandler upcalls k
  | .mchchk => setMchchkHandler upcalls k
  | .simdfperror => setSIMDfperrorHandler upcalls k

theorem setHandlerOf_eq (exc : Exc) : setHandlerOf upcalls k exc = setHandler exc upcalls k := by
  cases exc <;> rfl

end

/-! ## Results of the calls -/

@[simp] theorem checked_error (p : Panic) : checked (n := n) (.error p) = .error p := rfl

/-- A call that returns zero. -/
@[simp] theorem checked_zero (k : Kernel n) : checked (.ok (0, k)) = .ok (some 0, k) := rfl

/-- Without memory `sys_page_alloc` returns a positive number. -/
@[simp] theorem checked_eNoMem (k : Kernel n) : checked (.ok (eNoMem, k)) = .ok (none, k) := rfl

theorem checked_neg {r : Int} (h : r < 0) (k : Kernel n) :
    checked (.ok (r, k)) = .ok (some r, k) := by
  simp [checked, Except.map, Int.not_lt.mpr h.le]

section
variable {α β : Type} (f : α → Kernel n → Except Panic (Option β × Kernel n))

@[simp] theorem andThen_error (p : Panic) : andThen (.error p) f = .error p := rfl

@[simp] theorem andThen_none (k : Kernel n) : andThen (.ok (none, k)) f = .ok (none, k) := rfl

@[simp] theorem andThen_some (a : α) (k : Kernel n) : andThen (.ok (some a, k)) f = f a k := rfl

/-- If a program returns, both of its parts have. -/
theorem andThen_ok {res : Except Panic (Option α × Kernel n)} {b : β}
    (h : andThen res f = .ok (some b, k')) : ∃ a k₁, res = .ok (some a, k₁) ∧
      f a k₁ = .ok (some b, k') := by
  rcases res with p | ⟨_ | a, k₁⟩
  · cases h
  · cases h
  · exact ⟨a, k₁, rfl, h⟩

end

/-- What registering an upcall does to the state. -/
def withUpcall (k : Kernel n) (e : EnvIx) (exc : Exc) (func : Word) : Kernel n :=
  k.modEnv e fun env => { env with envUpcall := Function.update env.envUpcall exc func }

@[simp] theorem withUpcall_mem (k : Kernel n) (e : EnvIx) (exc : Exc) (func : Word) :
    (withUpcall k e exc func).mem = k.mem := rfl

@[simp] theorem withUpcall_dirs (k : Kernel n) (e : EnvIx) (exc : Exc) (func : Word) :
    (withUpcall k e exc func).dirs = k.dirs := Kernel.dirs_modEnv _ rfl

@[simp] theorem withUpcall_spaces (k : Kernel n) (e : EnvIx) (exc : Exc) (func : Word) :
    (withUpcall k e exc func).spaces = k.spaces := Kernel.spaces_congr rfl (withUpcall_dirs ..)

theorem dispatchSetUpcall_of_some (h : envid2env k cur envid true = some e) (func : Word) :
    dispatchSetUpcall exc k cur envid func = (0, withUpcall k e exc func) := by
  rw [dispatchSetUpcall_eq, sysEnvSetUpcall, h]
  rfl

section
variable {upcalls handlers : Exc → Word} {handler : Word}

/-- The rest of the function is the same in both cases. -/
theorem setHandler_of_stack (h : (if handlers exc = 0 then
      checked (sysPageAlloc k cur 0 xstack (pteW ||| pteU ||| pteP)) else pure (some 0, k)) =
        .ok (some 0, k')) : setHandler exc upcalls k cur handlers handler =
      .ok (some (Function.update handlers exc handler), withUpcall k' cur exc (upcalls exc)) := by
  rw [setHandler, h, andThen_some,
    dispatchSetUpcall_of_some (show envid2env k' cur 0 true = some cur from rfl)]
  rfl

theorem setHandler_of_registered (h : handlers exc ≠ 0) :
    setHandler exc upcalls k cur handlers handler =
      .ok (some (Function.update handlers exc handler), withUpcall k cur exc (upcalls exc)) := by
  apply setHandler_of_stack
  rw [if_neg h]
  rfl

theorem setHandler_of_alloc (h : handlers exc = 0)
    (halloc : sysPageAlloc k cur 0 xstack (pteW ||| pteU ||| pteP) = .ok (0, k')) :
    setHandler exc upcalls k cur handlers handler =
      .ok (some (Function.update handlers exc handler), withUpcall k' cur exc (upcalls exc)) := by
  apply setHandler_of_stack
  rw [if_pos h, halloc, checked_zero]

/-- Without memory the program panics, or the kernel does. -/
theorem setHandler_of_no_mem {r : Option (Exc → Word)} (h : handlers exc = 0)
    (halloc : sysPageAlloc k cur 0 xstack (pteW ||| pteU ||| pteP) = .ok (eNoMem, k) ∨
      sysPageAlloc k cur 0 xstack (pteW ||| pteU ||| pteP) = .error .pageFreeRef)
    (hret : setHandler exc upcalls k cur handlers handler = .ok (r, k')) : r = none := by
  rw [setHandler, if_pos h] at hret
  rcases halloc with halloc | halloc
  · rw [halloc, checked_eNoMem] at hret
    cases hret
    rfl
  · rw [halloc] at hret
    cases hret

end

/-- A successful `sys_page_alloc` maps a page of zeros. -/
theorem KInv.pageAlloc_mapped (inv : KInv S x k) (he : envid2env k cur envid true = some e)
    (hperm : perm.toNat < 4096) (hva : badUserPage va = false) (hup : lacksUP perm = false)
    (h : sysPageAlloc k cur envid va perm = .ok (0, k')) :
    ∃ m pp, k' = { k with mem := m } ∧ KInv S (Function.update x pp (x pp + 1)) k' ∧
      k'.spaces = setSpace k.spaces e va (newPte pp perm) ∧
      pageOf n (newPte pp perm) = some pp ∧ m.frame pp = fun _ => 0 := by
  obtain ⟨m, rfl, eff⟩ := sysPageAlloc_memEffect (a := ⟨envid, va, perm, 0, 0⟩) h
  have hlist : k.mem.pageFreeList ≠ none := by
    intro hl
    simp [sysPageAlloc, he, hva, hup, Mem.pageAlloc, hl, pure, Except.pure, eNoMem] at h
  have hgets : GetsPage k cur .pageAlloc ⟨envid, va, perm, 0, 0⟩ :=
    ⟨rfl, by simp [he], hva, hup, hlist⟩
  have ok : MemOk k 0 cur .pageAlloc ⟨envid, va, perm, 0, 0⟩ := fun _ => hperm
  obtain ⟨hev, ⟨-, hnot, -⟩ | ⟨e', va', w, hre, -, hsp, hx⟩⟩ := eff.spec inv.mem ok
  · exact absurd hgets hnot
  cases hre with
  | @alloc _ e' pp he' hva' hperm' hpp =>
    obtain rfl := Option.some.inj (he.symm.trans he')
    rcases hx with ⟨hnot, -⟩ | ⟨q, -, -, hq, inv', hzero⟩
    · exact absurd hgets hnot
    obtain rfl := Option.some.inj (hpp.symm.trans hq)
    exact ⟨m, pp, rfl, inv.withMem inv' hev.kern, hsp, inv.mem.pageOf_newPte hperm pp, hzero⟩

/-- What `page_lookup` finds is what the entry says. -/
theorem KInv.lookedUp_eq (inv : KInv S x k) (hva : va < utop) :
    lookedUp k e va = pageOf n (k.spaces e (pdx va) (ptx va)) := by
  cases hg : k.dirs e with
  | none => simp [lookedUp, hg, Kernel.spaces, Mem.spaces]
  | some g =>
    have hsp : k.spaces e (pdx va) (ptx va) = k.mem.pte g (pdx va) (ptx va) :=
      Mem.spaces_of_dir hg _ _
    simp only [lookedUp, hg, inv.mem.pageLookup hg hva, hsp]
    cases ht : k.mem.ptab g (pdx va) with
    | none => simp [Mem.pte_of_no_ptab ht]
    | some pt => cases pageOf n (k.mem.pte g (pdx va) (ptx va)) <;> rfl

/-- A successful `sys_page_map` maps the page that it has found. -/
theorem KInv.pageMap_mapped (inv : KInv S x k) {srce dste : EnvIx} {p : Fin n}
    {srcenvid srcva dstenvid dstva : Word} (hs : envid2env k cur srcenvid true = some srce)
    (hd : envid2env k cur dstenvid true = some dste) (hsva : badUserPage srcva = false)
    (hperm : perm.toNat < 4096) (hp : pageOf n (k.spaces srce (pdx srcva) (ptx srcva)) = some p)
    (hroom : RoomFor k p dste dstva)
    (h : sysPageMap k cur srcenvid srcva dstenvid dstva perm = .ok (0, k')) :
    ∃ m, k' = { k with mem := m } ∧ KInv S x k' ∧
      k'.spaces = setSpace k.spaces dste dstva (newPte p perm) ∧
      pageOf n (newPte p perm) = some p := by
  have hlook : lookedUp k srce srcva = some p :=
    (inv.lookedUp_eq (lt_utop_of_badUserPage hsva)).trans hp
  obtain ⟨m, rfl, eff⟩ := sysPageMap_memEffect (a := ⟨srcenvid, srcva, dstenvid, dstva, perm⟩) h
  have ok : MemOk k 0 cur .pageMap ⟨srcenvid, srcva, dstenvid, dstva, perm⟩ := by
    intro e e' pp hm
    cases hs.symm.trans hm.src
    cases hd.symm.trans hm.dst
    cases hlook.symm.trans hm.page
    exact ⟨hperm, hroom⟩
  have hint : intended k cur .pageMap ⟨srcenvid, srcva, dstenvid, dstva, perm⟩ ≠ none := by
    simp [intended, hs, hd, hlook]
  obtain ⟨hev, ⟨-, -, -, hnone⟩ | ⟨e', va', w, hre, -, hsp, hx⟩⟩ := eff.spec inv.mem ok
  · exact absurd (hnone rfl) hint
  cases hre with
  | @map _ srce' dste' pp hs' hd' _ _ _ hlook' =>
    cases hs.symm.trans hs'
    cases hd.symm.trans hd'
    cases hlook.symm.trans hlook'
    rcases hx with ⟨-, inv'⟩ | ⟨q, -, hgets, -⟩
    · exact ⟨m, rfl, inv.withMem inv' hev.kern, hsp, inv.mem.pageOf_newPte hperm p⟩
    · exact absurd hgets.1 (by decide)

theorem KInv.setUpcall (inv : KInv S x k) (e : EnvIx) (exc : Exc) (func : Word) :
    KInv S x (withUpcall k e exc func) := inv.modEnv _ rfl Iff.rfl rfl

/-- Allocating the exception stack. -/
theorem KInv.stack_cases (inv : KInv S x k) (hc : k.status cur ≠ .free) :
    LacksPages k cur xstack ∧
        (sysPageAlloc k cur 0 xstack (pteW ||| pteU ||| pteP) = .ok (eNoMem, k) ∨
          sysPageAlloc k cur 0 xstack (pteW ||| pteU ||| pteP) = .error .pageFreeRef) ∨
      ¬LacksPages k cur xstack ∧
        ∃ k', sysPageAlloc k cur 0 xstack (pteW ||| pteU ||| pteP) = .ok (0, k') :=
  inv.pageAlloc_cases hc rfl (by decide) (by decide)

/-- A registration that returns has set the upcall, after an allocation or at once. -/
theorem KInv.setHandler_ok (inv : KInv S x k) (hc : k.status cur ≠ .free)
    {upcalls handlers handlers' : Exc → Word} {handler : Word}
    (h : setHandler exc upcalls k cur handlers handler = .ok (some handlers', k')) :
    ∃ m, (∃ x', KInv S x' { k with mem := m }) ∧
      k' = withUpcall { k with mem := m } cur exc (upcalls exc) := by
  by_cases hreg : handlers exc = 0
  · rcases inv.stack_cases hc with
      ⟨-, halloc⟩ | ⟨-, k₁, halloc⟩
    · cases setHandler_of_no_mem hreg halloc h
    · obtain ⟨m, pp, rfl, inv', -⟩ :=
        inv.pageAlloc_mapped (e := cur) rfl (by decide) (by decide) (by decide) halloc
      rw [setHandler_of_alloc hreg halloc] at h
      exact ⟨m, ⟨_, inv'⟩, (Prod.mk.inj (Except.ok.inj h)).2.symm⟩
  · rw [setHandler_of_registered hreg] at h
    exact ⟨k.mem, ⟨x, inv⟩, (Prod.mk.inj (Except.ok.inj h)).2.symm⟩

/-! ## What a registration leaves alone -/

/-- The contents of the exception stack page of `e`, if it is mapped. -/
def xstackFrame (k : Kernel n) (e : EnvIx) : Option Frame :=
  (pageOf n (k.spaces e (pdx xstack) (ptx xstack))).map k.mem.frame

/-- Registering a handler for `exc` has not disturbed the others: the frames on the exception
stack are as before, the stack can still be written, and the upcalls and handlers of the other
kinds are still there. -/
structure HandlersKept (exc : Exc) (cur : EnvIx) (handlers : Exc → Word) (k : Kernel n)
    (handlers' : Exc → Word) (k' : Kernel n) : Prop where
  stack : ∀ f, xstackFrame k cur = some f → xstackFrame k' cur = some f
  writable : ∀ flag ∈ [pteW, pteU], k.spaces cur (pdx xstack) (ptx xstack) &&& flag ≠ 0 →
    k'.spaces cur (pdx xstack) (ptx xstack) &&& flag ≠ 0
  upcalls : ∀ exc', exc' ≠ exc → (k'.envs cur).envUpcall exc' = (k.envs cur).envUpcall exc'
  handlers : ∀ exc', exc' ≠ exc → handlers' exc' = handlers exc'

/-- The registration finds the variable of its kind set, or nothing on the exception stack, or no
memory for another page. -/
def SparesStack (exc : Exc) (cur : EnvIx) (handlers : Exc → Word) (k : Kernel n) : Prop :=
  handlers exc ≠ 0 ∨ (∀ f, xstackFrame k cur = some f → f = fun _ => 0) ∨ LacksPages k cur xstack

theorem xstackFrame_withUpcall (k : Kernel n) (e i : EnvIx) (exc : Exc) (func : Word) :
    xstackFrame (withUpcall k e exc func) i = xstackFrame k i := by
  rw [xstackFrame, withUpcall_spaces]
  rfl

theorem withUpcall_other {exc' : Exc} (func : Word) (h : exc' ≠ exc) :
    ((withUpcall k e exc func).envs e).envUpcall exc' = (k.envs e).envUpcall exc' := by
  simp [withUpcall, h]

/-- A registration that leaves memory alone disturbs nothing. -/
theorem handlersKept_withUpcall (handlers : Exc → Word) (handler func : Word) :
    HandlersKept exc cur handlers k (Function.update handlers exc handler)
      (withUpcall k cur exc func) where
  stack f hf := by rwa [xstackFrame_withUpcall]
  writable flag _ hflag := by rwa [withUpcall_spaces]
  upcalls exc' hne := withUpcall_other func hne
  handlers exc' hne := Function.update_of_ne hne ..

/-- The flags of a new entry. -/
theorem newPte_and_ne_zero (pp : Fin n) {flag : Word} (h : perm &&& flag = flag)
    (h0 : flag ≠ 0) : newPte pp perm &&& flag ≠ 0 := by
  intro hz
  apply h0
  ext i hi
  have hbit := congrArg (fun u : Word => u[i]) hz
  have hsub := congrArg (fun u : Word => u[i]) h
  simp only [newPte, BitVec.getElem_and, BitVec.getElem_or] at hbit hsub ⊢
  grind

/-- After the first registration of a kind the exception stack is empty. -/
theorem KInv.xstackFrame_alloc (inv : KInv S x k)
    (h : sysPageAlloc k cur 0 xstack (pteW ||| pteU ||| pteP) = .ok (0, k')) :
    xstackFrame k' cur = some (fun _ => 0) ∧ k'.envs = k.envs ∧
      ∀ flag ∈ [pteW, pteU], k'.spaces cur (pdx xstack) (ptx xstack) &&& flag ≠ 0 := by
  obtain ⟨m, pp, rfl, -, hsp, hpp, hzero⟩ :=
    inv.pageAlloc_mapped (e := cur) rfl (by decide) (by decide) (by decide) h
  have hentry : ({ k with mem := m } : Kernel n).spaces cur (pdx xstack) (ptx xstack) =
      newPte pp (pteW ||| pteU ||| pteP) := by
    rw [hsp]
    exact if_pos ⟨rfl, rfl, rfl⟩
  refine ⟨?_, rfl, ?_⟩
  · rw [xstackFrame, hentry, hpp, Option.map_some, hzero]
  · intro flag hflag
    rw [hentry]
    simp only [List.mem_cons, List.not_mem_nil, or_false] at hflag
    rcases hflag with rfl | rfl
    · exact newPte_and_ne_zero pp (by decide) (by decide)
    · exact newPte_and_ne_zero pp (by decide) (by decide)

/-- Whether or not the call returns. -/
theorem KInv.handlersKept_iff (inv : KInv S x k) (hc : k.status cur ≠ .free)
    (upcalls handlers : Exc → Word) (handler : Word) :
    (∀ handlers' k', setHandler exc upcalls k cur handlers handler = .ok (some handlers', k') →
        HandlersKept exc cur handlers k handlers' k') ↔ SparesStack exc cur handlers k := by
  by_cases hreg : handlers exc = 0
  · rcases inv.stack_cases hc with
      ⟨hlacks, halloc⟩ | ⟨hroom, k₁, halloc⟩
    · refine iff_of_true (fun handlers' k' hret => ?_) (.inr (.inr hlacks))
      cases setHandler_of_no_mem hreg halloc hret
    · obtain ⟨hframe, henvs, hflags⟩ := inv.xstackFrame_alloc halloc
      rw [setHandler_of_alloc hreg halloc, SparesStack, or_iff_right (not_not_intro hreg),
        or_iff_left hroom]
      constructor
      · intro hall f hf
        have hstack := (hall _ _ rfl).stack f hf
        rw [xstackFrame_withUpcall, hframe] at hstack
        exact (Option.some.inj hstack).symm
      · intro hzero handlers' k' hret
        cases hret
        refine ⟨fun f hf => ?_, fun flag hflag _ => ?_, fun exc' hne => ?_, fun exc' hne => ?_⟩
        · rw [xstackFrame_withUpcall, hframe, hzero f hf]
        · rw [withUpcall_spaces]
          exact hflags flag hflag
        · rw [withUpcall_other _ hne, henvs]
        · exact Function.update_of_ne hne ..
  · rw [setHandler_of_registered hreg]
    refine iff_of_true (fun handlers' k' hret => ?_) (.inl hreg)
    cases hret
    exact handlersKept_withUpcall ..

/-- In a run that meets `StepOk`, a registration by a current environment disturbs no other kind
exactly under `SparesStack`. -/
theorem handlersKept_iff_sparesStack {c : Cpu}
    (h : Reachable (Boot S) (fun k a k' => StepOk k a ∧ Step k a k') k)
    (hcur : k.curenv c = some cur) (exc : Exc) (upcalls handlers : Exc → Word) (handler : Word) :
    (∀ handlers' k',
        setHandlerOf upcalls k exc cur handlers handler = .ok (some handlers', k') →
        HandlersKept exc cur handlers k handlers' k') ↔ SparesStack exc cur handlers k := by
  obtain ⟨x, inv⟩ := kInv_of_reachable h
  rw [setHandlerOf_eq]
  exact inv.handlersKept_iff (inv.cur c cur hcur) upcalls handlers handler

/-! ## A handler that registers another handler -/

/-- The function returns to its caller, with a result and a state that pass the test. -/
def returnsWith {α : Type} (p : α → Kernel n → Bool) : Except Panic (Option α × Kernel n) → Bool
  | .ok (some a, k) => p a k
  | _ => false

theorem returnsWith_iff {α : Type} {p : α → Kernel n → Bool}
    {res : Except Panic (Option α × Kernel n)} :
    returnsWith p res = true ↔ ∃ a k, res = .ok (some a, k) ∧ p a k = true := by
  rcases res with _ | ⟨_ | a, k⟩
  · simp [returnsWith]
  · simp [returnsWith]
  · simp [returnsWith]

/-- The environment has a page fault upcall and something on its exception stack. -/
def faultingRun : List Action :=
  [.start 0, sysTrap 0 4 0 0xEEBFF000 7 0 0, sysTrap 0 9 0 0x800020 0 0 0,
    .access 0 0xEEBFFFCC (some 5)]

/-- The variables of an environment that has registered a page fault handler only. -/
def onlyPgfault : Exc → Word := Function.update (fun _ => 0) .pgfault 0x800040

theorem handlersKept_faultingRun : ∃ k : Kernel 16, k.curenv 0 = some 0 ∧
    ∀ handlers' k', setHandlerOf (fun _ => 0x800020) k .pgfault 0 onlyPgfault 0x800080 =
        .ok (some handlers', k') → HandlersKept .pgfault 0 onlyPgfault k handlers' k' := by
  obtain ⟨k, hk, hp⟩ := reachable_runPlain (.init boot_small) faultingRun
    (fun k => decide (k.curenv 0 = some 0)) (by decide +kernel)
  have hcur := of_decide_eq_true hp
  exact ⟨k, hcur, (handlersKept_iff_sparesStack hk hcur ..).mpr (.inl (by decide))⟩

/-- While the page fault handler is running, the program registers a handler for `T_DIVIDE`. -/
theorem not_handlersKept_faultingRun : ∃ (k : Kernel 16) (handlers' : Exc → Word) (k' : Kernel 16),
    Reachable (Boot {p : Fin 16 | p ≠ 0}) (fun k a k' => StepOk k a ∧ Step k a k') k ∧
      k.curenv 0 = some 0 ∧ onlyPgfault .pgfault ≠ 0 ∧ (k.envs 0).envUpcall .pgfault = 0x800020 ∧
      setHandlerOf (fun _ => 0x800020) k .divzero 0 onlyPgfault 0x800080 =
        .ok (some handlers', k') ∧
      ¬HandlersKept .divzero 0 onlyPgfault k handlers' k' := by
  obtain ⟨k, hk, hp⟩ := reachable_runPlain (.init boot_small) faultingRun
    (fun k => decide (k.curenv 0 = some 0 ∧ (k.envs 0).envUpcall .pgfault = 0x800020) &&
      (xstackFrame k 0).any (fun f => f 0xFCC == 5) &&
      returnsWith (fun _ k' => (xstackFrame k' 0).all fun f => f 0xFCC == 0)
        (setHandlerOf (fun _ => 0x800020) k .divzero 0 onlyPgfault 0x800080))
    (by decide +kernel)
  simp only [Bool.and_eq_true, decide_eq_true_eq] at hp
  obtain ⟨⟨⟨hcur, hup⟩, hbefore⟩, hcall⟩ := hp
  obtain ⟨handlers', k', hok, hafter⟩ := returnsWith_iff.mp hcall
  refine ⟨k, handlers', k', hk, hcur, by decide, hup, hok, fun hun => ?_⟩
  cases hf : xstackFrame k 0 with
  | none => simp [hf] at hbefore
  | some f =>
    rw [hf, Option.any_some, beq_iff_eq] at hbefore
    rw [hun.stack f hf, Option.all_some, beq_iff_eq, hbefore] at hafter
    cases hafter

end JosKernel
