import JosKernel.Machine.Mmu

/-!
# Physical pages and page tables

The functions of `kern/pmap.c` that run after boot. `Mem n` is the state they work on, for a
machine with `n` physical pages: the array `pages[]`, the head of `page_free_list`, the contents
of every frame, and the page that holds `kern_pgdir`. A `struct PageInfo *` and the kernel
address of a page are both the page's number, a `Fin n`; a `pte_t *` is a page and an index.

Entries are whole words, so an entry can name a page beyond the end of memory: `KADDR` and
`pa2page` then panic. The translation look-aside buffers are not part of this state, so
`tlb_invalidate` leaves no trace in it.
-/
namespace JosKernel

/-- The ways in which the kernel stops. All but the last two are calls of `panic`. -/
inductive Panic where
  | paddr | kaddr | pa2page
  | pageFreeRef | pageFreeLink
  | regionAlloc | loadIcode | bootMapRegion | mmioMapRegion
  | kernelPageFault | kernelException | unhandledTrap | assertion
  | xtoi | showmappings
  /-- A null page directory is dereferenced. -/
  | nullPgdir
  /-- An element outside of an array is accessed. -/
  | outOfBounds
  deriving DecidableEq, Repr

section
variable {α β : Type} {r : Except Panic α} {f : α → Except Panic β} {b : β}

theorem bind_ok : (r >>= f) = .ok b ↔ ∃ a, r = .ok a ∧ f a = .ok b := by
  cases r with
  | error _ => simp [bind, Except.bind]
  | ok a => simp [bind, Except.bind]

end

/-! ## Error codes -/

def eBadEnv : Int := 2
def eInval : Int := 3
def eNoMem : Int := 4
def eNoFreeEnv : Int := 5
def eFault : Int := 6
def eNoSys : Int := 7
def eIpcNotRecv : Int := 8

/-! ## State -/

structure PageInfo (n : Nat) where
  ppLink : Option (Fin n)
  ppRef : BitVec 16

structure Mem (n : Nat) where
  pages : Fin n → PageInfo n
  pageFreeList : Option (Fin n)
  frame : Fin n → Frame
  kernPgdir : Fin n

variable {n : Nat}

/-- Physical address of a page. -/
def page2pa (pp : Fin n) : Word := BitVec.ofNat 32 (pp * 4096)

/-- The page of a physical address, which must be below the end of memory. -/
def pa2page (n : Nat) (pa : Word) : Except Panic (Fin n) :=
  if h : pgnum pa < n then .ok ⟨pgnum pa, h⟩ else .error .pa2page

/-- Kernel address of a page-aligned physical address. -/
def kaddr (n : Nat) (pa : Word) : Except Panic (Fin n) :=
  if h : pgnum pa < n then .ok ⟨pgnum pa, h⟩ else .error .kaddr

namespace Mem

/-- Entry `i` of the directory or table in page `p`. -/
def entry (m : Mem n) (p : Fin n) (i : Fin 1024) : Word := rd32 (m.frame p) i

def setEntry (m : Mem n) (p : Fin n) (i : Fin 1024) (w : Word) : Mem n :=
  { m with frame := Function.update m.frame p (wr32 (m.frame p) i w) }

def setFrame (m : Mem n) (p : Fin n) (f : Frame) : Mem n :=
  { m with frame := Function.update m.frame p f }

def setPage (m : Mem n) (p : Fin n) (info : PageInfo n) : Mem n :=
  { m with pages := Function.update m.pages p info }

/-- `pp->pp_ref++`, in 16 bits. -/
def incRef (m : Mem n) (pp : Fin n) : Mem n :=
  m.setPage pp { m.pages pp with ppRef := (m.pages pp).ppRef + 1 }

/-! ## The page allocator -/

def pageAlloc (m : Mem n) (zero : Bool) : Option (Fin n) × Mem n :=
  match m.pageFreeList with
  | none => (none, m)
  | some result =>
    let m := { m with pageFreeList := (m.pages result).ppLink }
    let m := m.setPage result { m.pages result with ppLink := none }
    (some result, if zero then m.setFrame result fun _ => 0 else m)

def pageFree (m : Mem n) (pp : Fin n) : Except Panic (Mem n) :=
  if (m.pages pp).ppRef ≠ 0 then .error .pageFreeRef
  else if (m.pages pp).ppLink ≠ none then .error .pageFreeLink
  else .ok { m.setPage pp { m.pages pp with ppLink := m.pageFreeList } with
    pageFreeList := some pp }

def pageDecref (m : Mem n) (pp : Fin n) : Except Panic (Mem n) :=
  let m := m.setPage pp { m.pages pp with ppRef := (m.pages pp).ppRef - 1 }
  if (m.pages pp).ppRef = 0 then m.pageFree pp else .ok m

/-! ## Page tables -/

/-- The entry for `va`, or `none` when its page table is missing and is not, or cannot be,
created. -/
def pgdirWalk (m : Mem n) (pgdir : Fin n) (va : Word) (create : Bool) :
    Except Panic (Option (Fin n × Fin 1024) × Mem n) :=
  if present (m.entry pgdir (pdx va)) then do
    let pt ← kaddr n (pteAddr (m.entry pgdir (pdx va)))
    pure (some (pt, ptx va), m)
  else if !create then pure (none, m)
  else match m.pageAlloc true with
    | (none, m) => pure (none, m)
    | (some pp, m) => do
      let m := (m.incRef pp).setEntry pgdir (pdx va) (page2pa pp ||| pteP ||| pteW ||| pteU)
      let pt ← kaddr n (pteAddr (m.entry pgdir (pdx va)))
      pure (some (pt, ptx va), m)

/-- The page mapped at `va` and the place of its entry. -/
def pageLookup (m : Mem n) (pgdir : Fin n) (va : Word) :
    Except Panic (Option (Fin n × Fin n × Fin 1024)) := do
  match (← m.pgdirWalk pgdir va false).1 with
  | none => pure none
  | some (pt, i) =>
    if present (m.entry pt i) then do
      let pp ← pa2page n (pteAddr (m.entry pt i))
      pure (some (pp, pt, i))
    else pure none

def pageRemove (m : Mem n) (pgdir : Fin n) (va : Word) : Except Panic (Mem n) := do
  match ← m.pageLookup pgdir va with
  | none => pure m
  | some (pp, pt, i) => do
    let m ← m.pageDecref pp
    pure (m.setEntry pt i 0)

/-- The return value is `0` or `-E_NO_MEM`. -/
def pageInsert (m : Mem n) (pgdir pp : Fin n) (va perm : Word) : Except Panic (Int × Mem n) := do
  match ← m.pgdirWalk pgdir va true with
  | (none, m) => pure (-eNoMem, m)
  | (some (pt, i), m) => do
    let m := m.incRef pp
    let m ← if present (m.entry pt i) then m.pageRemove pgdir va else pure m
    pure (0, m.setEntry pt i (pteAddr (page2pa pp) ||| perm ||| pteP))

/-! ## Checking user addresses -/

/-- The addresses visited by `for (p = start; p < stop; p += PGSIZE)` when both ends are
page-aligned. -/
def pageRange (start stop : Word) : List Word :=
  (List.range ((stop.toNat - start.toNat) / 4096)).map fun i => start + BitVec.ofNat 32 (i * 4096)

/-- The loop of `user_mem_check`: the first address in error, if any. -/
def userMemCheckLoop (m : Mem n) (pgdir : Fin n) (va perm : Word) :
    List Word → Except Panic (Option Word)
  | [] => pure none
  | p :: ps => do
    let ok := match (← m.pgdirWalk pgdir p false).1 with
      | none => false
      | some (pt, i) => decide (p < ulim) && present (m.entry pt i) &&
          m.entry pt i &&& perm == perm
    if ok then userMemCheckLoop m pgdir va perm ps
    else pure (some (if p < va then va else p))

/-- `none` is the return value `0`, `some a` is `-E_FAULT` with `user_mem_check_addr = a`. -/
def userMemCheck (m : Mem n) (pgdir : Fin n) (va len perm : Word) :
    Except Panic (Option Word) :=
  m.userMemCheckLoop pgdir va perm
    (pageRange (roundDown va pgsize) (roundUp (va + len) pgsize))

/-! ## The memory management unit -/

/-- The permissions of an entry for an access. -/
def allows (user write : Bool) (w : Word) : Bool :=
  present w && (!user || w &&& pteU != 0) && (!write || w &&& pteW != 0)

/-- Two-level translation. `CR0_WP` is set, so read-only pages are read-only for the kernel too. -/
def translate (m : Mem n) (cr3 : Fin n) (va : Word) (user write : Bool) :
    Option (Fin n × Fin 4096) :=
  let pde := m.entry cr3 (pdx va)
  if allows user write pde then
    if h : pgnum pde < n then
      let pte := m.entry ⟨pgnum pde, h⟩ (ptx va)
      if allows user write pte then
        if h : pgnum pte < n then some (⟨pgnum pte, h⟩, pgoff va) else none
      else none
    else none
  else none

def loadByte (m : Mem n) (cr3 : Fin n) (va : Word) (user : Bool) : Option Byte :=
  (m.translate cr3 va user false).map fun (p, o) => m.frame p o

def storeByte (m : Mem n) (cr3 : Fin n) (va : Word) (b : Byte) (user : Bool) : Option (Mem n) :=
  (m.translate cr3 va user true).map fun (p, o) =>
    m.setFrame p (Function.update (m.frame p) o b)

/-- A load (`none`) or store of one byte in user mode; it sets the accessed and dirty bits. -/
def userAccess (m : Mem n) (cr3 : Fin n) (va : Word) (store : Option Byte) : Option (Mem n) := do
  let (p, o) ← m.translate cr3 va true store.isSome
  let pde := m.entry cr3 (pdx va)
  if h : pgnum pde < n then
    let pt : Fin n := ⟨pgnum pde, h⟩
    let pte := m.entry pt (ptx va)
    let m := m.setEntry cr3 (pdx va) (pde ||| pteA)
    match store with
    | none => pure (m.setEntry pt (ptx va) (pte ||| pteA))
    | some b =>
      let m := m.setEntry pt (ptx va) (pte ||| pteA ||| pteD)
      pure (m.setFrame p (Function.update (m.frame p) o b))
  else none

end Mem

end JosKernel
