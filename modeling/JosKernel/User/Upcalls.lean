import JosKernel.Env.Dispatch
import JosKernel.Env.Stubs
import JosKernel.Env.Windows
import JosKernel.Machine.Words
import JosKernel.Pmap.MemMove

/-!
# Upcalls

An exception with a registered upcall, as the environment that raises it sees it. The kernel
pushes a `struct UTrapframe` on the exception stack and starts the stub of `lib/*entry.S`, which
calls the handler written in C and then goes back to the trap-time state. Further exceptions can be
raised in the handler and between any two instructions of the stub.

The memory of the environment is a function from addresses to bytes, so no page of it is mapped
at two addresses.
-/
namespace JosKernel

/-- The general registers without `esp`. -/
structure GenRegs where
  edi : Word
  esi : Word
  ebp : Word
  ebx : Word
  edx : Word
  ecx : Word
  eax : Word

structure UserState where
  regs : GenRegs
  esp : Word
  eip : Word
  eflags : Word
  mem : Word → Byte

/-- The state that a trap frame describes. -/
def ofTrapframe (tf : Trapframe) (f : Word → Byte) : UserState where
  regs := ⟨tf.tfRegs.regEdi, tf.tfRegs.regEsi, tf.tfRegs.regEbp, tf.tfRegs.regEbx,
    tf.tfRegs.regEdx, tf.tfRegs.regEcx, tf.tfRegs.regEax⟩
  esp := tf.tfEsp
  eip := tf.tfEip
  eflags := tf.tfEflags
  mem := f

/-- An address in the page of the exception stack. -/
def OnXStack (a : Word) : Prop := uxstacktop - pgsize ≤ a ∧ a < uxstacktop

instance (a : Word) : Decidable (OnXStack a) := inferInstanceAs (Decidable (_ ∧ _))

/-- The flags that `popfl` changes in user mode: the six arithmetic flags, `TF`, `DF`, `NT`, `AC`
and `ID`. -/
def userFlags : Word := 0x244dd5

/-! ## The stubs -/

/-- The instructions of the stubs, in their order there. -/
inductive Op where
  /-- `pushl %esp`, which pushes the old value. -/
  | pushEsp
  /-- `movl var, %eax`. -/
  | movVar (var : Word)
  /-- `call *%eax`. -/
  | callEax
  /-- `addl $d, %esp`. -/
  | addEsp (d : Word)
  /-- `movl d(%esp), %eax`. -/
  | loadEax (d : Word)
  /-- `subl $d, %eax`. -/
  | subEax (d : Word)
  /-- `movl %eax, d(%esp)`. -/
  | storeEax (d : Word)
  /-- `movl d(%esp), %ebx`. -/
  | loadEbx (d : Word)
  /-- `movl %ebx, (%eax)`. -/
  | storeEbx
  | popal
  | popfl
  /-- `popl %esp`. -/
  | popEsp
  | ret
  deriving DecidableEq

/-- `_pgfault_upcall` and the seventeen other stubs, which differ in the variable that holds the
handler only. -/
def upcallStub (var : Word) : List Op :=
  [.pushEsp, .movVar var, .callEax, .addEsp 4,
    -- the trap-time eip goes below the trap-time stack
    .loadEax 0x30, .subEax 4, .storeEax 0x30, .loadEbx 0x28, .storeEbx,
    .addEsp 8, .popal, .addEsp 4, .popfl, .popEsp, .ret]

/-- One instruction; `next` is the address of the one after it, and `flags` are the flags that
an arithmetic instruction leaves. -/
def Op.exec (next flags : Word) (s : UserState) : Op → UserState
  | .pushEsp => { s with
      esp := s.esp - 4, mem := storeWord s.mem (s.esp - 4) s.esp, eip := next }
  | .movVar var => { s with regs := { s.regs with eax := loadWord s.mem var }, eip := next }
  | .callEax => { s with
      esp := s.esp - 4, mem := storeWord s.mem (s.esp - 4) next, eip := s.regs.eax }
  | .addEsp d => { s with esp := s.esp + d, eflags := flags, eip := next }
  | .loadEax d => { s with
      regs := { s.regs with eax := loadWord s.mem (s.esp + d) }, eip := next }
  | .subEax d => { s with
      regs := { s.regs with eax := s.regs.eax - d }, eflags := flags, eip := next }
  | .storeEax d => { s with mem := storeWord s.mem (s.esp + d) s.regs.eax, eip := next }
  | .loadEbx d => { s with
      regs := { s.regs with ebx := loadWord s.mem (s.esp + d) }, eip := next }
  | .storeEbx => { s with mem := storeWord s.mem s.regs.eax s.regs.ebx, eip := next }
  | .popal => { s with
      -- the word at 12 is the esp of pushal, which popal skips
      regs := { edi := loadWord s.mem s.esp, esi := loadWord s.mem (s.esp + 4),
                ebp := loadWord s.mem (s.esp + 8), ebx := loadWord s.mem (s.esp + 16),
                edx := loadWord s.mem (s.esp + 20), ecx := loadWord s.mem (s.esp + 24),
                eax := loadWord s.mem (s.esp + 28) },
      esp := s.esp + 32, eip := next }
  | .popfl => { s with
      eflags := s.eflags &&& ~~~userFlags ||| loadWord s.mem s.esp &&& userFlags,
      esp := s.esp + 4, eip := next }
  | .popEsp => { s with esp := loadWord s.mem s.esp, eip := next }
  | .ret => { s with eip := loadWord s.mem s.esp, esp := s.esp + 4 }

/-- What is pushed has to fit on the exception stack. -/
def Op.Fits (s : UserState) : Op → Prop
  | .pushEsp | .callEax => OnXStack (s.esp - 4)
  | _ => True

/-- Where the linker has put the instructions of the stubs and the variables for the handlers. -/
structure Linked where
  addr : Exc → ℕ → Word
  var : Exc → Word
  inj : ∀ exc i j, i < 15 → j < 15 → addr exc i = addr exc j → i = j

/-! ## Runs -/

/-- Steps of a handler that was called with `esp = b`. It may write `data`, its stack below `b` and
the word that holds its argument; in registers it leaves whatever it likes. -/
structure Works (data : Set Word) (b : Word) (s s' : UserState) : Prop where
  stack : OnXStack s'.esp ∧ s'.esp ≤ b
  mem : ∀ x, s'.mem x ≠ s.mem x →
    x ∈ data ∨ (uxstacktop - pgsize ≤ x ∧ x < b) ∨ InWord (b + 4) x

/-- The state in which a stub starts. -/
def upcallEntry (upcall : Word) (tf : Trapframe) (f : Word → Byte) (va : Word) : UserState :=
  ofTrapframe { tf with tfEip := upcall, tfEsp := utfAddr tf.tfEsp }
    (storeWords f (utfAddr tf.tfEsp) (utrapframe va tf))

/-- What is being run to its end: an upcall from the exception on, a stub, or a handler that was
called with the given `esp`. -/
inductive Mode where
  | upcall
  | stub (exc : Exc)
  | handler (b : Word)

inductive Runs (L : Linked) (data : Set Word) : Mode → UserState → UserState → Prop
  /-- An exception is raised, and the frame fits on the exception stack. -/
  | raise {exc : Exc} {tf : Trapframe} {f : Word → Byte} {va : Word} {s' : UserState} :
    OnXStack (utfAddr tf.tfEsp) →
    Runs L data (.stub exc) (upcallEntry (L.addr exc 0) tf f va) s' →
    Runs L data .upcall (ofTrapframe tf f) s'
  | instr {exc : Exc} {i : ℕ} {op : Op} {flags : Word} {s s' : UserState} :
    s.eip = L.addr exc i → (upcallStub (L.var exc))[i]? = some op → op ≠ .callEax → op ≠ .ret →
    op.Fits s → Runs L data (.stub exc) (op.exec (L.addr exc (i + 1)) flags s) s' →
    Runs L data (.stub exc) s s'
  | call {exc : Exc} {i : ℕ} {s s₁ s' : UserState} :
    s.eip = L.addr exc i → (upcallStub (L.var exc))[i]? = some .callEax → Op.callEax.Fits s →
    Runs L data (.handler (s.esp - 4)) (Op.callEax.exec (L.addr exc (i + 1)) 0 s) s₁ →
    Runs L data (.stub exc) s₁ s' → Runs L data (.stub exc) s s'
  | ret {exc : Exc} {i : ℕ} {s : UserState} :
    s.eip = L.addr exc i → (upcallStub (L.var exc))[i]? = some .ret →
    Runs L data (.stub exc) s (Op.ret.exec 0 0 s)
  | work {b : Word} {s s₁ s' : UserState} :
    Works data b s s₁ → Runs L data (.handler b) s₁ s' → Runs L data (.handler b) s s'
  | back {b : Word} {s : UserState} :
    s.esp = b → Runs L data (.handler b) s (Op.ret.exec 0 0 s)
  /-- Another exception, in the stub or in the handler. -/
  | nested {md : Mode} {s s₁ s' : UserState} :
    md ≠ .upcall → OnXStack s.esp → Runs L data .upcall s s₁ → Runs L data md s₁ s' →
    Runs L data md s s'

/-! ## What an upcall restores -/

/-- The top of the exception stack at the time of the trap. -/
def xtop (esp : Word) : Word := if OnXStack esp then esp else uxstacktop

/-- The bytes that the kernel and the stub may write for a trap at `esp`. -/
def Touched (esp x : Word) : Prop :=
  (uxstacktop - pgsize ≤ x ∧ x < xtop esp) ∨ InWord (esp - 4) x

structure Restores (data : Set Word) (s s' : UserState) : Prop where
  eip : s'.eip = s.eip
  esp : s'.esp = s.esp
  regs : s'.regs = s.regs
  eflags : s'.eflags &&& userFlags = s.eflags &&& userFlags
  mem : ∀ x, s'.mem x ≠ s.mem x → x ∈ data ∨ Touched s.esp x

/-- What has to hold of a trap at `esp`: the frame fits, `esp` is not just above the exception
stack, and the handlers do not write to the exception stack or to the word below `esp`. -/
structure Raisable (data : Set Word) (esp : Word) : Prop where
  room : OnXStack (utfAddr esp)
  gap : ¬(uxstacktop ≤ esp ∧ esp < uxstacktop + 4)
  stack : ∀ x ∈ data, ¬OnXStack x
  below : ∀ x ∈ data, ¬InWord (esp - 4) x

variable {L : Linked} {data : Set Word} {exc : Exc} {tf : Trapframe} {f : Word → Byte}
  {a b esp va x : Word} {i pc : ℕ} {s s₁ s' : UserState}

/-! ## Addresses -/

theorem toNat_uxstacktop : uxstacktop.toNat = 4005560320 := rfl

theorem toNat_xbottom : (uxstacktop - pgsize).toNat = 4005556224 := rfl

theorem onXStack_iff : OnXStack a ↔ 4005556224 ≤ a.toNat ∧ a.toNat < 4005560320 := by
  unfold OnXStack
  rw [BitVec.le_def, BitVec.lt_def, toNat_uxstacktop, toNat_xbottom]

theorem inWord_toNat (ha : a.toNat + 4 ≤ 2 ^ 32) :
    InWord a x ↔ a.toNat ≤ x.toNat ∧ x.toNat < a.toNat + 4 := by
  unfold InWord
  rw [BitVec.toNat_sub]
  omega

/-- The two places of a frame. -/
theorem utfAddr_cases (esp : Word) :
    (OnXStack esp ∧ (utfAddr esp).toNat + 56 = esp.toNat ∧ (xtop esp).toNat = esp.toNat) ∨
      (¬OnXStack esp ∧ (utfAddr esp).toNat = 4005560268 ∧ (xtop esp).toNat = 4005560320) := by
  by_cases hon : OnXStack esp
  · left
    have hlow := onXStack_iff.mp hon
    refine ⟨hon, ?_, by rw [xtop, if_pos hon]⟩
    rw [show utfAddr esp = esp - 52 - 4 from if_pos hon]
    bv_omega
  · right
    refine ⟨hon, ?_, by rw [xtop, if_neg hon]; rfl⟩
    rw [show utfAddr esp = uxstacktop - 52 from if_neg hon]
    rfl

theorem slot_toNat (esp : Word) (hi : i < 13) :
    (utfAddr esp + BitVec.ofNat 32 (4 * i)).toNat = (utfAddr esp).toNat + 4 * i :=
  (utfAddr_add esp (i := 4 * i) (by rw [utfSize]; omega)).1

namespace Raisable

variable (h : Raisable data esp)
include h

theorem toNat_utf : 4005556224 ≤ (utfAddr esp).toNat ∧ (utfAddr esp).toNat + 52 ≤ 4005560320 := by
  have hroom := onXStack_iff.mp h.room
  rcases utfAddr_cases esp with ⟨hon, hu, -⟩ | ⟨-, hu, -⟩
  · have := onXStack_iff.mp hon
    omega
  · omega

/-- The word below the trap-time stack pointer is off the exception stack or above the frame. -/
theorem below_word (hx : InWord (esp - 4) x) :
    x ∉ data ∧ (OnXStack x → (utfAddr esp).toNat + 52 ≤ x.toNat) := by
  refine ⟨fun hd => h.below x hd hx, fun hon => ?_⟩
  have hxn := onXStack_iff.mp hon
  unfold InWord at hx
  rcases utfAddr_cases esp with ⟨hesp, hu, -⟩ | ⟨hesp, hu, -⟩
  · have := onXStack_iff.mp hesp
    bv_omega
  · exfalso
    have hgap := h.gap
    rw [BitVec.le_def, BitVec.lt_def, toNat_uxstacktop,
      show (uxstacktop + 4).toNat = 4005560324 from rfl] at hgap
    rw [onXStack_iff] at hesp
    bv_omega

theorem inSlot (hi : i < 13) : InWord (utfAddr esp + BitVec.ofNat 32 (4 * i)) x ↔
    (utfAddr esp).toNat + 4 * i ≤ x.toNat ∧ x.toNat < (utfAddr esp).toNat + 4 * i + 4 := by
  have hu := h.toNat_utf
  have hslot := slot_toNat esp hi
  rw [inWord_toNat (by omega), hslot]

/-- The frame and the word below the trap-time stack pointer do not overlap. -/
theorem apart (hi : i < 13) (hx : InWord (utfAddr esp + BitVec.ofNat 32 (4 * i)) x) :
    ¬InWord (esp - 4) x := by
  have hu := h.toNat_utf
  rw [h.inSlot hi] at hx
  intro hb
  have := (h.below_word hb).2 (onXStack_iff.mpr (by omega))
  omega

end Raisable

/-- A trap on the exception stack. -/
theorem touched_iff (hon : OnXStack esp) (hroom : OnXStack (utfAddr esp)) :
    Touched esp x ↔ uxstacktop - pgsize ≤ x ∧ x < esp := by
  unfold Touched
  rw [xtop, if_pos hon, or_iff_left_iff_imp]
  intro hx
  rcases utfAddr_cases esp with ⟨-, hu, -⟩ | ⟨hoff, -⟩
  · have := onXStack_iff.mp hroom
    have := onXStack_iff.mp hon
    rw [inWord_toNat (by bv_omega)] at hx
    rw [BitVec.le_def, BitVec.lt_def, toNat_xbottom]
    bv_omega
  · exact absurd hon hoff

/-! ## Inside a stub -/

/-- `esp` before instruction `pc`, with the frame at `u` and the trap at `esp`. -/
def espAt (u esp : Word) : ℕ → Word
  | 1 | 2 | 3 => u - 4
  | 10 => u + 8
  | 11 => u + 40
  | 12 => u + 44
  | 13 => u + 48
  | 14 => esp - 4
  | _ => u

/-- The first word of the frame that is still needed. -/
def firstSlot : ℕ → ℕ
  | 10 => 2
  | 11 | 12 => 11
  | 13 => 12
  | 14 => 13
  | _ => 0

/-- The trap-time `esp` in the frame; the stub lowers it by one word. -/
def savedEsp (esp : Word) (pc : ℕ) : Word := if pc < 7 then esp else esp - 4

/-- Before instruction `pc` of the stub for a trap with the frame `tf` in the memory `f`. -/
structure StubInv (L : Linked) (data : Set Word) (exc : Exc) (tf : Trapframe) (f : Word → Byte)
    (va : Word) (pc : ℕ) (s : UserState) : Prop where
  lt : pc < 15
  eip : s.eip = L.addr exc pc
  esp : s.esp = espAt (utfAddr tf.tfEsp) tf.tfEsp pc
  clean : ∀ x, s.mem x ≠ f x → x ∈ data ∨ Touched tf.tfEsp x
  saved : ∀ i, firstSlot pc ≤ i → i < 13 →
    loadWord s.mem (utfAddr tf.tfEsp + BitVec.ofNat 32 (4 * i)) =
      (utrapframe va { tf with tfEsp := savedEsp tf.tfEsp pc }).getD i 0
  eax : pc = 5 → s.regs.eax = tf.tfEsp
  lowered : 6 ≤ pc → pc ≤ 8 → s.regs.eax = tf.tfEsp - 4
  ebx : pc = 8 → s.regs.ebx = tf.tfEip
  resume : 9 ≤ pc → loadWord s.mem (tf.tfEsp - 4) = tf.tfEip
  regs : 11 ≤ pc → s.regs = (ofTrapframe tf f).regs
  eflags : 13 ≤ pc → s.eflags &&& userFlags = tf.tfEflags &&& userFlags

/-- What a nested upcall leaves alone. -/
theorem Restores.loadWord (h : Restores data s s₁) (hon : OnXStack s.esp)
    (hroom : OnXStack (utfAddr s.esp))
    (ha : ∀ x, InWord a x → x ∉ data ∧ (OnXStack x → s.esp ≤ x)) :
    loadWord s₁.mem a = loadWord s.mem a := by
  refine loadWord_congr fun x hx => ?_
  obtain ⟨hd, hle⟩ := ha x hx
  by_contra hne
  rcases h.mem x hne with hx' | hx'
  · exact hd hx'
  · obtain ⟨hlo, hhi⟩ := (touched_iff hon hroom).mp hx'
    have := hle ⟨hlo, BitVec.lt_trans hhi hon.2⟩
    exact absurd hhi (BitVec.not_lt.mpr this)

/-- Where `esp` is while the frame is in use. -/
theorem espAt_le (h : Raisable data esp) (hpc : pc ≤ 14)
    (hon : OnXStack (espAt (utfAddr esp) esp pc)) :
    (espAt (utfAddr esp) esp pc).toNat ≤ (utfAddr esp).toNat + 4 * firstSlot pc ∧
      (espAt (utfAddr esp) esp pc).toNat ≤ (utfAddr esp).toNat + 52 := by
  have hu := h.toNat_utf
  have hon' := onXStack_iff.mp hon
  rcases hpc.lt_or_eq with hlt | rfl
  · interval_cases pc <;> simp only [espAt, firstSlot] at hon' ⊢ <;> bv_omega
  · -- the trap-time stack is the exception stack
    have hesp : OnXStack (esp - 4) := hon
    have := (h.below_word (x := esp - 4) (by simp [InWord])).2 hesp
    simp only [espAt, firstSlot] at hon' ⊢
    rcases utfAddr_cases esp with ⟨-, hnum, -⟩ | ⟨-, hnum, -⟩ <;> bv_omega

theorem StubInv.nested (h : StubInv L data exc tf f va pc s) (hr : Raisable data tf.tfEsp)
    (hon : OnXStack s.esp) (hroom : OnXStack (utfAddr s.esp))
    (hres : Restores data s s₁) : StubInv L data exc tf f va pc s₁ := by
  have hu := hr.toNat_utf
  obtain ⟨hslot, htop⟩ := espAt_le hr (Nat.lt_succ_iff.mp h.lt) (h.esp ▸ hon)
  rw [← h.esp] at hslot htop
  have hslots : ∀ i, firstSlot pc ≤ i → i < 13 →
      loadWord s₁.mem (utfAddr tf.tfEsp + BitVec.ofNat 32 (4 * i)) =
        loadWord s.mem (utfAddr tf.tfEsp + BitVec.ofNat 32 (4 * i)) := by
    intro i hi h13
    refine hres.loadWord hon hroom fun x hx => ?_
    rw [hr.inSlot h13] at hx
    refine ⟨fun hd => hr.stack x hd (onXStack_iff.mpr (by omega)), fun _ => ?_⟩
    rw [BitVec.le_def]
    omega
  have hword : loadWord s₁.mem (tf.tfEsp - 4) = loadWord s.mem (tf.tfEsp - 4) := by
    refine hres.loadWord hon hroom fun x hx => ?_
    obtain ⟨hd, hle⟩ := hr.below_word hx
    refine ⟨hd, fun hx => ?_⟩
    have := hle hx
    rw [BitVec.le_def]
    omega
  refine ⟨h.lt, hres.eip.trans h.eip, hres.esp.trans h.esp, fun x hx => ?_,
    fun i hi h13 => (hslots i hi h13).trans (h.saved i hi h13), ?_, ?_, ?_, ?_, ?_, ?_⟩
  · by_cases hs : s.mem x = f x
    · rcases hres.mem x (hs ▸ hx) with hd | ht
      · exact .inl hd
      · obtain ⟨hlo, hhi⟩ := (touched_iff hon hroom).mp ht
        refine .inr (.inl ⟨hlo, ?_⟩)
        rw [BitVec.lt_def] at hhi ⊢
        rcases utfAddr_cases tf.tfEsp with ⟨-, hnum, hx⟩ | ⟨-, hnum, hx⟩ <;> omega
    · exact h.clean x hs
  · rw [hres.regs]; exact h.eax
  · rw [hres.regs]; exact h.lowered
  · rw [hres.regs]; exact h.ebx
  · rw [hword]; exact h.resume
  · rw [hres.regs]; exact h.regs
  · rw [hres.eflags]; exact h.eflags

/-- The bytes up to the end of the frame. -/
theorem Raisable.touched (h : Raisable data esp) (hlo : 4005556224 ≤ x.toNat)
    (hhi : x.toNat < (utfAddr esp).toNat + 52) : Touched esp x := by
  refine .inl ⟨?_, ?_⟩
  · rw [BitVec.le_def, toNat_xbottom]
    exact hlo
  · have := h.toNat_utf
    rw [BitVec.lt_def]
    rcases utfAddr_cases esp with ⟨-, hnum, htop⟩ | ⟨-, hnum, htop⟩ <;> omega

/-- Before the trap-time `eip` is copied. -/
theorem StubInv.early (hpc : pc < 5) (heip : s.eip = L.addr exc pc)
    (hesp : s.esp = espAt (utfAddr tf.tfEsp) tf.tfEsp pc)
    (hclean : ∀ x, s.mem x ≠ f x → x ∈ data ∨ Touched tf.tfEsp x)
    (hsaved : ∀ i, firstSlot pc ≤ i → i < 13 →
      loadWord s.mem (utfAddr tf.tfEsp + BitVec.ofNat 32 (4 * i)) =
        (utrapframe va { tf with tfEsp := savedEsp tf.tfEsp pc }).getD i 0) :
    StubInv L data exc tf f va pc s where
  lt := by omega
  eip := heip
  esp := hesp
  clean := hclean
  saved := hsaved
  eax h := absurd h (by omega)
  lowered h _ := absurd h (by omega)
  ebx h := absurd h (by omega)
  resume h := absurd h (by omega)
  regs h := absurd h (by omega)
  eflags h := absurd h (by omega)

/-- After the trap-time `eip` has been copied. -/
theorem StubInv.late (hlt : pc < 15) (hpc : 9 ≤ pc) (heip : s.eip = L.addr exc pc)
    (hesp : s.esp = espAt (utfAddr tf.tfEsp) tf.tfEsp pc)
    (hclean : ∀ x, s.mem x ≠ f x → x ∈ data ∨ Touched tf.tfEsp x)
    (hsaved : ∀ i, firstSlot pc ≤ i → i < 13 →
      loadWord s.mem (utfAddr tf.tfEsp + BitVec.ofNat 32 (4 * i)) =
        (utrapframe va { tf with tfEsp := savedEsp tf.tfEsp pc }).getD i 0)
    (hresume : loadWord s.mem (tf.tfEsp - 4) = tf.tfEip)
    (hregs : 11 ≤ pc → s.regs = (ofTrapframe tf f).regs)
    (hflags : 13 ≤ pc → s.eflags &&& userFlags = tf.tfEflags &&& userFlags) :
    StubInv L data exc tf f va pc s where
  lt := hlt
  eip := heip
  esp := hesp
  clean := hclean
  saved := hsaved
  eax h := absurd h (by omega)
  lowered _ h := absurd h (by omega)
  ebx h := absurd h (by omega)
  resume _ := hresume
  regs := hregs
  eflags := hflags

theorem StubInv.start (hr : Raisable data tf.tfEsp) :
    StubInv L data exc tf f va 0 (upcallEntry (L.addr exc 0) tf f va) := by
  have hlen : 4 * (utrapframe va tf).length = 52 := rfl
  have hu := hr.toNat_utf
  refine .early (by decide) rfl rfl (fun x hx => .inr ?_) fun i _ h13 => ?_
  · by_cases hin : (x - utfAddr tf.tfEsp).toNat < 52
    · exact hr.touched (by bv_omega) (by bv_omega)
    · exact absurd (storeWords_of_not (by omega) (by omega)) hx
  · exact loadWord_storeWords (by omega) h13

/-- A store that spares the frame. -/
theorem StubInv.saved_store (h : StubInv L data exc tf f va pc s) {w : Word}
    (hapart : ∀ i, firstSlot pc ≤ i → i < 13 → ∀ x,
      InWord (utfAddr tf.tfEsp + BitVec.ofNat 32 (4 * i)) x → ¬InWord a x) :
    ∀ i, firstSlot pc ≤ i → i < 13 →
      loadWord (storeWord s.mem a w) (utfAddr tf.tfEsp + BitVec.ofNat 32 (4 * i)) =
        (utrapframe va { tf with tfEsp := savedEsp tf.tfEsp pc }).getD i 0 := fun i hi h13 =>
  (loadWord_storeWord_of_apart (hapart i hi h13)).trans (h.saved i hi h13)

theorem StubInv.clean_store (h : StubInv L data exc tf f va pc s) {w : Word}
    (ha : ∀ x, InWord a x → Touched tf.tfEsp x) (x : Word) (hx : storeWord s.mem a w x ≠ f x) :
    x ∈ data ∨ Touched tf.tfEsp x := by
  by_cases hin : InWord a x
  · exact .inr (ha x hin)
  · rw [storeWord_of_not hin] at hx
    exact h.clean x hx

/-- Changes below the frame. -/
theorem StubInv.keep (h : StubInv L data exc tf f va pc s) (hr : Raisable data tf.tfEsp)
    {m : Word → Byte} (hm : ∀ x, m x ≠ s.mem x →
      x ∈ data ∨ 4005556224 ≤ x.toNat ∧ x.toNat < (utfAddr tf.tfEsp).toNat) :
    (∀ x, m x ≠ f x → x ∈ data ∨ Touched tf.tfEsp x) ∧
      ∀ i, firstSlot pc ≤ i → i < 13 →
        loadWord m (utfAddr tf.tfEsp + BitVec.ofNat 32 (4 * i)) =
          (utrapframe va { tf with tfEsp := savedEsp tf.tfEsp pc }).getD i 0 := by
  have hu := hr.toNat_utf
  refine ⟨fun x hx => ?_, fun i hi h13 => ?_⟩
  · by_cases hs : s.mem x = f x
    · exact (hm x (hs ▸ hx)).imp_right fun hx' => hr.touched hx'.1 (by omega)
    · exact h.clean x hs
  · rw [← h.saved i hi h13]
    refine loadWord_congr fun x hx => by_contra fun hne => ?_
    rw [hr.inSlot h13] at hx
    rcases hm x hne with hd | hx'
    · exact hr.stack x hd (onXStack_iff.mpr (by omega))
    · omega

/-- A word below the frame. -/
theorem Raisable.pushed (h : Raisable data esp) (hon : OnXStack a)
    (hle : a.toNat + 4 ≤ (utfAddr esp).toNat) (hx : InWord a x) :
    4005556224 ≤ x.toNat ∧ x.toNat < (utfAddr esp).toNat := by
  have hu := h.toNat_utf
  have hlow := onXStack_iff.mp hon
  rw [inWord_toNat (by omega)] at hx
  omega

/-- One instruction, apart from `call` and `ret`. -/
theorem StubInv.step (h : StubInv L data exc tf f va pc s) (hr : Raisable data tf.tfEsp)
    {op : Op} (flags : Word) (hop : (upcallStub (L.var exc))[pc]? = some op)
    (hcall : op ≠ .callEax) (hret : op ≠ .ret) (hfits : op.Fits s) :
    StubInv L data exc tf f va (pc + 1) (op.exec (L.addr exc (pc + 1)) flags s) := by
  have hpc : pc < 15 := (List.getElem?_eq_some_iff.mp hop).1
  have hu := hr.toNat_utf
  obtain ⟨-, -, hesp, hclean, hsaved, heax, hlow, hebx, hresume, hregs, hfl⟩ := id h
  interval_cases pc <;> cases hop
  case «0» =>
    have hesp' : s.esp = utfAddr tf.tfEsp := hesp
    have hf : OnXStack (utfAddr tf.tfEsp - 4) := hesp' ▸ hfits
    have hkeep := h.keep hr (m := storeWord s.mem (utfAddr tf.tfEsp - 4) (utfAddr tf.tfEsp))
      fun x hx => .inr (hr.pushed hf (by bv_omega) (not_imp_comm.mp storeWord_of_not hx))
    simp only [Op.exec, hesp']
    exact .early (by decide) rfl rfl hkeep.1 hkeep.2
  case «1» => exact .early (by decide) rfl hesp hclean hsaved
  case «2» => exact absurd rfl hcall
  case «3» =>
    refine .early (by decide) rfl ?_ hclean hsaved
    show s.esp + 4 = utfAddr tf.tfEsp
    rw [show s.esp = utfAddr tf.tfEsp - 4 from hesp, BitVec.sub_add_cancel]
  case «4» =>
    refine ⟨by decide, rfl, hesp, hclean, hsaved, fun _ => ?_, by simp, by simp, by simp,
      by simp, by simp⟩
    show loadWord s.mem (s.esp + 0x30) = tf.tfEsp
    rw [show s.esp = utfAddr tf.tfEsp from hesp]
    exact hsaved 12 (by decide) (by decide)
  case «5» =>
    refine ⟨by decide, rfl, hesp, hclean, hsaved, by simp, fun _ _ => ?_, by simp, by simp,
      by simp, by simp⟩
    show s.regs.eax - 4 = tf.tfEsp - 4
    rw [heax rfl]
  case «6» =>
    -- the stored word is the last one of the frame
    have hesp' : s.esp = utfAddr tf.tfEsp := hesp
    have heax' := hlow (by decide) (by decide)
    simp only [Op.exec, hesp', heax']
    refine ⟨by decide, rfl, rfl, h.clean_store fun x hx => ?_, fun i hi h13 => ?_, by simp,
      fun _ _ => heax', by simp, by simp, by simp, by simp⟩
    · have hx' := (hr.inSlot (i := 12) (by decide)).mp hx
      exact hr.touched (by omega) (by omega)
    · rcases (Nat.lt_succ_iff.mp h13).lt_or_eq with hlt | rfl
      · rw [loadWord_storeWord_of_apart, hsaved i hi h13]
        · interval_cases i <;> rfl
        · intro x hx hx'
          have := (hr.inSlot h13).mp hx
          have := (hr.inSlot (i := 12) (by decide)).mp hx'
          omega
      · exact loadWord_storeWord
  case «7» =>
    refine ⟨by decide, rfl, hesp, hclean, hsaved, by simp, fun _ _ => hlow (by decide) (by decide),
      fun _ => ?_, by simp, by simp, by simp⟩
    show loadWord s.mem (s.esp + 0x28) = tf.tfEip
    rw [show s.esp = utfAddr tf.tfEsp from hesp]
    exact hsaved 10 (by decide) (by decide)
  case «8» =>
    -- below the trap-time stack, which may be the exception stack
    have heax' := hlow (by decide) (by decide)
    have hebx' := hebx rfl
    simp only [Op.exec, heax', hebx']
    exact .late (by decide) (by decide) rfl hesp (h.clean_store fun x hx => .inr hx)
      (h.saved_store fun i _ h13 x hx => hr.apart h13 hx) loadWord_storeWord (by simp) (by simp)
  case «9» =>
    refine .late (by decide) (by decide) rfl ?_ hclean
      (fun i _ h13 => hsaved i (Nat.zero_le i) h13) (hresume (by decide)) (by simp) (by simp)
    show s.esp + 8 = utfAddr tf.tfEsp + 8
    rw [show s.esp = utfAddr tf.tfEsp from hesp]
  case «10» =>
    have hesp' : s.esp = utfAddr tf.tfEsp + 8 := hesp
    refine .late (by decide) (by decide) rfl ?_ hclean
      (fun i hi h13 => hsaved i (le_trans (by decide) hi) h13) (hresume (by decide)) (fun _ => ?_)
      (by simp)
    · show s.esp + 32 = utfAddr tf.tfEsp + 40
      rw [hesp', BitVec.add_assoc]
      rfl
    · simp only [Op.exec, hesp', BitVec.add_assoc, ofTrapframe, GenRegs.mk.injEq]
      exact ⟨hsaved 2 (by decide) (by decide), hsaved 3 (by decide) (by decide),
        hsaved 4 (by decide) (by decide), hsaved 6 (by decide) (by decide),
        hsaved 7 (by decide) (by decide), hsaved 8 (by decide) (by decide),
        hsaved 9 (by decide) (by decide)⟩
  case «11» =>
    refine .late (by decide) (by decide) rfl ?_ hclean hsaved (hresume (by decide))
      (fun _ => hregs (by decide)) (by simp)
    show s.esp + 4 = utfAddr tf.tfEsp + 44
    rw [show s.esp = utfAddr tf.tfEsp + 40 from hesp, BitVec.add_assoc]
    rfl
  case «12» =>
    have hesp' : s.esp = utfAddr tf.tfEsp + 44 := hesp
    refine .late (by decide) (by decide) rfl ?_ hclean
      (fun i hi h13 => hsaved i (le_trans (by decide) hi) h13) (hresume (by decide))
      (fun _ => hregs (by decide)) (fun _ => ?_)
    · show s.esp + 4 = utfAddr tf.tfEsp + 48
      rw [hesp', BitVec.add_assoc]
      rfl
    · show (s.eflags &&& ~~~userFlags ||| loadWord s.mem s.esp &&& userFlags) &&& userFlags = _
      have hword : loadWord s.mem (utfAddr tf.tfEsp + 44) = tf.tfEflags :=
        hsaved 11 (by decide) (by decide)
      rw [hesp', hword]
      ext i hi
      simp only [BitVec.getElem_and, BitVec.getElem_or, BitVec.getElem_not]
      cases userFlags[i] <;> simp
  case «13» =>
    have hesp' : s.esp = utfAddr tf.tfEsp + 48 := hesp
    refine .late (by decide) (by decide) rfl ?_ hclean
      (fun i hi h13 => absurd hi (not_le.mpr h13)) (hresume (by decide))
      (fun _ => hregs (by decide)) (fun _ => hfl (by decide))
    show loadWord s.mem s.esp = tf.tfEsp - 4
    rw [hesp']
    exact hsaved 12 (by decide) (by decide)
  case «14» => exact absurd rfl hret

/-- What a handler leaves that was called with `esp = b`. -/
structure Returned (data : Set Word) (b : Word) (s s' : UserState) : Prop where
  eip : s'.eip = loadWord s.mem b
  esp : s'.esp = b + 4
  mem : ∀ x, s'.mem x ≠ s.mem x →
    x ∈ data ∨ (uxstacktop - pgsize ≤ x ∧ x < b) ∨ InWord (b + 4) x

/-- The call of the handler. -/
theorem StubInv.called (h : StubInv L data exc tf f va 2 s) (hr : Raisable data tf.tfEsp)
    (hfits : OnXStack (s.esp - 4))
    (hret : Returned data (s.esp - 4) (Op.callEax.exec (L.addr exc 3) 0 s) s₁) :
    StubInv L data exc tf f va 3 s₁ := by
  have hesp : s.esp = utfAddr tf.tfEsp - 4 := h.esp
  have hu := hr.toNat_utf
  have hlow := onXStack_iff.mp hfits
  have hnum : (s.esp - 4).toNat + 8 = (utfAddr tf.tfEsp).toNat := by
    rw [hesp] at hlow ⊢
    bv_omega
  have harg : s.esp - 4 + 4 = s.esp := BitVec.sub_add_cancel ..
  have hkeep := h.keep hr (m := s₁.mem) fun x hx => by
    by_cases hs : s₁.mem x = (Op.callEax.exec (L.addr exc 3) 0 s).mem x
    · have hst : storeWord s.mem (s.esp - 4) (L.addr exc 3) x ≠ s.mem x :=
        fun he => hx (hs.trans he)
      exact .inr (hr.pushed hfits (by omega) (not_imp_comm.mp storeWord_of_not hst))
    · rcases hret.mem x hs with hd | ⟨hlo, hhi⟩ | hword
      · exact .inl hd
      · rw [BitVec.le_def, toNat_xbottom] at hlo
        rw [BitVec.lt_def] at hhi
        exact .inr (by omega)
      · rw [harg, inWord_toNat (by bv_omega)] at hword
        exact .inr (by bv_omega)
  refine .early (by decide) ?_ ?_ hkeep.1 hkeep.2
  · exact hret.eip.trans loadWord_storeWord
  · rw [hret.esp, harg]
    exact hesp

/-- The last instruction. -/
theorem StubInv.done (h : StubInv L data exc tf f va 14 s) :
    Restores data (ofTrapframe tf f) (Op.ret.exec 0 0 s) := by
  have hesp : s.esp = tf.tfEsp - 4 := h.esp
  refine ⟨?_, ?_, h.regs (by decide), h.eflags (by decide), h.clean⟩
  · show loadWord s.mem s.esp = tf.tfEip
    rw [hesp]
    exact h.resume (by decide)
  · show s.esp + 4 = tf.tfEsp
    rw [hesp, BitVec.sub_add_cancel]

/-! ## Nesting -/

theorem raisable_of_onXStack (hstack : ∀ x ∈ data, ¬OnXStack x) (hon : OnXStack esp)
    (hroom : OnXStack (utfAddr esp)) : Raisable data esp := by
  refine ⟨hroom, fun h => BitVec.not_lt.mpr h.1 hon.2, hstack, fun x hd hx => hstack x hd ?_⟩
  obtain ⟨hlo, hhi⟩ := (touched_iff hon hroom).mp (.inr hx)
  exact ⟨hlo, BitVec.lt_trans hhi hon.2⟩

/-- To the handler that it interrupts, an upcall is a step of its own. -/
theorem Restores.works (h : Restores data s s₁) (hon : OnXStack s.esp)
    (hroom : OnXStack (utfAddr s.esp)) (hle : s.esp ≤ b) : Works data b s s₁ := by
  refine ⟨by rw [h.esp]; exact ⟨hon, hle⟩, fun x hx => (h.mem x hx).imp_right fun ht => .inl ?_⟩
  obtain ⟨hlo, hhi⟩ := (touched_iff hon hroom).mp ht
  rw [BitVec.lt_def] at hhi ⊢
  rw [BitVec.le_def] at hle
  exact ⟨hlo, hhi.trans_le hle⟩

/-- Steps of the handler before it returns. -/
theorem Returned.of_works (hw : Works data b s s₁) (hr : Returned data b s₁ s')
    (hstack : ∀ x ∈ data, ¬OnXStack x) (hb : OnXStack b) (htop : b.toNat + 8 ≤ 4005560320) :
    Returned data b s s' := by
  have hbn := onXStack_iff.mp hb
  refine ⟨hr.eip.trans (loadWord_congr fun x hx => by_contra fun hne => ?_), hr.esp,
    fun x hx => ?_⟩
  · rw [inWord_toNat (by omega)] at hx
    rcases hw.mem x hne with hd | ⟨-, hlt⟩ | hword
    · exact hstack x hd (onXStack_iff.mpr (by omega))
    · rw [BitVec.lt_def] at hlt
      omega
    · rw [inWord_toNat (by bv_omega)] at hword
      bv_omega
  · by_cases hs : s₁.mem x = s.mem x
    · exact hr.mem x (hs ▸ hx)
    · exact hw.mem x hs

/-- What a run to the end amounts to. -/
def Good (L : Linked) (data : Set Word) : Mode → UserState → UserState → Prop
  | .upcall, s, s' =>
    OnXStack (utfAddr s.esp) ∧ (Raisable data s.esp → Restores data s s')
  | .stub exc, s, s' => ∀ tf f va pc, Raisable data tf.tfEsp →
    StubInv L data exc tf f va pc s → Restores data (ofTrapframe tf f) s'
  | .handler b, s, s' => (∀ x ∈ data, ¬OnXStack x) → OnXStack b → b.toNat + 8 ≤ 4005560320 →
    s.esp ≤ b → Returned data b s s'

/-- The instruction at `eip` is the one that the invariant names. -/
theorem StubInv.at_eip (h : StubInv L data exc tf f va pc s) (heip : s.eip = L.addr exc i)
    {op : Op} (hop : (upcallStub (L.var exc))[i]? = some op) : i = pc :=
  L.inj exc i pc (List.getElem?_eq_some_iff.mp hop).1 h.lt (heip.symm.trans h.eip)

theorem good_of_runs {md : Mode} (h : Runs L data md s s') : Good L data md s s' := by
  induction h with
  | raise hroom _ ih => exact ⟨hroom, fun hr => ih _ _ _ 0 hr (.start hr)⟩
  | instr heip hop hcall hret hfits _ ih =>
    intro tf f va pc hr h
    obtain rfl := h.at_eip heip hop
    exact ih tf f va _ hr (h.step hr _ hop hcall hret hfits)
  | @call exc i s s₁ s' heip hop hfits _ _ ihh ih =>
    intro tf f va pc hr h
    obtain rfl := h.at_eip heip hop
    obtain rfl : i = 2 := by
      have hlt := h.lt
      interval_cases i <;> first | rfl | cases hop
    refine ih tf f va 3 hr (h.called hr hfits (ihh hr.stack hfits ?_ (BitVec.le_refl _)))
    have hu := hr.toNat_utf
    have hesp : s.esp = utfAddr tf.tfEsp - 4 := h.esp
    rw [hesp]
    bv_omega
  | @ret exc i s heip hop =>
    intro tf f va pc hr h
    obtain rfl := h.at_eip heip hop
    obtain rfl : i = 14 := by
      have hlt := h.lt
      interval_cases i <;> first | rfl | cases hop
    exact h.done
  | work hw _ ih =>
    intro hstack hb htop _
    exact (ih hstack hb htop hw.stack.2).of_works hw hstack hb htop
  | back hesp =>
    intro _ _ _ _
    subst hesp
    exact ⟨rfl, rfl, fun x hx => absurd rfl hx⟩
  | @nested md s s₁ s' hmd hon _ _ ihu ih =>
    obtain ⟨hroom, hres⟩ := ihu
    cases md with
    | upcall => exact absurd rfl hmd
    | stub exc =>
      intro tf f va pc hr h
      have hres := hres (raisable_of_onXStack hr.stack hon hroom)
      exact ih tf f va pc hr (h.nested hr hon hroom hres)
    | handler b =>
      intro hstack hb htop hle
      have hres := hres (raisable_of_onXStack hstack hon hroom)
      have hw := hres.works hon hroom hle
      exact (ih hstack hb htop hw.stack.2).of_works hw hstack hb htop

/-! ## Runs exist -/

/-- The plain instructions. -/
theorem exists_instr (var : Word) (hi : i < 14) (h2 : i ≠ 2)
    (hfits : i = 0 → OnXStack (s.esp - 4)) :
    ∃ op, (upcallStub var)[i]? = some op ∧ op ≠ .callEax ∧ op ≠ .ret ∧ op.Fits s := by
  interval_cases i
  case «0» => exact ⟨_, rfl, by simp, by simp, hfits rfl⟩
  case «2» => exact absurd rfl h2
  all_goals exact ⟨_, rfl, by simp, by simp, trivial⟩

/-- The stub can go on from any of its instructions; here the handler returns at once. -/
theorem StubInv.runs (h : StubInv L data exc tf f va pc s) (hr : Raisable data tf.tfEsp)
    (hroom : OnXStack (utfAddr tf.tfEsp - 8)) : ∃ s', Runs L data (.stub exc) s s' := by
  have hpc : pc ≤ 14 := Nat.lt_succ_iff.mp h.lt
  have hpush : OnXStack (utfAddr tf.tfEsp - 4) := by
    have hu := hr.toNat_utf
    rw [onXStack_iff] at hroom ⊢
    bv_omega
  induction hpc using Nat.decreasingInduction generalizing s with
  | self => exact ⟨_, .ret h.eip rfl⟩
  | of_succ i hi ih =>
    by_cases hcall : i = 2
    · subst hcall
      have hesp : s.esp = utfAddr tf.tfEsp - 4 := h.esp
      have hfits : OnXStack (s.esp - 4) := by
        rw [hesp, BitVec.sub_sub]
        exact hroom
      have hback : Returned data (s.esp - 4) (Op.callEax.exec (L.addr exc 3) 0 s)
          (Op.ret.exec 0 0 (Op.callEax.exec (L.addr exc 3) 0 s)) :=
        ⟨rfl, rfl, fun x hx => absurd rfl hx⟩
      obtain ⟨s', hs'⟩ := ih (h.called hr hfits hback)
      exact ⟨s', .call h.eip rfl hfits (.back rfl) hs'⟩
    · obtain ⟨op, hop, hne, hret, hfits⟩ := exists_instr (s := s) (L.var exc) hi hcall (by
        rintro rfl
        rw [show s.esp = utfAddr tf.tfEsp from h.esp]
        exact hpush)
      obtain ⟨s', hs'⟩ := ih (h.step hr 0 hop hne hret hfits)
      exact ⟨s', .instr h.eip hop hne hret hfits hs'⟩

/-! ## The kernel's part -/

/-- `f` is what the kernel reads through `g` in the pages that are mapped below `UTOP`. -/
def Mem.Reads {n : Nat} (m : Mem n) (g : Fin n) (f : Word → Byte) : Prop :=
  ∀ a < utop, present (m.pte g (pdx a) (ptx a)) = true → m.loadByte g a false = some (f a)

section
variable {n : Nat} {S : Set (Fin n)} {ι : Type} [Fintype ι] {dirs : ι → Option (Fin n)}
  {x : Fin n → ℕ} {m m' : Mem n} {e : ι} {g p : Fin n} {a w : Word} {byte : Byte} {ws : List Word}

theorem MemInv.loadByte_mapped (inv : MemInv S dirs x ∅ m) (he : dirs e = some g) (ha : a < utop)
    (hp : pageOf n (m.pte g (pdx a) (ptx a)) = some p) :
    m.loadByte g a false = some (m.frame p (pgoff a)) := by
  have hall : Mem.allows false false (m.pte g (pdx a) (ptx a)) = true := by
    simp [Mem.allows, (pageOf_eq_some.mp hp).1]
  rw [Mem.loadByte, inv.translate_eq he ha, if_pos hall, hp]
  rfl

/-- What the kernel reads is one such function. -/
theorem MemInv.reads_self (inv : MemInv S dirs x ∅ m) (he : dirs e = some g) :
    m.Reads g fun a => (m.loadByte g a false).getD 0 := by
  intro a ha hpr
  obtain ⟨p, hp, -⟩ := inv.page_of_present he hpr
  show m.loadByte g a false = some ((m.loadByte g a false).getD 0)
  rw [inv.loadByte_mapped he ha hp]
  rfl

omit [Fintype ι] in
/-- A single page is mapped once. -/
theorem mappedOnce_single {d₀ t₀ : Fin 1024} (he : dirs e = some g)
    (hd : ∀ d, m.ptab g d ≠ none → d = d₀)
    (ht : ∀ t, pageOf n (m.pte g d₀ t) ≠ none → t = t₀) : MappedOnce n (m.spaces dirs e) := by
  have single : ∀ d t p, pageOf n (m.pte g d t) = some p → d = d₀ ∧ t = t₀ := by
    intro d t p hp
    have hdd : d = d₀ := hd d fun hnone => by
      rw [Mem.pte_of_no_ptab hnone] at hp
      simp [pageOf, present] at hp
    subst hdd
    exact ⟨rfl, ht t fun hnone => by rw [hp] at hnone; cases hnone⟩
  intro d t d' t' p hp hp'
  rw [Mem.spaces_of_dir he] at hp hp'
  obtain ⟨rfl, rfl⟩ := single d t p hp
  exact single d' t' p hp'

/-- A byte store changes one byte of what is read. -/
theorem MemInv.reads_storeByte (inv : MemInv S dirs x ∅ m) (he : dirs e = some g)
    (once : MappedOnce n (m.spaces dirs e)) (h : m.Reads g f) (ha : a < utop)
    (hst : m.storeByte g a byte false = some m') :
    MemInv S dirs x ∅ m' ∧ m'.spaces dirs = m.spaces dirs ∧
      m'.Reads g (Function.update f a byte) := by
  obtain ⟨inv', hsp, -⟩ := inv.storeByte he ha hst
  refine ⟨inv', hsp, fun a' ha' hpr => ?_⟩
  have hpte : ∀ b, m'.pte g (pdx b) (ptx b) = m.pte g (pdx b) (ptx b) := fun b => by
    rw [← Mem.spaces_of_dir he, hsp, Mem.spaces_of_dir he]
  rw [hpte] at hpr
  obtain ⟨q, hq, -⟩ := inv.page_of_present he hpr
  have hold := (inv.loadByte_mapped he ha' hq).symm.trans (h a' ha' hpr)
  rw [inv'.loadByte_mapped he ha' ((congrArg _ (hpte a')).trans hq)]
  -- the byte that was stored
  rw [Mem.storeByte, inv.translate_eq he ha] at hst
  split_ifs at hst with hall
  · obtain ⟨p, hp, -⟩ := inv.page_of_present he (Mem.present_of_allows hall)
    rw [hp] at hst
    obtain rfl := Option.some.inj hst
    by_cases hqp : q = p
    · subst hqp
      obtain ⟨hd, ht⟩ := once _ _ _ _ _ ((Mem.spaces_of_dir he _ _).symm ▸ hp)
        ((Mem.spaces_of_dir he _ _).symm ▸ hq)
      by_cases ho : pgoff a' = pgoff a
      · obtain rfl := eq_of_indices hd ht ho
        simp [Mem.setFrame]
      · have hne : a' ≠ a := fun c => ho (by rw [c])
        simp [Mem.setFrame, Function.update_of_ne ho, Function.update_of_ne hne,
          Option.some.inj hold]
    · have hne : a' ≠ a := by
        rintro rfl
        exact hqp (Option.some.inj (hq.symm.trans hp))
      simp [Mem.setFrame, Function.update_of_ne hqp, Function.update_of_ne hne,
        Option.some.inj hold]
  · cases hst

theorem MemInv.reads_kstoreWord (inv : MemInv S dirs x ∅ m) (he : dirs e = some g)
    (once : MappedOnce n (m.spaces dirs e)) (h : m.Reads g f) (ha : a.toNat + 4 ≤ utop.toNat)
    (hst : JosKernel.kstoreWord m g a w = some m') :
    MemInv S dirs x ∅ m' ∧ m'.spaces dirs = m.spaces dirs ∧ m'.Reads g (storeWord f a w) := by
  have hlt : a < utop ∧ a + 1 < utop ∧ a + 2 < utop ∧ a + 3 < utop := by
    rw [toNat_utop] at ha
    simp only [BitVec.lt_def, toNat_utop]
    bv_omega
  simp only [JosKernel.kstoreWord, Option.bind_eq_bind, Option.bind_eq_some_iff] at hst
  obtain ⟨m₁, h₁, m₂, h₂, m₃, h₃, h₄⟩ := hst
  obtain ⟨inv₁, hsp₁, hr₁⟩ := inv.reads_storeByte he once h hlt.1 h₁
  obtain ⟨inv₂, hsp₂, hr₂⟩ := inv₁.reads_storeByte he (hsp₁ ▸ once) hr₁ hlt.2.1 h₂
  obtain ⟨inv₃, hsp₃, hr₃⟩ := inv₂.reads_storeByte he (hsp₂ ▸ hsp₁ ▸ once) hr₂ hlt.2.2.1 h₃
  obtain ⟨inv₄, hsp₄, hr₄⟩ := inv₃.reads_storeByte he (hsp₃ ▸ hsp₂ ▸ hsp₁ ▸ once) hr₃ hlt.2.2.2 h₄
  refine ⟨inv₄, hsp₄.trans (hsp₃.trans (hsp₂.trans hsp₁)), ?_⟩
  rw [storeWord_eq_update]
  exact hr₄

theorem MemInv.reads_kstoreWords (inv : MemInv S dirs x ∅ m) (he : dirs e = some g)
    (once : MappedOnce n (m.spaces dirs e)) (h : m.Reads g f)
    (ha : a.toNat + 4 * ws.length ≤ utop.toNat) (hst : JosKernel.kstoreWords m g a ws = some m') :
    m'.spaces dirs = m.spaces dirs ∧ m'.Reads g (storeWords f a ws) := by
  induction ws generalizing m f a with
  | nil =>
    obtain rfl := Option.some.inj hst
    exact ⟨rfl, h⟩
  | cons w ws ih =>
    simp only [JosKernel.kstoreWords, Option.bind_eq_bind, Option.bind_eq_some_iff] at hst
    obtain ⟨m₁, h₁, h₂⟩ := hst
    rw [List.length_cons, toNat_utop] at ha
    obtain ⟨inv₁, hsp₁, hr₁⟩ := inv.reads_kstoreWord he once h (by rw [toNat_utop]; omega) h₁
    have hnext : (a + 4).toNat + 4 * ws.length ≤ utop.toNat := by
      rw [toNat_utop]
      bv_omega
    obtain ⟨hsp₂, hr₂⟩ := ih inv₁ (hsp₁ ▸ once) hr₁ hnext h₂
    exact ⟨hsp₂.trans hsp₁, hr₂⟩

end

/-- The environment has been sent to its upcall; in registers and memory it finds what the
environment's own view of an exception says, and its address space is what it was. -/
structure EntersUpcall {n : Nat} (k : Kernel n) (c : Cpu) (cur : EnvIx) (exc : Exc)
    (tf : Trapframe) (f : Word → Byte) (va : Word) (k' : Kernel n) : Prop where
  same : k'.curenv c = some cur
  mode : (k'.cpus c).cpuMode = .user
  dirs : k'.dirs = k.dirs
  spaces : k'.mem.spaces k'.dirs = k.mem.spaces k.dirs
  state : ∃ f', (∀ g, k'.dirs cur = some g → k'.mem.Reads g f') ∧
    ofTrapframe (k'.envs cur).envTf f' = upcallEntry ((k.envs cur).envUpcall exc) tf f va

/-- The kernel's delivery of an exception, in any run: the environment is gone, or it has entered
its upcall. -/
theorem enters_of_trap {n : Nat} {S : Set (Fin n)} {k k' : Kernel n} {c : Cpu} {cur : EnvIx}
    {io : Inputs} (hk : Lib.Reachable (Boot S) (fun k a k' => StepOk k a ∧ Step k a k') k)
    (hc : k.curenv c = some cur) (once : MappedOnce n (k.mem.spaces k.dirs cur))
    (hf : ∀ g, k.dirs cur = some g → k.mem.Reads g f) (hcs : tf.tfCs &&& 3 = 3)
    (hno : tf.tfTrapno = trapNo exc) (h : trap k c tf io = .ok k') :
    k'.status cur = .free ∨ EntersUpcall k c cur exc tf f io.cr2 k' := by
  obtain ⟨xs, inv⟩ := kInv_of_reachable hk
  have hexc : Exc.ofTrapno tf.tfTrapno.toNat = some exc := by rw [hno, ofTrapno_trapNo]
  have hgone : ∀ {k₀ k₁}, envFree k₀ c cur = .ok k₁ →
      Scheduled (k₁.modCpu c fun cpu => { cpu with cpuEnv := none }) c k' →
      k'.status cur = .free := by
    intro k₀ k₁ free sched
    obtain ⟨m, hslots⟩ := SameSlots.freeSelf free sched
    rw [hslots.free, freed_status, if_pos rfl]
  obtain ⟨cur', hc', htr⟩ := trap_trapped hcs h
  obtain rfl := Option.some.inj (hc.symm.trans hc')
  cases htr with
  | zombie _ free sched => exact .inl (hgone free sched)
  | destroy _ _ free sched => exact .inl (hgone free sched)
  | @upcall exc' g m _ _ hexc' _ hg _ store run =>
    right
    obtain rfl := Option.some.inj (hexc.symm.trans hexc')
    have hdir := inv.upcall_dir hc store
    obtain ⟨hsp, hreads⟩ := inv.mem.reads_kstoreWords hdir once (hf _ hdir)
      (utfAddr_le tf.tfEsp io.cr2 tf) store
    have hdirs : k'.dirs = k.dirs :=
      run.dirs.trans ((Kernel.dirs_modEnv _ rfl).trans (saved_dirs k cur tf))
    have hmem : k'.mem = m := run.mem
    refine ⟨run.cur, run.mode, hdirs, by rw [hdirs, hmem, hsp],
      storeWords f (utfAddr tf.tfEsp) (utrapframe io.cr2 tf), fun g' hg' => ?_, ?_⟩
    · rw [hdirs, hdir] at hg'
      obtain rfl := Option.some.inj hg'
      rw [hmem]
      exact hreads
    · have htf : (k'.envs cur).envTf =
          { tf with tfEip := (k.envs cur).envUpcall exc, tfEsp := utfAddr tf.tfEsp } := by
        rw [envTf_of_ran run]
        simp [upcalled, saved]
      rw [htf]
      rfl
  | nosys _ hno' => rw [hno'] at hexc; cases hexc
  | call _ hno' => rw [hno'] at hexc; cases hexc
  | leave _ hno' => rw [hno'] at hexc; cases hexc
  | spurious _ hno' => rw [hno'] at hexc; cases hexc
  | timer _ hno' => rw [hno'] at hexc; cases hexc

/-- The environment of the small machine has a page fault upcall and an exception stack. -/
theorem enters_of_trap_faultRun : ∃ (k k' : Kernel 16) (f : Word → Byte),
    k.curenv 0 = some 0 ∧ (k.envs 0).envUpcall .pgfault = 0x800020 ∧
      EntersUpcall k 0 0 .pgfault (faultAt 0xeebfdfc0) f 0 k' := by
  obtain ⟨k, hk, hp⟩ := reachable_runPlain (.init boot_small) (faultRun 0xeebff000)
    (fun k => decide (k.curenv 0 = some 0 ∧ (k.envs 0).envUpcall .pgfault = 0x800020) &&
      ((k.dirs 0).all fun g : Fin 16 => decide ((∀ d, k.mem.ptab g d ≠ none → d = 954) ∧
        ∀ t, pageOf 16 (k.mem.pte g 954 t) ≠ none → t = 1023)) &&
      (trap k 0 (faultAt 0xeebfdfc0) ⟨0, 0⟩).toOption.any fun k' : Kernel 16 =>
        decide (k'.status 0 ≠ .free)) (by decide +kernel)
  rw [Bool.and_eq_true, Bool.and_eq_true, decide_eq_true_eq, Option.any_eq_true] at hp
  obtain ⟨⟨⟨hc, hup⟩, hlone⟩, k', hk', hst⟩ := hp
  have htrap : trap k 0 (faultAt 0xeebfdfc0) ⟨0, 0⟩ = .ok k' := by
    cases h : trap k 0 (faultAt 0xeebfdfc0) ⟨0, 0⟩ with
    | error p => rw [h] at hk'; cases hk'
    | ok k₁ => rw [h] at hk'; exact congrArg _ (Option.some.inj hk')
  obtain ⟨xs, inv⟩ := kInv_of_reachable hk
  obtain ⟨g, hg⟩ := inv.dir_of_live (inv.cur 0 0 hc)
  have hreads : ∀ g', k.dirs 0 = some g' →
      k.mem.Reads g' fun a => (k.mem.loadByte g a false).getD 0 := by
    intro g' hg'
    obtain rfl := Option.some.inj (hg.symm.trans hg')
    exact inv.mem.reads_self hg
  rw [hg, Option.all_some, decide_eq_true_eq] at hlone
  have hno : (faultAt 0xeebfdfc0).tfTrapno = trapNo .pgfault := rfl
  have h := enters_of_trap hk hc (mappedOnce_single hg hlone.1 hlone.2) hreads rfl hno htrap
  exact ⟨k, k', _, hc, hup, h.resolve_left (of_decide_eq_true hst)⟩

/-! ## Upcalls as a whole -/

/-- An upcall and all exceptions that are raised on the way end in the trap-time state. What is
written in between lies on the exception stack, below its trap-time top, or in the word below the
trap-time stack pointer, apart from what the handlers written in C do with their data. -/
theorem restores_of_runs (h : Runs L data .upcall s s') (hr : Raisable data s.esp) :
    Restores data s s' :=
  (good_of_runs h).2 hr

/-- The stubs one after the other. -/
def tinyLayout : Linked where
  addr exc i := 0x800000 + 64 * trapNo exc + BitVec.ofNat 32 i
  var exc := 0x900000 + 4 * trapNo exc
  inj := by
    intro exc i j hi hj h
    have hij := congrArg BitVec.toNat ((BitVec.add_right_inj _).mp h)
    simp only [BitVec.toNat_ofNat] at hij
    omega

/-- A page fault on the ordinary stack, and a breakpoint on the first instruction of its stub. -/
theorem restores_nestedTwice : ∃ s', Runs tinyLayout ∅ .upcall
    (ofTrapframe (faultAt 0xeebfdfc0) fun _ => 0) s' ∧
    Restores ∅ (ofTrapframe (faultAt 0xeebfdfc0) fun _ => 0) s' := by
  have hr : Raisable ∅ (faultAt 0xeebfdfc0).tfEsp :=
    ⟨by decide, by decide, by simp, by simp⟩
  have hr' : Raisable ∅ (utfAddr (faultAt 0xeebfdfc0).tfEsp) :=
    ⟨by decide, by decide, by simp, by simp⟩
  have hstart : StubInv tinyLayout ∅ .pgfault (faultAt 0xeebfdfc0) (fun _ => 0) 0 0 _ := .start hr
  obtain ⟨s₁, hs₁⟩ : ∃ s₁, Runs tinyLayout ∅ (.stub .bpoint)
    (upcallEntry (tinyLayout.addr .bpoint 0)
      { faultAt 0xeebfdfc0 with
        tfEip := tinyLayout.addr .pgfault 0, tfEsp := utfAddr (faultAt 0xeebfdfc0).tfEsp }
      (storeWords (fun _ => 0) _ _) 0) s₁ := StubInv.runs (.start hr') hr' (by decide)
  have hin : Runs tinyLayout ∅ .upcall
      (upcallEntry (tinyLayout.addr .pgfault 0) (faultAt 0xeebfdfc0) (fun _ => 0) 0) s₁ :=
    .raise hr'.room hs₁
  have hon : OnXStack (utfAddr (faultAt 0xeebfdfc0).tfEsp) := by decide
  obtain ⟨s', hs'⟩ := (hstart.nested hr hon hr'.room (restores_of_runs hin hr')).runs hr (by decide)
  have hrun : Runs tinyLayout ∅ .upcall (ofTrapframe (faultAt 0xeebfdfc0) fun _ => 0) s' :=
    .raise hr.room (.nested (by simp) hon hin hs')
  exact ⟨s', hrun, restores_of_runs hrun hr⟩

end JosKernel
