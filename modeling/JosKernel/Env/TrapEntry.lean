import JosKernel.Env.Trap

/-!
# Entry stubs

How a trap frame comes about: the push of the hardware, the stubs and `_alltraps` of
`kern/trapentry.S`, and the descriptor table that `trap_init` fills. The stack is seen from its
top, so that a stub that counts the words of the hardware wrongly makes `trap` read every field
of the hardware from its neighbour, and the last one from above the stack.
-/
namespace JosKernel

/-! ## Processor -/

inductive Seg where
  | cs | ds | es | ss
  deriving DecidableEq, Repr

/-- Selectors of `inc/memlayout.h`. -/
def gdKT : BitVec 16 := 0x08
def gdKD : BitVec 16 := 0x10
def gdUT : BitVec 16 := 0x18

/-- The general registers other than the stack pointer. -/
structure Gprs where
  edi : Word
  esi : Word
  ebp : Word
  ebx : Word
  edx : Word
  ecx : Word
  eax : Word

/-- Registers, and the words at and above the stack pointer. -/
structure Core where
  gprs : Gprs
  eip : Word
  eflags : Word
  esp : Word
  seg : Seg → BitVec 16
  stack : ℕ → Word

/-- The instructions of the stubs and of `_alltraps`. -/
inductive Instr where
  | pushl (v : Word)
  | pushSeg (s : Seg)
  | pushal
  | pushEsp
  | movEax (v : Word)
  /-- `movl %eax` to a segment register. -/
  | movSeg (s : Seg)
  deriving DecidableEq, Repr

def selWord (pad sel : BitVec 16) : Word := pad ++ sel

@[simp] theorem setWidth_selWord (pad sel : BitVec 16) : (selWord pad sel).setWidth 16 = sel :=
  BitVec.setWidth_append_eq_right

namespace Core

def push (k : Core) (v : Word) : Core :=
  { k with esp := k.esp - 4, stack := fun | 0 => v | i + 1 => k.stack i }

def setSeg (k : Core) (s : Seg) (v : BitVec 16) : Core :=
  { k with seg := Function.update k.seg s v }

/-- The CPU after a switch to another stack. -/
def onStack (k : Core) (esp : Word) (stack : ℕ → Word) : Core :=
  { k with esp := esp, stack := stack }

-- `(rfl)`, so that proofs use these as equations and do not unfold the stack pointer
@[simp] theorem push_stack_zero (k : Core) (v : Word) : (k.push v).stack 0 = v := (rfl)
@[simp] theorem push_stack_succ (k : Core) (v : Word) (i : ℕ) :
    (k.push v).stack (i + 1) = k.stack i := (rfl)
@[simp] theorem push_esp (k : Core) (v : Word) : (k.push v).esp = k.esp - 4 := (rfl)
@[simp] theorem push_gprs (k : Core) (v : Word) : (k.push v).gprs = k.gprs := (rfl)
@[simp] theorem push_seg (k : Core) (v : Word) : (k.push v).seg = k.seg := (rfl)
@[simp] theorem setSeg_stack (k : Core) (s : Seg) (v : BitVec 16) :
    (k.setSeg s v).stack = k.stack := (rfl)
@[simp] theorem setSeg_esp (k : Core) (s : Seg) (v : BitVec 16) :
    (k.setSeg s v).esp = k.esp := (rfl)
@[simp] theorem setSeg_gprs (k : Core) (s : Seg) (v : BitVec 16) :
    (k.setSeg s v).gprs = k.gprs := (rfl)
@[simp] theorem onStack_gprs (k : Core) (esp : Word) (stack : ℕ → Word) :
    (k.onStack esp stack).gprs = k.gprs := (rfl)
@[simp] theorem onStack_seg (k : Core) (esp : Word) (stack : ℕ → Word) :
    (k.onStack esp stack).seg = k.seg := (rfl)

-- the lemmas above say all about it
attribute [irreducible] push

/-- A selector is pushed as a word, whose upper half is not specified. -/
def pushSeg (k : Core) (pad : Seg → BitVec 16) (s : Seg) : Core :=
  k.push (selWord (pad s) (k.seg s))

/-- `pushal` stores the stack pointer as it was before. -/
def pushal (k : Core) : Core :=
  (((((((k.push k.gprs.eax).push k.gprs.ecx).push k.gprs.edx).push k.gprs.ebx).push
    k.esp).push k.gprs.ebp).push k.gprs.esi).push k.gprs.edi

def exec (pad : Seg → BitVec 16) (k : Core) : Instr → Core
  | .pushl v => k.push v
  | .pushSeg s => k.pushSeg pad s
  | .pushal => k.pushal
  | .pushEsp => k.push k.esp
  | .movEax v => { k with gprs := { k.gprs with eax := v } }
  | .movSeg s => k.setSeg s (k.gprs.eax.setWidth 16)

def run (pad : Seg → BitVec 16) (k : Core) (code : List Instr) : Core := code.foldl (exec pad) k

/-- The words at address `p`, which is at or above the stack pointer. -/
def words (k : Core) (p : Word) : ℕ → Word := fun i => k.stack ((p - k.esp).toNat / 4 + i)

end Core

/-- The fields of a `struct Trapframe` in memory. -/
def Trapframe.ofWords (w : ℕ → Word) : Trapframe where
  tfRegs := ⟨w 0, w 1, w 2, w 3, w 4, w 5, w 6, w 7⟩
  tfEs := (w 8).setWidth 16
  tfDs := (w 9).setWidth 16
  tfTrapno := w 10
  tfErr := w 11
  tfEip := w 12
  tfCs := (w 13).setWidth 16
  tfEflags := w 14
  tfEsp := w 15
  tfSs := (w 16).setWidth 16

/-! ## Stubs -/

/-- For traps where the CPU pushes an error code. -/
def trapHandlerAuto (num : Word) : List Instr := [.pushl num]

/-- For the others: a `0` takes the place of the error code. -/
def trapHandlerNoecAuto (num : Word) : List Instr := [.pushl 0, .pushl num]

/-- The array `t_handler`. An entry made by `PADDING` is `none`. -/
def tHandler : List (Option (List Instr)) :=
  [some (trapHandlerNoecAuto 0), some (trapHandlerNoecAuto 1), some (trapHandlerNoecAuto 2),
   some (trapHandlerNoecAuto 3), some (trapHandlerNoecAuto 4), some (trapHandlerNoecAuto 5),
   some (trapHandlerNoecAuto 6), some (trapHandlerNoecAuto 7), some (trapHandlerAuto 8),
   none,
   some (trapHandlerAuto 10), some (trapHandlerAuto 11), some (trapHandlerAuto 12),
   some (trapHandlerAuto 13), some (trapHandlerAuto 14),
   none,
   some (trapHandlerNoecAuto 16), some (trapHandlerAuto 17), some (trapHandlerAuto 18),
   some (trapHandlerAuto 19), some (trapHandlerNoecAuto 48),
   some (trapHandlerNoecAuto 32), some (trapHandlerNoecAuto 33), some (trapHandlerNoecAuto 34),
   some (trapHandlerNoecAuto 35), some (trapHandlerNoecAuto 36), some (trapHandlerNoecAuto 37),
   some (trapHandlerNoecAuto 38), some (trapHandlerNoecAuto 39), some (trapHandlerNoecAuto 40),
   some (trapHandlerNoecAuto 41), some (trapHandlerNoecAuto 42), some (trapHandlerNoecAuto 43),
   some (trapHandlerNoecAuto 44), some (trapHandlerNoecAuto 45), some (trapHandlerNoecAuto 46),
   some (trapHandlerNoecAuto 47)]

/-- The last instruction pushes the argument of `trap`. -/
def alltraps : List Instr :=
  [.pushSeg .ds, .pushSeg .es, .pushal, .movEax (gdKD.setWidth 32), .movSeg .ds, .movSeg .es,
   .pushEsp]

/-! ## Descriptor table -/

structure Gate where
  /-- The code at the offset of the gate, up to its jump to `_alltraps`. -/
  off : Option (List Instr)
  dpl : Nat
  deriving DecidableEq, Repr

/-- `idt[]`. A gate that was never set is not present. -/
abbrev Idt := Fin 256 → Option Gate

/-- `SETGATE` with `t_handler[j]`; all gates are interrupt gates of the kernel's code segment. -/
def Idt.setGate (idt : Idt) (i j dpl : Nat) : Idt := fun v =>
  if (v : Nat) = i then some ⟨(tHandler[j]?).join, dpl⟩ else idt v

def trapInit : Idt :=
  let idt : Idt := fun _ => none
  let idt := (List.range 20).foldl (fun idt i =>
    if i = 3 then idt.setGate i i 3
    else if i ≠ 9 ∧ i ≠ 15 then idt.setGate i i 0
    else idt) idt
  let idt := idt.setGate 48 20 3
  let idt := (List.range 16).foldl (fun idt i => idt.setGate (32 + i) (21 + i) 0) idt
  let idt := idt.setGate 2 2 3
  let idt := idt.setGate 4 4 3
  let idt := idt.setGate 5 5 3
  idt.setGate 8 8 3

-- evaluated by the kernel only
attribute [irreducible] trapInit

/-! ## Entries -/

/-- The ways from user mode into the kernel. -/
inductive Entry where
  /-- The CPU raises exception `v`. The error code is pushed only for some of them. -/
  | exception (v : Fin 32) (err : Word)
  /-- `INT v`. -/
  | int (v : Fin 256)
  /-- A device interrupt. -/
  | irq (i : Fin 16)
  deriving DecidableEq, Repr

namespace Entry

def vector : Entry → Fin 256
  | .exception v _ => v.castLE (by omega)
  | .int v => v
  | .irq i => ⟨32 + i, by omega⟩

/-- Exceptions for which the CPU pushes an error code. -/
def withError (v : Fin 32) : Bool :=
  v ∈ ([8, 10, 11, 12, 13, 14, 17] : List (Fin 32))

/-- What the CPU pushes after the instruction pointer. -/
def error : Entry → Option Word
  | .exception v err => if withError v then some err else none
  | _ => none

/-- There is a gate, and software may use it. -/
def Possible (idt : Idt) (e : Entry) : Prop :=
  ∃ g, idt e.vector = some g ∧ ∀ v, e = .int v → g.dpl = 3

end Entry

/-- A CPU in user mode. The code segment is the only one user programs can have, and bit 3 of
the flags is one of the bits that are always zero. -/
structure UserCore extends Core where
  cs_eq : seg .cs = gdUT ||| 3
  eflags_bit : eflags.getLsbD 3 = false

/-- `ts_esp0` of CPU `c`. -/
@[irreducible] def tsEsp0 (c : Cpu) : Word := 0xF0000000 - BitVec.ofNat 32 c * 0x10000

/-- The push of the hardware, on a stack that has the words `above` at its top `ts_esp0`. -/
def hardwarePush (c : Cpu) (pad : Seg → BitVec 16) (above : ℕ → Word) (u : Core) (e : Entry) :
    Core :=
  let k := u.onStack (tsEsp0 c) above
  let k := ((((k.pushSeg pad .ss).push u.esp).push u.eflags).pushSeg pad .cs).push u.eip
  let k := match e.error with
    | none => k
    | some err => k.push err
  (k.setSeg .ss gdKD).setSeg .cs gdKT

/-- The trap frame that `trap` is called with. -/
def entryFrame (c : Cpu) (pad : Seg → BitVec 16) (above : ℕ → Word) (u : Core) (e : Entry) :
    Option Trapframe := do
  let gate ← trapInit e.vector
  let code ← gate.off
  let k := (hardwarePush c pad above u e).run pad (code ++ alltraps)
  pure (.ofWords (k.words (k.stack 0)))

/-- The block that `pushal` stores. -/
def Gprs.pushRegs (g : Gprs) (oesp : Word) : PushRegs :=
  ⟨g.edi, g.esi, g.ebp, oesp, g.ebx, g.edx, g.ecx, g.eax⟩

@[simp] theorem Gprs.pushRegs_regOesp (g : Gprs) (oesp : Word) :
    (g.pushRegs oesp).regOesp = oesp := rfl

/-- The frame tells the vector and the interrupted registers. The field `reg_oesp`, which
`inc/trap.h` calls useless, is left out: the stack pointer is in `tf_esp`. -/
structure Faithful (u : Core) (e : Entry) (tf : Trapframe) : Prop where
  trapno : tf.tfTrapno.toNat = e.vector
  eip : tf.tfEip = u.eip
  cs : tf.tfCs = u.seg .cs
  eflags : tf.tfEflags = u.eflags
  esp : tf.tfEsp = u.esp
  ss : tf.tfSs = u.seg .ss
  regs : tf.tfRegs = u.gprs.pushRegs tf.tfRegs.regOesp

/-- `INT 8` and the exceptions 18 and 19 come without the error code that their stubs expect. -/
def Entry.Counted : Entry → Prop
  | .exception v _ => v ≠ 18 ∧ v ≠ 19
  | .int v => v ≠ 8
  | .irq _ => True

/-! ## Frames -/

variable {c : Cpu} {pad : Seg → BitVec 16} {above : ℕ → Word} {e : Entry}

/-- The argument of `trap` points to the words that were pushed before it. -/
theorem words_pushEsp (k : Core) : (k.push k.esp).words ((k.push k.esp).stack 0) = k.stack := by
  have h : (k.esp - (k.esp - 4)).toNat / 4 = 1 := by
    rw [show k.esp - (k.esp - 4) = 4 by bv_omega]
    rfl
  funext i
  simp only [Core.words, Core.push_esp, Core.push_stack_zero, h]
  rw [Nat.add_comm, Core.push_stack_succ]

/-- The frame that `_alltraps` completes on the stack of a stub. -/
def frameAt (k : Core) : Trapframe :=
  ⟨k.gprs.pushRegs (k.esp - 4 - 4), k.seg .es, k.seg .ds,
    k.stack 0, k.stack 1, k.stack 2, (k.stack 3).setWidth 16, k.stack 4, k.stack 5,
    (k.stack 6).setWidth 16⟩

theorem ofWords_alltraps (pad : Seg → BitVec 16) (k : Core) :
    Trapframe.ofWords ((k.run pad alltraps).words ((k.run pad alltraps).stack 0)) =
      frameAt k := by
  simp only [Core.run, alltraps, List.foldl_cons, List.foldl_nil, Core.exec, words_pushEsp]
  simp [frameAt, Trapframe.ofWords, Core.pushal, Core.pushSeg, Gprs.pushRegs]

/-- The stub takes it that the CPU pushed an error code. -/
def expectsError (v : Fin 256) : Bool :=
  v ∈ ([8, 10, 11, 12, 13, 14, 17, 18, 19] : List (Fin 256))

def stub (v : Fin 256) : List Instr :=
  if expectsError v then trapHandlerAuto (BitVec.ofNat 32 v)
  else trapHandlerNoecAuto (BitVec.ofNat 32 v)

/-- The stub of each gate has the number of the gate. -/
theorem trapInit_off {v : Fin 256} {g : Gate} (h : trapInit v = some g) :
    g.off = some (stub v) := by
  have key : ∀ v : Fin 256, ∀ g ∈ trapInit v, g.off = some (stub v) := by decide +kernel
  exact key v g h

theorem entryFrame_eq (c : Cpu) (pad : Seg → BitVec 16) (above : ℕ → Word) (u : Core) {g : Gate}
    (hg : trapInit e.vector = some g) :
    entryFrame c pad above u e =
      some (frameAt ((hardwarePush c pad above u e).run pad (stub e.vector))) := by
  have hrun (k : Core) : k.run pad (stub e.vector ++ alltraps) =
      (k.run pad (stub e.vector)).run pad alltraps := List.foldl_append ..
  rw [← ofWords_alltraps pad, ← hrun]
  simp only [entryFrame, hg, trapInit_off hg, Option.bind_eq_bind, Option.bind_some]
  rfl

/-- What the hardware leaves on the stack; `o` is the number of words of the error code. -/
theorem hardwarePush_stack (c : Cpu) (pad : Seg → BitVec 16) (above : ℕ → Word) (u : Core) {o : ℕ}
    (ho : o = e.error.toList.length) :
    (hardwarePush c pad above u e).stack o = u.eip ∧
      ((hardwarePush c pad above u e).stack (o + 1)).setWidth 16 = u.seg .cs ∧
      (hardwarePush c pad above u e).stack (o + 2) = u.eflags ∧
      (hardwarePush c pad above u e).stack (o + 3) = u.esp ∧
      ((hardwarePush c pad above u e).stack (o + 4)).setWidth 16 = u.seg .ss := by
  subst ho
  unfold hardwarePush
  cases e.error with
  | none =>
    simp only [Core.setSeg_stack, Option.toList_none, List.length_nil, Nat.zero_add,
      Core.push_stack_zero, Core.push_stack_succ, Core.pushSeg, Core.push_seg, Core.onStack_seg,
      setWidth_selWord, and_self]
  | some err =>
    simp only [Core.setSeg_stack, Option.toList_some, List.length_singleton, Nat.reduceAdd,
      Core.push_stack_zero, Core.push_stack_succ, Core.pushSeg, Core.push_seg, Core.onStack_seg,
      setWidth_selWord, and_self]

theorem hardwarePush_gprs (c : Cpu) (pad : Seg → BitVec 16) (above : ℕ → Word) (u : Core) :
    (hardwarePush c pad above u e).gprs = u.gprs := by
  unfold hardwarePush
  cases e.error <;> simp only [Core.setSeg_gprs, Core.push_gprs, Core.pushSeg, Core.onStack_gprs]

/-- A stub adds one word or two, the last of them its number. -/
theorem run_stub (pad : Seg → BitVec 16) (k : Core) (v : Fin 256) :
    (k.run pad (stub v)).gprs = k.gprs ∧ (k.run pad (stub v)).stack 0 = BitVec.ofNat 32 v ∧
      ∀ i, (k.run pad (stub v)).stack (i + 1 + if expectsError v then 0 else 1) = k.stack i := by
  unfold stub
  split_ifs with h
  · simp [Core.run, trapHandlerAuto, Core.exec]
  · simp [Core.run, trapHandlerNoecAuto, Core.exec]

/-- A stub that agrees with the CPU on the error code delivers a faithful frame. -/
theorem faithful_of_eq (u : Core) (h : expectsError e.vector = e.error.isSome) :
    Faithful u e (frameAt ((hardwarePush c pad above u e).run pad (stub e.vector))) := by
  obtain ⟨hg, hno, hs⟩ := run_stub pad (hardwarePush c pad above u e) e.vector
  obtain ⟨heip, hcs, hfl, hesp, hss⟩ :=
    hardwarePush_stack (e := e) c pad above u rfl
  have hsum : ∀ i, i + e.error.toList.length + 1 + (if expectsError e.vector then 0 else 1) =
      i + 2 := by
    intro i
    rw [h]
    cases e.error <;> simp
  have hrd : ∀ i, ((hardwarePush c pad above u e).run pad (stub e.vector)).stack (i + 2) =
      (hardwarePush c pad above u e).stack (i + e.error.toList.length) := by
    intro i
    rw [← hsum i, hs]
  constructor
  · rw [frameAt, hno, BitVec.toNat_ofNat]
    omega
  · exact (hrd 0).trans (by rw [Nat.zero_add, heip])
  · exact (congrArg (BitVec.setWidth 16) (hrd 1)).trans (by rw [Nat.add_comm, hcs])
  · exact (hrd 2).trans (by rw [Nat.add_comm, hfl])
  · exact (hrd 3).trans (by rw [Nat.add_comm, hesp])
  · exact (congrArg (BitVec.setWidth 16) (hrd 4)).trans (by rw [Nat.add_comm, hss])
  · simp only [frameAt, hg, hardwarePush_gprs, Gprs.pushRegs_regOesp]

/-- If a stub misses an error code, `tf_cs` is the lower half of the flags. -/
theorem tfCs_of_missing (u : Core) (h : expectsError e.vector = true) (he : e.error = none) :
    (frameAt ((hardwarePush c pad above u e).run pad (stub e.vector))).tfCs =
      u.eflags.setWidth 16 := by
  obtain ⟨-, -, hs⟩ := run_stub pad (hardwarePush c pad above u e) e.vector
  obtain ⟨-, -, hfl, -⟩ :=
    hardwarePush_stack (e := e) c pad above u (o := 0) (by rw [he]; rfl)
  have h3 := hs 2
  rw [h, if_pos rfl] at h3
  exact congrArg (BitVec.setWidth 16) (h3.trans hfl)

/-- Which stubs agree with the CPU. -/
theorem expectsError_eq_iff (h : e.Possible trapInit) :
    expectsError e.vector = e.error.isSome ↔ e.Counted := by
  obtain ⟨g, hg, hdpl⟩ := h
  cases e with
  | exception v err =>
    have key : ∀ v : Fin 32, ∀ g ∈ trapInit (v.castLE (by omega)),
        (expectsError (v.castLE (by omega)) = Entry.withError v ↔ v ≠ 18 ∧ v ≠ 19) := by
      decide +kernel
    simp only [Entry.vector] at hg
    simp only [Entry.vector, Entry.error, Entry.Counted, ← key v g hg]
    cases Entry.withError v <;> simp
  | int v =>
    have key : ∀ v : Fin 256, ∀ g ∈ trapInit v, g.dpl = 3 →
        (expectsError v = false ↔ v ≠ 8) := by
      decide +kernel
    simp only [Entry.vector] at hg
    simpa [Entry.vector, Entry.error, Entry.Counted] using key v g hg (hdpl v rfl)
  | irq i =>
    have key : ∀ i : Fin 16, expectsError ⟨32 + i, by omega⟩ = false := by decide +kernel
    simpa [Entry.vector, Entry.error, Entry.Counted] using key i

/-- The CPU pushes no error code that a stub does not expect. -/
theorem error_eq_none (hne : expectsError e.vector ≠ e.error.isSome) :
    expectsError e.vector = true ∧ e.error = none := by
  cases e with
  | exception v err =>
    have key : ∀ v : Fin 32, Entry.withError v = true →
        expectsError (v.castLE (by omega)) = true := by
      decide +kernel
    have hv := key v
    revert hne
    simp only [Entry.vector, Entry.error]
    cases hw : Entry.withError v <;> simp_all
  | int v => simpa [Entry.error] using hne
  | irq i => simpa [Entry.error] using hne

/-- For every way into the kernel, the trap frame is faithful if and only if the entry is neither
`INT 8` nor one of the exceptions 18 and 19. -/
theorem faithful_iff_counted (c : Cpu) (pad : Seg → BitVec 16) (above : ℕ → Word) (u : UserCore)
    (h : e.Possible trapInit) :
    ∃ tf, entryFrame c pad above u.toCore e = some tf ∧
      (Faithful u.toCore e tf ↔ e.Counted) := by
  obtain ⟨g, hg, -⟩ := id h
  refine ⟨_, entryFrame_eq c pad above u.toCore hg, ?_⟩
  by_cases heq : expectsError e.vector = e.error.isSome
  · exact iff_of_true (faithful_of_eq u.toCore heq) ((expectsError_eq_iff h).mp heq)
  · obtain ⟨hx, hn⟩ := error_eq_none heq
    refine iff_of_false (fun hf => ?_) (mt (expectsError_eq_iff h).mpr heq)
    -- bit 3 is set in the selector and clear in the flags
    have hcs := (tfCs_of_missing u.toCore hx hn).symm.trans (hf.cs.trans u.cs_eq)
    have hbit := congrArg (BitVec.getLsbD · 3) hcs
    have hclear := u.eflags_bit
    simp [gdUT] at hbit hclear
    simp [hbit] at hclear

/-- An interrupted program: flags with interrupts enabled, selectors of the user segments. -/
def umainCore : UserCore where
  gprs := ⟨1, 2, 3, 4, 5, 6, 7⟩
  eip := 0x800020
  eflags := 0x202
  esp := 0xEEBFDFC0
  seg s := if s = .cs then 0x1B else 0x23
  stack _ := 0
  cs_eq := by decide
  eflags_bit := by decide

theorem faithful_int48 : ∃ tf,
    entryFrame 0 (fun _ => 0) (fun _ => 0) umainCore.toCore (.int 48) = some tf ∧
      Faithful umainCore.toCore (.int 48) tf := by
  have hp : (Entry.int 48).Possible trapInit := by
    have h : (trapInit 48).any (·.dpl = 3) = true := by decide +kernel
    obtain ⟨g, hg, hd⟩ := (Option.any_eq_true _ _).mp h
    exact ⟨g, hg, fun _ _ => of_decide_eq_true hd⟩
  obtain ⟨tf, htf, hiff⟩ := faithful_iff_counted 0 (fun _ => 0) (fun _ => 0) umainCore hp
  exact ⟨tf, htf, hiff.mpr (show (48 : Fin 256) ≠ 8 by decide)⟩

/-- `INT 8` is allowed, and its frame has the flags in place of the code segment. -/
theorem not_faithful_int8 : (Entry.int 8).Possible trapInit ∧ ∃ tf,
    entryFrame 0 (fun _ => 0) (fun _ => 0) umainCore.toCore (.int 8) = some tf ∧
      ¬Faithful umainCore.toCore (.int 8) tf := by
  have h : (trapInit 8).any (·.dpl = 3) = true := by decide +kernel
  obtain ⟨g, hg, hd⟩ := (Option.any_eq_true _ _).mp h
  refine ⟨⟨g, hg, fun _ _ => of_decide_eq_true hd⟩, _, entryFrame_eq 0 _ _ _ hg, fun hf => ?_⟩
  have hcs := (tfCs_of_missing umainCore.toCore rfl rfl).symm.trans (hf.cs.trans umainCore.cs_eq)
  revert hcs
  decide

/-- A frame that is faithful is one that `trap` takes for a trap from user mode. -/
theorem Faithful.enabled {n : Nat} {k : Kernel n} {tf : Trapframe} {u : UserCore}
    (h : Faithful u.toCore e tf) (hu : (k.cpus c).cpuMode = .user) (hl : LockFree k)
    (io : Inputs) : Enabled k (.trap c tf io) := by
  refine ⟨hu, ?_, hl⟩
  rw [h.cs, u.cs_eq]
  decide

end JosKernel
