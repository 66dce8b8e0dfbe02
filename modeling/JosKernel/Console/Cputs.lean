import JosKernel.Env.Counts
import JosKernel.Env.UserCheck

/-!
# Output of `sys_cputs`

The kernel prints the user's buffer with the format `%.*s`. The loop of that conversion reads a
character before it looks at the precision, so it reads the byte behind the buffer unless it
comes upon a zero byte, at which it stops; and the null pointer stands for the string `(null)`.
-/
namespace JosKernel

open Lib

variable {n : Nat}

/-- The characters that a trace sends to the console. -/
def output (t : List Event) : List Byte :=
  t.filterMap fun
    | .putch ch => some ch
    | _ => none

/-- Only bytes of `[s, s + len)` are read. -/
def ReadsWithin (t : List Event) (s len : Word) : Prop :=
  .rodata ∉ t ∧ ∀ a, .read a ∈ t → s.toNat ≤ a.toNat ∧ a.toNat < s.toNat + len.toNat

/-- The kernel reads the buffer, and nothing else, and prints it. -/
def PrintsBuffer (k : Kernel n) (c : Cpu) (s len : Word) : Prop :=
  ∃ t, cprintf k c "%.*s" [len, s] = ⟨t, some ()⟩ ∧ ReadsWithin t s len ∧
    (output t).length = len.toNat ∧
    ∀ i < len.toNat,
      (output t)[i]? = k.mem.loadByte (k.cpus c).cr3 (s + BitVec.ofNat 32 i) false

theorem output_putch (l : List Byte) : output (l.map .putch) = l := by
  rw [output, List.filterMap_map]
  exact List.filterMap_some

theorem output_charEvents (rd : Word → Option Byte) (p : Word) (i : Nat) :
    output (charEvents rd p i) =
      (List.range i).map fun j => (rd (p + BitVec.ofNat 32 j)).getD 0 := by
  unfold output charEvents
  induction List.range i with
  | nil => rfl
  | cons j l ih => simpa using ih

/-- The byte behind a buffer is not in it, also where addresses wrap around. -/
theorem not_behind {s len : Word} :
    ¬(s.toNat ≤ (s + len).toNat ∧ (s + len).toNat < s.toNat + len.toNat) := by
  rw [BitVec.toNat_add]
  omega

/-- To print all characters the loop has to read the one behind them. -/
theorem not_printsBuffer (k : Kernel n) (c : Cpu) (s len : Word) : ¬PrintsBuffer k c s len := by
  rintro ⟨t, hprint, ⟨hconst, hread⟩, hlen, -⟩
  rw [cprintf] at hprint
  by_cases hs : s = 0
  · obtain ⟨t', ht'⟩ := vprintfmt_buffer_null
      (fun a => k.mem.loadByte (k.cpus c).cr3 a false) len
    rw [hs, ht'] at hprint
    cases hprint
    exact hconst List.mem_cons_self
  · have hends := vprintfmt_buffer_isSome (fun a => k.mem.loadByte (k.cpus c).cr3 a false) len s
    rw [hprint] at hends
    obtain ⟨i, hi⟩ := (hends.mp rfl).resolve_left hs
    rw [vprintfmt_buffer_stop hs hi] at hprint
    cases hprint
    have hi : i = len.toNat := by
      have hcount := hi.lt BitVec.toInt_lt
      have hbuf := len.isLt
      have hout : output [.read (s + BitVec.ofNat 32 i)] = [] := rfl
      rw [output, List.filterMap_append, List.filterMap_append, ← output, ← output, ← output,
        output_charEvents, hout, output_putch] at hlen
      simp only [List.length_append, List.length_map, List.length_range, List.length_nil,
        List.length_replicate, int32_eq] at hlen
      -- with blanks `2 ^ 32` characters would have been printed
      omega
    refine not_behind (hread (s + len) ?_)
    simp [hi]

/-- A buffer of one byte at the end of a page, with nothing mapped behind it: the kernel panics
on a call that it has checked. -/
theorem not_printsBuffer_pageEnd : ∃ k : Kernel 16,
    Reachable (Boot {p : Fin 16 | p ≠ 0}) (fun k a k' => StepOk k a ∧ Step k a k') k ∧
      k.curenv 0 = some 0 ∧
      (∃ g, k.dirs 0 = some g ∧
        k.mem.userMemCheck g 0x800FFF 1 (0 ||| pteU) = .ok none) ∧
      sysCputs k 0 0 0x800FFF 1 = .error .kernelPageFault ∧ ¬PrintsBuffer k 0 0x800FFF 1 := by
  obtain ⟨k, hk, hp⟩ := reachable_runPlain (.init boot_small)
    [.start 0, allocOne, .access 0 0x800FFF (some 0x61)]
    (fun k => decide (k.curenv 0 = some 0) &&
      decide ((cprintf k 0 "%.*s" [1, 0x800FFF]).result = none) &&
      (k.dirs 0).any fun g : Fin 16 =>
        decide (k.mem.userMemCheck g 0x800FFF 1 (0 ||| pteU) = .ok none)) (by decide +kernel)
  simp only [Bool.and_eq_true, decide_eq_true_eq] at hp
  obtain ⟨⟨hcur, hprint⟩, hok⟩ := hp
  obtain ⟨g, hg, hok⟩ := (Option.any_eq_true _ _).mp hok
  have hcheck := of_decide_eq_true hok
  refine ⟨k, hk, hcur, ⟨g, hg, hcheck⟩, ?_, not_printsBuffer k 0 _ _⟩
  have hdir : pgdirOf k 0 = .ok g := by
    rw [Kernel.dirs] at hg
    rw [pgdirOf, hg]
  simp only [sysCputs, userMemAssert, hdir, hcheck, hprint, bind, Except.bind, pure, Except.pure]
  rfl

end JosKernel
