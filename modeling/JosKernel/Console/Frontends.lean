import JosKernel.Console.Cputs

/-!
# The front ends of `vprintfmt`

`vcprintf` of the kernel and of user programs, and `vsnprintf`. Each passes a `putch` of its own to
`vprintfmt`, which here acts on the characters of the trace one after the other. The memory that
`%s` arguments point into is not the buffer that is written.
-/
namespace JosKernel

/-- The characters of a format that comes to an end. -/
def formatted (rd : Word → Option Byte) (fmt : List Byte) (ap : List Word) : Option (List Byte) :=
  (vprintfmt rd fmt ap).result.map fun _ => output (vprintfmt rd fmt ap).trace

/-! ## The kernel -/

/-- The console, and the counter that `putch` gets a pointer to. -/
structure KernSink where
  console : List Byte
  cnt : Word

/-- `putch`. The increment is that of the pointer, not that of the counter. -/
def KernSink.putch (s : KernSink) (ch : Byte) : KernSink := { s with console := s.console ++ [ch] }

/-- `vcprintf`: what is sent to the console, and the result. -/
def kernVcprintf (rd : Word → Option Byte) (fmt : List Byte) (ap : List Word) :
    Option (List Byte × Word) :=
  (formatted rd fmt ap).map fun out =>
    let s := out.foldl KernSink.putch ⟨[], 0⟩
    (s.console, s.cnt)

/-! ## User programs -/

/-- `struct printbuf`, and the buffers passed to `sys_cputs` so far. -/
structure Printbuf where
  idx : Nat
  cnt : Word
  buf : Nat → Byte
  cputs : List (List Byte)

/-- `sys_cputs(b->buf, b->idx)`. -/
def Printbuf.flush (b : Printbuf) : Printbuf :=
  { b with cputs := b.cputs ++ [(List.range b.idx).map b.buf] }

def Printbuf.putch (b : Printbuf) (ch : Byte) : Printbuf :=
  let b := { b with buf := Function.update b.buf b.idx ch, idx := b.idx + 1 }
  let b := if b.idx = 256 - 1 then { b.flush with idx := 0 } else b
  { b with cnt := b.cnt + 1 }

/-- `vcprintf`: the buffers passed to `sys_cputs`, and the result. `buf` is what is on the stack. -/
def userVcprintf (rd : Word → Option Byte) (fmt : List Byte) (ap : List Word) (buf : Nat → Byte) :
    Option (List (List Byte) × Word) :=
  (formatted rd fmt ap).map fun out =>
    let b := (out.foldl Printbuf.putch ⟨0, 0, buf, []⟩).flush
    (b.cputs, b.cnt)

/-! ## Printing to a buffer -/

/-- `struct sprintbuf`, and memory. -/
structure Sprintbuf where
  mem : Word → Byte
  buf : Word
  ebuf : Word
  cnt : Word

/-- `sprintputch`. -/
def Sprintbuf.putch (b : Sprintbuf) (ch : Byte) : Sprintbuf :=
  let b := { b with cnt := b.cnt + 1 }
  if b.buf < b.ebuf then { b with mem := Function.update b.mem b.buf ch, buf := b.buf + 1 } else b

/-- `vsnprintf`: memory afterwards, and the result. -/
def vsnprintf (rd : Word → Option Byte) (mem : Word → Byte) (buf n : Word) (fmt : List Byte)
    (ap : List Word) : Option ((Word → Byte) × Word) :=
  if buf = 0 ∨ n.toInt < 1 then some (mem, BitVec.ofInt 32 (-eInval))
  else (formatted rd fmt ap).map fun out =>
    let b := out.foldl Sprintbuf.putch ⟨mem, buf, buf + n - 1, 0⟩
    (Function.update b.mem b.buf 0, b.cnt)

/-! ## What they have in common -/

/-- Memory with the bytes of a list at `p`. -/
def withBytes (mem : Word → Byte) (p : Word) (l : List Byte) : Word → Byte := fun a =>
  (l[(a - p).toNat]?).getD (mem a)

/-- The length of the output, as an `int`. -/
def lengthOf (out : List Byte) : Word := BitVec.ofNat 32 out.length

/-- All front ends print the same characters and return their number; a buffer of `n` bytes gets
the first `n - 1` of them and a zero byte. -/
structure FrontEndsAgree (rd : Word → Option Byte) (fmt : List Byte) (ap : List Word)
    (out : List Byte) : Prop where
  kern : kernVcprintf rd fmt ap = some (out, lengthOf out)
  user : ∀ buf, ∃ bufs, userVcprintf rd fmt ap buf = some (bufs, lengthOf out) ∧
    bufs.flatten = out
  buffer : ∀ mem buf n, buf ≠ 0 → 1 ≤ n.toInt → buf.toNat + n.toNat ≤ 2 ^ 32 →
    vsnprintf rd mem buf n fmt ap =
      some (withBytes mem buf (out.take (n.toNat - 1) ++ [0]), lengthOf out)

variable {rd : Word → Option Byte} {fmt : List Byte} {ap : List Word} {out l : List Byte}

theorem lengthOf_append (l : List Byte) (ch : Byte) : lengthOf (l ++ [ch]) = lengthOf l + 1 := by
  rw [lengthOf, List.length_append, BitVec.ofNat_add]
  rfl

/-- The kernel prints everything and returns zero. -/
theorem kernVcprintf_eq (h : formatted rd fmt ap = some out) :
    kernVcprintf rd fmt ap = some (out, 0) := by
  have hall : ∀ (l : List Byte) (s : KernSink),
      l.foldl KernSink.putch s = ⟨s.console ++ l, s.cnt⟩ := by
    intro l
    induction l with
    | nil => simp
    | cons ch l ih =>
      intro s
      rw [List.foldl_cons, ih]
      simp [KernSink.putch]
  rw [kernVcprintf, h, Option.map_some, hall]
  rfl

/-! ## The buffer of user programs -/

/-- The characters that wait in the buffer. -/
def Printbuf.pending (b : Printbuf) : List Byte := (List.range b.idx).map b.buf

/-- The buffers passed on and the waiting characters make up `l`. -/
structure Printbuf.Holds (l : List Byte) (b : Printbuf) : Prop where
  idx_lt : b.idx < 255
  cnt_eq : b.cnt = lengthOf l
  chars : b.cputs.flatten ++ b.pending = l

theorem Printbuf.Holds.putch {b : Printbuf} (h : b.Holds l) (ch : Byte) :
    (b.putch ch).Holds (l ++ [ch]) := by
  have hpending : (List.range (b.idx + 1)).map (Function.update b.buf b.idx ch) =
      b.pending ++ [ch] := by
    rw [List.range_succ, List.map_append, List.map_singleton, Function.update_self, pending]
    congr 1
    apply List.map_congr_left
    intro i hi
    exact Function.update_of_ne (List.mem_range.mp hi).ne ch b.buf
  have hcnt : b.cnt + 1 = lengthOf (l ++ [ch]) := by rw [h.cnt_eq, lengthOf_append]
  have hchars : b.cputs.flatten ++ (b.pending ++ [ch]) = l ++ [ch] := by
    rw [← List.append_assoc, h.chars]
  unfold Printbuf.putch
  dsimp only
  split_ifs with hfull
  · refine ⟨Nat.zero_lt_succ _, hcnt, ?_⟩
    simp only [flush, hpending, List.flatten_append, List.flatten_singleton]
    simpa [pending] using hchars
  · refine ⟨?_, hcnt, ?_⟩
    · have := h.idx_lt
      dsimp only
      omega
    · rw [← hpending] at hchars
      exact hchars

theorem Printbuf.Holds.foldl {b : Printbuf} (h : b.Holds l) (out : List Byte) :
    (out.foldl Printbuf.putch b).Holds (l ++ out) := by
  induction out generalizing l b with
  | nil => simpa using h
  | cons ch out ih =>
    rw [List.foldl_cons, List.append_cons]
    exact ih (h.putch ch)

theorem userVcprintf_eq (h : formatted rd fmt ap = some out) (buf : Nat → Byte) :
    ∃ bufs, userVcprintf rd fmt ap buf = some (bufs, lengthOf out) ∧ bufs.flatten = out := by
  have hinit : Printbuf.Holds [] ⟨0, 0, buf, []⟩ :=
    ⟨Nat.zero_lt_succ _, rfl, rfl⟩
  have hall := hinit.foldl out
  rw [List.nil_append] at hall
  refine ⟨(out.foldl Printbuf.putch ⟨0, 0, buf, []⟩).flush.cputs, ?_, ?_⟩
  · rw [userVcprintf, h, Option.map_some]
    dsimp only [Printbuf.flush]
    rw [hall.cnt_eq]
  · rw [Printbuf.flush, List.flatten_append, List.flatten_singleton]
    exact hall.chars

/-! ## The buffer of `vsnprintf` -/

variable {mem : Word → Byte} {p : Word}

theorem withBytes_nil : withBytes mem p [] = mem := by
  funext a
  simp [withBytes]

/-- One more byte. -/
theorem withBytes_append (ch : Byte) (h : l.length < 2 ^ 32) :
    withBytes mem p (l ++ [ch]) =
      Function.update (withBytes mem p l) (p + BitVec.ofNat 32 l.length) ch := by
  funext a
  by_cases heq : a = p + BitVec.ofNat 32 l.length
  · have hoff : (a - p).toNat = l.length := by
      rw [heq, BitVec.add_comm, BitVec.add_sub_cancel, BitVec.toNat_ofNat, Nat.mod_eq_of_lt h]
    rw [heq, Function.update_self, ← heq, withBytes, hoff]
    simp
  · have hoff : (a - p).toNat ≠ l.length := by
      intro hc
      apply heq
      rw [← hc, BitVec.ofNat_toNat, BitVec.setWidth_eq, BitVec.add_comm, BitVec.sub_add_cancel]
    rw [Function.update_of_ne heq, withBytes, withBytes]
    rcases Nat.lt_or_gt_of_ne hoff with hlt | hgt
    · rw [List.getElem?_append_left hlt]
    · rw [List.getElem?_eq_none hgt.le, List.getElem?_eq_none]
      simpa using hgt

/-- The state after some characters. -/
structure Sprintbuf.Holds (mem : Word → Byte) (p n : Word) (l : List Byte) (b : Sprintbuf) :
    Prop where
  mem_eq : b.mem = withBytes mem p (l.take (n.toNat - 1))
  buf_eq : b.buf = p + BitVec.ofNat 32 (l.take (n.toNat - 1)).length
  ebuf_eq : b.ebuf = p + n - 1
  cnt_eq : b.cnt = lengthOf l

theorem Sprintbuf.Holds.putch {b : Sprintbuf} {n : Word} (h : b.Holds mem p n l)
    (hn : 0 < n.toNat) (hfit : p.toNat + n.toNat ≤ 2 ^ 32) (ch : Byte) :
    (b.putch ch).Holds mem p n (l ++ [ch]) := by
  obtain ⟨hmem, hbuf, hebuf, hcnt⟩ := h
  have hlen : (l.take (n.toNat - 1)).length = min (n.toNat - 1) l.length := List.length_take
  have hroom : b.buf < b.ebuf ↔ l.length < n.toNat - 1 := by
    rw [hbuf, hebuf, BitVec.lt_def, BitVec.toNat_add, BitVec.toNat_ofNat, BitVec.toNat_sub,
      BitVec.toNat_add, hlen]
    have hone : (1 : Word).toNat = 1 := rfl
    rw [hone]
    omega
  unfold Sprintbuf.putch
  dsimp only
  split_ifs with hlt
  · have hlt := hroom.mp hlt
    have hall : l.take (n.toNat - 1) = l := List.take_of_length_le (by omega)
    have hall' : (l ++ [ch]).take (n.toNat - 1) = l ++ [ch] :=
      List.take_of_length_le (by rw [List.length_append, List.length_singleton]; omega)
    rw [hall] at hmem hbuf
    refine ⟨?_, ?_, hebuf, ?_⟩
    · rw [hall', withBytes_append ch (by omega), ← hmem, ← hbuf]
    · rw [hall', hbuf, List.length_append, BitVec.ofNat_add, BitVec.add_assoc]
      rfl
    · dsimp only
      rw [hcnt, lengthOf_append]
  · have hge : n.toNat - 1 ≤ l.length := not_lt.mp fun hc => hlt (hroom.mpr hc)
    have htake : (l ++ [ch]).take (n.toNat - 1) = l.take (n.toNat - 1) :=
      List.take_append_of_le_length hge
    rw [← htake] at hmem hbuf
    exact ⟨hmem, hbuf, hebuf, by dsimp only; rw [hcnt, lengthOf_append]⟩

theorem Sprintbuf.Holds.foldl {b : Sprintbuf} {n : Word} (h : b.Holds mem p n l)
    (hn : 0 < n.toNat) (hfit : p.toNat + n.toNat ≤ 2 ^ 32) (out : List Byte) :
    (out.foldl Sprintbuf.putch b).Holds mem p n (l ++ out) := by
  induction out generalizing l b with
  | nil => simpa using h
  | cons ch out ih =>
    rw [List.foldl_cons, List.append_cons]
    exact ih (h.putch hn hfit ch)

theorem vsnprintf_eq (h : formatted rd fmt ap = some out) (mem : Word → Byte) {buf n : Word}
    (hbuf : buf ≠ 0) (hn : 1 ≤ n.toInt) (hfit : buf.toNat + n.toNat ≤ 2 ^ 32) :
    vsnprintf rd mem buf n fmt ap =
      some (withBytes mem buf (out.take (n.toNat - 1) ++ [0]), lengthOf out) := by
  have hpos : 0 < n.toNat := by
    rw [BitVec.toInt_eq_toNat_cond] at hn
    split_ifs at hn <;> omega
  have hinit : Sprintbuf.Holds mem buf n [] ⟨mem, buf, buf + n - 1, 0⟩ :=
    ⟨by rw [List.take_nil, withBytes_nil], by simp, rfl, rfl⟩
  have hall := hinit.foldl hpos hfit out
  rw [List.nil_append] at hall
  have hlen : (out.take (n.toNat - 1)).length < 2 ^ 32 := by
    have := n.isLt
    rw [List.length_take]
    omega
  rw [vsnprintf, if_neg (by rintro (hc | hc); exacts [hbuf hc, by omega]), h, Option.map_some]
  dsimp only
  rw [hall.mem_eq, hall.buf_eq, hall.cnt_eq, withBytes_append 0 hlen]

/-- The front ends agree exactly when there is nothing to count. -/
theorem frontEndsAgree_iff (h : formatted rd fmt ap = some out) :
    FrontEndsAgree rd fmt ap out ↔ lengthOf out = 0 := by
  constructor
  · intro hagree
    have hkern := hagree.kern
    rw [kernVcprintf_eq h, Option.some.injEq, Prod.mk.injEq] at hkern
    exact hkern.2.symm
  · intro hlen
    exact ⟨by rw [kernVcprintf_eq h, hlen], fun buf => userVcprintf_eq h buf,
      fun mem buf n hbuf hn hfit => vsnprintf_eq h mem hbuf hn hfit⟩

/-- The choice of a colour prints nothing. -/
theorem frontEndsAgree_colour : FrontEndsAgree (fun _ => none) (str "%r") [4] [] :=
  (frontEndsAgree_iff (by decide)).mpr rfl

/-- The kernel prints one character and returns zero. -/
theorem not_frontEndsAgree : formatted (fun _ => none) (str "a") [] = some [chr 'a'] ∧
    kernVcprintf (fun _ => none) (str "a") [] = some ([chr 'a'], 0) ∧
    ¬FrontEndsAgree (fun _ => none) (str "a") [] [chr 'a'] := by
  refine ⟨by decide, by decide, fun h => ?_⟩
  exact absurd h.kern (by decide)

end JosKernel
