import JosKernel.Machine.Mmu

/-!
# Formatted output

`vprintfmt` of `lib/printfmt.c`, which the kernel and user programs share. `rd` is the memory that
`%s` arguments point into, with `none` for an address that is not mapped; format strings and the
strings of the function itself are constants. The arguments are the words on the caller's stack,
of which `%lld` and the like take two, the low one first.

Widths and precisions are of type `int`, which wraps around.

Printing leaves a trace of what was read and of the characters passed to `putch`. It comes to no
end when a byte that is not mapped is read, or when a string without precision has no zero byte
anywhere in memory. `console_color` is not part of the output.
-/
namespace JosKernel

inductive Event where
  /-- A byte of memory is read. -/
  | read (a : Word)
  /-- A byte of a string constant is read. -/
  | rodata
  | putch (ch : Byte)
  deriving DecidableEq, Repr

/-- A trace, and the result unless printing comes to no end. -/
@[ext]
structure Print (α : Type) where
  trace : List Event
  result : Option α

namespace Print

variable {α β : Type}

def bind (x : Print α) (f : α → Print β) : Print β :=
  match x with
  | ⟨t, none⟩ => ⟨t, none⟩
  | ⟨t, some a⟩ => ⟨t ++ (f a).trace, (f a).result⟩

instance : Monad Print where
  pure a := ⟨[], some a⟩
  bind := bind

def putch (ch : Byte) : Print Unit := ⟨[.putch ch], some ()⟩

def putchs (s : List Byte) : Print Unit := ⟨s.map .putch, some ()⟩

@[simp] theorem bind_none (t : List Event) (f : α → Print β) :
    (Print.mk t none >>= f) = ⟨t, none⟩ := rfl

@[simp] theorem bind_some (t : List Event) (a : α) (f : α → Print β) :
    (Print.mk t (some a) >>= f) = ⟨t ++ (f a).trace, (f a).result⟩ := rfl

@[simp] theorem pure_eq (a : α) : (pure a : Print α) = ⟨[], some a⟩ := rfl

theorem bind_pure_unit (x : Print Unit) : (x >>= fun _ => pure ()) = x := by
  obtain ⟨t, r⟩ := x
  cases r <;> simp

end Print

open Print

/-- The code of a character. -/
def chr (c : Char) : Byte := BitVec.ofNat 8 c.toNat

/-- The bytes of a string constant. -/
def str (s : String) : List Byte := s.toList.map chr

/-- A value of type `int`. -/
def int32 (v : Int) : Int := (BitVec.ofInt 32 v).toInt

theorem int32_eq (v : Int) : int32 v = (v + 2147483648) % 4294967296 - 2147483648 := by
  rw [int32, BitVec.toInt_ofInt, Int.bmod_def]
  omega

theorem int32_lt (v : Int) : int32 v < 2 ^ 31 := BitVec.toInt_lt

theorem int32_of_range {v : Int} (h₁ : -2 ^ 31 ≤ v) (h₂ : v < 2 ^ 31) : int32 v = v := by
  rw [int32_eq]
  omega

/-! ## Strings -/

/-- A pointer into memory or into a string constant. -/
inductive StrPtr where
  | ptr (p : Word)
  | const (s : List Byte)

/-- `*p++`. -/
def readChar (rd : Word → Option Byte) : StrPtr → Print (Byte × StrPtr)
  | .ptr p => ⟨[.read p], (rd p).map fun ch => (ch, .ptr (p + 1))⟩
  | .const [] => ⟨[.rodata], some (0, .const [])⟩
  | .const (ch :: s) => ⟨[.rodata], some (ch, .const s)⟩

/-- The number of characters that `strnlen` counts up to `size`. -/
def strnlen (rd : Word → Option Byte) (s : StrPtr) : Nat → Print Nat
  | 0 => pure 0
  | size + 1 => do
    let (ch, s) ← readChar rd s
    if ch = 0 then pure 0
    else do
      let n ← strnlen rd s size
      pure (n + 1)

/-- The loop of `%s`: the character is read before the precision is tested. The result is the
width that is left. -/
def putStr (rd : Word → Option Byte) (altflag : Bool) : Nat → StrPtr → Int → Int → Print Int
  | 0, _, _, _ => ⟨[], none⟩
  | fuel + 1, p, precision, width => do
    let (ch, p) ← readChar rd p
    if ch = 0 then pure width
    else if precision < 0 ∨ precision - 1 ≥ 0 then do
      putch (if altflag ∧ (ch.toInt < 32 ∨ ch.toInt > 126) then chr '?' else ch)
      putStr rd altflag fuel p (if precision < 0 then precision else precision - 1)
        (int32 (width - 1))
    else pure width

/-- More bytes than there are addresses need not be read. -/
def allAddrs : Nat := 2 ^ 32 + 1

section PutStr

variable {rd : Word → Option Byte} {p : Word} {precision width : Int} {fuel i : Nat}

/-- The character at which printing a string ends: the first zero, or the one behind the last
character that the precision allows. -/
structure StopsAt (rd : Word → Option Byte) (p : Word) (precision : Int) (i : Nat) : Prop where
  mapped : ∃ ch, rd (p + BitVec.ofNat 32 i) = some ch ∧ (ch = 0 ∨ precision = i)
  before : ∀ j < i, ∃ ch, rd (p + BitVec.ofNat 32 j) = some ch ∧ ch ≠ 0 ∧ precision ≠ j

/-- Printing a string comes to an end. -/
def Ends (rd : Word → Option Byte) (p : Word) (precision : Int) : Prop :=
  ∃ i, StopsAt rd p precision i

/-- What is left of the precision after a character. -/
def lessOne (precision : Int) : Int := if precision < 0 then precision else precision - 1

theorem add_one_add (p : Word) (j : Nat) :
    p + 1#32 + BitVec.ofNat 32 j = p + BitVec.ofNat 32 (j + 1) := by
  rw [BitVec.add_assoc]
  congr 1
  apply BitVec.eq_of_toNat_eq
  simp only [BitVec.toNat_add, BitVec.toNat_ofNat]
  omega

theorem stopsAt_succ {ch : Byte} (hch : rd p = some ch) (hne : ch ≠ 0) (hp : precision ≠ 0) :
    StopsAt rd p precision (i + 1) ↔ StopsAt rd (p + 1#32) (lessOne precision) i := by
  have hprec : ∀ j : Nat, lessOne precision = j ↔ precision = (j + 1 : Nat) := by
    intro j
    unfold lessOne
    split_ifs <;> omega
  constructor
  · rintro ⟨⟨c, hc, hz⟩, hbefore⟩
    refine ⟨⟨c, by rw [add_one_add, hc], hz.imp_right (hprec i).mpr⟩, fun j hj => ?_⟩
    obtain ⟨d, hd, hd0, hdp⟩ := hbefore (j + 1) (by omega)
    exact ⟨d, by rw [add_one_add, hd], hd0, fun h => hdp ((hprec j).mp h)⟩
  · rintro ⟨⟨c, hc, hz⟩, hbefore⟩
    refine ⟨⟨c, by rw [← add_one_add, hc], hz.imp_right (hprec i).mp⟩, fun j hj => ?_⟩
    cases j with
    | zero => exact ⟨ch, by simpa using hch, hne, hp⟩
    | succ j =>
      obtain ⟨d, hd, hd0, hdp⟩ := hbefore j (by omega)
      exact ⟨d, by rw [← add_one_add, hd], hd0, fun h => hdp ((hprec j).mpr h)⟩

/-- The reads and the output for the first `i` characters. -/
def charEvents (rd : Word → Option Byte) (p : Word) (i : Nat) : List Event :=
  (List.range i).flatMap fun j =>
    [.read (p + BitVec.ofNat 32 j), .putch ((rd (p + BitVec.ofNat 32 j)).getD 0)]

theorem charEvents_succ {ch : Byte} (hch : rd p = some ch) :
    charEvents rd p (i + 1) = .read p :: .putch ch :: charEvents rd (p + 1#32) i := by
  simp [charEvents, List.range_succ_eq_map, List.flatMap_map, hch, add_one_add]

/-- One turn of the loop. -/
theorem putStr_succ (rd : Word → Option Byte) (p : Word) (precision width : Int) (fuel : Nat) :
    putStr rd false (fuel + 1) (.ptr p) precision width =
      match rd p with
      | none => ⟨[.read p], none⟩
      | some ch =>
        if ch = 0 ∨ precision = 0 then ⟨[.read p], some width⟩
        else
          let r := putStr rd false fuel (.ptr (p + 1#32)) (lessOne precision) (int32 (width - 1))
          ⟨.read p :: .putch ch :: r.trace, r.result⟩ := by
  cases hch : rd p with
  | none => simp [putStr, readChar, hch]
  | some ch =>
    simp only [putStr, readChar, hch, Option.map_some, bind_some, pure_eq]
    by_cases h0 : ch = 0
    · simp [h0]
    by_cases hz : precision = 0
    · simp [hz]
    · have hp : precision < 0 ∨ precision - 1 ≥ 0 := by omega
      rw [if_neg h0, if_pos hp, if_neg (not_or.mpr ⟨h0, hz⟩)]
      rfl

/-- Printing that comes to an end reads and prints the characters before it. -/
theorem putStr_stop (h : StopsAt rd p precision i) (hi : i < fuel) :
    putStr rd false fuel (.ptr p) precision width =
      ⟨charEvents rd p i ++ [.read (p + BitVec.ofNat 32 i)],
        some (if i = 0 then width else int32 (width - i))⟩ := by
  induction i generalizing p precision width fuel with
  | zero =>
    obtain ⟨fuel, rfl⟩ : ∃ f, fuel = f + 1 := ⟨fuel - 1, by omega⟩
    obtain ⟨ch, hch, hz⟩ := h.mapped
    have hch' : rd p = some ch := by simpa using hch
    have hz' : ch = 0 ∨ precision = 0 := hz
    simp only [putStr_succ, hch', if_pos hz']
    simp [charEvents]
  | succ i ih =>
    obtain ⟨fuel, rfl⟩ : ∃ f, fuel = f + 1 := ⟨fuel - 1, by omega⟩
    obtain ⟨ch, hch, hne, hp⟩ := h.before 0 (by omega)
    have hch' : rd p = some ch := by simpa using hch
    have hp' : precision ≠ 0 := by simpa using hp
    rw [putStr_succ, hch', charEvents_succ hch']
    simp only [hne, hp', or_self, if_false, ih ((stopsAt_succ hch' hne hp').mp h)
      (by omega : i < fuel), add_one_add]
    refine Print.ext (by simp) (congrArg some ?_)
    rw [if_neg i.succ_ne_zero]
    simp only [int32_eq]
    push_cast
    split_ifs <;> omega

/-- Without an end there is no result. -/
theorem ends_of_putStr (h : (putStr rd false fuel (.ptr p) precision width).result.isSome) :
    Ends rd p precision := by
  induction fuel generalizing p precision width with
  | zero => simp [putStr] at h
  | succ fuel ih =>
    rw [putStr_succ] at h
    cases hch : rd p with
    | none => simp [hch] at h
    | some ch =>
      by_cases hstop : ch = 0 ∨ precision = 0
      · exact ⟨0, ⟨ch, by simpa using hch, by simpa using hstop⟩, nofun⟩
      · simp only [hch, hstop, if_false] at h
        obtain ⟨i, hi⟩ := ih h
        exact ⟨i + 1, (stopsAt_succ hch (fun h => hstop (.inl h)) fun h => hstop (.inr h)).mpr hi⟩

/-- Printing ends before it gets round all of memory. -/
theorem StopsAt.lt (h : StopsAt rd p precision i) (hp : precision < 2 ^ 31) : i < 2 ^ 32 := by
  by_contra hge
  obtain ⟨j, rfl⟩ : ∃ j, i = j + 2 ^ 32 := ⟨i - 2 ^ 32, by omega⟩
  obtain ⟨ch, hch, hz | hz⟩ := h.mapped
  · obtain ⟨d, hd, hd0, -⟩ := h.before j (by omega)
    have hsame : BitVec.ofNat 32 (j + 2 ^ 32) = BitVec.ofNat 32 j := by
      apply BitVec.eq_of_toNat_eq
      rw [BitVec.toNat_ofNat, BitVec.toNat_ofNat, Nat.add_mod_right]
    rw [← hsame, hch] at hd
    cases hd
    exact hd0 hz
  · push_cast at hz
    omega

end PutStr

/-! ## Numbers -/

def digit (d : Nat) : Byte := chr (("0123456789abcdef".toList).getD d '0')

/-- `printnum`. A number has at most 64 digits. -/
def printnum (base : Nat) (padc : Byte) : Nat → Nat → Int → List Byte
  | 0, _, _ => []
  | fuel + 1, num, width =>
    (if num ≥ base then printnum base padc fuel (num / base) (int32 (width - 1))
      else List.replicate (int32 (width - 1)).toNat padc) ++ [digit (num % base)]

/-- The next argument; what lies beyond the last one is not specified. -/
def vaArg (ap : List Word) : Word × List Word := (ap.headD 0, ap.tail)

def getuint (ap : List Word) (lflag : Int) : BitVec 64 × List Word :=
  let (lo, ap) := vaArg ap
  if lflag ≥ 2 then
    let (hi, ap) := vaArg ap
    (hi ++ lo, ap)
  else (lo.zeroExtend 64, ap)

def getint (ap : List Word) (lflag : Int) : BitVec 64 × List Word :=
  let (lo, ap) := vaArg ap
  if lflag ≥ 2 then
    let (hi, ap) := vaArg ap
    (hi ++ lo, ap)
  else (lo.signExtend 64, ap)

/-! ## Conversions -/

/-- The local variables of `vprintfmt` that describe a conversion. -/
structure Spec where
  padc : Byte
  width : Int
  precision : Int
  lflag : Int
  altflag : Bool

def Spec.init : Spec := ⟨chr ' ', -1, -1, 0, false⟩

/-- The label `process_precision`. -/
def Spec.processPrecision (s : Spec) : Spec :=
  if s.width < 0 then { s with width := s.precision, precision := -1 } else s

def isDigit (ch : Byte) : Bool := 48 ≤ ch.toNat && ch.toNat ≤ 57

/-- The flags, width and precision of a conversion up to its character, which is missing at the
end of the format. `num` is a number that is being read. -/
def parseSpec (s : Spec) (num : Option Int) (ap : List Word) :
    List Byte → Spec × Option Byte × List Byte × List Word
  | [] => (match num with
      | some v => { s with precision := v }.processPrecision
      | none => s, none, [], ap)
  | ch :: fmt =>
    match num, isDigit ch with
    | some v, true => parseSpec s (some (int32 (v * 10 + (ch.toNat - 48)))) ap fmt
    | num, _ =>
      let s := match num with
        | some v => { s with precision := v }.processPrecision
        | none => s
      if ch = chr '-' then parseSpec { s with padc := chr '-' } none ap fmt
      else if ch = chr '0' then parseSpec { s with padc := chr '0' } none ap fmt
      else if isDigit ch then parseSpec s (some (ch.toNat - 48)) ap fmt
      else if ch = chr '*' then
        let (v, ap) := vaArg ap
        parseSpec { s with precision := v.toInt }.processPrecision none ap fmt
      else if ch = chr '.' then
        parseSpec (if s.width < 0 then { s with width := 0 } else s) none ap fmt
      else if ch = chr '#' then parseSpec { s with altflag := true } none ap fmt
      else if ch = chr 'l' then parseSpec { s with lflag := int32 (s.lflag + 1) } none ap fmt
      else (s, some ch, fmt, ap)

def errorString : Nat → Option String
  | 1 => some "unspecified error"
  | 2 => some "bad environment"
  | 3 => some "invalid parameter"
  | 4 => some "out of memory"
  | 5 => some "out of environments"
  | 6 => some "segmentation fault"
  | 8 => some "env is not recving"
  | 9 => some "unexpected end of file"
  | _ => none

/-- A number with the given digits' base. -/
def putNumber (s : Spec) (num : BitVec 64) (base : Nat) : Print Unit :=
  putchs (printnum base s.padc 64 num.toNat s.width)

/-- `%s`. -/
def putString (rd : Word → Option Byte) (s : Spec) (p : StrPtr) : Print Unit := do
  let width ← if s.width > 0 ∧ s.padc ≠ chr '-' then do
      let len ← strnlen rd p (BitVec.ofInt 32 s.precision).toNat
      putchs (List.replicate (int32 (s.width - len)).toNat s.padc)
      pure (min (int32 (s.width - len)) 0)
    else pure s.width
  let width ← putStr rd s.altflag allAddrs p s.precision width
  putchs (List.replicate width.toNat (chr ' '))

/-- The signed conversion `%d`. -/
def putInt (s : Spec) (num : BitVec 64) : Print Unit :=
  if num.toInt < 0 then do
    putch (chr '-')
    putNumber s (-num) 10
  else putNumber s num 10

/-- The conversion for a character; `none` when the character is not known. -/
def convert (rd : Word → Option Byte) (s : Spec) (ch : Byte) (ap : List Word) :
    Option (Print Unit × List Word) :=
  if ch = chr 'c' then
    let (v, ap) := vaArg ap
    some (putch (v.setWidth 8), ap)
  else if ch = chr 'e' then
    let (v, ap) := vaArg ap
    some (match errorString v.toInt.natAbs with
      | some p => putString rd .init (.const (str p))
      | none => do
        putchs (str "error ")
        putInt .init ((if v.toInt < 0 then -v else v).signExtend 64), ap)
  else if ch = chr 's' then
    let (p, ap) := vaArg ap
    some (putString rd s (if p = 0 then .const (str "(null)") else .ptr p), ap)
  else if ch = chr 'd' then
    let (num, ap) := getint ap s.lflag
    some (putInt s num, ap)
  else if ch = chr 'u' then
    let (num, ap) := getuint ap s.lflag
    some (putNumber s num 10, ap)
  else if ch = chr 'o' then
    let (num, ap) := getuint ap s.lflag
    some (putNumber s num 8, ap)
  else if ch = chr 'p' then
    let (p, ap) := vaArg ap
    some (do
      putchs (str "0x")
      putNumber s (p.zeroExtend 64) 16, ap)
  else if ch = chr 'x' then
    let (num, ap) := getuint ap s.lflag
    some (putNumber s num 16, ap)
  else if ch = chr 'r' then
    let (_, ap) := getint ap s.lflag
    some (pure (), ap)
  else if ch = chr '%' then some (putch ch, ap)
  else none

/-- `vprintfmt`, for a format of at most `N` characters. After an unknown conversion it goes on
just behind the `%`. -/
def vprintfmtLoop (rd : Word → Option Byte) : Nat → List Byte → List Word → Print Unit
  | 0, _, _ => pure ()
  | _, [], _ => pure ()
  | N + 1, ch :: fmt, ap =>
    if ch = chr '%' then
      let (s, conv, rest, ap) := parseSpec .init none ap fmt
      match conv.bind fun ch => convert rd s ch ap with
      | some (out, ap) => do
        out
        vprintfmtLoop rd N rest ap
      | none => do
        putch (chr '%')
        vprintfmtLoop rd N fmt ap
    else do
      putch ch
      vprintfmtLoop rd N fmt ap

def vprintfmt (rd : Word → Option Byte) (fmt : List Byte) (ap : List Word) : Print Unit :=
  vprintfmtLoop rd fmt.length fmt ap

/-! ## Printing a buffer -/

section Buffer

variable {rd : Word → Option Byte} {s len : Word} {precision width : Int} {fuel i : Nat}

/-- A string constant is printed to its end or up to the precision. -/
theorem putStr_const (rd : Word → Option Byte) (l : List Byte) (precision width : Int)
    (h : l.length < fuel) :
    ∃ t w, putStr rd false fuel (.const l) precision width = ⟨.rodata :: t, some w⟩ := by
  induction l generalizing fuel precision width with
  | nil =>
    obtain ⟨fuel, rfl⟩ : ∃ f, fuel = f + 1 := ⟨fuel - 1, by omega⟩
    exact ⟨[], width, rfl⟩
  | cons ch l ih =>
    obtain ⟨fuel, rfl⟩ : ∃ f, fuel = f + 1 := ⟨fuel - 1, by omega⟩
    simp only [putStr, readChar, bind_some, pure_eq]
    by_cases h0 : ch = 0
    · exact ⟨[], width, by simp [h0]⟩
    by_cases hp : precision < 0 ∨ precision - 1 ≥ 0
    · obtain ⟨t, w, ht⟩ := ih (if precision < 0 then precision else precision - 1)
        (int32 (width - 1)) (Nat.lt_of_succ_lt_succ h)
      refine ⟨.putch ch :: .rodata :: t, w, ?_⟩
      rw [if_neg h0, if_pos hp, ht]
      rfl
    · exact ⟨[], width, by rw [if_neg h0, if_neg hp]; rfl⟩

theorem putString_zero_width {sp : Spec} (h : sp.width = 0) (p : StrPtr) :
    putString rd sp p = putStr rd sp.altflag allAddrs p sp.precision 0 >>=
      fun width => putchs (List.replicate width.toNat (chr ' ')) := by
  unfold putString
  rw [h, if_neg (fun h => lt_irrefl _ h.1)]
  rfl

/-- The format of `sys_cputs`. -/
theorem vprintfmt_buffer (rd : Word → Option Byte) (len s : Word) :
    vprintfmt rd (str "%.*s") [len, s] =
      putStr rd false allAddrs (if s = 0 then .const (str "(null)") else .ptr s) len.toInt 0 >>=
        fun width => putchs (List.replicate width.toNat (chr ' ')) := by
  have hfmt : str "%.*s" = [chr '%', chr '.', chr '*', chr 's'] := by decide
  have hspec : parseSpec .init none [len, s] [chr '.', chr '*', chr 's'] =
      (⟨chr ' ', 0, len.toInt, 0, false⟩, some (chr 's'), [], [s]) := rfl
  have hconv : convert rd ⟨chr ' ', 0, len.toInt, 0, false⟩ (chr 's') [s] =
      some (putString rd ⟨chr ' ', 0, len.toInt, 0, false⟩
        (if s = 0 then .const (str "(null)") else .ptr s), []) := by
    simp [convert, vaArg, show chr 's' ≠ chr 'c' by decide, show chr 's' ≠ chr 'e' by decide]
  simp only [vprintfmt, hfmt, List.length_cons, List.length_nil, vprintfmtLoop, if_true, hspec,
    Option.bind_some, hconv]
  exact (bind_pure_unit _).trans (putString_zero_width rfl _)

theorem vprintfmt_buffer_null (rd : Word → Option Byte) (len : Word) : ∃ t,
    vprintfmt rd (str "%.*s") [len, 0] = ⟨.rodata :: t, some ()⟩ := by
  obtain ⟨t, w, ht⟩ := putStr_const rd (str "(null)") len.toInt 0
    (by decide : (str "(null)").length < allAddrs)
  refine ⟨t ++ (List.replicate w.toNat (chr ' ')).map .putch, ?_⟩
  rw [vprintfmt_buffer, if_pos rfl, ht, bind_some]
  simp [putchs]

/-- Blanks follow only after more than `2 ^ 31` characters, when the width has wrapped around. -/
theorem vprintfmt_buffer_stop (hs : s ≠ 0) (h : StopsAt rd s len.toInt i) :
    vprintfmt rd (str "%.*s") [len, s] =
      ⟨charEvents rd s i ++ [.read (s + BitVec.ofNat 32 i)] ++
        (List.replicate (int32 (0 - i)).toNat (chr ' ')).map .putch, some ()⟩ := by
  have hi : i < allAddrs := Nat.lt_succ_of_lt (h.lt BitVec.toInt_lt)
  have hwidth : (if i = 0 then 0 else int32 (0 - i)) = int32 (0 - i) := by
    simp only [int32_eq]
    split_ifs <;> omega
  rw [vprintfmt_buffer, if_neg hs, putStr_stop h hi, bind_some, hwidth]
  simp [putchs]

/-- Printing a buffer comes to an end unless a byte that is not mapped is read first. -/
theorem vprintfmt_buffer_isSome (rd : Word → Option Byte) (len s : Word) :
    (vprintfmt rd (str "%.*s") [len, s]).result.isSome ↔ s = 0 ∨ Ends rd s len.toInt := by
  by_cases hs : s = 0
  · obtain ⟨t, ht⟩ := vprintfmt_buffer_null rd len
    subst hs
    simp only [ht, true_or, Option.isSome_some]
  · refine ⟨fun h => .inr ?_, ?_⟩
    · rw [vprintfmt_buffer, if_neg hs] at h
      cases hr : putStr rd false allAddrs (.ptr s) len.toInt 0 with
      | mk t r =>
        rw [hr] at h
        cases r with
        | none => simp at h
        | some w => exact ends_of_putStr (by rw [hr]; rfl)
    · rintro (h | ⟨i, h⟩)
      · exact absurd h hs
      · rw [vprintfmt_buffer_stop hs h]
        rfl

end Buffer

end JosKernel
