import JosKernel.Console.Frontends

/-!
# Printing and parsing numbers

`strtol` of `lib/string.c` and the numbers that `vprintfmt` prints. A string is the list of its
bytes before the terminating zero byte, so a pointer to that byte is the empty list.
-/
namespace JosKernel

/-! ## Parsing -/

/-- `*s`. -/
def charAt (s : List Byte) : Byte := s.headD 0

/-- The value of a digit or letter. -/
def digitValue (ch : Byte) : Option Nat :=
  if 48 ≤ ch.toNat ∧ ch.toNat ≤ 57 then some (ch.toNat - 48)
  else if 97 ≤ ch.toNat ∧ ch.toNat ≤ 122 then some (ch.toNat - 97 + 10)
  else if 65 ≤ ch.toNat ∧ ch.toNat ≤ 90 then some (ch.toNat - 65 + 10)
  else none

/-- `while (*s == ' ' || *s == '\t') s++`. -/
def skipBlanks : List Byte → List Byte
  | [] => []
  | ch :: s => if ch = chr ' ' ∨ ch = 9 then skipBlanks s else ch :: s

/-- The digits; the value wraps around. -/
def strtolDigits (base : Nat) (val : Word) : List Byte → Word × List Byte
  | [] => (val, [])
  | ch :: s =>
    match digitValue ch with
    | none => (val, ch :: s)
    | some dig =>
      if dig ≥ base then (val, ch :: s)
      else strtolDigits base (val * BitVec.ofNat 32 base + BitVec.ofNat 32 dig) s

/-- The prefix of a hexadecimal or octal number. -/
def strtolBase (s : List Byte) (base : Nat) : List Byte × Nat :=
  if (base = 0 ∨ base = 16) ∧ charAt s = chr '0' ∧ charAt s.tail = chr 'x' then
    (s.drop 2, 16)
  else if base = 0 ∧ charAt s = chr '0' then (s.tail, 8)
  else if base = 0 then (s, 10)
  else (s, base)

/-- `strtol`: the value and `*endptr`. -/
def strtol (s : List Byte) (base : Nat) : Word × List Byte :=
  let s := skipBlanks s
  let (s, neg) :=
    if charAt s = chr '+' then (s.tail, false)
    else if charAt s = chr '-' then (s.tail, true)
    else (s, false)
  let (s, base) := strtolBase s base
  let (val, s) := strtolDigits base 0 s
  (if neg then -val else val, s)

/-! ## Conversions -/

/-- The unsigned conversions. -/
inductive Radix where
  | u
  | x
  | o

def Radix.conv : Radix → Byte
  | .u => chr 'u'
  | .x => chr 'x'
  | .o => chr 'o'

def Radix.base : Radix → Nat
  | .u => 10
  | .x => 16
  | .o => 8

theorem Radix.base_gt (r : Radix) : 1 < r.base := by
  cases r <;> decide

theorem Radix.base_le (r : Radix) : r.base ≤ 16 := by
  cases r <;> decide

/-- A number in a format. -/
def decimal (w : Nat) : List Byte := (Nat.toDigits 10 w).map chr

/-! ## Digits -/

/-- A character that `printnum` prints. -/
def IsNumeral (ch : Byte) : Prop := ∃ d < 16, ch = digit d

variable {base fuel num : Nat} {padc ch : Byte} {width : Int} {s l : List Byte}

theorem digitValue_digit {d : Nat} (h : d < 16) : digitValue (digit d) = some d := by
  interval_cases d <;> decide

theorem isNumeral_zero : IsNumeral (chr '0') := ⟨0, by decide, by decide⟩

theorem IsNumeral.plain (h : IsNumeral ch) : ch ≠ chr ' ' ∧ ch ≠ 9 ∧ ch ≠ chr '+' ∧
    ch ≠ chr '-' ∧ ch ≠ chr 'x' := by
  obtain ⟨d, hd, rfl⟩ := h
  interval_cases d <;> decide

/-- A digit that belongs to the base. -/
theorem strtolDigits_digit {d : Nat} (hd : d < base) (hbase : base ≤ 16) (val : Word) :
    strtolDigits base val (digit d :: s) =
      strtolDigits base (val * BitVec.ofNat 32 base + BitVec.ofNat 32 d) s := by
  rw [strtolDigits, digitValue_digit (hd.trans_le hbase)]
  dsimp only
  rw [if_neg (not_le.mpr hd)]

/-- What follows a string of digits is read with their value. -/
theorem strtolDigits_append {val v : Word} (h : strtolDigits base val l = (v, [])) (s : List Byte) :
    strtolDigits base val (l ++ s) = strtolDigits base v s := by
  induction l generalizing val with
  | nil =>
    cases h
    rfl
  | cons ch l ih =>
    rw [List.cons_append, strtolDigits]
    rw [strtolDigits] at h
    cases hd : digitValue ch with
    | none => simp [hd] at h
    | some d =>
      rw [hd] at h
      dsimp only at h ⊢
      split_ifs with hge
      · rw [if_pos hge] at h
        cases h
      · rw [if_neg hge] at h
        exact ih h

theorem strtolDigits_zeros (hbase : 0 < base) (hle : base ≤ 16) (k : Nat) :
    strtolDigits base 0 (List.replicate k (chr '0')) = (0, []) := by
  have hzero : chr '0' = digit 0 := by decide
  induction k with
  | zero => rfl
  | succ k ih =>
    rw [List.replicate_succ, hzero, strtolDigits_digit hbase hle, ← hzero]
    simpa using ih

/-- The padding, if there is any, is zeros: the width does not get so low that it wraps around. -/
def PadsZero (padc : Byte) (fuel : Nat) (width : Int) : Prop :=
  padc = chr '0' ∨ (fuel : Int) - 2 ^ 31 ≤ width ∧ width ≤ 1

theorem PadsZero.lessOne (h : PadsZero padc (fuel + 1) width) :
    PadsZero padc fuel (int32 (width - 1)) := by
  refine h.imp_right fun hw => ?_
  rw [int32_eq]
  push_cast at hw
  omega

/-- There is no other padding than zeros. -/
theorem PadsZero.replicate (h : PadsZero padc (fuel + 1) width) :
    padc = chr '0' ∨ (int32 (width - 1)).toNat = 0 := by
  refine h.imp_right fun hw => ?_
  rw [int32_eq]
  push_cast at hw
  omega

/-- Reading what `printnum` prints. -/
theorem strtolDigits_printnum (hbase : 1 < base) (hle : base ≤ 16) (hpad : PadsZero padc fuel width)
    (hfuel : num < 2 ^ fuel) :
    strtolDigits base 0 (printnum base padc fuel num width) = (BitVec.ofNat 32 num, []) := by
  have hend : ∀ (v : Word) (num : Nat), strtolDigits base v [digit (num % base)] =
      (v * BitVec.ofNat 32 base + BitVec.ofNat 32 (num % base), []) := by
    intro v num
    rw [strtolDigits_digit (Nat.mod_lt _ (by omega)) hle]
    rfl
  induction fuel generalizing num width with
  | zero =>
    obtain rfl : num = 0 := by omega
    rfl
  | succ fuel ih =>
    rw [printnum]
    split_ifs with hge
    · have hdiv : num / base < 2 ^ fuel := by
        rw [Nat.div_lt_iff_lt_mul (by omega)]
        rw [Nat.pow_succ] at hfuel
        exact hfuel.trans_le (Nat.mul_le_mul_left _ hbase)
      rw [strtolDigits_append (ih hpad.lessOne hdiv), hend, ← BitVec.ofNat_mul, ← BitVec.ofNat_add,
        Nat.div_add_mod']
    · have hzeros : strtolDigits base 0 (List.replicate (int32 (width - 1)).toNat padc) =
          (0, []) := by
        rcases hpad.replicate with rfl | hw
        · exact strtolDigits_zeros (by omega) hle _
        · rw [hw]
          rfl
      rw [strtolDigits_append hzeros, hend, Nat.mod_eq_of_lt (not_le.mp hge)]
      simp

/-- The characters of a number whose padding is zeros. -/
theorem isNumeral_of_mem_printnum (hbase : 0 < base) (hle : base ≤ 16)
    (hpad : PadsZero padc fuel width) (h : ch ∈ printnum base padc fuel num width) :
    IsNumeral ch := by
  induction fuel generalizing num width with
  | zero => cases h
  | succ fuel ih =>
    rw [printnum] at h
    rcases List.mem_append.mp h with h | h
    · split_ifs at h with hge
      · exact ih hpad.lessOne h
      · rw [List.mem_replicate] at h
        rcases hpad.replicate with rfl | hw
        · exact h.2 ▸ isNumeral_zero
        · exact absurd hw h.1
    · rw [List.mem_singleton] at h
      exact ⟨num % base, (Nat.mod_lt _ hbase).trans_le hle, h⟩

theorem toNat_lessOne (hw : width < 2 ^ 31) : (width - 1).toNat ≤ (int32 (width - 1)).toNat := by
  rw [int32_eq]
  omega

/-- A number fills its width. -/
theorem width_le_printnum (hfuel : num < 2 ^ fuel) (hbase : 1 < base) (hw : width < 2 ^ 31) :
    width.toNat ≤ (printnum base padc (fuel + 1) num width).length := by
  induction fuel generalizing num width with
  | zero =>
    have hless := toNat_lessOne hw
    rw [printnum, if_neg (by omega)]
    simp
    omega
  | succ fuel ih =>
    have hless := toNat_lessOne hw
    rw [printnum]
    split_ifs with hge
    · have hdiv : num / base < 2 ^ fuel := by
        rw [Nat.div_lt_iff_lt_mul (by omega)]
        rw [Nat.pow_succ] at hfuel
        exact hfuel.trans_le (Nat.mul_le_mul_left _ hbase)
      have hfront : (int32 (width - 1)).toNat ≤
          (printnum base padc (fuel + 1) (num / base) (int32 (width - 1))).length :=
        ih hdiv (int32_lt _)
      rw [List.length_append, List.length_singleton]
      omega
    · simp
      omega

/-! ## Parsing numerals -/

theorem charAt_numeral (h : ∀ ch ∈ s, IsNumeral ch) (hne : s ≠ []) : IsNumeral (charAt s) := by
  cases s with
  | nil => exact absurd rfl hne
  | cons ch s => exact h ch List.mem_cons_self

theorem skipBlanks_plain {ch : Byte} (h1 : ch ≠ chr ' ') (h2 : ch ≠ 9) (s : List Byte) :
    skipBlanks (ch :: s) = ch :: s := by
  rw [skipBlanks, if_neg (not_or.mpr ⟨h1, h2⟩)]

/-- Digits have no prefix. -/
theorem strtolBase_numeral (h : ∀ ch ∈ s, IsNumeral ch) (hbase : base ≠ 0) :
    strtolBase s base = (s, base) := by
  have hx : charAt s.tail ≠ chr 'x' := by
    cases s with
    | nil => decide
    | cons ch s =>
      cases s with
      | nil => exact (by decide : (0 : Byte) ≠ chr 'x')
      | cons ch' s => exact (h ch' (by simp)).plain.2.2.2.2
  unfold strtolBase
  rw [if_neg fun hc => hx hc.2.2, if_neg fun hc => hbase hc.1, if_neg hbase]

/-- A string of digits. -/
theorem strtol_numeral (h : ∀ ch ∈ s, IsNumeral ch) (hne : s ≠ []) (hbase : base ≠ 0) :
    strtol s base = strtolDigits base 0 s := by
  obtain ⟨hsp, htab, hplus, hminus, -⟩ := (charAt_numeral h hne).plain
  have hskip : skipBlanks s = s := by
    cases s with
    | nil => rfl
    | cons ch s => exact skipBlanks_plain hsp htab s
  unfold strtol
  simp only [hskip, hplus, hminus, if_false, strtolBase_numeral h hbase, Bool.false_eq_true]

/-- A string of digits after a sign. -/
theorem strtol_minus (h : ∀ ch ∈ s, IsNumeral ch) (hbase : base ≠ 0) :
    strtol (chr '-' :: s) base =
      (-(strtolDigits base 0 s).1, (strtolDigits base 0 s).2) := by
  have hskip : skipBlanks (chr '-' :: s) = chr '-' :: s :=
    skipBlanks_plain (by decide) (by decide) s
  have hplus : chr '-' ≠ chr '+' := by decide
  have hminus : charAt (chr '-' :: s) = chr '-' := rfl
  unfold strtol
  simp only [hskip, hplus, hminus, if_false, if_true, List.tail_cons, strtolBase_numeral h hbase]

/-! ## Formats -/

section Formats

variable {rd : Word → Option Byte} {sp : Spec} {ap ap' : List Word} {rest : List Byte}

/-- A format that consists of one conversion, which prints fixed characters. -/
theorem formatted_conv {c : Byte} (hparse : parseSpec .init none ap rest = (sp, some c, [], ap'))
    (hconv : convert rd sp c ap' = some (Print.putchs l, [])) :
    formatted rd (chr '%' :: rest) ap = some l := by
  have hend : ∀ N, vprintfmtLoop rd N [] [] = pure () := by
    intro N
    cases N <;> rfl
  have hloop : vprintfmt rd (chr '%' :: rest) ap = ⟨l.map .putch, some ()⟩ := by
    rw [vprintfmt, List.length_cons, vprintfmtLoop, if_pos rfl]
    simp only [hparse, Option.bind_some, hconv, hend]
    simp [Print.putchs]
  rw [formatted, hloop, Option.map_some, output_putch]

theorem convert_radix (rd : Word → Option Byte) (r : Radix) (sp : Spec) (h : sp.lflag = 0)
    (v : Word) : convert rd sp r.conv [v] =
      some (Print.putchs (printnum r.base sp.padc 64 v.toNat sp.width), []) := by
  have hnum : (v.zeroExtend 64).toNat = v.toNat := by
    rw [BitVec.toNat_setWidth, Nat.mod_eq_of_lt]
    have := v.isLt
    omega
  obtain ⟨padc, width, precision, lflag, altflag⟩ := sp
  subst h
  rw [← hnum]
  cases r <;> rfl

/-- The number that an unsigned conversion prints. -/
theorem strtol_printnum (r : Radix) (hpad : PadsZero padc 64 width) (v : Word) :
    strtol (printnum r.base padc 64 v.toNat width) r.base = (v, []) := by
  have hlt := v.isLt
  have hne : printnum r.base padc 64 v.toNat width ≠ [] := by
    rw [printnum]
    exact List.append_ne_nil_of_right_ne_nil _ (List.cons_ne_nil _ _)
  have hall : ∀ ch ∈ printnum r.base padc 64 v.toNat width, IsNumeral ch := fun ch hch =>
    isNumeral_of_mem_printnum (Nat.lt_of_succ_lt r.base_gt) r.base_le hpad hch
  rw [strtol_numeral hall hne (Nat.ne_of_gt (Nat.lt_of_succ_lt r.base_gt)),
    strtolDigits_printnum r.base_gt r.base_le hpad (by omega), BitVec.ofNat_toNat,
    BitVec.setWidth_eq]

theorem isDigit_digit {d : Nat} (h : d < 10) : isDigit (digit d) = true ∧
    (digit d).toNat = 48 + d := by
  interval_cases d <;> decide

/-- Another digit of a number in the format. -/
theorem parseSpec_digit {d : Nat} (hd : d < 10) (v : Int) :
    parseSpec sp (some v) ap (digit d :: rest) =
      parseSpec sp (some (int32 (v * 10 + d))) ap rest := by
  obtain ⟨hdigit, hval⟩ := isDigit_digit hd
  rw [parseSpec]
  · simp only [hval]
    congr 4
    omega
  · exact hdigit

/-- The first digit. -/
theorem parseSpec_first {d : Nat} (hd : d < 10) (hpos : 0 < d) :
    parseSpec sp none ap (digit d :: rest) = parseSpec sp (some d) ap rest := by
  interval_cases d <;> rfl

theorem decimal_of_lt (h : num < 10) : decimal num = [digit num] := by
  rw [decimal, Nat.toDigits_of_lt_base h]
  interval_cases num <;> rfl

theorem decimal_of_le (h : 10 ≤ num) : decimal num = decimal (num / 10) ++ [digit (num % 10)] := by
  have hlast : num % 10 < 10 := Nat.mod_lt _ (by decide)
  rw [decimal, Nat.toDigits_of_base_le (by decide) h, List.map_append,
    ← Nat.toDigits_of_lt_base hlast]
  exact congrArg (decimal (num / 10) ++ ·) (decimal_of_lt hlast)

/-- A number in the format. -/
theorem parseSpec_decimal (hpos : 0 < num) :
    parseSpec sp none ap (decimal num ++ rest) = parseSpec sp (some (int32 num)) ap rest := by
  induction num using Nat.strong_induction_on generalizing rest with
  | _ num ih =>
    rcases lt_or_ge num 10 with hlt | hge
    · rw [decimal_of_lt hlt, List.singleton_append, parseSpec_first hlt hpos,
        int32_of_range (by omega) (by omega)]
    · rw [decimal_of_le hge, List.append_assoc, ih _ (by omega) (by omega), List.singleton_append,
        parseSpec_digit (Nat.mod_lt _ (by decide))]
      congr 2
      simp only [int32_eq]
      omega

/-- What the conversions print with some width. -/
theorem formatted_radix (rd : Word → Option Byte) (r : Radix) (v : Word) (hflag : sp.lflag = 0)
    (hpad : PadsZero sp.padc 64 sp.width) (hw : sp.width < 2 ^ 31)
    (hparse : parseSpec .init none ap rest = (sp, some r.conv, [], [v])) :
    ∃ s, formatted rd (chr '%' :: rest) ap = some s ∧ sp.width.toNat ≤ s.length ∧
      strtol s r.base = (v, []) := by
  have hlt := v.isLt
  exact ⟨_, formatted_conv hparse (convert_radix rd r sp hflag v),
    width_le_printnum (by omega) r.base_gt hw, strtol_printnum r hpad v⟩

theorem putchs_cons (ch : Byte) (l : List Byte) :
    (Print.putch ch >>= fun _ => Print.putchs l) = Print.putchs (ch :: l) := rfl

/-- The signed conversion. -/
theorem formatted_int (rd : Word → Option Byte) (v : Word) :
    ∃ s, formatted rd (str "%d") [v] = some s ∧ strtol s 10 = (v, []) := by
  have hlt := v.isLt
  have hparse : parseSpec .init none [v] [chr 'd'] = (.init, some (chr 'd'), [], [v]) := rfl
  have hconv : convert rd .init (chr 'd') [v] = some (putInt .init (v.signExtend 64), []) := rfl
  have hsign : (v.signExtend 64).toInt = v.toInt := BitVec.toInt_signExtend_of_le (by decide)
  have hlt' := (v.signExtend 64).isLt
  rw [BitVec.toInt_eq_toNat_cond, BitVec.toInt_eq_toNat_cond] at hsign
  by_cases hneg : (v.signExtend 64).toInt < 0
  · have hnum : (-v.signExtend 64).toNat = 2 ^ 32 - v.toNat := by
      rw [BitVec.toInt_eq_toNat_cond] at hneg
      rw [BitVec.toNat_neg]
      split_ifs at hsign hneg <;> omega
    have hput : putInt .init (v.signExtend 64) =
        Print.putchs (chr '-' :: printnum 10 (chr ' ') 64 (2 ^ 32 - v.toNat) (-1)) := by
      rw [putInt, if_pos hneg, putNumber, hnum]
      rfl
    rw [hput] at hconv
    refine ⟨_, formatted_conv hparse hconv, ?_⟩
    rw [strtol_minus (fun ch hch => isNumeral_of_mem_printnum (by decide) (by decide)
      (.inr (by decide)) hch) (by decide), strtolDigits_printnum (by decide) (by decide)
      (.inr (by decide)) (by omega)]
    congr 1
    apply BitVec.eq_of_toNat_eq
    rw [BitVec.toNat_neg, BitVec.toNat_ofNat]
    omega
  · have hnum : (v.signExtend 64).toNat = v.toNat := by
      rw [BitVec.toInt_eq_toNat_cond] at hneg
      split_ifs at hsign hneg <;> omega
    have hput : putInt .init (v.signExtend 64) =
        Print.putchs (printnum 10 (chr ' ') 64 v.toNat (-1)) := by
      rw [putInt, if_neg hneg, putNumber, hnum]
      rfl
    rw [hput] at hconv
    exact ⟨_, formatted_conv hparse hconv, strtol_printnum .u (.inr (by decide)) v⟩

/-- A width that is written in the format. -/
theorem parseSpec_width (r : Radix) (v : Word) (w : Nat) :
    ∃ sp, parseSpec .init none [v] (chr '0' :: (decimal w ++ [r.conv])) =
      (sp, some r.conv, [], [v]) ∧ sp.lflag = 0 ∧ sp.padc = chr '0' ∧
        max sp.width 0 = max (int32 w) 0 ∧ sp.width < 2 ^ 31 := by
  have hzero : ∀ rest : List Byte, parseSpec .init none [v] (chr '0' :: rest) =
      parseSpec { Spec.init with padc := chr '0' } none [v] rest := fun rest => rfl
  rcases Nat.eq_zero_or_pos w with rfl | hpos
  · refine ⟨{ Spec.init with padc := chr '0' }, ?_, rfl, rfl, by decide, by decide⟩
    cases r <;> rfl
  · refine ⟨⟨chr '0', int32 w, -1, 0, false⟩, ?_, rfl, rfl, rfl, int32_lt _⟩
    rw [hzero, parseSpec_decimal hpos]
    cases r <;> rfl

/-- Numbers that are printed are read back, and fill a width that is an `int`. -/
theorem strtol_formatted (rd : Word → Option Byte) (v : Word) :
    (∃ s, formatted rd (str "%d") [v] = some s ∧ strtol s 10 = (v, [])) ∧
    ∀ r : Radix,
      (∃ s, formatted rd [chr '%', r.conv] [v] = some s ∧ strtol s r.base = (v, [])) ∧
      (∀ w, ∃ s, formatted rd (str "%0" ++ decimal w ++ [r.conv]) [v] = some s ∧
        (w < 2 ^ 31 → w ≤ s.length) ∧ strtol s r.base = (v, [])) ∧
      ∀ w : Word, ∃ s, formatted rd (str "%0*" ++ [r.conv]) [w, v] = some s ∧
        w.toInt ≤ s.length ∧ strtol s r.base = (v, []) := by
  refine ⟨formatted_int rd v, fun r => ⟨?_, fun w => ?_, fun w => ?_⟩⟩
  · have hparse : parseSpec .init none [v] [r.conv] = (.init, some r.conv, [], [v]) := by
      cases r <;> rfl
    obtain ⟨s, hs, -, hval⟩ := formatted_radix rd r v rfl (.inr (by decide)) (by decide) hparse
    exact ⟨s, hs, hval⟩
  · obtain ⟨sp, hparse, hflag, hpad, hw, hlt⟩ := parseSpec_width r v w
    obtain ⟨s, hs, hlen, hval⟩ := formatted_radix rd r v hflag (.inl hpad) hlt hparse
    refine ⟨s, hs, fun hlow => ?_, hval⟩
    rw [int32_of_range (by omega) (by omega)] at hw
    omega
  · have hparse : parseSpec .init none [w, v] (chr '0' :: chr '*' :: [r.conv]) =
        (⟨chr '0', w.toInt, -1, 0, false⟩, some r.conv, [], [v]) := by
      cases r <;> rfl
    obtain ⟨s, hs, hlen, hval⟩ := formatted_radix rd r v rfl (.inl rfl) BitVec.toInt_lt hparse
    refine ⟨s, hs, ?_, hval⟩
    dsimp only at hlen
    omega

/-- The width `2 ^ 31 + 1` wraps around to a negative one. -/
theorem not_width_le_formatted : ¬∀ (rd : Word → Option Byte) (v : Word) (r : Radix) (w : Nat),
    ∃ s, formatted rd (str "%0" ++ decimal w ++ [r.conv]) [v] = some s ∧ w ≤ s.length := by
  intro h
  have hseven : formatted (fun _ => none) (str "%0" ++ decimal (2 ^ 31 + 1) ++ [Radix.conv .u])
      [7] = some [digit 7] := by
    decide +kernel
  obtain ⟨s, hs, hlen⟩ := h (fun _ => none) 7 .u (2 ^ 31 + 1)
  rw [hseven] at hs
  cases hs
  exact absurd hlen (by decide)

end Formats

end JosKernel
