import JosKernel.Console.Printfmt
import JosKernel.Lib.Traced
import JosKernel.Machine.Strings

/-!
# Walking the format

`vprintfmt` with its pointer `fmt` into the format string. `s` is memory around the format, by the
distance from its first byte. The pointer does not only move on: after an escape that is no
conversion it goes back to the character behind the last `%`.
-/
namespace JosKernel

open Lib

/-- A byte of the format is read, or something is printed. -/
inductive FmtEvent where
  | fmt (i : ℤ)
  | out (e : Event)

/-- The event apart from the format. -/
def FmtEvent.out? : FmtEvent → Option Event
  | .fmt _ => none
  | .out e => some e

variable {α β : Type}

/-- `*fmt`. -/
def fetch (s : ℤ → Byte) (fmt : ℤ) : Traced FmtEvent Byte := ⟨[.fmt fmt], some (s fmt)⟩

def printing (x : Print α) : Traced FmtEvent α := ⟨x.trace.map .out, x.result⟩

/-- The loop that reads a number, from its first digit `ch` on; `fmt` points behind it. -/
def readNumber (s : ℤ → Byte) : Nat → ℤ → Byte → Int → Traced FmtEvent (Int × ℤ)
  | 0, _, _, _ => .stuck
  | fuel + 1, fmt, ch, precision => do
    let precision := int32 (precision * 10 + (ch.toNat - 48))
    let ch ← fetch s fmt
    if isDigit ch then readNumber s fuel (fmt + 1) ch precision
    else pure (precision, fmt)

/-- The label `reswitch`, up to the character that is no flag, width or precision. -/
def reswitch (s : ℤ → Byte) : Nat → Spec → ℤ → List Word →
    Traced FmtEvent (Spec × Byte × ℤ × List Word)
  | 0, _, _, _ => .stuck
  | fuel + 1, sp, fmt, ap => do
    let ch ← fetch s fmt
    let fmt := fmt + 1
    if ch = chr '-' then reswitch s fuel { sp with padc := chr '-' } fmt ap
    else if ch = chr '0' then reswitch s fuel { sp with padc := chr '0' } fmt ap
    else if isDigit ch then do
      let (precision, fmt) ← readNumber s fuel fmt ch 0
      reswitch s fuel { sp with precision := precision }.processPrecision fmt ap
    else if ch = chr '*' then
      let (v, ap) := vaArg ap
      reswitch s fuel { sp with precision := v.toInt }.processPrecision fmt ap
    else if ch = chr '.' then
      reswitch s fuel (if sp.width < 0 then { sp with width := 0 } else sp) fmt ap
    else if ch = chr '#' then reswitch s fuel { sp with altflag := true } fmt ap
    else if ch = chr 'l' then reswitch s fuel { sp with lflag := int32 (sp.lflag + 1) } fmt ap
    else pure (sp, ch, fmt, ap)

/-- The loop `for (...; fmt[-1] != '%'; fmt--)`. -/
def rewind (s : ℤ → Byte) : Nat → ℤ → Traced FmtEvent ℤ
  | 0, _ => .stuck
  | fuel + 1, fmt => do
    let ch ← fetch s (fmt - 1)
    if ch ≠ chr '%' then rewind s fuel (fmt - 1) else pure fmt

/-- `vprintfmt`, with `fmt` where the main loop has got to. -/
def vprintfmtAt (rd : Word → Option Byte) (s : ℤ → Byte) : Nat → ℤ → List Word →
    Traced FmtEvent Unit
  | 0, _, _ => .stuck
  | fuel + 1, fmt, ap => do
    let ch ← fetch s fmt
    let fmt := fmt + 1
    if ch ≠ chr '%' then
      if ch = 0 then pure ()
      else do
        printing (Print.putch ch)
        vprintfmtAt rd s fuel fmt ap
    else do
      let (sp, ch, fmt, ap) ← reswitch s fuel .init fmt ap
      match convert rd sp ch ap with
      | some (out, ap) => do
        printing out
        vprintfmtAt rd s fuel fmt ap
      | none => do
        printing (Print.putch (chr '%'))
        let fmt ← rewind s fuel (fmt - 1)
        vprintfmtAt rd s fuel fmt ap

/-! ## What is read and printed -/

/-- The format is read from its first byte up to the terminating one only. Apart from that `x` does
what `y` does. -/
structure Follows (len : Nat) (x : Traced FmtEvent α) (y : Print α) : Prop where
  reads : ∀ i : ℤ, .fmt i ∈ x.trace → 0 ≤ i ∧ i ≤ len
  trace : x.trace.filterMap FmtEvent.out? = y.trace
  result : x.result = y.result

variable {rd : Word → Option Byte} {s : ℤ → Byte} {len fuel N : Nat} {fmt : List Byte} {k j : ℤ}
  {ap : List Word} {sp : Spec} {ch : Byte}

namespace Follows

variable {x : Traced FmtEvent α} {y : Print α} {f : α → Traced FmtEvent β} {g : α → Print β}
  {z : Print β} {a : α}

theorem pure (a : α) : Follows len (pure a) (pure a) := ⟨by simp, rfl, rfl⟩

theorem fetch (h : 0 ≤ k) (hk : k ≤ len) : Follows len (fetch s k) (Pure.pure (s k)) := by
  refine ⟨fun i hi => ?_, rfl, rfl⟩
  obtain rfl : i = k := by simpa [JosKernel.fetch] using hi
  exact ⟨h, hk⟩

theorem printing (y : Print α) : Follows len (printing y) y := by
  refine ⟨fun i hi => ?_, ?_, rfl⟩
  · simp [JosKernel.printing] at hi
  · simp [JosKernel.printing, FmtEvent.out?, List.filterMap_map, Function.comp_def]

theorem bind (hx : Follows len x y) (hf : ∀ a, y.result = some a → Follows len (f a) (g a)) :
    Follows len (x >>= f) (y >>= g) := by
  obtain ⟨t, r⟩ := x
  obtain ⟨u, r'⟩ := y
  obtain ⟨hreads, rfl, rfl⟩ := hx
  cases r with
  | none => exact ⟨hreads, rfl, rfl⟩
  | some a =>
    obtain ⟨hreads', htrace, hresult⟩ := hf a rfl
    refine ⟨fun i hi => ?_, ?_, hresult⟩
    · rcases List.mem_append.mp hi with hi | hi
      · exact hreads i hi
      · exact hreads' i hi
    · simp [htrace]

theorem pure_bind (hx : Follows len x (Pure.pure a)) (hf : Follows len (f a) z) :
    Follows len (x >>= f) z := by
  have hz : z = (Pure.pure a >>= fun _ => z) := rfl
  rw [hz]
  apply hx.bind
  intro a' ha'
  cases ha'
  exact hf

end Follows

/-! ## The escapes -/

/-- Reading the number stops at the first character that is no digit. -/
theorem readNumber_follows (h : HoldsAt s k fmt) (hk : 0 ≤ k) (hlen : k + fmt.length = len)
    (hf : fmt.length < fuel) (ch : Byte) (v : Int) :
    ∃ v' digits rest, fmt = digits ++ rest ∧ chr '%' ∉ digits ∧
      Follows len (readNumber s fuel k ch v) (pure (v', k + digits.length)) ∧
      ∀ sp ap, parseSpec sp (some (int32 (v * 10 + (ch.toNat - 48)))) ap fmt =
        parseSpec { sp with precision := v' }.processPrecision none ap rest := by
  induction fmt generalizing k fuel ch v with
  | nil =>
    obtain ⟨fuel, rfl⟩ : ∃ f, fuel = f + 1 := ⟨fuel - 1, by omega⟩
    refine ⟨_, [], [], rfl, List.not_mem_nil, ?_, fun sp ap => rfl⟩
    apply (Follows.fetch hk (by omega)).pure_bind
    have hzero : s k = 0 := h
    rw [hzero, if_neg (by decide)]
    simpa using Follows.pure _
  | cons c fmt ih =>
    obtain ⟨fuel, rfl⟩ : ∃ f, fuel = f + 1 := ⟨fuel - 1, by omega⟩
    rw [List.length_cons] at hlen hf
    push_cast at hlen
    have hf' : fmt.length < fuel := by omega
    obtain ⟨hc, -, htail⟩ := h
    cases hdigit : isDigit c with
    | true =>
      obtain ⟨v', digits, rest, rfl, hpct, hfollows, hparse⟩ := ih htail (by omega) (by omega)
        hf' c (int32 (v * 10 + (ch.toNat - 48)))
      refine ⟨v', c :: digits, rest, rfl, ?_, ?_, fun sp ap => ?_⟩
      · rw [List.mem_cons, not_or]
        refine ⟨?_, hpct⟩
        rintro rfl
        exact absurd hdigit (by decide)
      · apply (Follows.fetch hk (by omega)).pure_bind
        rw [hc, if_pos hdigit, length_behind]
        exact hfollows
      · rw [← hparse]
        simp only [parseSpec, hdigit]
    | false =>
      refine ⟨int32 (v * 10 + (ch.toNat - 48)), [], c :: fmt, rfl, List.not_mem_nil, ?_,
        fun sp ap => ?_⟩
      · apply (Follows.fetch hk (by omega)).pure_bind
        rw [hc, hdigit, if_neg Bool.false_ne_true]
        simpa using Follows.pure _
      · simp only [parseSpec, hdigit]

/-- `x` reads what has been parsed of `fmt`. At the end of the format it comes upon the zero byte,
behind which the pointer is then. -/
structure Escape (len : Nat) (k : ℤ) (fmt : List Byte)
    (x : Traced FmtEvent (Spec × Byte × ℤ × List Word))
    (parsed : Spec × Option Byte × List Byte × List Word) (flags : List Byte) : Prop where
  text : fmt = flags ++ parsed.2.1.toList ++ parsed.2.2.1
  noPercent : chr '%' ∉ flags
  cutOff : parsed.2.1 = none → parsed.2.2.1 = []
  follows : Follows len x (pure (parsed.1, parsed.2.1.getD 0, k + flags.length + 1, parsed.2.2.2))

section
variable {x x' : Traced FmtEvent (Spec × Byte × ℤ × List Word)}
  {parsed : Spec × Option Byte × List Byte × List Word} {flags : List Byte}

theorem Escape.cons {c : Byte} (h : Escape len (k + 1) fmt x parsed flags) (hc : c ≠ chr '%')
    (hx : ∀ y, Follows len x y → Follows len x' y) :
    Escape len k (c :: fmt) x' parsed (c :: flags) where
  text := by rw [h.text]; simp
  noPercent := by
    rw [List.mem_cons, not_or]
    exact ⟨hc.symm, h.noPercent⟩
  cutOff := h.cutOff
  follows := by
    rw [length_behind]
    exact hx _ h.follows

/-- The digits of a number come before the escape. -/
theorem Escape.append {digits : List Byte} (h : Escape len (k + digits.length) fmt x parsed flags)
    (hd : chr '%' ∉ digits) (hx : ∀ y, Follows len x y → Follows len x' y) :
    Escape len k (digits ++ fmt) x' parsed (digits ++ flags) where
  text := by rw [h.text]; simp
  noPercent := by
    rw [List.mem_append, not_or]
    exact ⟨hd, h.noPercent⟩
  cutOff := h.cutOff
  follows := by
    rw [List.length_append]
    push_cast
    rw [← add_assoc]
    exact hx _ h.follows

end

theorem reswitch_escape (h : HoldsAt s k fmt) (hk : 0 ≤ k) (hlen : k + fmt.length = len)
    (hf : fmt.length < fuel) (sp : Spec) (ap : List Word) :
    ∃ flags, Escape len k fmt (reswitch s fuel sp k ap) (parseSpec sp none ap fmt) flags := by
  induction fuel generalizing k fmt sp ap with
  | zero => omega
  | succ fuel ih =>
    cases fmt with
    | nil =>
      refine ⟨[], rfl, List.not_mem_nil, fun _ => rfl, ?_⟩
      apply (Follows.fetch hk (by omega)).pure_bind
      have hzero : s k = 0 := h
      rw [hzero]
      -- the zero byte is none of the flags
      iterate 7 rw [if_neg (by decide)]
      simpa [parseSpec] using Follows.pure _
    | cons c fmt =>
      rw [length_behind] at hlen
      rw [List.length_cons] at hf
      obtain ⟨hc, -, htail⟩ := h
      have hread : ∀ {f : Byte → Traced FmtEvent (Spec × Byte × ℤ × List Word)} {y},
          Follows len (f c) y → Follows len (fetch s k >>= f) y := by
        intro f y hfy
        exact (Follows.fetch hk (by omega)).pure_bind (hc ▸ hfy)
      have ih' := ih htail (by omega) hlen (by omega)
      have hflag : ∀ {f : Byte → Traced FmtEvent (Spec × Byte × ℤ × List Word)} (sp' : Spec)
          (ap' : List Word), c ≠ chr '%' → f c = reswitch s fuel sp' (k + 1) ap' →
          ∃ flags, Escape len k (c :: fmt) (fetch s k >>= f) (parseSpec sp' none ap' fmt)
            flags := by
        intro f sp' ap' hpct hfc
        obtain ⟨flags, hflags⟩ := ih' sp' ap'
        exact ⟨c :: flags, hflags.cons hpct fun y hy => hread (hfc ▸ hy)⟩
      simp only [parseSpec]
      split_ifs with hminus hzero hdigit hstar hdot hwidth hhash hl
      · exact hflag _ _ (hminus ▸ by decide) (by rw [if_pos hminus])
      · exact hflag _ _ (hzero ▸ by decide) (by rw [if_neg hminus, if_pos hzero])
      · obtain ⟨v, digits, rest, rfl, hpct, hnum, hparse⟩ :=
          readNumber_follows htail (by omega) hlen (by omega : fmt.length < fuel) c 0
        have hlen' := hlen
        rw [List.length_append] at hlen' hf
        push_cast at hlen'
        obtain ⟨flags, hflags⟩ := ih htail.append (by omega) (by omega) (by omega)
          { sp with precision := v }.processPrecision ap
        have hstart : int32 (0 * 10 + (c.toNat - 48)) = c.toNat - 48 := by
          rw [int32_of_range] <;> omega
        rw [← hstart, hparse]
        refine ⟨c :: (digits ++ flags), (hflags.append hpct fun y hy => hy).cons ?_ fun y hy => ?_⟩
        · rintro rfl
          exact absurd hdigit (by decide)
        · apply hread
          rw [if_neg hminus, if_neg hzero, if_pos hdigit]
          exact hnum.pure_bind hy
      · exact hflag _ _ (hstar ▸ by decide)
          (by rw [if_neg hminus, if_neg hzero, if_neg hdigit, if_pos hstar])
      · exact hflag _ _ (hdot ▸ by decide) (by rw [if_neg hminus, if_neg hzero,
          if_neg hdigit, if_neg hstar, if_pos hdot, if_pos hwidth])
      · exact hflag _ _ (hdot ▸ by decide) (by rw [if_neg hminus, if_neg hzero,
          if_neg hdigit, if_neg hstar, if_pos hdot, if_neg hwidth])
      · exact hflag _ _ (hhash ▸ by decide) (by rw [if_neg hminus, if_neg hzero,
          if_neg hdigit, if_neg hstar, if_neg hdot, if_pos hhash])
      · exact hflag _ _ (hl ▸ by decide) (by rw [if_neg hminus, if_neg hzero,
          if_neg hdigit, if_neg hstar, if_neg hdot, if_neg hhash, if_pos hl])
      · refine ⟨[], rfl, List.not_mem_nil, nofun, hread ?_⟩
        rw [if_neg hminus, if_neg hzero, if_neg hdigit, if_neg hstar, if_neg hdot,
          if_neg hhash, if_neg hl]
        simpa using Follows.pure _

/-- The pointer goes back over the flags, to the character behind the `%`. -/
theorem rewind_follows (hpct : s (k - 1) = chr '%') (hflags : ∀ i, k ≤ i → i < j → s i ≠ chr '%')
    (hk : 1 ≤ k) (hkj : k ≤ j) (hj : j ≤ len + 1) (hf : (j - k).toNat < fuel) :
    Follows len (rewind s fuel j) (pure k) := by
  induction fuel generalizing j with
  | zero => omega
  | succ fuel ih =>
    apply (Follows.fetch (by omega) (by omega)).pure_bind
    rcases eq_or_lt_of_le hkj with rfl | hlt
    · rw [if_neg (not_not.mpr hpct)]
      exact .pure _
    · rw [if_pos (hflags (j - 1) (by omega) (by omega))]
      exact ih (fun i hi hij => hflags i hi (by omega)) (by omega) (by omega) (by omega)

/-- The zero byte is no conversion. -/
theorem convert_zero (rd : Word → Option Byte) (sp : Spec) (ap : List Word) :
    convert rd sp 0 ap = none := by
  unfold convert
  iterate 10 rw [if_neg (by decide)]

theorem convert_percent (rd : Word → Option Byte) (sp : Spec) (ap : List Word) :
    convert rd sp (chr '%') ap = some (Print.putch (chr '%'), ap) := by
  unfold convert
  iterate 9 rw [if_neg (by decide)]
  rw [if_pos rfl]

/-- The character that is read at the end of an escape decides about the conversion. -/
theorem convert_getD (rd : Word → Option Byte) (sp : Spec) (conv : Option Byte) (ap : List Word) :
    convert rd sp (conv.getD 0) ap = conv.bind fun ch => convert rd sp ch ap := by
  cases conv with
  | none => exact convert_zero rd sp ap
  | some ch => rfl

/-- The walk prints what the format says. -/
theorem vprintfmtAt_follows (h : HoldsAt s k fmt) (hk : 0 ≤ k) (hlen : k + fmt.length = len)
    (hf : fmt.length + 1 < fuel) (hN : fmt.length ≤ N) (ap : List Word) :
    Follows len (vprintfmtAt rd s fuel k ap) (vprintfmtLoop rd N fmt ap) := by
  induction fuel generalizing N k fmt ap with
  | zero => omega
  | succ fuel ih =>
    rw [vprintfmtAt]
    cases fmt with
    | nil =>
      have hend : vprintfmtLoop rd N [] ap = pure () := by cases N <;> rfl
      have hzero : s k = 0 := h
      rw [hend]
      apply (Follows.fetch hk (by omega)).pure_bind
      rw [hzero, if_pos (by decide), if_pos rfl]
      exact .pure _
    | cons c fmt =>
      obtain ⟨N, rfl⟩ : ∃ N', N = N' + 1 := ⟨N - 1, by rw [List.length_cons] at hN; omega⟩
      rw [length_behind] at hlen
      rw [List.length_cons] at hf hN
      obtain ⟨hc, hne, htail⟩ := h
      have hnext : ∀ ap,
          Follows len (vprintfmtAt rd s fuel (k + 1) ap) (vprintfmtLoop rd N fmt ap) :=
        fun ap => ih htail (by omega) hlen (by omega) (by omega) ap
      rw [vprintfmtLoop]
      apply (Follows.fetch hk (by omega)).pure_bind
      rw [hc]
      by_cases hpct : c = chr '%'
      · rw [if_pos hpct, if_neg (not_not.mpr hpct)]
        obtain ⟨flags, hesc⟩ := reswitch_escape htail (by omega) hlen (by omega : fmt.length < fuel)
          .init ap
        generalize parseSpec .init none ap fmt = parsed at hesc ⊢
        obtain ⟨sp, conv, rest, ap'⟩ := parsed
        apply hesc.follows.pure_bind
        dsimp only
        rw [convert_getD]
        have htext := hesc.text
        dsimp only at htext
        cases hconv : conv.bind fun ch => convert rd sp ch ap' with
        | some r =>
          obtain ⟨out, ap''⟩ := r
          apply (Follows.printing out).bind
          intro _ _
          cases conv with
          | none => cases hconv
          | some ch =>
            have hrest : HoldsAt s (k + 1 + flags.length + 1) rest := by
              rw [htext] at htail
              have happ := htail.append
              rw [Option.toList_some, List.length_append, List.length_singleton] at happ
              push_cast at happ
              rwa [← add_assoc] at happ
            have hcount : fmt.length = flags.length + (rest.length + 1) := by
              rw [htext]
              simp
            exact ih hrest (by omega) (by omega) (by omega) (by omega) ap''
        | none =>
          apply (Follows.printing _).bind
          intro _ _
          have hcount : flags.length ≤ fmt.length := by
            rw [htext]
            simp
          rw [htext, List.append_assoc] at htail
          have hrewind : Follows len (rewind s fuel (k + 1 + flags.length + 1 - 1))
              (pure (k + 1)) := by
            apply rewind_follows
            · rw [add_sub_cancel_right, hc, hpct]
            · exact fun i hi hi' => htail.ne_of_not_mem hesc.noPercent hi (by omega)
            all_goals omega
          exact hrewind.pure_bind (hnext ap')
      · rw [if_neg hpct, if_pos hpct, if_neg hne]
        apply (Follows.printing _).bind
        intro _ _
        exact hnext ap

/-! ## Pieces of a format -/

open Print in
/-- What `vprintfmt` makes of the front of a format: what it prints, and the format and the
arguments that are left. Escapes that are no conversion stand for themselves. -/
inductive Piece (rd : Word → Option Byte) :
    List Byte → List Word → Print Unit → List Byte → List Word → Prop
  | char {c : Byte} {fmt : List Byte} {ap : List Word} :
    c ≠ chr '%' → Piece rd (c :: fmt) ap (putch c) fmt ap
  | conversion {fmt rest : List Byte} {ap ap₁ ap₂ : List Word} {sp : Spec} {ch : Byte}
    {out : Print Unit} :
    parseSpec .init none ap fmt = (sp, some ch, rest, ap₁) →
    convert rd sp ch ap₁ = some (out, ap₂) → Piece rd (chr '%' :: fmt) ap out rest ap₂
  | unknown {esc rest : List Byte} {ap ap₁ : List Word} {sp : Spec} {ch : Byte} :
    parseSpec .init none ap (esc ++ rest) = (sp, some ch, rest, ap₁) →
    convert rd sp ch ap₁ = none →
    Piece rd (chr '%' :: (esc ++ rest)) ap (putchs (chr '%' :: esc)) rest ap₁
  | cutOff {esc : List Byte} {ap ap₁ : List Word} {sp : Spec} :
    parseSpec .init none ap esc = (sp, none, [], ap₁) →
    Piece rd (chr '%' :: esc) ap (putchs (chr '%' :: esc)) [] ap₁

/-- `y` prints a format piece by piece. -/
inductive Prints (rd : Word → Option Byte) : List Byte → List Word → Print Unit → Prop
  | nil {ap : List Word} : Prints rd [] ap (pure ())
  | cons {fmt rest : List Byte} {ap ap' : List Word} {out y : Print Unit} :
    Piece rd fmt ap out rest ap' → Prints rd rest ap' y → Prints rd fmt ap (out >>= fun _ => y)

/-- The conversion `ch` of a format is carried out, with the arguments `ap'` left. -/
inductive Reaches (rd : Word → Option Byte) :
    List Byte → List Word → Spec → Byte → List Word → Prop
  | here {fmt rest : List Byte} {ap ap' : List Word} {sp : Spec} {ch : Byte} :
    parseSpec .init none ap fmt = (sp, some ch, rest, ap') →
    Reaches rd (chr '%' :: fmt) ap sp ch ap'
  | later {fmt rest : List Byte} {ap ap₁ ap' : List Word} {sp : Spec} {ch : Byte}
    {out : Print Unit} :
    Piece rd fmt ap out rest ap₁ → Reaches rd rest ap₁ sp ch ap' → Reaches rd fmt ap sp ch ap'

/-- The strings that are printed with `%s` come to an end. -/
def StringsEnd (rd : Word → Option Byte) (fmt : List Byte) (ap : List Word) : Prop :=
  ∀ sp ap', Reaches rd fmt ap sp (chr 's') ap' → (vaArg ap').1 ≠ 0 →
    Ends rd (vaArg ap').1 sp.precision

theorem not_reaches_nil {ap' : List Word} : ¬Reaches rd [] ap sp ch ap' := by
  intro h
  cases h with
  | later hpiece _ => cases hpiece

/-- The conversion of the first escape, or one behind it. -/
theorem Reaches.of_escape {rest : List Byte} {conv : Option Byte} {sp₁ : Spec}
    {ap₁ ap' : List Word} (hparse : parseSpec .init none ap fmt = (sp₁, conv, rest, ap₁))
    (h : Reaches rd (chr '%' :: fmt) ap sp ch ap') :
    (conv = some ch ∧ sp = sp₁ ∧ ap' = ap₁) ∨
      ∃ ap₂, Reaches rd rest ap₂ sp ch ap' := by
  cases h with
  | here hparse' =>
    cases hparse.symm.trans hparse'
    exact .inl ⟨rfl, rfl, rfl⟩
  | later hpiece h =>
    cases hpiece with
    | char hne => exact absurd rfl hne
    | conversion hparse' _ =>
      cases hparse.symm.trans hparse'
      exact .inr ⟨_, h⟩
    | unknown hparse' _ =>
      cases hparse.symm.trans hparse'
      exact .inr ⟨_, h⟩
    | cutOff _ => exact absurd h not_reaches_nil

/-- A precision is an `int`. -/
theorem parseSpec_precision {num : Option Int} (hsp : sp.precision < 2 ^ 31)
    (hnum : ∀ v, num = some v → v < 2 ^ 31) :
    (parseSpec sp num ap fmt).1.precision < 2 ^ 31 := by
  have hprocess : ∀ {sp : Spec}, sp.precision < 2 ^ 31 →
      sp.processPrecision.precision < 2 ^ 31 := by
    intro sp h
    unfold Spec.processPrecision
    split_ifs
    · exact (by decide : (-1 : Int) < 2 ^ 31)
    · exact h
  induction fmt generalizing sp num ap with
  | nil =>
    cases num with
    | none => exact hsp
    | some v => exact hprocess (hnum v rfl)
  | cons c fmt ih =>
    have hflags : ∀ sp : Spec, sp.precision < 2 ^ 31 →
        (parseSpec sp none ap (c :: fmt)).1.precision < 2 ^ 31 := by
      intro sp hsp
      have hdigit : (c.toNat : Int) - 48 < 2 ^ 31 := by omega
      simp only [parseSpec]
      split_ifs
      · exact ih hsp nofun
      · exact ih hsp nofun
      · exact ih hsp fun v hv => Option.some.inj hv ▸ hdigit
      · exact ih (hprocess BitVec.toInt_lt) nofun
      · exact ih hsp nofun
      · exact ih hsp nofun
      · exact ih hsp nofun
      · exact ih hsp nofun
      · exact hsp
    cases num with
    | none => exact hflags sp hsp
    | some v =>
      cases hdigit : isDigit c with
      | true =>
        simp only [parseSpec, hdigit]
        exact ih hsp fun v hv => Option.some.inj hv ▸ int32_lt _
      | false =>
        have hv : ({ sp with precision := v } : Spec).precision < 2 ^ 31 := hnum v rfl
        simpa only [parseSpec, hdigit] using hflags _ (hprocess hv)

theorem Reaches.precision_lt {ap' : List Word} (h : Reaches rd fmt ap sp ch ap') :
    sp.precision < 2 ^ 31 := by
  induction h with
  | @here fmt _ ap _ _ _ hparse =>
    have h : (parseSpec .init none ap fmt).1.precision < 2 ^ 31 :=
      parseSpec_precision (by decide) nofun
    rwa [hparse] at h
  | later _ _ ih => exact ih

theorem vprintfmtLoop_literal {esc rest : List Byte} (hpct : chr '%' ∉ esc)
    (hN : (esc ++ rest).length ≤ N) :
    vprintfmtLoop rd N (esc ++ rest) ap =
      (Print.putchs esc >>= fun _ => vprintfmtLoop rd (N - esc.length) rest ap) := by
  induction esc generalizing N with
  | nil => rfl
  | cons c esc ih =>
    obtain ⟨N, rfl⟩ : ∃ N', N = N' + 1 := ⟨N - 1, by simp at hN; omega⟩
    obtain ⟨hc, hesc⟩ := not_or.mp (mt List.mem_cons.mpr hpct)
    rw [List.cons_append, vprintfmtLoop, if_neg (Ne.symm hc), ih hesc (by simpa using hN)]
    simp [Print.putch, Print.putchs]

/-- The text of an escape. -/
theorem parseSpec_text (h : HoldsAt s k fmt) (hk : 0 ≤ k) (sp : Spec) (ap : List Word) :
    ∃ flags, chr '%' ∉ flags ∧
      fmt = flags ++ (parseSpec sp none ap fmt).2.1.toList ++ (parseSpec sp none ap fmt).2.2.1 ∧
      ((parseSpec sp none ap fmt).2.1 = none → (parseSpec sp none ap fmt).2.2.1 = []) := by
  have hlen : k + fmt.length = ((k.toNat + fmt.length : ℕ) : ℤ) := by omega
  obtain ⟨flags, hesc⟩ := reswitch_escape h hk hlen (Nat.lt_succ_self _) sp ap
  exact ⟨flags, hesc.noPercent, hesc.text, hesc.cutOff⟩

/-- An escape that is no conversion is printed as it stands, and printing goes on behind it. -/
theorem vprintfmtLoop_unknown {esc rest : List Byte} {conv : Option Byte} {ap₁ : List Word}
    (hparse : parseSpec .init none ap (esc ++ rest) = (sp, conv, rest, ap₁))
    (hconv : conv.bind (fun ch => convert rd sp ch ap₁) = none) (hpct : chr '%' ∉ esc)
    (hN : (esc ++ rest).length ≤ N) :
    vprintfmtLoop rd (N + 1) (chr '%' :: (esc ++ rest)) ap =
      (Print.putchs (chr '%' :: esc) >>= fun _ => vprintfmtLoop rd (N - esc.length) rest ap₁) := by
  rw [vprintfmtLoop, if_pos rfl, hparse]
  simp only [hconv]
  rw [vprintfmtLoop_literal hpct hN]
  simp [Print.putch, Print.putchs]

theorem vprintfmtLoop_prints (h : HoldsAt s k fmt) (hk : 0 ≤ k) (hN : fmt.length ≤ N)
    (ap : List Word) : Prints rd fmt ap (vprintfmtLoop rd N fmt ap) := by
  induction hn : fmt.length using Nat.strong_induction_on generalizing N k fmt ap with
  | _ n ih =>
    subst hn
    cases fmt with
    | nil =>
      have hend : vprintfmtLoop rd N [] ap = pure () := by cases N <;> rfl
      rw [hend]
      exact .nil
    | cons c fmt =>
      obtain ⟨N, rfl⟩ : ∃ N', N = N' + 1 := ⟨N - 1, by rw [List.length_cons] at hN; omega⟩
      rw [List.length_cons] at ih hN
      obtain ⟨-, -, htail⟩ := h
      by_cases hpct : c = chr '%'
      · subst hpct
        obtain ⟨flags, hflags, htext, hcut⟩ := parseSpec_text htail (by omega) .init ap
        rcases hparse : parseSpec .init none ap fmt with ⟨sp, conv, rest, ap₁⟩
        rw [hparse] at htext hcut
        dsimp only at htext hcut
        rw [htext] at htail hparse ih hN ⊢
        cases conv with
        | none =>
          obtain rfl := hcut rfl
          rw [Option.toList_none, List.append_nil] at *
          rw [vprintfmtLoop_unknown hparse rfl hflags (by omega), List.append_nil]
          rw [List.append_nil] at hparse
          refine .cons (.cutOff hparse) (ih 0 (Nat.succ_pos _) htail.append ?_ ?_ ap₁ rfl)
          · omega
          · exact Nat.zero_le _
        | some ch =>
          rw [Option.toList_some] at *
          have hrest := htail.append
          have hlt : rest.length < (flags ++ [ch] ++ rest).length + 1 := by
            simp only [List.length_append]
            omega
          cases hconv : convert rd sp ch ap₁ with
          | none =>
            have hesc : chr '%' ∉ flags ++ [ch] := by
              intro hmem
              rcases List.mem_append.mp hmem with hmem | hmem
              · exact hflags hmem
              · obtain rfl := List.mem_singleton.mp hmem
                rw [convert_percent] at hconv
                cases hconv
            rw [vprintfmtLoop_unknown hparse hconv hesc (by omega)]
            refine .cons (.unknown hparse hconv) (ih _ hlt hrest ?_ ?_ ap₁ rfl)
            · omega
            · simp only [List.length_append] at hN ⊢
              omega
          | some r =>
            obtain ⟨out, ap₂⟩ := r
            rw [vprintfmtLoop, if_pos rfl, hparse]
            simp only [Option.bind_some, hconv]
            refine .cons (.conversion hparse hconv) (ih _ hlt hrest ?_ ?_ ap₂ rfl)
            · omega
            · simp only [List.length_append] at hN
              omega
      · rw [vprintfmtLoop, if_neg hpct]
        exact .cons (.char hpct) (ih _ (Nat.lt_succ_self _) htail (by omega) (by omega) ap rfl)

/-! ## Printing comes to an end -/

theorem Print.isSome_bind {x : Print α} {f : α → Print β} (hx : x.result.isSome)
    (hf : ∀ a, (f a).result.isSome) : (x >>= f).result.isSome := by
  obtain ⟨t, r⟩ := x
  cases r with
  | none => cases hx
  | some a => exact hf a

/-- Whether odd characters are replaced does not matter for the end of a string. -/
theorem putStr_altflag (rd : Word → Option Byte) (altflag : Bool) (fuel : Nat) (p : StrPtr)
    (precision width : Int) : (putStr rd altflag fuel p precision width).result =
      (putStr rd false fuel p precision width).result := by
  induction fuel generalizing p precision width with
  | zero => rfl
  | succ fuel ih =>
    simp only [putStr]
    rcases readChar rd p with ⟨t, _ | ⟨ch, p'⟩⟩
    · rfl
    · simp only [Print.bind_some]
      split_ifs
      · rfl
      all_goals simp [Print.putch, ih]

theorem strnlen_const (rd : Word → Option Byte) (l : List Byte) (size : Nat) :
    (strnlen rd (.const l) size).result.isSome := by
  induction size generalizing l with
  | zero => rfl
  | succ size ih =>
    cases l with
    | nil => rfl
    | cons ch l =>
      simp only [strnlen, readChar, Print.bind_some]
      split_ifs
      · rfl
      · exact Print.isSome_bind (ih l) fun _ => rfl

theorem strnlen_ptr {p : Word} {size i : Nat}
    (hmap : ∀ j < i, (rd (p + BitVec.ofNat 32 j)).isSome)
    (hend : size ≤ i ∨ rd (p + BitVec.ofNat 32 i) = some 0) :
    (strnlen rd (.ptr p) size).result.isSome := by
  induction size generalizing p i with
  | zero => rfl
  | succ size ih =>
    cases i with
    | zero =>
      have hzero : rd p = some 0 := by simpa using hend
      simp [strnlen, readChar, hzero]
    | succ i =>
      obtain ⟨ch, hch⟩ := Option.isSome_iff_exists.mp (hmap 0 (Nat.succ_pos i))
      have hch : rd p = some ch := by simpa using hch
      simp only [strnlen, readChar, hch, Option.map_some, Print.bind_some]
      split_ifs
      · rfl
      · apply Print.isSome_bind _ fun _ => rfl
        have hmap' : ∀ j < i, (rd (p + 1#32 + BitVec.ofNat 32 j)).isSome := by
          intro j hj
          rw [add_one_add]
          exact hmap (j + 1) (Nat.succ_lt_succ hj)
        have hend' : size ≤ i ∨ rd (p + 1#32 + BitVec.ofNat 32 i) = some 0 := by
          rw [add_one_add]
          exact hend.imp_left Nat.le_of_succ_le_succ
        exact ih hmap' hend'

theorem putString_isSome {p : StrPtr}
    (hlen : (strnlen rd p (BitVec.ofInt 32 sp.precision).toNat).result.isSome)
    (hstr : ∀ width, (putStr rd false allAddrs p sp.precision width).result.isSome) :
    (putString rd sp p).result.isSome := by
  have hrest : ∀ width, (putStr rd sp.altflag allAddrs p sp.precision width >>= fun width =>
      Print.putchs (List.replicate width.toNat (chr ' '))).result.isSome := by
    intro width
    apply Print.isSome_bind _ fun _ => rfl
    rw [putStr_altflag]
    exact hstr width
  unfold putString
  split_ifs
  · exact Print.isSome_bind hlen fun _ => hrest _
  · exact hrest _

theorem putString_const (rd : Word → Option Byte) (sp : Spec) {l : List Byte}
    (hl : l.length < allAddrs) : (putString rd sp (.const l)).result.isSome := by
  apply putString_isSome (strnlen_const rd l _)
  intro width
  obtain ⟨t, w, hput⟩ := putStr_const rd l sp.precision width hl
  rw [hput]
  rfl

theorem putString_ptr {p : Word} (hends : Ends rd p sp.precision) (hp : sp.precision < 2 ^ 31) :
    (putString rd sp (.ptr p)).result.isSome := by
  obtain ⟨i, hi⟩ := hends
  apply putString_isSome
  · apply strnlen_ptr (i := i)
    · intro j hj
      obtain ⟨ch, hch, -⟩ := hi.before j hj
      rw [hch]
      rfl
    · obtain ⟨ch, hch, rfl | hprec⟩ := hi.mapped
      · exact .inr hch
      · refine .inl (le_of_eq ?_)
        rw [hprec, BitVec.toNat_ofInt]
        omega
  · intro width
    have hfuel : i < allAddrs := Nat.lt_succ_of_lt (hi.lt hp)
    rw [putStr_stop hi hfuel]
    rfl

theorem putInt_isSome (sp : Spec) (num : BitVec 64) : (putInt sp num).result.isSome := by
  unfold putInt
  split_ifs <;> rfl

theorem errorString_length {v : Nat} {t : String} (h : errorString v = some t) :
    (str t).length < allAddrs := by
  unfold errorString at h
  split at h <;> cases h <;> decide

/-- Only a string may have no end. -/
theorem convert_isSome {ap' : List Word} {out : Print Unit}
    (h : convert rd sp ch ap = some (out, ap'))
    (hprec : sp.precision < 2 ^ 31)
    (hstr : ch = chr 's' → (vaArg ap).1 ≠ 0 → Ends rd (vaArg ap).1 sp.precision) :
    out.result.isSome := by
  unfold convert at h
  by_cases hc : ch = chr 'c'
  · rw [if_pos hc] at h
    obtain ⟨rfl, -⟩ := Prod.mk.inj (Option.some.inj h)
    rfl
  rw [if_neg hc] at h
  by_cases he : ch = chr 'e'
  · rw [if_pos he] at h
    obtain ⟨rfl, -⟩ := Prod.mk.inj (Option.some.inj h)
    split
    · next t ht => exact putString_const rd .init (errorString_length ht)
    · exact Print.isSome_bind rfl fun _ => putInt_isSome _ _
  rw [if_neg he] at h
  by_cases hs : ch = chr 's'
  · rw [if_pos hs] at h
    obtain ⟨rfl, -⟩ := Prod.mk.inj (Option.some.inj h)
    split_ifs with hnull
    · exact putString_const rd sp (by decide)
    · exact putString_ptr (hstr hs hnull) hprec
  rw [if_neg hs] at h
  by_cases hd : ch = chr 'd'
  · rw [if_pos hd] at h
    obtain ⟨rfl, -⟩ := Prod.mk.inj (Option.some.inj h)
    exact putInt_isSome _ _
  rw [if_neg hd] at h
  -- the others print a number or a character, or nothing
  split_ifs at h <;> obtain ⟨rfl, -⟩ := Prod.mk.inj (Option.some.inj h) <;> rfl

theorem Prints.isSome {y : Print Unit} (h : Prints rd fmt ap y) (hends : StringsEnd rd fmt ap) :
    y.result.isSome := by
  induction h with
  | nil => rfl
  | cons hpiece _ ih =>
    apply Print.isSome_bind
    · cases hpiece with
      | conversion hparse hconv =>
        have hreach : Reaches rd _ _ _ _ _ := .here hparse
        apply convert_isSome hconv hreach.precision_lt
        rintro rfl
        exact hends _ _ (.here hparse)
      | _ => rfl
    · exact fun _ => ih fun sp ap' hreach => hends sp ap' (.later hpiece hreach)

/-- `vprintfmt` stays inside the format, prints it piece by piece, and comes to an end when the
strings it is to print do. -/
theorem vprintfmtAt_prints (h : HoldsAt s 0 fmt) (hf : fmt.length + 1 < fuel) (ap : List Word) :
    Follows fmt.length (vprintfmtAt rd s fuel 0 ap) (vprintfmt rd fmt ap) ∧
      Prints rd fmt ap (vprintfmt rd fmt ap) ∧
      (StringsEnd rd fmt ap → (vprintfmtAt rd s fuel 0 ap).result = some ()) := by
  have hfollows : Follows fmt.length (vprintfmtAt rd s fuel 0 ap) (vprintfmt rd fmt ap) :=
    vprintfmtAt_follows h le_rfl (zero_add _) hf le_rfl ap
  have hprints : Prints rd fmt ap (vprintfmt rd fmt ap) :=
    vprintfmtLoop_prints h le_rfl le_rfl ap
  refine ⟨hfollows, hprints, fun hends => ?_⟩
  rw [hfollows.result]
  exact Option.eq_some_of_isSome (hprints.isSome hends)

/-- An unknown escape, the empty string, and an escape that is cut off. -/
theorem vprintfmtAt_prints_odd :
    (vprintfmtAt (fun _ => some 0) (fun i => (str "%0q%s%-").getD i.toNat 0) 9 0 [7]).result =
      some () := by
  have hheld : HoldsAt (fun i => (str "%0q%s%-").getD i.toNat 0) 0 (str "%0q%s%-") := by decide
  apply (vprintfmtAt_prints hheld (by decide) [7]).2.2
  have hfmt : str "%0q%s%-" = [chr '%', chr '0', chr 'q', chr '%', chr 's', chr '%', chr '-'] := by
    decide
  rw [hfmt]
  intro sp ap' h _
  rcases h.of_escape rfl with ⟨hq, -⟩ | ⟨ap, h⟩
  · exact absurd hq (by decide)
  rcases h.of_escape rfl with ⟨-, rfl, rfl⟩ | ⟨ap, h⟩
  · exact ⟨0, ⟨0, rfl, .inl rfl⟩, nofun⟩
  rcases h.of_escape rfl with ⟨hnone, -⟩ | ⟨ap, h⟩
  · cases hnone
  · exact absurd h not_reaches_nil

end JosKernel
